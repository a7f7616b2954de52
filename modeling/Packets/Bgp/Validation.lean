/-
What the calls into a Loc-RIB leave of the answers its learned paths carry.

Next-hop validation compares the resolver with one cached answer for each next hop, which
originated paths share and are never validated by.
-/
import Packets.Bgp.Networks

namespace Packets

namespace LocRib

/-- A path learned from a peer. -/
def Learned (l : LocRib) (q : Prefix) (p : BgpPath) : Prop :=
  p ∈ l.pathsFor q ∧ p.peer.oid ≠ LOCAL_PEER.oid

/-- A property of every learned path's next hop and answer. -/
def Sees (l : LocRib) (P : Bytes → Bool × Nat → Prop) : Prop :=
  ∀ q p, l.Learned q p → P p.attrs.nexthop p.answer

/-- Every learned path carries the answer cached for its next hop. -/
def LearnedCached (l : LocRib) : Prop :=
  ∀ q p, l.Learned q p → p.attrs.nexthop ≠ [] → l.nhState.get? p.attrs.nexthop = some p.answer

/-- A call that takes no learned path in.  The cache is kept when `quiet`. -/
structure Fewer (quiet : Prop) (l l' : LocRib) : Prop where
  wf : l'.Wf
  afi : l'.afi = l.afi
  learned : ∀ q p, l'.Learned q p → l.Learned q p
  cached : quiet → l.LearnedCached → l'.LearnedCached

variable {quiet : Prop} {l l' l'' : LocRib}

theorem Fewer.refl (hw : l.Wf) : Fewer quiet l l := ⟨hw, rfl, fun _ _ hp => hp, fun _ hc => hc⟩

theorem Fewer.trans (h : Fewer quiet l l') (h' : Fewer quiet l' l'') : Fewer quiet l l'' where
  wf := h'.wf
  afi := h'.afi.trans h.afi
  learned q p hp := h.learned q p (h'.learned q p hp)
  cached hquiet hc := h'.cached hquiet (h.cached hquiet hc)

theorem Fewer.sees {P : Bytes → Bool × Nat → Prop} (h : Fewer quiet l l')
    (hsees : l.Sees P) : l'.Sees P :=
  fun q p hp => hsees q p (h.learned q p hp)

theorem Shrinks.fewer (hs : Shrinks l l') (hw' : l'.Wf) : Fewer quiet l l' where
  wf := hw'
  afi := hs.afi
  learned q p hp := ⟨hs.paths q p hp.1, hp.2⟩
  cached := by
    intro _ hc q p hp hnh
    obtain ⟨d, hd, hpd⟩ := mem_pathsFor.mp hp.1
    rw [hs.nhState (hw'.files hd hpd hnh)]
    exact hc q p ⟨hs.paths q p hp.1, hp.2⟩ hnh

/-- After an arrival a path is the one that arrived or one it did not replace. -/
theorem addPath_staying {peer : PeerRef} {pfx : Prefix} {a : Arrival} (hw : l.Wf)
    (hadd : l.addPath peer pfx a = some l') :
    ∀ q p, p ∈ l'.pathsFor q →
      (p.attrs = a.attrs ∧ p.peer = peer ∧ p.answer = (a.resolved, a.igpMetric)) ∨
        p ∈ l.staying peer pfx a.pathId q := by
  obtain ⟨-, -, ⟨path, hattrs, hpeer, hid, hans, -, hfor⟩, -⟩ := addPath_spec hw hadd
  intro q p hp
  rw [hfor q] at hp
  split at hp
  · rename_i hq
    rcases mem_putPath_eraseP hp with rfl | hstay
    · exact Or.inl ⟨hattrs, hpeer, hans⟩
    · rw [hpeer, hid] at hstay
      rw [staying, if_pos hq]
      exact Or.inr hstay
  · rename_i hq
    rw [staying, if_neg hq]
    exact Or.inr hp

/-- The cache after an arrival. -/
theorem addPath_learnedCached {peer : PeerRef} {pfx : Prefix} {a : Arrival} (hw : l.Wf)
    (hadd : l.addPath peer pfx a = some l') (hc : l.LearnedCached)
    (hsame : ∀ q, ∀ p ∈ l.staying peer pfx a.pathId q, p.peer.oid ≠ LOCAL_PEER.oid →
      p.attrs.nexthop ≠ [] → p.attrs.nexthop = a.attrs.nexthop →
        p.answer = (a.resolved, a.igpMetric)) : l'.LearnedCached := by
  obtain ⟨hw', -, -, hstate⟩ := addPath_spec hw hadd
  intro q p hp hnh
  obtain ⟨d, hd, hpd⟩ := mem_pathsFor.mp hp.1
  rw [hstate p.attrs.nexthop q d hnh (hw'.files hd hpd hnh)]
  rcases addPath_staying hw hadd q p hp.1 with ⟨hattrs, -, hans⟩ | hstay
  · rw [if_pos (by rw [hattrs]), hans]
  · split
    · rename_i heq
      rw [hsame q p hstay hp.2 hnh heq]
    · exact hc q p ⟨mem_of_mem_staying hstay, hp.2⟩ hnh

/-- Originating a network takes no learned path in. -/
theorem addPath_local_fewer {pfx : Prefix} {a : Arrival} (hw : l.Wf)
    (hadd : l.addPath LOCAL_PEER pfx a = some l')
    (hsame : quiet → ∀ q p, l.Learned q p → p.attrs.nexthop ≠ [] →
      p.attrs.nexthop = a.attrs.nexthop → p.answer = (a.resolved, a.igpMetric)) :
    Fewer quiet l l' where
  wf := (addPath_spec hw hadd).1
  afi := (addPath_spec hw hadd).2.1
  learned := by
    intro q p hp
    rcases addPath_staying hw hadd q p hp.1 with ⟨-, hpeer, -⟩ | hstay
    · exact absurd (by rw [hpeer]) hp.2
    · exact ⟨mem_of_mem_staying hstay, hp.2⟩
  cached := by
    intro hquiet hc
    apply addPath_learnedCached hw hadd hc
    intro q p hstay hpeer hnh heq
    exact hsame hquiet q p ⟨mem_of_mem_staying hstay, hpeer⟩ hnh heq

theorem addPath_sees {peer : PeerRef} {pfx : Prefix} {a : Arrival} {P : Bytes → Bool × Nat → Prop}
    (hw : l.Wf) (hadd : l.addPath peer pfx a = some l') (hsees : l.Sees P)
    (harrived : P a.attrs.nexthop (a.resolved, a.igpMetric)) : l'.Sees P := by
  intro q p hp
  rcases addPath_staying hw hadd q p hp.1 with ⟨hattrs, -, hans⟩ | hstay
  · rw [hattrs, hans]
    exact harrived
  · exact hsees q p ⟨mem_of_mem_staying hstay, hp.2⟩

theorem learned_revalidate (hw : l.Wf) (check : Check) {q : Prefix} {p : BgpPath}
    (hp : (l.revalidate check).Learned q p) :
    ∃ p₀, l.Learned q p₀ ∧ p = refresh check l.afi l.nhState l.nhDests.keys p₀ := by
  obtain ⟨-, -, hfor, -⟩ := revalidate_spec hw check
  obtain ⟨hmem, hpeer⟩ := hp
  rw [hfor q] at hmem
  obtain ⟨p₀, hp₀, rfl⟩ := List.mem_map.mp hmem
  refine ⟨p₀, ⟨hp₀, ?_⟩, rfl⟩
  intro hlocal
  apply hpeer
  rw [refresh]
  split
  · exact hlocal
  · exact hlocal

/-- A pass gives every learned path with a next hop the answer of the resolver, and
leaves the others. -/
theorem revalidate_learned (hw : l.Wf) (hc : l.LearnedCached) (check : Check)
    {q : Prefix} {p : BgpPath} (hp : (l.revalidate check).Learned q p) :
    (p.attrs.nexthop ≠ [] → p.answer = check l.afi p.attrs.nexthop) ∧
      (p.attrs.nexthop = [] → l.Learned q p) := by
  obtain ⟨p₀, hp₀, rfl⟩ := learned_revalidate hw check hp
  rw [refresh_attrs]
  constructor
  · intro hnh
    have hkey := nexthop_mem_keys hw hp₀.1 hnh
    by_cases hcached : l.nhState.get? p₀.attrs.nexthop = some (check l.afi p₀.attrs.nexthop)
    · rw [refresh, if_neg fun hboth => hboth.2 hcached]
      rw [hc q p₀ hp₀ hnh, Option.some.injEq] at hcached
      exact hcached
    · rw [refresh, if_pos ⟨hkey, hcached⟩]
      rfl
  · intro hnil
    have hkey : p₀.attrs.nexthop ∉ l.nhDests.keys := by
      intro hmem
      obtain ⟨dests, hdests⟩ := Dict.mem_keys_iff.mp hmem
      rw [hnil, hw.named] at hdests
      exact absurd hdests (by simp)
    rw [refresh, if_neg fun hboth => hkey hboth.1]
    exact hp₀

theorem revalidate_learnedCached (hw : l.Wf) (hc : l.LearnedCached) (check : Check) :
    (l.revalidate check).LearnedCached := by
  obtain ⟨hw', -, -, hnow⟩ := revalidate_spec hw check
  intro q p hp hnh
  obtain ⟨d, hd, hpd⟩ := mem_pathsFor.mp hp.1
  rw [(revalidate_learned hw hc check hp).1 hnh]
  exact hnow p.attrs.nexthop q d (hw'.files hd hpd hnh)

end LocRib

namespace BgpTables

variable {t t' t'' : BgpTables} {quiet : Prop}

/-- A property of the learned paths of every family. -/
def Sees (t : BgpTables) (P : Family → Bytes → Bool × Nat → Prop) : Prop :=
  ∀ af l, t.locribs.get? af = some l → l.Sees (P af)

def Caching (t : BgpTables) : Prop := ∀ af l, t.locribs.get? af = some l → l.LearnedCached

/-- Every Loc-RIB is well formed and serves its family. -/
def Serving (t : BgpTables) : Prop := ∀ af l, t.locribs.get? af = some l → l.Wf ∧ l.afi = af.1

/-- Every Loc-RIB comes from the one there was, or holds no learned path. -/
def Fewer (quiet : Prop) (t t' : BgpTables) : Prop :=
  ∀ af l', t'.locribs.get? af = some l' →
    (∃ l, t.locribs.get? af = some l ∧ LocRib.Fewer quiet l l') ∨
      (l'.Wf ∧ l'.afi = af.1 ∧ ∀ q p, ¬ l'.Learned q p)

theorem Fewer.refl (h : t.Serving) : Fewer quiet t t :=
  fun af l hl => Or.inl ⟨l, hl, LocRib.Fewer.refl (h af l hl).1⟩

theorem Fewer.trans (h : Fewer quiet t t') (h' : Fewer quiet t' t'') : Fewer quiet t t'' := by
  intro af l'' hl''
  rcases h' af l'' hl'' with ⟨l', hl', hfewer'⟩ | hbare
  · rcases h af l' hl' with ⟨l, hl, hfewer⟩ | ⟨-, hafi, hbare⟩
    · exact Or.inl ⟨l, hl, hfewer.trans hfewer'⟩
    · refine Or.inr ⟨hfewer'.wf, hfewer'.afi.trans hafi, ?_⟩
      exact fun q p hp => hbare q p (hfewer'.learned q p hp)
  · exact Or.inr hbare

theorem Fewer.serving (h : Fewer quiet t t') (hs : t.Serving) : t'.Serving := by
  intro af l' hl'
  rcases h af l' hl' with ⟨l, hl, hfewer⟩ | ⟨hw, hafi, -⟩
  · exact ⟨hfewer.wf, hfewer.afi.trans (hs af l hl).2⟩
  · exact ⟨hw, hafi⟩

theorem Fewer.sees {P : Family → Bytes → Bool × Nat → Prop} (h : Fewer quiet t t')
    (hs : t.Sees P) : t'.Sees P := by
  intro af l' hl'
  rcases h af l' hl' with ⟨l, hl, hfewer⟩ | ⟨-, -, hbare⟩
  · exact hfewer.sees (hs af l hl)
  · exact fun q p hp => absurd hp (hbare q p)

theorem Fewer.caching (h : Fewer quiet t t') (hquiet : quiet) (hs : t.Caching) :
    t'.Caching := by
  intro af l' hl'
  rcases h af l' hl' with ⟨l, hl, hfewer⟩ | ⟨-, -, hbare⟩
  · exact hfewer.cached hquiet (hs af l hl)
  · exact fun q p hp => absurd hp (hbare q p)

theorem fewer_congr (h : t.Serving) (hl : t'.locribs = t.locribs) : Fewer quiet t t' := by
  intro af l hget
  rw [hl] at hget
  exact Fewer.refl h af l hget

theorem fewer_set (h : t.Serving) {key : Family} {l l' : LocRib}
    (hl : t.locribs.get? key = some l) (hfewer : LocRib.Fewer quiet l l')
    (ht : t'.locribs = t.locribs.set key l') : Fewer quiet t t' := by
  intro af l'' hget
  rw [ht, Dict.get?_set] at hget
  split at hget
  · rename_i haf
    cases hget
    rw [haf]
    exact Or.inl ⟨l, hl, hfewer⟩
  · exact Fewer.refl h af l'' hget

theorem fewer_mapValues (h : t.Serving) {f : LocRib → LocRib}
    (hf : ∀ l, l.Wf → LocRib.Fewer quiet l (f l))
    (ht : t'.locribs = t.locribs.mapValues fun _ l => f l) : Fewer quiet t t' := by
  intro af l' hget
  rw [ht, Dict.get?_mapValues, Option.map_eq_some_iff] at hget
  obtain ⟨l, hl, rfl⟩ := hget
  exact Or.inl ⟨l, hl, hf l (h af l hl).1⟩

theorem shutdownAll_bare (h : t.Serving) (af : Family) {l' : LocRib}
    (hget : t.shutdownAll.locribs.get? af = some l') :
    l'.Wf ∧ l'.afi = af.1 ∧ ∀ q p, ¬ l'.Learned q p := by
  rw [shutdownAll, Dict.get?_mapValues, Option.map_eq_some_iff] at hget
  obtain ⟨l, hl, rfl⟩ := hget
  refine ⟨l.clear_wf, l.clear_afi.trans (h af l hl).2, ?_⟩
  rintro q p ⟨hp, -⟩
  rw [LocRib.pathsFor_clear] at hp
  exact absurd hp List.not_mem_nil

theorem rebuildLocrib_fewer (fresh : Fresh) (config : Family → BestpathConfig)
    (distances : Family → Nat × Nat) (h : t.Serving) {key : Family}
    (ht : t'.locribs = rebuildLocrib fresh config distances t.locribs key) : Fewer quiet t t' := by
  rw [rebuildLocrib] at ht
  cases hl : t.locribs.get? key with
  | none =>
    rw [hl] at ht
    intro af l' hget
    rw [ht, Dict.get?_set] at hget
    split at hget
    · rename_i haf
      cases hget
      refine Or.inr ⟨LocRib.wf_of_dests_empty rfl rfl, ?_, ?_⟩
      · rw [haf]
        rfl
      · rintro q p ⟨hp, -⟩
        exact absurd hp List.not_mem_nil
    · exact Fewer.refl h af l' hget
  | some l =>
    rw [hl] at ht
    obtain ⟨hw', hs, -⟩ := LocRib.setConfig_spec (h key l hl).1 (config key)
    exact fewer_set h hl (hs.fewer hw') ht

theorem foldl_rebuildLocrib_fewer (fresh : Fresh) (config : Family → BestpathConfig)
    (distances : Family → Nat × Nat) (families : List Family) {t : BgpTables} (h : t.Serving)
    (ht : t'.locribs = families.foldl (rebuildLocrib fresh config distances) t.locribs) :
    Fewer quiet t t' := by
  induction families generalizing t with
  | nil => exact fewer_congr h ht
  | cons key families ih =>
    have hstep : Fewer quiet t
        { t with locribs := rebuildLocrib fresh config distances t.locribs key } :=
      rebuildLocrib_fewer fresh config distances h rfl
    exact hstep.trans (ih (hstep.serving h) ht)

theorem adopt_fewer (fresh : Fresh) (h : t.Serving) (asn : Nat) (body : BgpBody) :
    Fewer quiet t (t.adopt fresh asn body) := by
  let rebuilt := { t with
    locribs := body.families.foldl (rebuildLocrib fresh
      (body.bestpathConfig asn (body.routerId.getD t.routerId)) body.distances) t.locribs }
  have hrebuilt : rebuilt.locribs = body.families.foldl (rebuildLocrib fresh
      (body.bestpathConfig asn (body.routerId.getD t.routerId)) body.distances) t.locribs :=
    rfl
  have hfewer : Fewer quiet t rebuilt := foldl_rebuildLocrib_fewer fresh _ _ _ h hrebuilt
  intro af l' hget
  have hfilter : (rebuilt.locribs.get? af).filter (fun _ => body.families.contains af) =
      some l' := (Dict.get?_filter _ _ af).symm.trans hget
  exact hfewer af l' (Option.filter_eq_some_iff.mp hfilter).1

theorem withdrawNetwork_fewer (h : t.Serving) (key : Family × String) :
    Fewer quiet t (t.withdrawNetwork key) := by
  rw [withdrawNetwork]
  cases hl : t.locribs.get? key.1 with
  | none => exact fewer_congr h rfl
  | some l =>
    cases hp : parsePrefix key.2 with
    | none => exact fewer_congr h rfl
    | some pfx =>
      obtain ⟨hw', hs⟩ := LocRib.removePath_spec (h key.1 l hl).1 LOCAL_PEER pfx 0
      exact fewer_set h hl (hs.fewer hw') rfl

theorem foldl_withdrawNetwork_fewer {gone : List (Family × String)} {t : BgpTables}
    (h : t.Serving) : Fewer quiet t (gone.foldl withdrawNetwork t) := by
  induction gone generalizing t with
  | nil => exact Fewer.refl h
  | cons key gone ih =>
    have hstep : Fewer quiet t (t.withdrawNetwork key) := withdrawNetwork_fewer h key
    exact hstep.trans (ih (hstep.serving h))

/-- The learned paths through the next hop a network is originated with carry the answer
its path is put there with. -/
def Agrees (t : BgpTables) (item : (Family × String) × Prefix × AttrSet) : Prop :=
  ∀ l, t.locribs.get? item.1.1 = some l → ∀ q p, l.Learned q p →
    p.attrs.nexthop ≠ [] → p.attrs.nexthop = item.2.2.nexthop → p.answer = (true, 0)

theorem Agrees.of_fewer {item : (Family × String) × Prefix × AttrSet}
    (h : t.Agrees item) (hfewer : Fewer quiet t t') : t'.Agrees item := by
  intro l' hl' q p hp hnh heq
  rcases hfewer item.1.1 l' hl' with ⟨l, hl, hfew⟩ | ⟨-, -, hbare⟩
  · exact h l hl q p (hfew.learned q p hp) hnh heq
  · exact absurd hp (hbare q p)

theorem originate_fewer (h : t.Serving) (now : Int) {item : (Family × String) × Prefix × AttrSet}
    (hquiet : quiet → t.networks.get? item.1 ≠ some item.2.2 → t.Agrees item) :
    Fewer quiet t (originate now t item).1 := by
  rw [originate]
  by_cases hsame : t.networks.get? item.1 = some item.2.2
  · rw [if_pos hsame]
    exact Fewer.refl h
  · rw [if_neg hsame]
    cases hl : t.locribs.get? item.1.1 with
    | none => exact Fewer.refl h
    | some l =>
      cases hadd : l.addPath LOCAL_PEER item.2.1 (localArrival now item.2.2) with
      | none =>
        simp only [hadd]
        exact Fewer.refl h
      | some l' =>
        simp only [hadd]
        apply fewer_set h hl _ rfl
        apply LocRib.addPath_local_fewer (h item.1.1 l hl).1 hadd
        intro hq
        exact hquiet hq hsame l hl

/-- What `originate` remembers of the other statements. -/
theorem networks_originate_of_ne (now : Int) (t : BgpTables)
    {item : (Family × String) × Prefix × AttrSet} {key : Family × String} (hkey : key ≠ item.1) :
    (originate now t item).1.networks.get? key = t.networks.get? key := by
  rw [originate]
  split
  · rfl
  · split
    · rfl
    · split
      · rfl
      · exact (Dict.get?_set _ _ _ _).trans (if_neg hkey)

theorem runEach_originate_fewer (now : Int) {items : List ((Family × String) × Prefix × AttrSet)}
    (hnodup : (items.map Prod.fst).Nodup) {t : BgpTables} (h : t.Serving)
    (hquiet : quiet → ∀ item ∈ items, t.networks.get? item.1 ≠ some item.2.2 → t.Agrees item) :
    Fewer quiet t (runEach (originate now) items t).1 := by
  induction items generalizing t with
  | nil => exact Fewer.refl h
  | cons item items ih =>
    rw [List.map_cons, List.nodup_cons] at hnodup
    have hstep : Fewer quiet t (originate now t item).1 :=
      originate_fewer h now fun hq => hquiet hq item List.mem_cons_self
    rw [runEach]
    split
    · rename_i t₁ heq
      rw [heq] at hstep
      exact hstep
    · rename_i t₁ heq
      have hnetworks : ∀ key, key ≠ item.1 → t₁.networks.get? key = t.networks.get? key := by
        intro key hkey
        have hother := networks_originate_of_ne now t hkey
        rw [heq] at hother
        exact hother
      rw [heq] at hstep
      apply hstep.trans
      apply ih hnodup.2 (hstep.serving h)
      intro hq item' hmem hnew
      apply (hquiet hq item' (List.mem_cons_of_mem item hmem) _).of_fewer hstep
      rw [← hnetworks]
      · exact hnew
      · intro hsame
        rw [← hsame] at hnodup
        exact hnodup.1 (List.mem_map_of_mem hmem)

theorem networks_foldl_withdrawNetwork {gone : List (Family × String)} {t : BgpTables}
    {key : Family × String} (hkey : key ∉ gone) :
    (gone.foldl withdrawNetwork t).networks.get? key = t.networks.get? key := by
  induction gone generalizing t with
  | nil => rfl
  | cons key' gone ih =>
    rw [List.mem_cons, not_or] at hkey
    exact (ih hkey.2).trans ((Dict.get?_erase _ _ _).trans (if_neg hkey.1))

theorem syncNetworks_fewer_of (h : t.Serving)
    (hquiet : quiet → ∀ item ∈ t.wanted, t.networks.get? item.1 ≠ some item.2.2 → t.Agrees item)
    (now : Int) : Fewer quiet t (t.syncNetworks now).1 := by
  have hstays : ∀ item ∈ t.wanted, item.1 ∉ t.networks.keys.filter
      (fun key => !(t.wanted.map Prod.fst).contains key) := by
    intro item hmem hgone
    rw [List.mem_filter, Bool.not_eq_true', Bool.eq_false_iff, ne_eq,
      List.contains_iff_mem] at hgone
    exact hgone.2 (List.mem_map_of_mem hmem)
  rw [syncNetworks]
  generalize t.networks.keys.filter
    (fun key => !(t.wanted.map Prod.fst).contains key) = gone at hstays
  have hwithdrawn : Fewer quiet t (gone.foldl withdrawNetwork t) := foldl_withdrawNetwork_fewer h
  apply hwithdrawn.trans
  apply runEach_originate_fewer now (nodup_wanted t) (hwithdrawn.serving h)
  intro hq item hmem hnew
  rw [networks_foldl_withdrawNetwork (hstays item hmem)] at hnew
  exact (hquiet hq item hmem hnew).of_fewer hwithdrawn

/-- While validation is on, a network is originated only with a next hop whose learned
paths carry the answer it comes with. -/
def Undisturbed (t : BgpTables) : Prop :=
  t.nextHopValidation = true → ∀ item ∈ t.wanted,
    t.networks.get? item.1 ≠ some item.2.2 → t.Agrees item

theorem syncNetworks_fewer (h : t.Serving) (hquiet : t.Undisturbed) (now : Int) :
    Fewer (t.nextHopValidation = true) t (t.syncNetworks now).1 :=
  syncNetworks_fewer_of h hquiet now

/-- The switch, the sessions' check, the marker and the resolver. -/
structure SameMode (t t' : BgpTables) : Prop where
  resolver : t'.engine.map BgpEngine.resolver = t.engine.map BgpEngine.resolver
  nextHopValidation : t'.nextHopValidation = t.nextHopValidation
  checking : t'.checking = t.checking
  nhMarker : t'.nhMarker = t.nhMarker

theorem SameMode.refl (t : BgpTables) : SameMode t t := ⟨rfl, rfl, rfl, rfl⟩

theorem SameMode.trans (h : SameMode t t') (h' : SameMode t' t'') : SameMode t t'' where
  resolver := h'.resolver.trans h.resolver
  nextHopValidation := h'.nextHopValidation.trans h.nextHopValidation
  checking := h'.checking.trans h.checking
  nhMarker := h'.nhMarker.trans h.nhMarker

theorem SameMode.checkNexthop (h : SameMode t t') : t'.checkNexthop = t.checkNexthop := by
  have hresolver := h.resolver
  funext afi nexthop
  rw [BgpTables.checkNexthop, BgpTables.checkNexthop]
  cases ht : t.engine with
  | none =>
    rw [ht, Option.map_none, Option.map_eq_none_iff] at hresolver
    rw [hresolver]
  | some engine =>
    rw [ht, Option.map_some, Option.map_eq_some_iff] at hresolver
    obtain ⟨engine', ht', hsame⟩ := hresolver
    rw [ht']
    simp only [hsame]

theorem SameMode.marker (h : SameMode t t') : t'.marker = t.marker := by
  have hresolver := h.resolver
  rw [BgpTables.marker, BgpTables.marker]
  cases ht : t.engine with
  | none =>
    rw [ht, Option.map_none, Option.map_eq_none_iff] at hresolver
    rw [hresolver]
  | some engine =>
    rw [ht, Option.map_some, Option.map_eq_some_iff] at hresolver
    obtain ⟨engine', ht', hsame⟩ := hresolver
    rw [ht']
    simp only [hsame]

theorem SameMode.started (h : SameMode t t') : t'.engine.isSome = t.engine.isSome := by
  have hresolver := congrArg Option.isSome h.resolver
  rw [Option.isSome_map, Option.isSome_map] at hresolver
  exact hresolver

theorem originate_sameMode (now : Int) (t : BgpTables)
    (item : (Family × String) × Prefix × AttrSet) : SameMode t (originate now t item).1 := by
  rw [originate]
  split
  · exact SameMode.refl t
  · split
    · exact SameMode.refl t
    · split
      · exact SameMode.refl t
      · exact ⟨rfl, rfl, rfl, rfl⟩

theorem syncNetworks_sameMode (t : BgpTables) (now : Int) : SameMode t (t.syncNetworks now).1 := by
  rw [syncNetworks]
  apply runEach_induction (motive := fun t' : BgpTables => SameMode t t')
  · intro t' item _ ht'
    exact ht'.trans (originate_sameMode now t' item)
  · generalize t.networks.keys.filter (fun key => !(t.wanted.map Prod.fst).contains key) = gone
    induction gone generalizing t with
    | nil => exact SameMode.refl t
    | cons key gone ih =>
      have hstep : SameMode t (t.withdrawNetwork key) := ⟨rfl, rfl, rfl, rfl⟩
      exact hstep.trans (ih _)

theorem resync_sameMode (t : BgpTables) (now : Int) : SameMode t (t.resync now).1 := by
  rw [resync]
  split
  · exact SameMode.refl t
  · exact syncNetworks_sameMode t now

theorem resync_fewer (h : t.Serving) (hquiet : t.Undisturbed) (now : Int) :
    Fewer (t.nextHopValidation = true) t (t.resync now).1 := by
  rw [resync]
  split
  · exact Fewer.refl h
  · exact syncNetworks_fewer h hquiet now

theorem reselect_fewer (h : t.Serving) (limit : Int) :
    Fewer quiet t { t with locribs := t.locribs.mapValues fun _ l => l.reselect limit } := by
  apply fewer_mapValues (f := fun l => l.reselect limit) h _ rfl
  intro l hw
  obtain ⟨hw', hs, -⟩ := LocRib.reselect_spec hw limit
  exact hs.fewer hw'

end BgpTables

end Packets
