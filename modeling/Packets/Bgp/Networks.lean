/-
Reconciling the originated networks.

What `_sync_networks` remembers is keyed by the text of a statement, the paths in a Loc-RIB by
the prefix the text spells.
-/
import Packets.Bgp.PeerRoutes
import Packets.Bgp.Tables

namespace Packets

namespace LocRib

/-- The name of the path of an originated network. -/
def localName : Nat × Nat := (LOCAL_PEER.oid, 0)

/-- The attributes a prefix is originated with. -/
def localAttrs (l : LocRib) (pfx : Prefix) : Option AttrSet :=
  (l.heldContent pfx localName).map PathContent.attrs

/-- A table between calls: it serves its family, and every path that is originated here
has the path identifier of one. -/
structure Hosts (l : LocRib) (afi : Nat) : Prop where
  serves : l.Serves afi
  named : ∀ {pfx name c}, l.heldContent pfx name = some c → name.1 = LOCAL_PEER.oid → name.2 = 0

theorem Hosts.of_same {l l' : LocRib} {afi : Nat} (h : l.Hosts afi) (hs : l'.Serves afi)
    (hsame : ∀ pfx name, name.1 = LOCAL_PEER.oid →
      l'.heldContent pfx name = l.heldContent pfx name) :
    l'.Hosts afi ∧ ∀ pfx, l'.localAttrs pfx = l.localAttrs pfx := by
  constructor
  · refine ⟨hs, ?_⟩
    intro pfx name c hc hname
    rw [hsame pfx name hname] at hc
    exact h.named hc hname
  · intro pfx
    rw [localAttrs, localAttrs, hsame pfx localName rfl]

theorem Hosts.reselect {l : LocRib} {afi : Nat} (h : l.Hosts afi) (limit : Int) :
    (l.reselect limit).Hosts afi ∧ ∀ pfx, (l.reselect limit).localAttrs pfx = l.localAttrs pfx := by
  obtain ⟨hindexed, hfor⟩ := reselect_indexed h.serves.indexed limit
  apply h.of_same ⟨hindexed, (reselect_spec h.serves.indexed.wf limit).2.1.afi.trans h.serves.afi⟩
  intro pfx name _
  exact heldContent_congr (fun q => by rw [hfor q]) pfx name

theorem Hosts.setConfig {l : LocRib} {afi : Nat} (h : l.Hosts afi) (config : BestpathConfig) :
    (l.setConfig config).Hosts afi ∧
      ∀ pfx, (l.setConfig config).localAttrs pfx = l.localAttrs pfx := by
  obtain ⟨hindexed, hfor⟩ := setConfig_indexed h.serves.indexed config
  apply h.of_same ⟨hindexed, (setConfig_spec h.serves.indexed.wf config).2.1.afi.trans h.serves.afi⟩
  intro pfx name _
  exact heldContent_congr (fun q => by rw [hfor q]) pfx name

theorem Hosts.revalidate {l : LocRib} {afi : Nat} (h : l.Hosts afi) (check : Check) :
    (l.revalidate check).Hosts afi ∧
      ∀ pfx, (l.revalidate check).localAttrs pfx = l.localAttrs pfx := by
  obtain ⟨hindexed, hcontent⟩ := revalidate_indexed h.serves.indexed check
  apply h.of_same ⟨hindexed, (revalidate_spec h.serves.indexed.wf check).2.1.afi.trans h.serves.afi⟩
  intro pfx name _
  exact heldContent_congr hcontent pfx name

/-- A table that holds nothing. -/
theorem hosts_of_empty {l : LocRib} {afi : Nat} (hindexed : l.Indexed) (hafi : l.afi = afi)
    (hnone : ∀ q, l.pathsFor q = []) : l.Hosts afi ∧ ∀ pfx, l.localAttrs pfx = none := by
  have hheld : ∀ q name, l.heldContent q name = none := by
    intro q name
    rw [heldContent, held, hnone q]
    rfl
  constructor
  · refine ⟨⟨hindexed, hafi⟩, ?_⟩
    intro pfx name c hc
    rw [hheld pfx name] at hc
    exact absurd hc (by simp)
  · intro pfx
    rw [localAttrs, hheld pfx localName]
    rfl

theorem Hosts.clear {l : LocRib} {afi : Nat} (h : l.Hosts afi) :
    l.clear.Hosts afi ∧ ∀ pfx, l.clear.localAttrs pfx = none :=
  hosts_of_empty l.clear_indexed (l.clear_afi.trans h.serves.afi) l.pathsFor_clear

/-- Withdrawing an originated network takes its path and no other. -/
theorem Hosts.withdrawLocal {l : LocRib} {afi : Nat} (h : l.Hosts afi) (pfx : Prefix) :
    (l.removePath LOCAL_PEER pfx 0).Hosts afi ∧
      ∀ q, (l.removePath LOCAL_PEER pfx 0).localAttrs q =
        if q = pfx then none else l.localAttrs q := by
  have hheld := heldContent_removePath h.serves.indexed LOCAL_PEER pfx 0
  constructor
  · refine ⟨h.serves.removePath LOCAL_PEER pfx 0, ?_⟩
    intro q name c hc hname
    rw [hheld q name] at hc
    split at hc
    · exact absurd hc (by simp)
    · exact h.named hc hname
  · intro q
    rw [localAttrs, hheld q localName, localAttrs]
    by_cases hq : q = pfx
    · rw [if_pos hq, if_pos ⟨hq, rfl⟩]
      rfl
    · rw [if_neg hq, if_neg fun hboth => hq hboth.1]

/-- Originating a network puts its path in place of the one there was. -/
theorem Hosts.originateLocal {l l' : LocRib} {afi : Nat} (h : l.Hosts afi) {pfx : Prefix}
    {a : Arrival} (hid : a.pathId = 0) (hadd : l.addPath LOCAL_PEER pfx a = some l') :
    l'.Hosts afi ∧ ∀ q, l'.localAttrs q = if q = pfx then some a.attrs else l.localAttrs q := by
  have hheld := heldContent_addPath h.serves.indexed hadd
  constructor
  · refine ⟨h.serves.addPath hadd, ?_⟩
    intro q name c hc hname
    rw [hheld q name] at hc
    split at hc
    · rename_i hnew
      rw [hnew.2]
      exact hid
    · exact h.named hc hname
  · intro q
    rw [localAttrs, hheld q localName, localAttrs]
    by_cases hq : q = pfx
    · have hname : localName = (LOCAL_PEER.oid, a.pathId) := by rw [hid, localName]
      rw [if_pos hq, if_pos ⟨hq, hname⟩]
      rfl
    · rw [if_neg hq, if_neg fun hboth => hq hboth.1]

/-- What a session does leaves the originated networks. -/
theorem Hosts.callLocrib {l : LocRib} {afi : Nat} (h : l.Hosts afi) (answer : Bytes → Bool × Nat)
    {call : BgpTables.SessionCall} (hpeer : call.peer.oid ≠ LOCAL_PEER.oid) :
    (BgpTables.callLocrib answer l call).Hosts afi ∧
      ∀ pfx, (BgpTables.callLocrib answer l call).localAttrs pfx = l.localAttrs pfx := by
  cases call with
  | arrive peer pfx arrival =>
    rw [BgpTables.callLocrib]
    cases hadd : l.addPath peer pfx { arrival with
        source := .peer
        resolved := (answer arrival.attrs.nexthop).1
        igpMetric := (answer arrival.attrs.nexthop).2 } with
    | none => exact ⟨h, fun _ => rfl⟩
    | some l' =>
      apply h.of_same (h.serves.addPath hadd)
      intro q name hname
      rw [heldContent_addPath h.serves.indexed hadd, if_neg]
      rintro ⟨-, hnew⟩
      rw [hnew] at hname
      exact hpeer hname
  | withdraw peer pfx pathId =>
    apply h.of_same (h.serves.removePath peer pfx pathId)
    intro q name hname
    rw [heldContent_removePath h.serves.indexed, if_neg]
    rintro ⟨-, hnew⟩
    rw [hnew] at hname
    exact hpeer hname
  | release peer =>
    apply h.of_same (h.serves.removePeer peer)
    intro q name hname
    rw [heldContent_removePeer h.serves.indexed, if_neg]
    intro hnew
    exact hpeer (hnew.symm.trans hname)

end LocRib

namespace BgpTables

/-- A statement originates a prefix now: nothing keeps it back. -/
def InEffect (t : BgpTables) (af : Family) (text : String) (entry : NetworkEntry)
    (pfx : Prefix) (attrs : AttrSet) : Prop :=
  parsePrefix text = some pfx ∧ (entry.importCheck = true → t.backed af pfx = true) ∧
    t.networkAttrs af pfx entry = some attrs

theorem wantedBy_iff {t : BgpTables} {key : Family × String} {entry : NetworkEntry}
    {pfx : Prefix} {attrs : AttrSet} :
    t.wantedBy key entry = some (pfx, attrs) ↔
      t.locribs.contains key.1 = true ∧ t.InEffect key.1 key.2 entry pfx attrs := by
  rw [wantedBy, InEffect]
  cases hcarried : t.locribs.contains key.1 with
  | false => simp
  | true =>
    cases hparse : parsePrefix key.2 with
    | none => simp
    | some found =>
      cases hback : entry.importCheck && !t.backed key.1 found with
      | false =>
        have hbacked : entry.importCheck = true → t.backed key.1 found = true := by
          intro hcheck
          rw [hcheck, Bool.true_and, Bool.not_eq_false'] at hback
          exact hback
        simp only [Bool.not_true, Bool.false_eq_true, if_false,
          Option.map_eq_some_iff, Prod.mk.injEq, Option.some.injEq, true_and, hback]
        constructor
        · rintro ⟨attrs', hattrs, rfl, rfl⟩
          exact ⟨rfl, hbacked, hattrs⟩
        · rintro ⟨rfl, -, hattrs⟩
          exact ⟨attrs, hattrs, rfl, rfl⟩
      | true =>
        rw [Bool.and_eq_true, Bool.not_eq_true'] at hback
        simp only [Bool.not_true, Bool.false_eq_true, if_false, hback.1, hback.2,
          Bool.not_false, Bool.and_self, if_true, reduceCtorEq, false_iff, true_and,
          Option.some.injEq, not_and]
        rintro rfl hbacked
        rw [hback.2] at hbacked
        exact absurd (hbacked trivial) (by simp)

theorem mem_wanted {t : BgpTables} {key : Family × String} {pfx : Prefix} {attrs : AttrSet} :
    (key, pfx, attrs) ∈ t.wanted ↔
      ∃ entry, t.networkConfig.get? key = some entry ∧
        t.locribs.contains key.1 = true ∧ t.InEffect key.1 key.2 entry pfx attrs := by
  rw [wanted, List.mem_filterMap]
  constructor
  · rintro ⟨⟨key', entry⟩, hmem, hwanted⟩
    rw [Option.map_eq_some_iff] at hwanted
    obtain ⟨found, hfound, heq⟩ := hwanted
    rw [Prod.mk.injEq] at heq
    obtain ⟨rfl, rfl⟩ := heq
    exact ⟨entry, Dict.mem_entries_iff.mp hmem, wantedBy_iff.mp hfound⟩
  · rintro ⟨entry, hget, heffect⟩
    refine ⟨(key, entry), Dict.mem_entries_iff.mpr hget, ?_⟩
    rw [wantedBy_iff.mpr heffect]
    rfl

/-- A statement is wanted once. -/
theorem nodup_wanted (t : BgpTables) : (t.wanted.map Prod.fst).Nodup := by
  have hsub : ∀ entries : List ((Family × String) × NetworkEntry),
      ((entries.filterMap fun e => (t.wantedBy e.1 e.2).map fun found =>
        (e.1, found)).map Prod.fst).Sublist (entries.map Prod.fst) := by
    intro entries
    induction entries with
    | nil => exact List.Sublist.slnil
    | cons e rest ih =>
      rw [List.filterMap_cons]
      cases t.wantedBy e.1 e.2 with
      | none => exact ih.cons _
      | some found => exact ih.cons_cons _
  exact t.networkConfig.nodup.sublist (hsub t.networkConfig.entries)

variable {t t' : BgpTables}

/-- The attributes this router originates a prefix of a family with. -/
def localAttrs (t : BgpTables) (af : Family) (pfx : Prefix) : Option AttrSet :=
  (t.locribs.get? af).bind fun l => l.localAttrs pfx

def Hosting (t : BgpTables) : Prop := ∀ af l, t.locribs.get? af = some l → l.Hosts af.1

/-- Every path originated here is one `networks` remembers. -/
def Remembered (t : BgpTables) : Prop :=
  ∀ af pfx attrs, t.localAttrs af pfx = some attrs →
    ∃ text, parsePrefix text = some pfx ∧ t.networks.get? (af, text) = some attrs

theorem hosting_set (h : t.Hosting) {key : Family} {l' : LocRib} (hl' : l'.Hosts key.1)
    (ht : t'.locribs = t.locribs.set key l') : t'.Hosting := by
  intro af l hl
  rw [ht, Dict.get?_set] at hl
  split at hl
  · rename_i haf
    cases hl
    rw [haf]
    exact hl'
  · exact h af l hl

theorem localAttrs_set {key : Family} {l' : LocRib} (ht : t'.locribs = t.locribs.set key l')
    (af : Family) (pfx : Prefix) :
    t'.localAttrs af pfx = if af = key then l'.localAttrs pfx else t.localAttrs af pfx := by
  rw [localAttrs, ht, Dict.get?_set]
  by_cases haf : af = key
  · rw [if_pos haf, if_pos haf]
    rfl
  · rw [if_neg haf, if_neg haf]
    rfl

theorem contains_set_same {key : Family} {l l' : LocRib}
    (hl : t.locribs.get? key = some l) (ht : t'.locribs = t.locribs.set key l')
    (af : Family) : t'.locribs.contains af = t.locribs.contains af := by
  rw [ht, Session.contains_set_of_get? hl]

/-- What decides which statements are in effect stays. -/
structure SameGround (t t' : BgpTables) : Prop where
  engine : t'.engine = t.engine
  networkConfig : t'.networkConfig = t.networkConfig
  carried : ∀ af, t'.locribs.contains af = t.locribs.contains af

theorem SameGround.refl (t : BgpTables) : SameGround t t := ⟨rfl, rfl, fun _ => rfl⟩

theorem SameGround.trans {t t' t'' : BgpTables} (h : SameGround t t')
    (h' : SameGround t' t'') : SameGround t t'' where
  engine := h'.engine.trans h.engine
  networkConfig := h'.networkConfig.trans h.networkConfig
  carried af := (h'.carried af).trans (h.carried af)

theorem inEffect_iff_of_engine (h : t'.engine = t.engine) {af : Family} {text : String}
    {entry : NetworkEntry} {pfx : Prefix} {attrs : AttrSet} :
    t'.InEffect af text entry pfx attrs ↔ t.InEffect af text entry pfx attrs := by
  have hbacked : t'.backed af pfx = t.backed af pfx := by rw [backed, backed, h]
  have hattrs : t'.networkAttrs af pfx entry = t.networkAttrs af pfx entry := by
    rw [networkAttrs, networkAttrs, h]
  rw [InEffect, InEffect, hbacked, hattrs]

/-- Withdrawing a network forgets its statement and takes the path of its prefix. -/
theorem withdrawNetwork_spec (h : t.Hosting) {key : Family × String} {pfx : Prefix}
    (hparse : parsePrefix key.2 = some pfx) :
    SameGround t (t.withdrawNetwork key) ∧ (t.withdrawNetwork key).Hosting ∧
      ∀ af q, (t.withdrawNetwork key).localAttrs af q =
        if af = key.1 ∧ q = pfx then none else t.localAttrs af q := by
  rw [withdrawNetwork]
  cases hl : t.locribs.get? key.1 with
  | none =>
    refine ⟨⟨rfl, rfl, fun _ => rfl⟩, h, ?_⟩
    intro af q
    by_cases haf : af = key.1 ∧ q = pfx
    · rw [if_pos haf, haf.1, localAttrs]
      simp only [hl, Option.bind_none]
    · rw [if_neg haf]
      rfl
  | some l =>
    obtain ⟨hhosts, hattrs⟩ := (h key.1 l hl).withdrawLocal pfx
    simp only [hparse]
    refine ⟨⟨rfl, rfl, contains_set_same hl rfl⟩, hosting_set h hhosts rfl, ?_⟩
    intro af q
    rw [localAttrs_set rfl]
    by_cases haf : af = key.1
    · rw [if_pos haf, hattrs q, haf, localAttrs, hl]
      simp only [true_and, Option.bind_some]
    · rw [if_neg haf, if_neg fun hboth => haf hboth.1]

/-- A path originated here is taken by withdrawing any of the statements. -/
def Spelt (gone : List (Family × String)) (af : Family) (pfx : Prefix) : Prop :=
  ∃ key ∈ gone, key.1 = af ∧ parsePrefix key.2 = some pfx

theorem foldl_withdrawNetwork_spec {gone : List (Family × String)} {t : BgpTables}
    (h : t.Hosting) (hparse : ∀ key ∈ gone, ∃ pfx, parsePrefix key.2 = some pfx) :
    SameGround t (gone.foldl withdrawNetwork t) ∧ (gone.foldl withdrawNetwork t).Hosting ∧
      (∀ key attrs, (gone.foldl withdrawNetwork t).networks.get? key = some attrs ↔
        key ∉ gone ∧ t.networks.get? key = some attrs) ∧
      ∀ af pfx attrs, (gone.foldl withdrawNetwork t).localAttrs af pfx = some attrs ↔
        ¬ Spelt gone af pfx ∧ t.localAttrs af pfx = some attrs := by
  induction gone generalizing t with
  | nil => exact ⟨SameGround.refl t, h, fun _ _ => by simp, fun _ _ _ => by simp [Spelt]⟩
  | cons key gone ih =>
    obtain ⟨pfx, hpfx⟩ := hparse key List.mem_cons_self
    obtain ⟨hground, hhosting, hattrs⟩ := withdrawNetwork_spec h hpfx
    have hnetworks : ∀ key', (t.withdrawNetwork key).networks.get? key' =
        if key' = key then none else t.networks.get? key' := Dict.get?_erase _ _
    obtain ⟨hground', hhosting', hnetworks', hattrs'⟩ :=
      ih hhosting fun key' hkey' => hparse key' (List.mem_cons_of_mem key hkey')
    refine ⟨hground.trans hground', hhosting', ?_, ?_⟩
    · intro key' attrs
      rw [List.foldl_cons, hnetworks' key' attrs, hnetworks key']
      by_cases hkey : key' = key
      · simp [hkey]
      · simp [hkey]
    · intro af q attrs
      have hspelt : Spelt (key :: gone) af q ↔ (af = key.1 ∧ q = pfx) ∨ Spelt gone af q := by
        simp only [Spelt, List.mem_cons, exists_eq_or_imp, hpfx, Option.some.injEq]
        constructor
        · rintro (⟨haf, hq⟩ | hrest)
          · exact Or.inl ⟨haf.symm, hq.symm⟩
          · exact Or.inr hrest
        · rintro (⟨haf, hq⟩ | hrest)
          · exact Or.inl ⟨haf.symm, hq.symm⟩
          · exact Or.inr hrest
      rw [List.foldl_cons, hattrs' af q attrs, hattrs af q, hspelt]
      by_cases hhere : af = key.1 ∧ q = pfx
      · simp [hhere]
      · simp [hhere]

/-- What the second loop of `_sync_networks` finds for a statement in effect. -/
structure Ready (t : BgpTables) (item : (Family × String) × Prefix × AttrSet) : Prop where
  parsed : parsePrefix item.1.2 = some item.2.1
  ofFamily : item.2.1.afi = item.1.1.1
  carried : t.locribs.contains item.1.1 = true
  placed : t.networks.get? item.1 = some item.2.2 → (t.localAttrs item.1.1 item.2.1).isSome = true

/-- Originating a network remembers it and puts its path, and takes none. -/
structure Originated (t : BgpTables) (item : (Family × String) × Prefix × AttrSet)
    (t' : BgpTables) : Prop where
  ground : SameGround t t'
  hosting : t'.Hosting
  remembered : t'.Remembered
  networks : ∀ key, t'.networks.get? key =
    if key = item.1 then some item.2.2 else t.networks.get? key
  placed : (t'.localAttrs item.1.1 item.2.1).isSome = true
  kept : ∀ af pfx, (t.localAttrs af pfx).isSome = true → (t'.localAttrs af pfx).isSome = true

theorem originate_spec (h : t.Hosting) (hrem : t.Remembered) (now : Int)
    {item : (Family × String) × Prefix × AttrSet} (hitem : t.Ready item) :
    ∃ t', originate now t item = (t', true) ∧ Originated t item t' := by
  rw [originate]
  by_cases hsame : t.networks.get? item.1 = some item.2.2
  · refine ⟨t, if_pos hsame, SameGround.refl t, h, hrem, ?_, hitem.placed hsame,
      fun _ _ hkept => hkept⟩
    intro key
    by_cases hkey : key = item.1
    · rw [if_pos hkey, hkey, hsame]
    · rw [if_neg hkey]
  · obtain ⟨l, hl⟩ := Dict.contains_iff.mp hitem.carried
    obtain ⟨l', hadd⟩ := (h item.1.1 l hl).serves.exists_addPath hitem.ofFamily LOCAL_PEER
      (localArrival now item.2.2)
    obtain ⟨hhosts, hattrs⟩ := (h item.1.1 l hl).originateLocal rfl hadd
    have hlocal : ∀ af q, ({ t with
        locribs := t.locribs.set item.1.1 l'
        networks := t.networks.set item.1 item.2.2 } : BgpTables).localAttrs af q =
        if af = item.1.1 ∧ q = item.2.1 then some item.2.2 else t.localAttrs af q := by
      intro af q
      rw [localAttrs_set rfl]
      by_cases haf : af = item.1.1
      · rw [if_pos haf, hattrs q, haf, localAttrs, hl]
        simp only [true_and, Option.bind_some]
        rfl
      · rw [if_neg haf, if_neg fun hboth => haf hboth.1]
    refine ⟨{ t with
      locribs := t.locribs.set item.1.1 l'
      networks := t.networks.set item.1 item.2.2 }, ?_, ?_⟩
    · simp only [if_neg hsame, hl, hadd]
    · refine ⟨⟨rfl, rfl, contains_set_same hl rfl⟩, hosting_set h hhosts rfl, ?_,
        fun key => Dict.get?_set _ _ key _, ?_, ?_⟩
      · intro af q attrs hq
        rw [hlocal af q] at hq
        simp only [Dict.get?_set]
        split at hq
        · rename_i hhere
          refine ⟨item.1.2, ?_, ?_⟩
          · rw [hhere.2]
            exact hitem.parsed
          · rw [hhere.1, if_pos rfl]
            exact hq
        · rename_i hhere
          obtain ⟨text, htext, hget⟩ := hrem af q attrs hq
          refine ⟨text, htext, ?_⟩
          rw [if_neg, hget]
          intro heq
          have hparsed := hitem.parsed
          rw [← heq] at hparsed
          exact hhere ⟨congrArg Prod.fst heq, Option.some.inj (htext.symm.trans hparsed)⟩
      · rw [hlocal, if_pos ⟨rfl, rfl⟩]
        rfl
      · intro af q hkept
        rw [hlocal]
        split
        · rfl
        · exact hkept

/-- What the second loop leaves. -/
structure OriginatedAll (t : BgpTables)
    (items : List ((Family × String) × Prefix × AttrSet)) (t' : BgpTables) : Prop where
  ground : SameGround t t'
  hosting : t'.Hosting
  remembered : t'.Remembered
  networks : ∀ item ∈ items, t'.networks.get? item.1 = some item.2.2
  others : ∀ key, key ∉ items.map Prod.fst → t'.networks.get? key = t.networks.get? key
  placed : ∀ item ∈ items, (t'.localAttrs item.1.1 item.2.1).isSome = true
  kept : ∀ af pfx, (t.localAttrs af pfx).isSome = true → (t'.localAttrs af pfx).isSome = true

theorem runEach_originate_spec (now : Int) {items : List ((Family × String) × Prefix × AttrSet)}
    (hnodup : (items.map Prod.fst).Nodup) {t : BgpTables} (h : t.Hosting)
    (hrem : t.Remembered) (hready : ∀ item ∈ items, t.Ready item) :
    ∃ t', runEach (originate now) items t = (t', true) ∧ OriginatedAll t items t' := by
  induction items generalizing t with
  | nil =>
    refine ⟨t, rfl, SameGround.refl t, h, hrem, ?_, fun _ _ => rfl, ?_, fun _ _ hk => hk⟩
    · exact fun item hitem => absurd hitem List.not_mem_nil
    · exact fun item hitem => absurd hitem List.not_mem_nil
  | cons item items ih =>
    rw [List.map_cons, List.nodup_cons] at hnodup
    obtain ⟨t₁, hstep, horig⟩ := originate_spec h hrem now (hready item List.mem_cons_self)
    have hready₁ : ∀ item' ∈ items, t₁.Ready item' := by
      intro item' hmem
      have hr := hready item' (List.mem_cons_of_mem item hmem)
      refine ⟨hr.parsed, hr.ofFamily, ?_, ?_⟩
      · rw [horig.ground.carried]
        exact hr.carried
      · intro hget
        rw [horig.networks, if_neg] at hget
        · exact horig.kept _ _ (hr.placed hget)
        · intro heq
          rw [← heq] at hnodup
          exact hnodup.1 (List.mem_map_of_mem hmem)
    obtain ⟨t', hrun, hall⟩ := ih hnodup.2 horig.hosting horig.remembered hready₁
    refine ⟨t', ?_, horig.ground.trans hall.ground, hall.hosting, hall.remembered,
      ?_, ?_, ?_, fun af pfx hk => hall.kept af pfx (horig.kept af pfx hk)⟩
    · rw [runEach, hstep]
      exact hrun
    · intro item' hmem
      rcases List.mem_cons.mp hmem with rfl | hmem
      · rw [hall.others _ hnodup.1, horig.networks, if_pos rfl]
      · exact hall.networks item' hmem
    · intro key hkey
      rw [List.map_cons, List.mem_cons, not_or] at hkey
      rw [hall.others key hkey.2, horig.networks, if_neg hkey.1]
    · intro item' hmem
      rcases List.mem_cons.mp hmem with rfl | hmem
      · exact hall.kept _ _ horig.placed
      · exact hall.placed item' hmem

/-- Between reconciliations: what is originated is remembered, and what is remembered of a
family there is a Loc-RIB for is originated. -/
structure Mirrors (t : BgpTables) : Prop where
  hosting : t.Hosting
  remembered : t.Remembered
  placed : ∀ key attrs, t.networks.get? key = some attrs →
    ∃ pfx, parsePrefix key.2 = some pfx ∧
      (t.locribs.contains key.1 = true → (t.localAttrs key.1 pfx).isSome = true)

/-- No statement that goes out of effect spells the prefix of another one that stays in
effect as it is, and every prefix is of the family it is stated for. -/
structure Reconcilable (t : BgpTables) : Prop where
  ofFamily : ∀ item ∈ t.wanted, item.2.1.afi = item.1.1.1
  unshared : ∀ key attrs, t.networks.get? key = some attrs → key ∉ t.wanted.map Prod.fst →
    ∀ item ∈ t.wanted, item.1.1 = key.1 → parsePrefix key.2 = some item.2.1 →
      t.networks.get? item.1 ≠ some item.2.2

instance (t : BgpTables) : Decidable t.Reconcilable :=
  decidable_of_iff
    ((∀ item ∈ t.wanted, item.2.1.afi = item.1.1.1) ∧
      ∀ e ∈ t.networks.entries, e.1 ∉ t.wanted.map Prod.fst →
        ∀ item ∈ t.wanted, item.1.1 = e.1.1 → parsePrefix e.1.2 = some item.2.1 →
          t.networks.get? item.1 ≠ some item.2.2)
    ⟨fun h => ⟨h.1, fun key attrs hget => h.2 (key, attrs) (Dict.mem_entries_iff.mpr hget)⟩,
      fun h => ⟨h.ofFamily, fun e he => h.unshared e.1 e.2 (Dict.mem_entries_iff.mp he)⟩⟩

/-- What a reconciliation leaves remembered and originated. -/
structure Reconciled (t t' : BgpTables) : Prop where
  ground : SameGround t t'
  hosting : t'.Hosting
  remembered : t'.Remembered
  networks : ∀ key attrs, t'.networks.get? key = some attrs ↔ ∃ pfx, (key, pfx, attrs) ∈ t.wanted
  placed : ∀ item ∈ t.wanted, (t'.localAttrs item.1.1 item.2.1).isSome = true

theorem syncNetworks_spec (h : t.Mirrors) (hrec : t.Reconcilable) (now : Int) :
    ∃ t', t.syncNetworks now = (t', true) ∧ Reconciled t t' := by
  rw [syncNetworks]
  have hgone : ∀ key, key ∈ t.networks.keys.filter
      (fun key => !(t.wanted.map Prod.fst).contains key) ↔
        (∃ attrs, t.networks.get? key = some attrs) ∧ key ∉ t.wanted.map Prod.fst := by
    intro key
    rw [List.mem_filter, Dict.mem_keys_iff, Bool.not_eq_true', Bool.eq_false_iff, ne_eq,
      List.contains_iff_mem]
  generalize t.networks.keys.filter
    (fun key => !(t.wanted.map Prod.fst).contains key) = gone at hgone
  have hparse : ∀ key ∈ gone, ∃ pfx, parsePrefix key.2 = some pfx := by
    intro key hkey
    obtain ⟨⟨attrs, hattrs⟩, -⟩ := (hgone key).mp hkey
    obtain ⟨pfx, hpfx, -⟩ := h.placed key attrs hattrs
    exact ⟨pfx, hpfx⟩
  obtain ⟨hground, hhosting, hnetworks, hattrs⟩ := foldl_withdrawNetwork_spec h.hosting hparse
  generalize gone.foldl withdrawNetwork t = withdrawn at hground hhosting hnetworks hattrs
  -- A path left over is remembered under a statement that stays.
  have hrem : withdrawn.Remembered := by
    intro af pfx attrs hlocal
    rw [hattrs] at hlocal
    obtain ⟨text, htext, hget⟩ := h.remembered af pfx attrs hlocal.2
    refine ⟨text, htext, (hnetworks _ _).mpr ⟨?_, hget⟩⟩
    intro hmem
    exact hlocal.1 ⟨(af, text), hmem, rfl, htext⟩
  -- A path that stays as it is was not taken with another statement.
  have hready : ∀ item ∈ t.wanted, withdrawn.Ready item := by
    rintro ⟨key, pfx, attrs⟩ hmem
    obtain ⟨entry, hentry, hcarried, heffect⟩ := mem_wanted.mp hmem
    refine ⟨heffect.1, hrec.ofFamily _ hmem, ?_, ?_⟩
    · rw [hground.carried]
      exact hcarried
    · intro hget
      obtain ⟨hstays, hget⟩ := (hnetworks _ _).mp hget
      obtain ⟨pfx', hpfx', hplaced⟩ := h.placed key attrs hget
      have hsame : pfx' = pfx := Option.some.inj (hpfx'.symm.trans heffect.1)
      rw [hsame] at hplaced
      obtain ⟨held, hheld⟩ := Option.isSome_iff_exists.mp (hplaced hcarried)
      refine Option.isSome_iff_exists.mpr ⟨held, (hattrs _ _ _).mpr ⟨?_, hheld⟩⟩
      rintro ⟨key', hkey', haf, hspelt⟩
      obtain ⟨⟨attrs', hattrs'⟩, hout⟩ := (hgone key').mp hkey'
      exact hrec.unshared key' attrs' hattrs' hout _ hmem haf.symm hspelt hget
  obtain ⟨t', hrun, hall⟩ := runEach_originate_spec now (nodup_wanted t) hhosting hrem hready
  refine ⟨t', hrun, hground.trans hall.ground, hall.hosting, hall.remembered, ?_, hall.placed⟩
  intro key attrs
  constructor
  · intro hget
    by_cases hkey : key ∈ t.wanted.map Prod.fst
    · obtain ⟨⟨key', pfx, attrs'⟩, hmem, rfl⟩ := List.mem_map.mp hkey
      have hnow := hall.networks _ hmem
      rw [hget, Option.some.injEq] at hnow
      rw [hnow]
      exact ⟨pfx, hmem⟩
    · rw [hall.others key hkey, hnetworks] at hget
      exact absurd ((hgone key).mpr ⟨⟨attrs, hget.2⟩, hkey⟩) hget.1
  · rintro ⟨pfx, hmem⟩
    exact hall.networks _ hmem

end BgpTables

end Packets
