/-
The originated networks over whole runs: where every reconciliation can be carried out, what
the Loc-RIBs hold after one is what the section in force originates.
-/
import Packets.Bgp.Networks

namespace Packets

namespace BgpTables

variable {t t' : BgpTables}

structure SameOriginated (t t' : BgpTables) : Prop where
  hosting : t'.Hosting
  networks : t'.networks = t.networks
  carried : ∀ af, t'.locribs.contains af = t.locribs.contains af
  attrs : ∀ af pfx, t'.localAttrs af pfx = t.localAttrs af pfx

theorem SameOriginated.trans {t t' t'' : BgpTables} (h : SameOriginated t t')
    (h' : SameOriginated t' t'') : SameOriginated t t'' where
  hosting := h'.hosting
  networks := h'.networks.trans h.networks
  carried af := (h'.carried af).trans (h.carried af)
  attrs af pfx := (h'.attrs af pfx).trans (h.attrs af pfx)

theorem hosting_congr (h : t.Hosting) (hl : t'.locribs = t.locribs) : t'.Hosting := by
  rw [Hosting, hl]
  exact h

theorem localAttrs_congr (hl : t'.locribs = t.locribs) (af : Family) (pfx : Prefix) :
    t'.localAttrs af pfx = t.localAttrs af pfx := by
  rw [localAttrs, hl, localAttrs]

theorem sameOriginated_of_locribs (h : t.Hosting) (hl : t'.locribs = t.locribs)
    (hn : t'.networks = t.networks) : SameOriginated t t' where
  hosting := hosting_congr h hl
  networks := hn
  carried af := by rw [hl]
  attrs := localAttrs_congr hl

/-- Every Loc-RIB is changed in a way that leaves what is originated in it. -/
theorem sameOriginated_mapValues {f : LocRib → LocRib} (h : t.Hosting)
    (hf : ∀ l afi, l.Hosts afi → (f l).Hosts afi ∧ ∀ pfx, (f l).localAttrs pfx = l.localAttrs pfx)
    (hl : t'.locribs = t.locribs.mapValues fun _ l => f l) (hn : t'.networks = t.networks) :
    SameOriginated t t' where
  hosting := by
    intro af l hget
    rw [hl, Dict.get?_mapValues, Option.map_eq_some_iff] at hget
    obtain ⟨l₀, hl₀, rfl⟩ := hget
    exact (hf l₀ af.1 (h af l₀ hl₀)).1
  networks := hn
  carried af := by rw [hl, Dict.contains, Dict.get?_mapValues, Option.isSome_map, Dict.contains]
  attrs af pfx := by
    rw [localAttrs, hl, Dict.get?_mapValues, localAttrs]
    cases hget : t.locribs.get? af with
    | none => rfl
    | some l => exact (hf l af.1 (h af l hget)).2 pfx

theorem selectAndCheck_sameOriginated (h : t.Hosting) (limit : Int) :
    SameOriginated t (t.selectAndCheck limit) := by
  have hselected : SameOriginated t
      { t with locribs := t.locribs.mapValues fun _ l => l.reselect limit } :=
    sameOriginated_mapValues h (fun _ _ hl => hl.reselect limit) rfl rfl
  simp only [selectAndCheck]
  split
  · apply hselected.trans
    rw [revalidate]
    split
    · exact sameOriginated_of_locribs hselected.hosting rfl rfl
    · exact sameOriginated_mapValues hselected.hosting (fun _ _ hl => hl.revalidate _) rfl rfl
  · exact hselected

theorem callSession_sameOriginated (h : t.Hosting) (key : Family) {call : SessionCall}
    (hpeer : call.peer.oid ≠ LOCAL_PEER.oid) : SameOriginated t (t.callSession key call) := by
  rw [callSession]
  cases hl : t.locribs.get? key with
  | none => exact sameOriginated_of_locribs h rfl rfl
  | some l =>
    obtain ⟨hhosts, hattrs⟩ := (h key l hl).callLocrib (t.sessionAnswer key.1) hpeer
    refine ⟨hosting_set h hhosts rfl, rfl, contains_set_same hl rfl, ?_⟩
    intro af pfx
    rw [localAttrs_set rfl]
    by_cases haf : af = key
    · rw [if_pos haf, hattrs pfx, haf, localAttrs, hl]
      rfl
    · rw [if_neg haf]

/-- Clearing every Loc-RIB originates nothing. -/
theorem shutdownAll_spec (h : t.Hosting) :
    t.shutdownAll.Hosting ∧ ∀ af pfx, t.shutdownAll.localAttrs af pfx = none := by
  constructor
  · intro af l hget
    rw [shutdownAll, Dict.get?_mapValues, Option.map_eq_some_iff] at hget
    obtain ⟨l₀, hl₀, rfl⟩ := hget
    exact (h af l₀ hl₀).clear.1
  · intro af pfx
    rw [localAttrs, shutdownAll, Dict.get?_mapValues]
    cases hget : t.locribs.get? af with
    | none => rfl
    | some l => exact (h af l hget).clear.2 pfx

theorem hosts_newLocrib (fresh : Fresh) (af : Family) (config : BestpathConfig)
    (distances : Nat × Nat) :
    (newLocrib fresh.attrTable fresh.unused af config distances).Hosts af.1 ∧
      ∀ pfx, (newLocrib fresh.attrTable fresh.unused af config distances).localAttrs pfx =
        none :=
  LocRib.hosts_of_empty (LocRib.indexed_of_empty rfl rfl rfl) rfl fun _ => rfl

theorem rebuildLocrib_spec (fresh : Fresh) (config : Family → BestpathConfig)
    (distances : Family → Nat × Nat) (h : t.Hosting) {key : Family}
    (ht : t'.locribs = rebuildLocrib fresh config distances t.locribs key) :
    t'.Hosting ∧ ∀ af pfx, t'.localAttrs af pfx = t.localAttrs af pfx := by
  rw [rebuildLocrib] at ht
  cases hl : t.locribs.get? key with
  | none =>
    rw [hl] at ht
    obtain ⟨hhosts, hnone⟩ := hosts_newLocrib fresh key (config key) (distances key)
    refine ⟨hosting_set h hhosts ht, ?_⟩
    intro af pfx
    rw [localAttrs_set ht]
    by_cases haf : af = key
    · rw [if_pos haf, hnone pfx, haf, localAttrs, hl]
      rfl
    · rw [if_neg haf]
  | some l =>
    rw [hl] at ht
    obtain ⟨hhosts, hattrs⟩ := (h key l hl).setConfig (config key)
    refine ⟨hosting_set h hhosts ht, ?_⟩
    intro af pfx
    rw [localAttrs_set ht]
    by_cases haf : af = key
    · rw [if_pos haf, hattrs pfx, haf, localAttrs, hl]
      rfl
    · rw [if_neg haf]

/-- Rebuilding leaves what is originated. -/
theorem foldl_rebuildLocrib_spec (fresh : Fresh) (config : Family → BestpathConfig)
    (distances : Family → Nat × Nat) (families : List Family) {t : BgpTables} (h : t.Hosting)
    (ht : t'.locribs = families.foldl (rebuildLocrib fresh config distances) t.locribs) :
    t'.Hosting ∧ ∀ af pfx, t'.localAttrs af pfx = t.localAttrs af pfx := by
  induction families generalizing t with
  | nil => exact ⟨hosting_congr h ht, localAttrs_congr ht⟩
  | cons key families ih =>
    have ht₁ : ({ t with locribs := rebuildLocrib fresh config distances t.locribs key } :
      BgpTables).locribs = rebuildLocrib fresh config distances t.locribs key := rfl
    obtain ⟨hhosting₁, hattrs₁⟩ := rebuildLocrib_spec fresh config distances h ht₁
    obtain ⟨hhosting, hattrs⟩ := ih hhosting₁ ht
    refine ⟨hhosting, ?_⟩
    intro af pfx
    exact (hattrs af pfx).trans (hattrs₁ af pfx)

/-- Adopting a section leaves what is originated in the families that stay. -/
theorem adopt_spec (fresh : Fresh) (h : t.Hosting) (asn : Nat) (body : BgpBody) :
    (t.adopt fresh asn body).Hosting ∧
      ∀ af pfx, (t.adopt fresh asn body).localAttrs af pfx =
        if af ∈ body.families then t.localAttrs af pfx else none := by
  let rebuilt := { t with
    locribs := body.families.foldl (rebuildLocrib fresh
      (body.bestpathConfig asn (body.routerId.getD t.routerId)) body.distances) t.locribs }
  have hrebuilt : rebuilt.locribs = body.families.foldl (rebuildLocrib fresh
      (body.bestpathConfig asn (body.routerId.getD t.routerId)) body.distances) t.locribs :=
    rfl
  obtain ⟨hhosting, hattrs⟩ := foldl_rebuildLocrib_spec fresh _ _ _ h hrebuilt
  have hget : ∀ af, (t.adopt fresh asn body).locribs.get? af =
      (rebuilt.locribs.get? af).filter fun _ => body.families.contains af := by
    intro af
    exact Dict.get?_filter _ _ af
  constructor
  · intro af l hl
    rw [hget, Option.filter_eq_some_iff] at hl
    exact hhosting af l hl.1
  · intro af pfx
    rw [localAttrs, hget, ← hattrs af pfx, localAttrs]
    by_cases haf : af ∈ body.families
    · rw [if_pos haf, List.contains_iff_mem.mpr haf]
      cases rebuilt.locribs.get? af <;> rfl
    · have hnot : body.families.contains af = false := by
        rw [Bool.eq_false_iff, ne_eq, List.contains_iff_mem]
        exact haf
      rw [if_neg haf, hnot]
      cases rebuilt.locribs.get? af <;> rfl

/-- Between steps: what is remembered is originated, in a family there is a Loc-RIB for,
under a statement of the section in force. -/
structure Originating (stated : Dict (Family × String) NetworkEntry) (t : BgpTables) :
    Prop where
  mirrors : t.Mirrors
  carried : ∀ key attrs, t.networks.get? key = some attrs → t.locribs.contains key.1 = true
  stated : ∀ key attrs, t.networks.get? key = some attrs → stated.contains key = true

/-- Each Loc-RIB holds a path of this router for exactly the prefixes of the statements in
effect, with attributes computed now. -/
structure Follows (stated : Dict (Family × String) NetworkEntry) (t : BgpTables) :
    Prop where
  held : ∀ af l, t.locribs.get? af = some l → ∀ pfx,
    (∃ p ∈ l.pathsFor pfx, p.peer.oid = LOCAL_PEER.oid) ↔
      ∃ text entry attrs, stated.get? (af, text) = some entry ∧ t.InEffect af text entry pfx attrs
  attrs : ∀ af l, t.locribs.get? af = some l → ∀ pfx, ∀ p ∈ l.pathsFor pfx,
    p.peer.oid = LOCAL_PEER.oid →
      ∃ text entry, stated.get? (af, text) = some entry ∧ t.InEffect af text entry pfx p.attrs

theorem mirrors_of_same (h : t.Mirrors) (hs : SameOriginated t t') : t'.Mirrors where
  hosting := hs.hosting
  remembered := by
    intro af pfx attrs hattrs
    rw [hs.attrs] at hattrs
    rw [hs.networks]
    exact h.remembered af pfx attrs hattrs
  placed := by
    intro key attrs hget
    rw [hs.networks] at hget
    obtain ⟨pfx, hpfx, hplaced⟩ := h.placed key attrs hget
    refine ⟨pfx, hpfx, ?_⟩
    rw [hs.carried, hs.attrs]
    exact hplaced

variable {stated : Dict (Family × String) NetworkEntry}

theorem originating_of_same (h : t.Originating stated) (hs : SameOriginated t t') :
    t'.Originating stated where
  mirrors := mirrors_of_same h.mirrors hs
  carried := by
    intro key attrs hget
    rw [hs.networks] at hget
    rw [hs.carried]
    exact h.carried key attrs hget
  stated := by
    intro key attrs hget
    rw [hs.networks] at hget
    exact h.stated key attrs hget

/-- Tables that originate nothing. -/
theorem originating_of_none (hhosting : t.Hosting) (hattrs : ∀ af pfx, t.localAttrs af pfx = none)
    (hnetworks : t.networks = Dict.empty) : t.Originating stated := by
  have hnone : ∀ key attrs, t.networks.get? key ≠ some attrs := by
    intro key attrs
    rw [hnetworks, Dict.get?_empty]
    exact Option.some_ne_none attrs |>.symm
  refine ⟨⟨hhosting, ?_, ?_⟩, ?_, ?_⟩
  · intro af pfx attrs hlocal
    rw [hattrs] at hlocal
    exact absurd hlocal (by simp)
  · exact fun key attrs hget => absurd hget (hnone key attrs)
  · exact fun key attrs hget => absurd hget (hnone key attrs)
  · exact fun key attrs hget => absurd hget (hnone key attrs)

theorem mirrors_adopt (h : t.Originating stated) (fresh : Fresh) (asn : Nat)
    (body : BgpBody) : (t.adopt fresh asn body).Mirrors := by
  obtain ⟨hhosting, hattrs⟩ := adopt_spec fresh h.mirrors.hosting asn body
  refine ⟨hhosting, ?_, ?_⟩
  · intro af pfx attrs hlocal
    rw [hattrs] at hlocal
    split at hlocal
    · exact h.mirrors.remembered af pfx attrs hlocal
    · exact absurd hlocal (by simp)
  · intro key attrs hget
    obtain ⟨pfx, hpfx, hplaced⟩ := h.mirrors.placed key attrs hget
    refine ⟨pfx, hpfx, ?_⟩
    intro hcarried
    obtain ⟨l, hl⟩ := Dict.contains_iff.mp hcarried
    have hfamily : key.1 ∈ body.families := by
      have hfilter := Dict.get?_filter (body.families.foldl (rebuildLocrib fresh
        (body.bestpathConfig asn (body.routerId.getD t.routerId)) body.distances) t.locribs)
        (fun af _ => body.families.contains af) key.1
      have hboth := Option.filter_eq_some_iff.mp (hfilter.symm.trans hl)
      exact List.contains_iff_mem.mp hboth.2
    rw [hattrs, if_pos hfamily]
    exact hplaced (h.carried key attrs hget)

/-- The paths of this router are those `localAttrs` finds. -/
theorem exists_local_iff (h : t.Hosting) {af : Family} {l : LocRib}
    (hl : t.locribs.get? af = some l) {pfx : Prefix} {attrs : AttrSet} :
    (∃ p ∈ l.pathsFor pfx, p.peer.oid = LOCAL_PEER.oid ∧ p.attrs = attrs) ↔
      t.localAttrs af pfx = some attrs := by
  have hhosts := h af l hl
  have hlocal : t.localAttrs af pfx = l.localAttrs pfx := by
    rw [localAttrs, hl]
    rfl
  rw [hlocal, LocRib.localAttrs, Option.map_eq_some_iff]
  constructor
  · rintro ⟨p, hp, hpeer, rfl⟩
    have hheld : l.heldContent pfx p.name = some p.content := by
      rw [LocRib.heldContent, hhosts.serves.indexed.mem_iff.mp hp]
      rfl
    have hname : p.name = LocRib.localName := Prod.ext hpeer (hhosts.named hheld hpeer)
    rw [hname] at hheld
    exact ⟨p.content, hheld, rfl⟩
  · rintro ⟨content, hcontent, rfl⟩
    rw [LocRib.heldContent, Option.map_eq_some_iff] at hcontent
    obtain ⟨p, hp, rfl⟩ := hcontent
    obtain ⟨hmem, hname⟩ := findNamed_some hp
    exact ⟨p, hmem, congrArg Prod.fst hname, rfl⟩

theorem reconciled_originating (hr : Reconciled t t') : t'.Originating t.networkConfig := by
  refine ⟨⟨hr.hosting, hr.remembered, ?_⟩, ?_, ?_⟩
  · intro key attrs hget
    obtain ⟨pfx, hmem⟩ := (hr.networks key attrs).mp hget
    obtain ⟨entry, -, -, heffect⟩ := mem_wanted.mp hmem
    exact ⟨pfx, heffect.1, fun _ => hr.placed _ hmem⟩
  · intro key attrs hget
    obtain ⟨pfx, hmem⟩ := (hr.networks key attrs).mp hget
    obtain ⟨entry, -, hcarried, -⟩ := mem_wanted.mp hmem
    rw [hr.ground.carried]
    exact hcarried
  · intro key attrs hget
    obtain ⟨pfx, hmem⟩ := (hr.networks key attrs).mp hget
    obtain ⟨entry, hentry, -⟩ := mem_wanted.mp hmem
    exact Dict.contains_iff.mpr ⟨entry, hentry⟩

theorem reconciled_follows (hr : Reconciled t t') : t'.Follows t.networkConfig := by
  have hwanted : ∀ af pfx attrs, t'.localAttrs af pfx = some attrs →
      ∃ text entry, t.networkConfig.get? (af, text) = some entry ∧
        t'.InEffect af text entry pfx attrs := by
    intro af pfx attrs hlocal
    obtain ⟨text, htext, hget⟩ := hr.remembered af pfx attrs hlocal
    obtain ⟨pfx', hmem⟩ := (hr.networks _ _).mp hget
    obtain ⟨entry, hentry, -, heffect⟩ := mem_wanted.mp hmem
    have hsame : pfx' = pfx := Option.some.inj (heffect.1.symm.trans htext)
    rw [hsame] at heffect
    exact ⟨text, entry, hentry, (inEffect_iff_of_engine hr.ground.engine).mpr heffect⟩
  constructor
  · intro af l hl pfx
    constructor
    · rintro ⟨p, hp, hpeer⟩
      obtain ⟨text, entry, hentry, heffect⟩ := hwanted af pfx p.attrs
        ((exists_local_iff hr.hosting hl).mp ⟨p, hp, hpeer, rfl⟩)
      exact ⟨text, entry, p.attrs, hentry, heffect⟩
    · rintro ⟨text, entry, attrs, hentry, heffect⟩
      have hcarried : t.locribs.contains af = true := by
        rw [← hr.ground.carried]
        exact Dict.contains_iff.mpr ⟨l, hl⟩
      have hmem : ((af, text), pfx, attrs) ∈ t.wanted :=
        mem_wanted.mpr ⟨entry, hentry, hcarried,
          (inEffect_iff_of_engine hr.ground.engine).mp heffect⟩
      obtain ⟨held, hheld⟩ := Option.isSome_iff_exists.mp (hr.placed _ hmem)
      obtain ⟨p, hp, hpeer, -⟩ := (exists_local_iff hr.hosting hl).mpr hheld
      exact ⟨p, hp, hpeer⟩
  · intro af l hl pfx p hp hpeer
    exact hwanted af pfx p.attrs ((exists_local_iff hr.hosting hl).mp ⟨p, hp, hpeer, rfl⟩)

theorem localAttrs_of_unstated (h : t.Originating stated) (hnone : ∀ key, stated.get? key = none)
    (af : Family) (pfx : Prefix) : t.localAttrs af pfx = none := by
  cases hlocal : t.localAttrs af pfx with
  | none => rfl
  | some attrs =>
    obtain ⟨text, -, hget⟩ := h.mirrors.remembered af pfx attrs hlocal
    have hstated := h.stated _ _ hget
    rw [Dict.contains, hnone] at hstated
    exact absurd hstated (by simp)

theorem follows_of_unstated (h : t.Originating stated)
    (hnone : ∀ key, stated.get? key = none) : t.Follows stated := by
  have hno : ∀ af l, t.locribs.get? af = some l → ∀ pfx, ∀ p ∈ l.pathsFor pfx,
      p.peer.oid ≠ LOCAL_PEER.oid := by
    intro af l hl pfx p hp hpeer
    have hlocal := (exists_local_iff h.mirrors.hosting hl).mp ⟨p, hp, hpeer, rfl⟩
    rw [localAttrs_of_unstated h hnone] at hlocal
    exact absurd hlocal (by simp)
  constructor
  · intro af l hl pfx
    constructor
    · rintro ⟨p, hp, hpeer⟩
      exact absurd hpeer (hno af l hl pfx p hp)
    · rintro ⟨text, entry, attrs, hentry, -⟩
      rw [hnone] at hentry
      exact absurd hentry (by simp)
  · intro af l hl pfx p hp hpeer
    exact absurd hpeer (hno af l hl pfx p hp)

/-- A reconciliation of what the section in force states. -/
theorem resync_spec (h : t.Originating stated) (hforce : t.networkConfig = stated)
    (hrec : t.Reconcilable) (now : Int) :
    (t.resync now).1.Originating stated ∧ (t.resync now).1.Follows stated := by
  rw [resync]
  cases hempty : t.networkConfig.isEmpty with
  | true =>
    rw [hforce, Dict.isEmpty_iff] at hempty
    exact ⟨h, follows_of_unstated h hempty⟩
  | false =>
    obtain ⟨t', hsync, hr⟩ := syncNetworks_spec h.mirrors hrec now
    rw [← hforce]
    simp only [Bool.false_eq_true, if_false, hsync]
    exact ⟨reconciled_originating hr, reconciled_follows hr⟩

/-- The statements of the section in force after one more step: those of the last commit,
none once the section is removed. -/
def restate (stated : Dict (Family × String) NetworkEntry) :
    Op → Dict (Family × String) NetworkEntry
  | .commit _ _ (some (_, body)) => body.networkConfig
  | .commit _ _ none => Dict.empty
  | .start _ => stated
  | .pass _ _ => stated
  | .session _ _ => stated
  | .policy _ _ => stated
  | .core _ => stated
  | .stop => stated

def inForce (ops : List Op) : Dict (Family × String) NetworkEntry := ops.foldl restate Dict.empty

/-- What a step leaves right after `_sync_networks`.  A commit that changes the AS goes
on from there and clears the Loc-RIBs. -/
def synced (t : BgpTables) : Op → Option BgpTables
  | .commit fresh now (some (asn, body)) => some ((t.adopt fresh asn body).syncNetworks now).1
  | .pass limit now => some (t.runPass limit now).1
  | .policy now store => some (t.policyChanged now store).1
  | .commit _ _ none => none
  | .start _ => none
  | .session _ _ => none
  | .core _ => none
  | .stop => none

/-- What a step must find: a reconciliation it can carry out, of the statements in force.
No session is the table's own name for this router. -/
def Meets (stated : Dict (Family × String) NetworkEntry) (t : BgpTables) : Op → Prop
  | .commit fresh _ (some (asn, body)) => (t.adopt fresh asn body).Reconcilable
  | .commit _ _ none => True
  | .pass limit _ => t.networkConfig = stated ∧ (t.selectAndCheck limit).Reconcilable
  | .policy _ store => t.networkConfig = stated ∧ (t.setStore store).Reconcilable
  | .session _ call => call.peer.oid ≠ LOCAL_PEER.oid
  | .start _ => True
  | .core _ => True
  | .stop => True

theorem commitConfig_spec (h : t.Originating stated) (fresh : Fresh) (now : Int) (asn : Nat)
    (body : BgpBody) (hrec : (t.adopt fresh asn body).Reconcilable) :
    (t.commitConfig fresh now (some (asn, body))).1.Originating body.networkConfig ∧
      ((t.adopt fresh asn body).syncNetworks now).1.Follows body.networkConfig := by
  obtain ⟨t', hsync, hr⟩ := syncNetworks_spec (mirrors_adopt h fresh asn body) hrec now
  have horiginating := reconciled_originating hr
  rw [commitConfig, hsync]
  refine ⟨?_, reconciled_follows hr⟩
  simp only
  split
  · obtain ⟨hhosting, hnone⟩ := shutdownAll_spec horiginating.mirrors.hosting
    exact originating_of_none (hosting_congr hhosting rfl)
      (fun af pfx => (localAttrs_congr rfl af pfx).trans (hnone af pfx)) rfl
  · exact originating_of_same horiginating
      (sameOriginated_of_locribs horiginating.mirrors.hosting rfl rfl)

theorem step_spec (h : t.Originating stated) (op : Op) (hmeets : t.Meets stated op) :
    (t.step op).Originating (restate stated op) ∧
      ∀ t', t.synced op = some t' → t'.Follows (restate stated op) := by
  cases op with
  | start engine =>
    refine ⟨originating_of_same h (sameOriginated_of_locribs h.mirrors.hosting rfl rfl), ?_⟩
    exact fun t' ht' => absurd ht' (by simp [synced])
  | commit fresh now bgp =>
    cases bgp with
    | none =>
      obtain ⟨hhosting, hnone⟩ := shutdownAll_spec h.mirrors.hosting
      refine ⟨originating_of_none hhosting hnone rfl, ?_⟩
      exact fun t' ht' => absurd ht' (by simp [synced])
    | some section_ =>
      obtain ⟨asn, body⟩ := section_
      obtain ⟨horiginating, hfollows⟩ := commitConfig_spec h fresh now asn body hmeets
      refine ⟨horiginating, ?_⟩
      intro t' ht'
      rw [synced, Option.some.injEq] at ht'
      rw [← ht']
      exact hfollows
  | pass limit now =>
    have hs := selectAndCheck_sameOriginated h.mirrors.hosting limit
    have hforce : (t.selectAndCheck limit).networkConfig = stated := by
      rw [← hmeets.1, selectAndCheck]
      split
      · rw [revalidate]
        split <;> rfl
      · rfl
    obtain ⟨horiginating, hfollows⟩ := resync_spec (originating_of_same h hs) hforce hmeets.2 now
    refine ⟨horiginating, ?_⟩
    intro t' ht'
    rw [synced, Option.some.injEq] at ht'
    rw [← ht']
    exact hfollows
  | session key call =>
    refine ⟨originating_of_same h (callSession_sameOriginated h.mirrors.hosting key hmeets), ?_⟩
    exact fun t' ht' => absurd ht' (by simp [synced])
  | policy now store =>
    have hs : SameOriginated t (t.setStore store) :=
      sameOriginated_of_locribs h.mirrors.hosting rfl rfl
    obtain ⟨horiginating, hfollows⟩ := resync_spec (originating_of_same h hs) hmeets.1 hmeets.2 now
    refine ⟨horiginating, ?_⟩
    intro t' ht'
    rw [synced, Option.some.injEq] at ht'
    rw [← ht']
    exact hfollows
  | core op =>
    refine ⟨originating_of_same h (sameOriginated_of_locribs h.mirrors.hosting rfl rfl), ?_⟩
    exact fun t' ht' => absurd ht' (by simp [synced])
  | stop =>
    obtain ⟨hhosting, hnone⟩ := shutdownAll_spec h.mirrors.hosting
    refine ⟨originating_of_none (hosting_congr hhosting rfl)
      (fun af pfx => (localAttrs_congr rfl af pfx).trans (hnone af pfx)) rfl, ?_⟩
    exact fun t' ht' => absurd ht' (by simp [synced])

/-- Every step of a run meets its condition when it comes. -/
def RunMeets (ops : List Op) : Prop :=
  ∀ before op after, ops = before ++ op :: after → (new.run before).Meets (inForce before) op

theorem run_append (t : BgpTables) (before after : List Op) :
    t.run (before ++ after) = (t.run before).run after := List.foldl_append

theorem inForce_append (before : List Op) (op : Op) :
    inForce (before ++ [op]) = restate (inForce before) op := by
  rw [inForce, List.foldl_append]
  rfl

theorem runMeets_of_append {before : List Op} {op : Op} (h : RunMeets (before ++ [op])) :
    RunMeets before := by
  intro earlier op' later hsplit
  apply h earlier op' (later ++ [op])
  rw [hsplit, List.append_assoc, List.cons_append]

theorem run_originating {ops : List Op} (hmeets : RunMeets ops) :
    (new.run ops).Originating (inForce ops) := by
  induction ops using List.reverseRecOn with
  | nil =>
    have hnone : ∀ af l, new.locribs.get? af ≠ some l := by
      intro af l hget
      exact absurd hget (by simp [new])
    exact originating_of_none (fun af l hl => absurd hl (hnone af l)) (fun _ _ => rfl) rfl
  | append_singleton before op ih =>
    rw [run_append, inForce_append]
    exact (step_spec (ih (runMeets_of_append hmeets)) op (hmeets before op [] rfl)).1

/-- IPv4 unicast with a `network` statement for each text. -/
def statingBody (texts : List String) : BgpBody where
  routerId := some 1
  addressFamily := Dict.empty.set IPV4_UNICAST
    { network := Dict.ofKeys (fun _ => some ⟨false, none⟩) texts
      maximumPaths := none
      maximumPathsIbgp := none
      distance := ⟨none, none⟩ }
  bestpath := ⟨none, none, none, none, none, none⟩
  defaultLocalPreference := none
  nextHopValidation := none

def emptyFresh : Fresh where
  attrTable := AttrTable.empty
  unused := BgpDest.new LocRib.netTen

def stating (texts : List String) : Op := .commit emptyFresh 0 (some (65001, statingBody texts))

end BgpTables

end Packets
