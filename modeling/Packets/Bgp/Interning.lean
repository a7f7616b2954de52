/-
Balance of the shared attribute table.

A claim is a set with the instance a path was given for it.  A table is balanced when it holds
every claimed set, with the claimed instance and the number of its claims.
-/
import Packets.Bgp.LocRibIndexes
import Mathlib.Algebra.BigOperators.Group.Finset.Basic
import Mathlib.Algebra.Order.Group.Multiset
import Mathlib.Tactic.Abel

namespace Packets

/-- A set and the instance of it that is held. -/
abbrev Claim := AttrSet × Nat

/-- The claims of some paths on the table. -/
def claimsOf (paths : List BgpPath) : Multiset Claim := paths.map fun p => (p.attrs, p.interned)

@[simp] theorem claimsOf_nil : claimsOf [] = 0 := rfl

theorem claimsOf_cons (p : BgpPath) (paths : List BgpPath) :
    claimsOf (p :: paths) = (p.attrs, p.interned) ::ₘ claimsOf paths := rfl

theorem claimsOf_append (paths paths' : List BgpPath) :
    claimsOf (paths ++ paths') = claimsOf paths + claimsOf paths' := by
  rw [claimsOf, List.map_append, ← Multiset.coe_add]
  rfl

@[simp] theorem card_claimsOf (paths : List BgpPath) : (claimsOf paths).card = paths.length := by
  rw [claimsOf, Multiset.coe_card, List.length_map]

theorem count_claimsOf (a : AttrSet) (oid : Nat) (paths : List BgpPath) :
    (claimsOf paths).count (a, oid) = paths.countP fun p => p.attrs = a ∧ p.interned = oid := by
  induction paths with
  | nil => rfl
  | cons p paths ih =>
    rw [claimsOf_cons, List.countP_cons, ← ih, Multiset.count_cons]
    by_cases hp : p.attrs = a ∧ p.interned = oid
    · simp [hp]
    · have hne : (a, oid) ≠ (p.attrs, p.interned) := by
        intro heq
        exact hp ⟨(Prod.mk.inj heq).1.symm, (Prod.mk.inj heq).2.symm⟩
      simp [hp, hne]

/-- The table holds what is claimed: the instance, and the number of claims. -/
structure Balanced (t : AttrTable) (claims : Multiset Claim) : Prop where
  held : ∀ {a oid}, (a, oid) ∈ claims → ∃ found, t.sets.get? a = some found ∧ found.oid = oid
  refs : ∀ {a found}, t.sets.get? a = some found →
    0 < found.refs ∧ found.refs = claims.count (a, found.oid)

theorem balanced_empty : Balanced AttrTable.empty 0 where
  held h := absurd h (Multiset.notMem_zero _)
  refs h := absurd h (by simp [AttrTable.empty])

theorem Balanced.not_claimed {t : AttrTable} {claims : Multiset Claim} (h : Balanced t claims)
    {a : AttrSet} (hnone : t.sets.get? a = none) (oid : Nat) : (a, oid) ∉ claims := by
  intro hmem
  obtain ⟨found, hfound, _⟩ := h.held hmem
  rw [hnone] at hfound
  exact absurd hfound (by simp)

/-- Interning adds the claim of the instance it returns. -/
theorem Balanced.intern {t : AttrTable} {claims : Multiset Claim} (h : Balanced t claims)
    (a : AttrSet) : Balanced (t.intern a).1 ((a, (t.intern a).2) ::ₘ claims) := by
  rw [AttrTable.intern]
  cases hget : t.sets.get? a with
  | some found =>
    constructor
    · intro b oid hmem
      rcases Multiset.mem_cons.mp hmem with heq | hmem
      · obtain ⟨rfl, rfl⟩ := Prod.mk.inj heq
        exact ⟨_, Dict.get?_set _ _ _ _ |>.trans (if_pos rfl), rfl⟩
      · obtain ⟨other, hother, hoid⟩ := h.held hmem
        by_cases hb : b = a
        · subst hb
          rw [hget, Option.some.injEq] at hother
          exact ⟨_, Dict.get?_set _ _ _ _ |>.trans (if_pos rfl), hother ▸ hoid⟩
        · exact ⟨other, by simpa [hb] using hother, hoid⟩
    · intro b other hother
      by_cases hb : b = a
      · subst hb
        simp only [Dict.get?_set, if_true, Option.some.injEq] at hother
        subst hother
        refine ⟨Nat.succ_pos _, ?_⟩
        rw [Multiset.count_cons_self, ← (h.refs hget).2]
      · simp only [Dict.get?_set, hb, if_false] at hother
        rw [Multiset.count_cons_of_ne fun heq => hb (Prod.mk.inj heq).1]
        exact h.refs hother
  | none =>
    constructor
    · intro b oid hmem
      rcases Multiset.mem_cons.mp hmem with heq | hmem
      · obtain ⟨rfl, rfl⟩ := Prod.mk.inj heq
        exact ⟨_, Dict.get?_set _ _ _ _ |>.trans (if_pos rfl), rfl⟩
      · obtain ⟨other, hother, hoid⟩ := h.held hmem
        have hb : b ≠ a := by
          rintro rfl
          rw [hget] at hother
          exact absurd hother (by simp)
        exact ⟨other, by simpa [hb] using hother, hoid⟩
    · intro b other hother
      by_cases hb : b = a
      · subst hb
        simp only [Dict.get?_set, if_true, Option.some.injEq] at hother
        subst hother
        refine ⟨Nat.one_pos, ?_⟩
        rw [Multiset.count_cons_self, Multiset.count_eq_zero.mpr (h.not_claimed hget _)]
      · simp only [Dict.get?_set, hb, if_false] at hother
        rw [Multiset.count_cons_of_ne fun heq => hb (Prod.mk.inj heq).1]
        exact h.refs hother

/-- Releasing a claim that is held takes exactly that claim back. -/
theorem Balanced.release {t : AttrTable} {claims : Multiset Claim} {a : AttrSet} {oid : Nat}
    (h : Balanced t ((a, oid) ::ₘ claims)) : Balanced (t.release a oid) claims := by
  obtain ⟨found, hfound, hoid⟩ := h.held (Multiset.mem_cons_self _ _)
  subst hoid
  have hrefs := (h.refs hfound).2
  rw [Multiset.count_cons_self] at hrefs
  have hinstance : ∀ {oid}, (a, oid) ∈ claims → oid = found.oid := by
    intro oid hmem
    obtain ⟨other, hother, hoid⟩ := h.held (Multiset.mem_cons_of_mem hmem)
    rw [hfound, Option.some.injEq] at hother
    rw [← hoid, hother]
  have hother : ∀ {b other}, b ≠ a → t.sets.get? b = some other →
      0 < other.refs ∧ other.refs = claims.count (b, other.oid) := by
    intro b other hb hget
    have hcount := h.refs hget
    rwa [Multiset.count_cons_of_ne fun heq => hb (Prod.mk.inj heq).1] at hcount
  rw [AttrTable.release, hfound]
  dsimp only
  rw [if_neg (not_not.mpr rfl)]
  by_cases hlast : found.refs - 1 ≤ 0
  · rw [if_pos hlast]
    have hnone : ∀ oid, (a, oid) ∉ claims := by
      intro oid hmem
      have hpos := Multiset.count_pos.mpr hmem
      rw [hinstance hmem] at hpos
      omega
    constructor
    · intro b oid hmem
      obtain ⟨other, hget, hoid⟩ := h.held (Multiset.mem_cons_of_mem hmem)
      have hb : b ≠ a := by
        rintro rfl
        exact hnone oid hmem
      exact ⟨other, by simpa [hb] using hget, hoid⟩
    · intro b other hget
      by_cases hb : b = a
      · simp [hb] at hget
      · simp only [Dict.get?_erase, hb, if_false] at hget
        exact hother hb hget
  · rw [if_neg hlast]
    constructor
    · intro b oid hmem
      by_cases hb : b = a
      · subst hb
        exact ⟨_, Dict.get?_set _ _ _ _ |>.trans (if_pos rfl), (hinstance hmem).symm⟩
      · obtain ⟨other, hget, hoid⟩ := h.held (Multiset.mem_cons_of_mem hmem)
        exact ⟨other, by simpa [hb] using hget, hoid⟩
    · intro b other hget
      by_cases hb : b = a
      · subst hb
        simp only [Dict.get?_set, if_true, Option.some.injEq] at hget
        subst hget
        dsimp only
        omega
      · simp only [Dict.get?_set, hb, if_false] at hget
        exact hother hb hget

theorem Balanced.releaseAll (gone : List BgpPath) {t : AttrTable} {claims : Multiset Claim}
    (h : Balanced t (claimsOf gone + claims)) :
    Balanced (gone.foldl (fun t p => t.release p.attrs p.interned) t) claims := by
  induction gone generalizing t with
  | nil => simpa using h
  | cons p gone ih =>
    rw [claimsOf_cons, Multiset.cons_add] at h
    exact ih h.release

theorem claimsOf_perm {paths paths' : List BgpPath} (h : paths.Perm paths') :
    claimsOf paths = claimsOf paths' :=
  Multiset.coe_eq_coe.mpr (h.map _)

/-- An arrival adds the claim of the new path to those it did not replace. -/
theorem claimsOf_putPath (path : BgpPath) (paths : List BgpPath) :
    claimsOf (putPath path paths) +
        claimsOf (paths.find? fun p => p.isFrom path.peer path.pathId).toList =
      claimsOf paths + claimsOf [path] := by
  induction paths with
  | nil => rfl
  | cons old rest ih =>
    by_cases hold : old.isFrom path.peer path.pathId = true
    · simp only [putPath, hold, if_true, List.find?_cons, Option.toList_some,
        claimsOf_cons, claimsOf_nil]
      rw [Multiset.cons_add, Multiset.cons_add, Multiset.add_cons, Multiset.add_cons,
        Multiset.cons_swap]
    · simp only [putPath, hold, List.find?_cons, claimsOf_cons (p := old)]
      rw [if_neg Bool.false_ne_true, claimsOf_cons, Multiset.cons_add, Multiset.cons_add, ih]

/-- A withdrawal takes the claim of the path it finds. -/
theorem claimsOf_eraseP {peer : PeerRef} {pathId : Nat} {path : BgpPath} {paths : List BgpPath}
    (hfind : paths.find? (fun p => p.isFrom peer pathId) = some path) :
    claimsOf paths = claimsOf [path] + claimsOf (paths.eraseP fun p => p.isFrom peer pathId) := by
  induction paths with
  | nil => exact absurd hfind (by simp)
  | cons old rest ih =>
    by_cases hold : old.isFrom peer pathId = true
    · simp only [List.find?_cons, hold, Option.some.injEq] at hfind
      simp only [List.eraseP_cons, hold, cond_true]
      rw [hfind]
      rfl
    · simp only [List.find?_cons, hold] at hfind
      simp only [List.eraseP_cons, hold, cond_false]
      rw [claimsOf_cons old rest, ih hfind, claimsOf_cons old (rest.eraseP _), Multiset.add_cons]

theorem claimsOf_removePeer (oid : Nat) (paths : List BgpPath) :
    claimsOf paths = claimsOf (paths.filter fun p => p.peer.oid == oid) +
      claimsOf (paths.filter fun p => p.peer.oid ≠ oid) := by
  rw [← claimsOf_append]
  have hnot : (fun p : BgpPath => decide (p.peer.oid ≠ oid)) = fun p => !(p.peer.oid == oid) := by
    funext p
    simp [Bool.beq_eq_decide_eq]
  rw [hnot]
  exact claimsOf_perm (List.filter_append_perm _ paths).symm

namespace LocRib

/-- Every path a table holds. -/
def heldPaths (s : LocRib) : List BgpPath := s.dests.keys.flatMap s.pathsFor

theorem pathsFor_of_not_mem {s : LocRib} {q : Prefix} (h : q ∉ s.dests.keys) :
    s.pathsFor q = [] := by
  cases hget : s.dests.get? q with
  | none => rw [pathsFor, hget]
  | some d => exact absurd (Dict.mem_keys_iff.mpr ⟨d, hget⟩) h

/-- The claims of a table, prefix by prefix over any prefixes it may hold. -/
theorem claimsOf_heldPaths (s : LocRib) (pfxs : Finset Prefix) (h : ∀ q ∈ s.dests.keys, q ∈ pfxs) :
    claimsOf s.heldPaths = ∑ q ∈ pfxs, claimsOf (s.pathsFor q) := by
  have hkeys : claimsOf s.heldPaths = ∑ q ∈ s.dests.keys.toFinset, claimsOf (s.pathsFor q) := by
    have hnodup : s.dests.keys.Nodup := s.dests.nodup
    rw [List.sum_toFinset _ hnodup, heldPaths]
    generalize s.dests.keys = keys
    induction keys with
    | nil => rfl
    | cons q keys ih => rw [List.flatMap_cons, claimsOf_append, ih, List.map_cons, List.sum_cons]
  rw [hkeys]
  apply Finset.sum_subset
  · intro q hq
    exact h q (List.mem_toFinset.mp hq)
  · intro q _ hq
    rw [pathsFor_of_not_mem fun hmem => hq (List.mem_toFinset.mpr hmem)]
    rfl

/-- A step that changes the paths of one prefix changes the claims by theirs. -/
theorem claimsOf_heldPaths_update {s s' : LocRib} {pfx : Prefix}
    (h : ∀ q, q ≠ pfx → s'.pathsFor q = s.pathsFor q) :
    claimsOf s'.heldPaths + claimsOf (s.pathsFor pfx) =
      claimsOf s.heldPaths + claimsOf (s'.pathsFor pfx) := by
  let pfxs : Finset Prefix := insert pfx (s.dests.keys.toFinset ∪ s'.dests.keys.toFinset)
  have hs : ∀ q ∈ s.dests.keys, q ∈ pfxs := fun q hq => by simp [pfxs, hq]
  have hs' : ∀ q ∈ s'.dests.keys, q ∈ pfxs := fun q hq => by simp [pfxs, hq]
  have hpfx : pfx ∈ pfxs := Finset.mem_insert_self _ _
  have hrest : ∑ q ∈ pfxs.erase pfx, claimsOf (s'.pathsFor q) =
      ∑ q ∈ pfxs.erase pfx, claimsOf (s.pathsFor q) :=
    Finset.sum_congr rfl fun q hq => by rw [h q (Finset.ne_of_mem_erase hq)]
  rw [claimsOf_heldPaths s pfxs hs, claimsOf_heldPaths s' pfxs hs', ← Finset.add_sum_erase _ _ hpfx,
    ← Finset.add_sum_erase _ _ hpfx, hrest]
  abel

theorem claimsOf_heldPaths_congr {s s' : LocRib}
    (h : ∀ q, claimsOf (s'.pathsFor q) = claimsOf (s.pathsFor q)) :
    claimsOf s'.heldPaths = claimsOf s.heldPaths := by
  let pfxs : Finset Prefix := s.dests.keys.toFinset ∪ s'.dests.keys.toFinset
  rw [claimsOf_heldPaths s pfxs fun q hq => by simp [pfxs, hq],
    claimsOf_heldPaths s' pfxs fun q hq => by simp [pfxs, hq]]
  exact Finset.sum_congr rfl fun q _ => h q

/-- Two states with the same attribute table and path count. -/
structure SameClaims (s s' : LocRib) : Prop where
  attrTable : s'.attrTable = s.attrTable
  pathCount : s'.pathCount = s.pathCount

theorem SameClaims.refl (s : LocRib) : SameClaims s s := ⟨rfl, rfl⟩

theorem SameClaims.trans {s s' s'' : LocRib} (h : SameClaims s s')
    (h' : SameClaims s' s'') : SameClaims s s'' :=
  ⟨h'.attrTable.trans h.attrTable, h'.pathCount.trans h.pathCount⟩

theorem fileNexthop_sameClaims (s : LocRib) (nexthop : Bytes) (dests : Dict Prefix DestId) :
    SameClaims s (s.fileNexthop nexthop dests) := by
  unfold fileNexthop
  split <;> exact ⟨rfl, rfl⟩

theorem unindexNexthop_sameClaims (s : LocRib) (nexthop : Bytes) (d : DestId) :
    SameClaims s (s.unindexNexthop nexthop d) := by
  unfold unindexNexthop
  split
  · exact SameClaims.refl s
  · split
    · exact SameClaims.refl s
    · split
      · exact SameClaims.refl s
      · split
        · exact SameClaims.refl s
        · exact fileNexthop_sameClaims s nexthop _

theorem foldl_unindexNexthop_sameClaims (gone : List BgpPath) (d : DestId) (s : LocRib) :
    SameClaims s (gone.foldl (fun s p => s.unindexNexthop p.attrs.nexthop d) s) := by
  induction gone generalizing s with
  | nil => exact SameClaims.refl s
  | cons p gone ih => exact (unindexNexthop_sameClaims s p.attrs.nexthop d).trans (ih _)

theorem indexNexthop_sameClaims (s : LocRib) (nexthop : Bytes) (d : DestId) (resolved : Bool)
    (igpMetric : Nat) : SameClaims s (s.indexNexthop nexthop d resolved igpMetric) := by
  unfold indexNexthop
  split <;> exact ⟨rfl, rfl⟩

theorem indexRemove_sameClaims (s : LocRib) (peer : PeerRef) (pfx : Prefix) :
    SameClaims s (s.indexRemove peer pfx) := by
  unfold indexRemove
  split
  · exact SameClaims.refl s
  · dsimp only
    split <;> exact ⟨rfl, rfl⟩

theorem enqueue_sameClaims (s : LocRib) (d : DestId) : SameClaims s (s.enqueue d) := by
  unfold enqueue
  split <;> exact ⟨rfl, rfl⟩

theorem dropEmpty_sameClaims (s : LocRib) (d : DestId) : SameClaims s (s.dropEmpty d) := by
  unfold dropEmpty
  split <;> exact ⟨rfl, rfl⟩

theorem retract_sameClaims (s : LocRib) (pfx : Prefix) : SameClaims s (s.retract pfx) := by
  unfold retract
  split <;> exact ⟨rfl, rfl⟩

theorem offer_sameClaims (s : LocRib) (pfx : Prefix) (path : BgpPath) :
    SameClaims s (s.offer pfx path) := by
  unfold offer
  split
  · exact retract_sameClaims s pfx
  · split
    · exact retract_sameClaims s pfx
    · exact ⟨rfl, rfl⟩

theorem publish_sameClaims (s : LocRib) (previous : Option BgpPath) (dest : BgpDest) :
    SameClaims s (s.publish previous dest) := by
  unfold publish
  split
  · exact SameClaims.refl s
  · split
    · exact retract_sameClaims s _
    · split
      · exact retract_sameClaims s _
      · exact offer_sameClaims s _ _

theorem reselectDest_sameClaims (s : LocRib) (d : DestId) : SameClaims s (s.reselectDest d) := by
  have hset : ∀ dest, SameClaims s (s.setDest d dest) := fun _ => ⟨rfl, rfl⟩
  rw [reselectDest_eq]
  dsimp only
  split
  · exact (hset _).trans ((publish_sameClaims _ _ _).trans (dropEmpty_sameClaims _ d))
  · exact (hset _).trans (publish_sameClaims _ _ _)

theorem foldl_sameClaims {α : Type} (f : LocRib → α → LocRib) (hf : ∀ s a, SameClaims s (f s a))
    (l : List α) (s : LocRib) : SameClaims s (l.foldl f s) := by
  induction l generalizing s with
  | nil => exact SameClaims.refl s
  | cons a l ih => exact (hf s a).trans (ih _)

theorem reselect_sameClaims (s : LocRib) (limit : Int) : SameClaims s (s.reselect limit) := by
  have hqueue : ∀ queue, SameClaims s { s with queue := queue } := fun _ => ⟨rfl, rfl⟩
  exact (hqueue _).trans (foldl_sameClaims reselectDest reselectDest_sameClaims _ _)

theorem setConfig_sameClaims (s : LocRib) (config : BestpathConfig) :
    SameClaims s (s.setConfig config) := by
  have hconfig : SameClaims s { s with config := config } := ⟨rfl, rfl⟩
  unfold setConfig
  split
  · exact SameClaims.refl s
  · exact hconfig.trans (foldl_sameClaims enqueue enqueue_sameClaims _ _)

theorem revalidateDest_sameClaims (nexthop : Bytes) (answer : Bool × Nat) (s : LocRib)
    (entry : Prefix × DestId) : SameClaims s (revalidateDest nexthop answer s entry) := by
  have hset : ∀ dest, SameClaims s (s.setDest entry.2 dest) := fun _ => ⟨rfl, rfl⟩
  unfold revalidateDest
  split
  · exact SameClaims.refl s
  · split
    · exact (hset _).trans (enqueue_sameClaims _ _)
    · exact SameClaims.refl s

theorem revalidateNexthop_sameClaims (check : Check) (s : LocRib) (nexthop : Bytes) :
    SameClaims s (revalidateNexthop check s nexthop) := by
  have hstate : ∀ state, SameClaims s { s with nhState := state } := fun _ => ⟨rfl, rfl⟩
  unfold revalidateNexthop
  split
  · exact SameClaims.refl s
  · dsimp only
    split
    · exact fileNexthop_sameClaims s nexthop _
    · apply (hstate _).trans
      apply (foldl_sameClaims (revalidateDest nexthop _)
        (revalidateDest_sameClaims nexthop _) _ _).trans
      exact fileNexthop_sameClaims _ nexthop _

theorem revalidate_sameClaims (s : LocRib) (check : Check) : SameClaims s (s.revalidate check) :=
  foldl_sameClaims (revalidateNexthop check) (revalidateNexthop_sameClaims check) _ s

/-- The table is balanced over what this Loc-RIB holds and what others claim, and the
Loc-RIB counts its paths. -/
structure Claiming (others : Multiset Claim) (s : LocRib) : Prop where
  balanced : Balanced s.attrTable (claimsOf s.heldPaths + others)
  counted : s.pathCount = s.heldPaths.length

section Steps

variable {others : Multiset Claim} {s s' : LocRib}

theorem Claiming.of_same (h : Claiming others s) (hsame : SameClaims s s')
    (hpaths : ∀ q, claimsOf (s'.pathsFor q) = claimsOf (s.pathsFor q)) : Claiming others s' where
  balanced := by
    rw [hsame.attrTable, claimsOf_heldPaths_congr hpaths]
    exact h.balanced
  counted := by
    rw [hsame.pathCount, h.counted, ← card_claimsOf, ← card_claimsOf,
      claimsOf_heldPaths_congr hpaths]

/-- A step that takes paths from one prefix and releases exactly these. -/
theorem Claiming.lose (h : Claiming others s) (pfx : Prefix) (gone : List BgpPath)
    (hother : ∀ q, q ≠ pfx → s'.pathsFor q = s.pathsFor q)
    (hpfx : claimsOf (s.pathsFor pfx) = claimsOf gone + claimsOf (s'.pathsFor pfx))
    (htable : s'.attrTable = gone.foldl (fun t p => t.release p.attrs p.interned) s.attrTable)
    (hcount : s'.pathCount = s.pathCount - gone.length) : Claiming others s' := by
  have hheld : claimsOf s.heldPaths = claimsOf gone + claimsOf s'.heldPaths := by
    have hupdate := claimsOf_heldPaths_update hother
    rw [hpfx, ← add_assoc] at hupdate
    rw [add_comm (claimsOf gone)]
    exact (add_right_cancel hupdate).symm
  constructor
  · rw [htable]
    apply Balanced.releaseAll gone
    rw [← add_assoc, ← hheld]
    exact h.balanced
  · have hcard := congrArg Multiset.card hheld
    rw [Multiset.card_add, card_claimsOf, card_claimsOf, card_claimsOf] at hcard
    rw [hcount, h.counted, hcard]
    omega

/-- What an arrival does to the table and to the paths of its prefix. -/
theorem addPath_claims {peer : PeerRef} {pfx : Prefix} {a : Arrival} (hw : s.Wf)
    (hadd : s.addPath peer pfx a = some s') :
    ∃ path, path.attrs = a.attrs ∧ path.interned = (s.attrTable.intern a.attrs).2 ∧
      (∀ q, q ≠ pfx → s'.pathsFor q = s.pathsFor q) ∧
      s'.pathsFor pfx = putPath path (s.pathsFor pfx) ∧
      s'.attrTable = ((s.pathsFor pfx).find? fun p =>
          p.isFrom path.peer path.pathId).toList.foldl
        (fun t p => t.release p.attrs p.interned) (s.attrTable.intern a.attrs).1 ∧
      s'.pathCount + ((s.pathsFor pfx).find? fun p =>
        p.isFrom path.peer path.pathId).toList.length = s.pathCount + 1 := by
  unfold addPath at hadd
  split at hadd
  · simp at hadd
  rename_i s₁ d hdest
  obtain ⟨hw₁, hd, -, -, -, hfor₁⟩ := dest_spec hw hdest
  simp only [Option.some.injEq] at hadd
  let path := a.path s₁.nextPath (s₁.attrTable.intern a.attrs).2 peer (s₁.cell d)
  let s₂ := { s₁ with
    attrTable := (s₁.attrTable.intern a.attrs).1
    nextPath := s₁.nextPath + 1 }
  let s₃ := s₂.setDest d ((s₂.cell d).add path)
  let s₄ := s₃.settleReplaced d a.attrs.nexthop ((s₁.cell d).find peer a.pathId)
  let s₅ := s₄.indexAdd peer d
  let s₆ := s₅.indexNexthop a.attrs.nexthop d a.resolved a.igpMetric
  change s₆.enqueue d = s' at hadd
  have hold : s₁.attrTable = s.attrTable ∧ s₁.pathCount = s.pathCount := by
    rcases dest_cases hdest with ⟨_, rfl⟩ | ⟨_, _, rfl⟩ <;> exact ⟨rfl, rfl⟩
  have hw₂ : s₂.Wf := hw₁.of_same ⟨rfl, rfl, rfl, rfl⟩ ⟨rfl, rfl⟩
  have ht₆ : SameTable s₃ s₆ :=
    ((settleReplaced_sameTable s₃ d _ _).trans (indexAdd_sameTable s₄ peer d)).trans
      (indexNexthop_sameTable s₅ _ d _ _)
  have hfor : ∀ q, s'.pathsFor q =
      if q = pfx then (s₃.cell d).paths else s.pathsFor q := by
    intro q
    rw [← hadd, pathsFor_enqueue, ht₆.pathsFor, Wf.pathsFor_setDest hw₂ hd, cell_setDest,
      if_pos rfl]
    by_cases hq : q = pfx
    · rw [if_pos hq, if_pos hq]
    · rw [if_neg hq, if_neg hq]
      exact hfor₁ q
  have hpaths : (s₁.cell d).paths = s.pathsFor pfx := by rw [← hfor₁, pathsFor_of_dests hd]
  have hindexed : SameClaims s₄ s' := by
    rw [← hadd]
    have hadded : SameClaims s₄ s₅ := ⟨rfl, rfl⟩
    exact hadded.trans ((indexNexthop_sameClaims s₅ _ d _ _).trans (enqueue_sameClaims s₆ d))
  have hfind : (s₁.cell d).find peer a.pathId = (s.pathsFor pfx).find? fun p =>
      p.isFrom path.peer path.pathId := by
    rw [BgpDest.find, hpaths]
    rfl
  refine ⟨path, rfl, ?_, ?_, ?_, ?_, ?_⟩
  · change (s₁.attrTable.intern a.attrs).2 = _
    rw [hold.1]
  · intro q hq
    rw [hfor, if_neg hq]
  · rw [hfor, if_pos rfl, cell_setDest, if_pos rfl, ← hpaths]
    rfl
  · rw [hindexed.attrTable, ← hfind, ← hold.1]
    change (s₃.settleReplaced d a.attrs.nexthop _).attrTable = _
    cases (s₁.cell d).find peer a.pathId with
    | none => rfl
    | some old =>
      rw [settleReplaced]
      by_cases hne : old.attrs.nexthop ≠ a.attrs.nexthop
      · rw [if_pos hne, (unindexNexthop_sameClaims _ _ d).attrTable]
        rfl
      · rw [if_neg hne]
        rfl
  · rw [hindexed.pathCount, ← hfind, ← hold.2]
    change (s₃.settleReplaced d a.attrs.nexthop _).pathCount + _ = _
    cases (s₁.cell d).find peer a.pathId with
    | none => rfl
    | some old =>
      rw [settleReplaced]
      by_cases hne : old.attrs.nexthop ≠ a.attrs.nexthop
      · rw [if_pos hne, (unindexNexthop_sameClaims _ _ d).pathCount]
        rfl
      · rw [if_neg hne]
        rfl

theorem addPath_claiming {peer : PeerRef} {pfx : Prefix} {a : Arrival} (hw : s.Wf)
    (h : Claiming others s) (hadd : s.addPath peer pfx a = some s') : Claiming others s' := by
  obtain ⟨path, hattrs, hinterned, hother, hput, htable, hcount⟩ := addPath_claims hw hadd
  have hupdate := claimsOf_heldPaths_update hother
  have hreplaced := claimsOf_putPath path (s.pathsFor pfx)
  rw [← hput] at hreplaced
  generalize ((s.pathsFor pfx).find? fun p =>
    p.isFrom path.peer path.pathId).toList = replaced at hreplaced htable hcount
  have hheld : claimsOf replaced + claimsOf s'.heldPaths =
      claimsOf [path] + claimsOf s.heldPaths := by
    apply add_right_cancel (b := claimsOf (s.pathsFor pfx))
    rw [add_assoc, hupdate, add_left_comm, add_comm (claimsOf replaced), hreplaced]
    abel
  constructor
  · rw [htable]
    apply Balanced.releaseAll replaced
    rw [← add_assoc, hheld, claimsOf_cons, claimsOf_nil, hattrs, hinterned,
      Multiset.cons_add, Multiset.cons_add, zero_add]
    exact h.balanced.intern a.attrs
  · have hcard := congrArg Multiset.card hheld
    rw [Multiset.card_add, Multiset.card_add, card_claimsOf, card_claimsOf, card_claimsOf,
      card_claimsOf, List.length_singleton] at hcard
    have hcounted := h.counted
    omega

theorem removePath_claiming (hi : s.Indexed) (h : Claiming others s) (peer : PeerRef)
    (pfx : Prefix) (pathId : Nat) : Claiming others (s.removePath peer pfx pathId) := by
  have hfor := (removePath_indexed hi peer pfx pathId).2
  unfold removePath at hfor ⊢
  split at hfor
  · exact h
  · rename_i d hd
    split at hfor
    · exact h
    · rename_i path hpath
      let s₁ := { s.setDest d ((s.cell d).remove peer pathId) with
        pathCount := s.pathCount - 1
        attrTable := s.attrTable.release path.attrs path.interned }
      let s₂ := if s₁.peerHas peer d then s₁ else s₁.indexRemove peer pfx
      have hsame : SameClaims s₁ s₂ := by
        dsimp only [s₂]
        split
        · exact SameClaims.refl s₁
        · exact indexRemove_sameClaims s₁ peer pfx
      have hrest : SameClaims s₁
          (((s₂.enqueue d).dropEmpty d).unindexNexthop path.attrs.nexthop d) :=
        hsame.trans ((enqueue_sameClaims s₂ d).trans ((dropEmpty_sameClaims _ d).trans
          (unindexNexthop_sameClaims _ _ d)))
      refine h.lose pfx [path] ?_ ?_ hrest.attrTable hrest.pathCount
      · intro q hq
        exact (hfor q).trans (if_neg hq)
      · have hpfx := hfor pfx
        rw [if_pos rfl, pathsFor_of_dests hd] at hpfx
        rw [pathsFor_of_dests hd]
        exact (claimsOf_eraseP hpath).trans (congrArg (claimsOf [path] + claimsOf ·) hpfx.symm)

theorem removePeerFrom_claiming {todo : List DestId} {unfiled : DestId → Bytes → Prop}
    (hw : WfBut unfiled todo s) (h : Claiming others s) (peer : PeerRef) {pfx : Prefix}
    {d : DestId} (hd : s.dests.get? pfx = some d) : Claiming others (removePeerFrom peer s d) := by
  have hfor := (removePeerFrom_paths hw peer hd).2.2.2
  let gone := (s.cell d).paths.filter fun p => p.peer.oid == peer.oid
  let s₁ := { s with
    attrTable := gone.foldl (fun t (p : BgpPath) => t.release p.attrs p.interned) s.attrTable }
  have htable : (removePeerFrom peer s d).attrTable = s₁.attrTable ∧
      (removePeerFrom peer s d).pathCount = s.pathCount - gone.length := by
    unfold removePeerFrom
    dsimp only
    split
    · rename_i hnone
      have hgone : gone = [] := List.isEmpty_iff.mp hnone
      exact ⟨rfl, by rw [hgone]; rfl⟩
    · let s₂ := { s₁.setDest d ((s₁.cell d).removePeer peer) with
        pathCount := s₁.pathCount - gone.length }
      have hrest : SameClaims s₂ (gone.foldl (fun s p => s.unindexNexthop p.attrs.nexthop d)
          ((s₂.enqueue d).dropEmpty d)) :=
        (enqueue_sameClaims s₂ d).trans ((dropEmpty_sameClaims _ d).trans
          (foldl_unindexNexthop_sameClaims gone d _))
      exact ⟨hrest.attrTable, hrest.pathCount⟩
  refine h.lose pfx gone ?_ ?_ htable.1 htable.2
  · intro q hq
    rw [hfor, if_neg hq]
  · rw [hfor, if_pos rfl, pathsFor_of_dests hd]
    exact claimsOf_removePeer peer.oid _

theorem foldl_removePeerFrom_claiming (peer : PeerRef) (entries : List (Prefix × DestId))
    (hnodup : (entries.map Prod.fst).Nodup) (hw : s.Wf) (h : Claiming others s)
    (hlive : ∀ e ∈ entries, s.dests.get? e.1 = some e.2) :
    Claiming others ((entries.map Prod.snd).foldl (removePeerFrom peer) s) := by
  induction entries generalizing s with
  | nil => exact h
  | cons entry entries ih =>
    simp only [List.map_cons, List.nodup_cons] at hnodup
    have hd := hlive entry List.mem_cons_self
    have hother := (removePeerFrom_paths hw peer hd).2.2.1
    apply ih hnodup.2 (removePeerFrom_spec hw peer entry.2).1 (removePeerFrom_claiming hw h peer hd)
    intro e hmem
    rw [hother e.1 fun heq => hnodup.1 (heq ▸ List.mem_map.mpr ⟨e, hmem, rfl⟩)]
    exact hlive e (List.mem_cons_of_mem entry hmem)

theorem removePeer_claiming (hi : s.Indexed) (h : Claiming others s) (peer : PeerRef) :
    Claiming others (s.removePeer peer) := by
  unfold removePeer
  split
  · exact h
  · rename_i contributed hpeer
    refine foldl_removePeerFrom_claiming peer contributed.entries contributed.nodup
      (hi.wf.of_same ⟨rfl, rfl, rfl, rfl⟩ ⟨rfl, rfl⟩) ⟨h.balanced, h.counted⟩ ?_
    intro e hmem
    have hget := Dict.mem_entries_iff.mp hmem
    exact ((hi.exact peer.oid e.1 e.2).mp ⟨contributed, hpeer, hget⟩).1

theorem heldPaths_eq_values (s : LocRib) :
    s.heldPaths = s.dests.values.flatMap fun d => (s.cell d).paths := by
  rw [heldPaths, Dict.keys, Dict.values, List.flatMap_map, List.flatMap_map]
  apply List.flatMap_congr
  intro e hmem
  exact pathsFor_of_dests (Dict.mem_entries_iff.mp hmem)

theorem clear_claiming (h : Claiming others s) : Claiming others s.clear := by
  let s₁ := { s with
    attrTable := (s.dests.values.flatMap fun d => (s.cell d).paths).foldl
      (fun t (p : BgpPath) => t.release p.attrs p.interned) s.attrTable }
  let unqueue := fun (s : LocRib) d => s.setDest d { s.cell d with queued := false }
  have hunqueue : ∀ s d, SameClaims s (unqueue s d) := fun _ _ => ⟨rfl, rfl⟩
  have hkept : SameClaims s₁ (s.offered.foldl retract (s.dests.values.foldl unqueue s₁)) :=
    (foldl_sameClaims unqueue hunqueue _ _).trans (foldl_sameClaims retract retract_sameClaims _ _)
  constructor
  · have hoffered : (s.dests.values.foldl unqueue s₁).offered = s.offered := by
      generalize s.dests.values = held
      have hstart : s₁.offered = s.offered := rfl
      generalize s₁ = start at hstart
      induction held generalizing start with
      | nil => exact hstart
      | cons d held ih => exact ih _ hstart
    have htable : s.clear.attrTable = s₁.attrTable := by
      rw [← hkept.attrTable, ← hoffered]
      rfl
    rw [htable]
    have hnone : claimsOf s.clear.heldPaths + others = others := zero_add others
    rw [hnone]
    apply Balanced.releaseAll
    rw [← heldPaths_eq_values]
    exact h.balanced
  · rfl

theorem step_claiming (hi : s.Indexed) (h : Claiming others s) (op : Op) :
    Claiming others (s.step op) := by
  cases op with
  | addPath peer pfx arrival =>
    simp only [step]
    cases hadd : s.addPath peer pfx arrival with
    | none => exact h
    | some s' => exact addPath_claiming hi.wf h hadd
  | removePath peer pfx pathId => exact removePath_claiming hi h peer pfx pathId
  | removePeer peer => exact removePeer_claiming hi h peer
  | revalidate check =>
    apply h.of_same (revalidate_sameClaims s check)
    intro q
    have hrefresh : ∀ p, (refresh check s.afi s.nhState s.nhDests.keys p).interned =
        p.interned := by
      intro p
      rw [refresh]
      split <;> rfl
    rw [(revalidate_spec hi.wf check).2.2.1, claimsOf, claimsOf, List.map_map]
    congr 1
    apply List.map_congr_left
    intro p _
    simp [hrefresh]
  | reselect limit =>
    apply h.of_same (reselect_sameClaims s limit)
    intro q
    rw [(reselect_indexed hi limit).2]
  | setConfig config =>
    apply h.of_same (setConfig_sameClaims s config)
    intro q
    rw [(setConfig_indexed hi config).2]
  | clear => exact clear_claiming h

end Steps

end LocRib

/-- Loc-RIBs sharing one attribute table. -/
structure SharedRibs where
  attrTable : AttrTable
  ribs : List LocRib

/-- What a Loc-RIB is constructed with besides the shared table. -/
structure RibArgs where
  afi : Nat
  safi : Nat
  config : BestpathConfig
  unused : BgpDest

namespace SharedRibs

def start (args : List RibArgs) : SharedRibs where
  attrTable := AttrTable.empty
  ribs := args.map fun a => LocRib.new a.afi a.safi AttrTable.empty a.config a.unused

/-- One call of one of the Loc-RIBs, which works on the shared table. -/
def step (s : SharedRibs) (call : Nat × LocRib.Op) : SharedRibs :=
  match s.ribs[call.1]? with
  | none => s
  | some rib =>
    let rib := { rib with attrTable := s.attrTable }.step call.2
    ⟨rib.attrTable, s.ribs.set call.1 rib⟩

def run (s : SharedRibs) (calls : List (Nat × LocRib.Op)) : SharedRibs := calls.foldl step s

/-- Every path any of the Loc-RIBs holds. -/
def heldPaths (s : SharedRibs) : List BgpPath := s.ribs.flatMap LocRib.heldPaths

/-- `clear` on each of the first `count` Loc-RIBs. -/
def clearFirst (s : SharedRibs) (count : Nat) : SharedRibs :=
  s.run ((List.range count).map fun i => (i, .clear))

def clearAll (s : SharedRibs) : SharedRibs := s.clearFirst s.ribs.length

/-- The table is balanced over all Loc-RIBs, each of which counts its paths. -/
structure Sound (s : SharedRibs) : Prop where
  indexed : ∀ rib ∈ s.ribs, rib.Indexed
  counted : ∀ rib ∈ s.ribs, rib.pathCount = rib.heldPaths.length
  balanced : Balanced s.attrTable (claimsOf s.heldPaths)

theorem start_sound (args : List RibArgs) : (start args).Sound := by
  have hnew : ∀ rib ∈ (start args).ribs, rib.Indexed ∧ rib.pathCount = 0 ∧ rib.heldPaths = [] := by
    intro rib hrib
    obtain ⟨a, _, rfl⟩ := List.mem_map.mp hrib
    exact ⟨LocRib.new_indexed _ _ _ _ _, rfl, rfl⟩
  have hheld : (start args).heldPaths = [] := by
    rw [heldPaths, List.flatMap_eq_nil_iff]
    exact fun rib hrib => (hnew rib hrib).2.2
  constructor
  · exact fun rib hrib => (hnew rib hrib).1
  · intro rib hrib
    rw [(hnew rib hrib).2.1, (hnew rib hrib).2.2]
    rfl
  · rw [hheld]
    exact balanced_empty

theorem heldPaths_set (s : SharedRibs) {i : Nat} (hi : i < s.ribs.length) (rib : LocRib) :
    claimsOf ((s.ribs.set i rib).flatMap LocRib.heldPaths) =
      claimsOf rib.heldPaths + (claimsOf ((s.ribs.take i).flatMap LocRib.heldPaths) +
        claimsOf ((s.ribs.drop (i + 1)).flatMap LocRib.heldPaths)) := by
  rw [List.set_eq_take_append_cons_drop, if_pos hi, List.flatMap_append,
    List.flatMap_cons, claimsOf_append, claimsOf_append]
  abel

theorem step_sound {s : SharedRibs} (h : s.Sound) (call : Nat × LocRib.Op) :
    (s.step call).Sound := by
  obtain ⟨i, op⟩ := call
  rw [step]
  dsimp only
  cases hget : s.ribs[i]? with
  | none => exact h
  | some rib =>
    obtain ⟨hi, hrib⟩ := List.getElem?_eq_some_iff.mp hget
    have hmem : rib ∈ s.ribs := hrib ▸ List.getElem_mem hi
    let others := claimsOf ((s.ribs.take i).flatMap LocRib.heldPaths) +
      claimsOf ((s.ribs.drop (i + 1)).flatMap LocRib.heldPaths)
    let shared : LocRib := { rib with attrTable := s.attrTable }
    have hindexed : shared.Indexed := by
      have hold := h.indexed rib hmem
      exact ⟨hold.wf.of_same ⟨rfl, rfl, rfl, rfl⟩ ⟨rfl, rfl⟩, hold.nodup, hold.exact⟩
    have hclaiming : shared.Claiming others := by
      refine ⟨?_, h.counted rib hmem⟩
      have hsplit := heldPaths_set s hi rib
      rw [← hrib, List.set_getElem_self] at hsplit
      have hbalanced := h.balanced
      rw [heldPaths, hsplit, hrib] at hbalanced
      exact hbalanced
    have hstep := LocRib.step_claiming hindexed hclaiming op
    have hcases : ∀ rib' ∈ s.ribs.set i (shared.step op),
        rib' ∈ s.ribs ∨ rib' = shared.step op := fun rib' => List.mem_or_eq_of_mem_set
    constructor
    · intro rib' hrib'
      rcases hcases rib' hrib' with hold | rfl
      · exact h.indexed rib' hold
      · exact LocRib.step_indexed hindexed op
    · intro rib' hrib'
      rcases hcases rib' hrib' with hold | rfl
      · exact h.counted rib' hold
      · exact hstep.counted
    · rw [heldPaths, heldPaths_set s hi]
      exact hstep.balanced

theorem run_sound {s : SharedRibs} (h : s.Sound) (calls : List (Nat × LocRib.Op)) :
    (s.run calls).Sound := by
  induction calls generalizing s with
  | nil => exact h
  | cons call calls ih => exact ih (step_sound h call)

/-- The reference count the table holds for a set, 0 for one it does not hold. -/
def references (t : AttrTable) (a : AttrSet) : Nat :=
  match t.sets.get? a with
  | none => 0
  | some found => found.refs

theorem references_eq {t : AttrTable} {paths : List BgpPath} (h : Balanced t (claimsOf paths))
    (a : AttrSet) : references t a = paths.countP fun p => p.attrs = a := by
  have hclaim : ∀ p ∈ paths, (p.attrs, p.interned) ∈ claimsOf paths := fun p hp =>
    Multiset.mem_coe.mpr (List.mem_map.mpr ⟨p, hp, rfl⟩)
  rw [references]
  cases hget : t.sets.get? a with
  | none =>
    rw [eq_comm, List.countP_eq_zero]
    intro p hp hattrs
    have hset : p.attrs = a := by simpa using hattrs
    exact h.not_claimed hget p.interned (hset ▸ hclaim p hp)
  | some found =>
    dsimp only
    rw [(h.refs hget).2, count_claimsOf]
    apply List.countP_congr
    intro p hp
    simp only [decide_eq_true_eq]
    constructor
    · exact And.left
    · intro hset
      obtain ⟨other, hother, hoid⟩ := h.held (hclaim p hp)
      rw [hset, hget, Option.some.injEq] at hother
      exact ⟨hset, by rw [hother, hoid]⟩

theorem clearFirst_succ (s : SharedRibs) (count : Nat) :
    s.clearFirst (count + 1) = (s.clearFirst count).step (count, .clear) := by
  rw [clearFirst, List.range_succ, List.map_append, run, List.foldl_append]
  rfl

/-- Clearing the first Loc-RIBs leaves them empty. -/
theorem clearFirst_empty (s : SharedRibs) (count : Nat) :
    (s.clearFirst count).ribs.length = s.ribs.length ∧
      ∀ i rib, i < count → (s.clearFirst count).ribs[i]? = some rib → rib.heldPaths = [] := by
  induction count with
  | zero => exact ⟨rfl, fun i _ hi => absurd hi (Nat.not_lt_zero i)⟩
  | succ count ih =>
    rw [clearFirst_succ, step]
    dsimp only
    cases hget : (s.clearFirst count).ribs[count]? with
    | none =>
      refine ⟨ih.1, fun i rib hi hrib => ?_⟩
      rcases Nat.lt_succ_iff_lt_or_eq.mp hi with hlt | rfl
      · exact ih.2 i rib hlt hrib
      · rw [hget] at hrib
        exact absurd hrib (by simp)
    | some found =>
      refine ⟨by rw [List.length_set]; exact ih.1, fun i rib hi hrib => ?_⟩
      rw [List.getElem?_set] at hrib
      rcases Nat.lt_succ_iff_lt_or_eq.mp hi with hlt | rfl
      · rw [if_neg (Nat.ne_of_gt hlt)] at hrib
        exact ih.2 i rib hlt hrib
      · rw [if_pos rfl, if_pos (List.getElem?_eq_some_iff.mp hget).1, Option.some.injEq] at hrib
        rw [← hrib]
        rfl

theorem clearAll_table {s : SharedRibs} (h : s.Sound) (a : AttrSet) :
    s.clearAll.attrTable.sets.get? a = none := by
  have hsound : s.clearAll.Sound := run_sound h _
  obtain ⟨hlength, hempty⟩ := clearFirst_empty s s.ribs.length
  have hheld : s.clearAll.heldPaths = [] := by
    rw [heldPaths, List.flatMap_eq_nil_iff]
    intro rib hrib
    obtain ⟨i, hi, hget⟩ := List.getElem_of_mem hrib
    apply hempty i rib (hlength ▸ hi)
    rw [← hget]
    exact List.getElem?_eq_getElem hi
  have hbalanced := hsound.balanced
  rw [hheld] at hbalanced
  cases hget : s.clearAll.attrTable.sets.get? a with
  | none => rfl
  | some found =>
    obtain ⟨hpos, hcount⟩ := hbalanced.refs hget
    rw [claimsOf_nil, Multiset.count_zero] at hcount
    omega

/-- Interning is balanced, over any number of Loc-RIBs and any calls in any order. -/
theorem run_interning (args : List RibArgs) (calls : List (Nat × LocRib.Op)) :
    (∀ a, references ((start args).run calls).attrTable a =
        ((start args).run calls).heldPaths.countP fun p => p.attrs = a) ∧
      (∀ rib ∈ ((start args).run calls).ribs, rib.pathCount = rib.heldPaths.length) ∧
      ∀ a, ((start args).run calls).clearAll.attrTable.sets.get? a = none := by
  have hsound := run_sound (start_sound args) calls
  exact ⟨references_eq hsound.balanced, hsound.counted, clearAll_table hsound⟩

end SharedRibs

end Packets
