/-
Binary trees whose nodes point at their parent and at two children.

A slot is the root, or one branch of a node.  Every pointer in use leads to a node in use,
which points back.  An edge relation guides a search down the tree.
-/
import Mathlib.Data.Finset.Insert
import Mathlib.Data.Finset.Erase

namespace LinkedTree

universe u

variable {ι : Type u}

structure Links (ι : Type u) where
  root : Option ι
  parent : ι → Option ι
  child : ι → Bool → Option ι

@[ext] theorem Links.ext' {g g' : Links ι} (hroot : g.root = g'.root)
    (hparent : ∀ n, g.parent n = g'.parent n) (hchild : ∀ n b, g.child n b = g'.child n b) :
    g = g' := by
  cases g
  cases g'
  simp only [Links.mk.injEq]
  exact ⟨hroot, funext hparent, funext fun n => funext (hchild n)⟩

/-- The root, or a branch of a node. -/
abbrev Slot (ι : Type u) := Option (ι × Bool)

/-- The node a slot belongs to. -/
def Slot.owner (slot : Slot ι) : Option ι := slot.map Prod.fst

/-- A slot of the root or of a node in use. -/
def Slot.InUse (live : Finset ι) (slot : Slot ι) : Prop := ∀ p b, slot = some (p, b) → p ∈ live

/-- A node may stand in a slot. -/
def Slot.Fits (edge : ι → Bool → ι → Prop) (slot : Slot ι) (n : ι) : Prop :=
  ∀ p b, slot = some (p, b) → edge p b n

namespace Links

/-- The pointer in a slot. -/
def target (g : Links ι) : Slot ι → Option ι
  | none => g.root
  | some (p, b) => g.child p b

variable [DecidableEq ι]

def setParent (g : Links ι) (n : ι) (p : Option ι) : Links ι :=
  { g with parent := fun m => if m = n then p else g.parent m }

/-- Write the pointer in a slot. -/
def put (g : Links ι) (slot : Slot ι) (x : Option ι) : Links ι :=
  match slot with
  | none => { g with root := x }
  | some (p, b) => { g with child := fun q d => if q = p ∧ d = b then x else g.child q d }

@[simp] theorem parent_put (g : Links ι) (slot : Slot ι) (x : Option ι) (n : ι) :
    (g.put slot x).parent n = g.parent n := by
  cases slot <;> rfl

@[simp] theorem target_put_self (g : Links ι) (slot : Slot ι) (x : Option ι) :
    (g.put slot x).target slot = x := by
  cases slot with
  | none => rfl
  | some place => simp [put, target]

theorem target_put_of_ne (g : Links ι) {slot slot' : Slot ι} (h : slot' ≠ slot)
    (x : Option ι) : (g.put slot x).target slot' = g.target slot' := by
  cases slot with
  | none =>
    cases slot' with
    | none => exact absurd rfl h
    | some place' => rfl
  | some place =>
    cases slot' with
    | none => rfl
    | some place' =>
      have hne : ¬(place'.1 = place.1 ∧ place'.2 = place.2) := by
        rintro ⟨hp, hb⟩
        exact h (congrArg some (Prod.ext hp hb))
      simp only [put, target, if_neg hne]

@[simp] theorem target_setParent (g : Links ι) (n : ι) (p : Option ι) (slot : Slot ι) :
    (g.setParent n p).target slot = g.target slot := by
  cases slot <;> rfl

theorem parent_setParent (g : Links ι) (n m : ι) (p : Option ι) :
    (g.setParent n p).parent m = if m = n then p else g.parent m := rfl

theorem setParent_put (g : Links ι) (n : ι) (p : Option ι) (slot : Slot ι) (x : Option ι) :
    (g.put slot x).setParent n p = (g.setParent n p).put slot x := by
  cases slot <;> rfl

theorem put_comm (g : Links ι) {slot slot' : Slot ι} (h : slot ≠ slot') (x y : Option ι) :
    (g.put slot x).put slot' y = (g.put slot' y).put slot x := by
  cases slot with
  | none =>
    cases slot' with
    | none => exact absurd rfl h
    | some place' => rfl
  | some place =>
    cases slot' with
    | none => rfl
    | some place' =>
      have hne : ∀ q d, q = place.1 ∧ d = place.2 → ¬(q = place'.1 ∧ d = place'.2) := by
        rintro q d ⟨rfl, rfl⟩ ⟨hp, hb⟩
        exact h (congrArg some (Prod.ext hp hb))
      refine Links.ext' rfl (fun n => rfl) fun q d => ?_
      simp only [put]
      by_cases hplace : q = place.1 ∧ d = place.2
      · rw [if_neg (hne q d hplace), if_pos hplace, if_pos hplace]
      · rw [if_neg hplace, if_neg hplace]

/-- A node hung into an empty slot. -/
def hang (g : Links ι) (slot : Slot ι) (x : ι) : Links ι :=
  (g.setParent x slot.owner).put slot (some x)

/-- A node put between a slot and the node in it. -/
def interpose (g : Links ι) (slot : Slot ι) (x : ι) (b : Bool) (n : ι) : Links ι :=
  (((g.setParent x slot.owner).put (some (x, b)) (some n)).put slot (some x)).setParent n (some x)

theorem target_interpose_of_ne (g : Links ι) {slot slot' : Slot ι} {x : ι} {b : Bool}
    (h : slot' ≠ slot) (hx : slot' ≠ some (x, b)) (n : ι) :
    (g.interpose slot x b n).target slot' = g.target slot' := by
  rw [interpose, target_setParent, target_put_of_ne _ h, target_put_of_ne _ hx, target_setParent]

theorem isSome_put (g : Links ι) (slot : Slot ι) (x : ι) {slot' : Slot ι}
    (h : (g.target slot').isSome = true) : ((g.put slot (some x)).target slot').isSome = true := by
  by_cases hs : slot' = slot
  · rw [hs, target_put_self]
    rfl
  · rw [target_put_of_ne _ hs]
    exact h

theorem isSome_hang (g : Links ι) (slot : Slot ι) (x : ι) {slot' : Slot ι}
    (h : (g.target slot').isSome = true) : ((g.hang slot x).target slot').isSome = true := by
  apply isSome_put
  rw [target_setParent]
  exact h

theorem isSome_interpose (g : Links ι) (slot : Slot ι) (x : ι) (b : Bool) (n : ι)
    {slot' : Slot ι} (h : (g.target slot').isSome = true) :
    ((g.interpose slot x b n).target slot').isSome = true := by
  rw [interpose, target_setParent]
  apply isSome_put
  apply isSome_put
  rw [target_setParent]
  exact h

/-- A node's parent, if there is a node. -/
def adopt (g : Links ι) (c : Option ι) (p : Option ι) : Links ι :=
  match c with
  | some c => g.setParent c p
  | none => g

@[simp] theorem target_adopt (g : Links ι) (c p : Option ι) (slot : Slot ι) :
    (g.adopt c p).target slot = g.target slot := by
  cases c with
  | none => rfl
  | some m => exact target_setParent ..

theorem child_adopt (g : Links ι) (c p : Option ι) (n : ι) : (g.adopt c p).child n = g.child n := by
  cases c <;> rfl

theorem parent_adopt (g : Links ι) (c p : Option ι) (m : ι) :
    (g.adopt c p).parent m = if c = some m then p else g.parent m := by
  cases c with
  | none => simp [adopt]
  | some n =>
    rw [adopt, parent_setParent]
    simp only [Option.some.injEq, eq_comm]

/-- A slot's node replaced by the one child it may have. -/
def cut (g : Links ι) (slot : Slot ι) (c : Option ι) : Links ι := (g.adopt c slot.owner).put slot c

end Links

/-- Edges lead away from the root, by a branch of their own, and compose. -/
structure EdgeRule (edge : ι → Bool → ι → Prop) (rank : ι → Nat) : Prop where
  rank_lt : ∀ {p b n}, edge p b n → rank p < rank n
  branch : ∀ {p b b' n}, edge p b n → edge p b' n → b = b'
  trans : ∀ {p b n b' m}, edge p b n → edge n b' m → edge p b m

structure Tree (g : Links ι) (live : Finset ι) (edge : ι → Bool → ι → Prop) : Prop where
  /-- A pointer in use leads to a node in use, which points back. -/
  down : ∀ slot : Slot ι, slot.InUse live → ∀ n, g.target slot = some n →
    n ∈ live ∧ g.parent n = slot.owner ∧ slot.Fits edge n
  /-- Every node in use stands in a slot in use. -/
  up : ∀ n ∈ live, ∃ slot : Slot ι, slot.InUse live ∧ g.target slot = some n

variable {g g' : Links ι} {live : Finset ι} {edge edge' : ι → Bool → ι → Prop}
variable {rank : ι → Nat}

theorem tree_empty (h : g.root = none) : Tree g ∅ edge where
  down slot huse n hn := by
    cases slot with
    | none => simp [Links.target, h] at hn
    | some place => exact absurd (huse place.1 place.2 rfl) (Finset.notMem_empty _)
  up n hn := absurd hn (Finset.notMem_empty n)

theorem Slot.InUse.mono {slot : Slot ι} {live' : Finset ι} (h : slot.InUse live)
    (hsub : live ⊆ live') : slot.InUse live' :=
  fun p b hslot => hsub (h p b hslot)

namespace Tree

/-- Only the pointers and edges of nodes in use matter. -/
theorem congr (h : Tree g live edge) (hroot : g'.root = g.root)
    (hparent : ∀ n ∈ live, g'.parent n = g.parent n) (hchild : ∀ n ∈ live, g'.child n = g.child n)
    (hedge : ∀ p ∈ live, ∀ n ∈ live, ∀ b, edge p b n → edge' p b n) : Tree g' live edge' := by
  have htarget : ∀ slot : Slot ι, slot.InUse live → g'.target slot = g.target slot := by
    intro slot huse
    cases slot with
    | none => exact hroot
    | some place => exact congrFun (hchild place.1 (huse place.1 place.2 rfl)) place.2
  constructor
  · intro slot huse n hn
    rw [htarget slot huse] at hn
    obtain ⟨hlive, hback, hfits⟩ := h.down slot huse n hn
    refine ⟨hlive, (hparent n hlive).trans hback, ?_⟩
    intro p b hslot
    exact hedge p (huse p b hslot) n hlive b (hfits p b hslot)
  · intro n hn
    obtain ⟨slot, huse, hslot⟩ := h.up n hn
    exact ⟨slot, huse, (htarget slot huse).trans hslot⟩

/-- A node stands in one slot only. -/
theorem slot_unique (h : Tree g live edge) (hrule : EdgeRule edge rank) {n : ι}
    {slot slot' : Slot ι} (huse : slot.InUse live) (hslot : g.target slot = some n)
    (huse' : slot'.InUse live) (hslot' : g.target slot' = some n) : slot = slot' := by
  obtain ⟨-, hback, hfits⟩ := h.down slot huse n hslot
  obtain ⟨-, hback', hfits'⟩ := h.down slot' huse' n hslot'
  rw [hback] at hback'
  cases slot with
  | none =>
    cases slot' with
    | none => rfl
    | some place' => simp [Slot.owner] at hback'
  | some place =>
    cases slot' with
    | none => simp [Slot.owner] at hback'
    | some place' =>
      obtain ⟨p, b⟩ := place
      obtain ⟨p', b'⟩ := place'
      simp only [Slot.owner, Option.map_some, Option.some.injEq] at hback'
      subst hback'
      rw [hrule.branch (hfits p b rfl) (hfits' p b' rfl)]

variable [DecidableEq ι]

theorem hang (h : Tree g live edge) {slot : Slot ι} {x : ι} (hx : x ∉ live)
    (huse : slot.InUse live) (hempty : g.target slot = none) (hleaf : ∀ b, g.child x b = none)
    (hfits : slot.Fits edge x) : Tree (g.hang slot x) (insert x live) edge := by
  have hself : (g.hang slot x).target slot = some x := Links.target_put_self ..
  have hother : ∀ slot' : Slot ι, slot' ≠ slot → (g.hang slot x).target slot' = g.target slot' := by
    intro slot' hne
    rw [Links.hang, Links.target_put_of_ne _ hne, Links.target_setParent]
  have hback : ∀ n, (g.hang slot x).parent n = if n = x then slot.owner else g.parent n := by
    intro n
    rw [Links.hang, Links.parent_put, Links.parent_setParent]
  constructor
  · intro slot' huse' n hn
    by_cases hslot : slot' = slot
    · rw [hslot, hself, Option.some.injEq] at hn
      subst hn
      rw [hback, if_pos rfl, hslot]
      exact ⟨Finset.mem_insert_self _ _, rfl, hfits⟩
    · rw [hother slot' hslot] at hn
      have huse'' : slot'.InUse live := by
        intro p b hplace
        rcases Finset.mem_insert.mp (huse' p b hplace) with rfl | hp
        · rw [hplace, Links.target, hleaf] at hn
          exact absurd hn (by simp)
        · exact hp
      obtain ⟨hlive, hup, hedge⟩ := h.down slot' huse'' n hn
      have hne : n ≠ x := fun heq => hx (heq ▸ hlive)
      rw [hback, if_neg hne]
      exact ⟨Finset.mem_insert_of_mem hlive, hup, hedge⟩
  · intro n hn
    rcases Finset.mem_insert.mp hn with rfl | hlive
    · exact ⟨slot, huse.mono (Finset.subset_insert _ _), hself⟩
    · obtain ⟨slot', huse', hslot'⟩ := h.up n hlive
      refine ⟨slot', huse'.mono (Finset.subset_insert _ _), ?_⟩
      rw [hother slot', hslot']
      rintro rfl
      rw [hempty] at hslot'
      exact absurd hslot' (by simp)

theorem interpose (h : Tree g live edge) (hrule : EdgeRule edge rank) {slot : Slot ι} {x n : ι}
    {b : Bool} (hx : x ∉ live) (huse : slot.InUse live) (hslot : g.target slot = some n)
    (hleaf : ∀ d, g.child x d = none) (hfits : slot.Fits edge x) (hedge : edge x b n) :
    Tree (g.interpose slot x b n) (insert x live) edge := by
  obtain ⟨hnlive, -, -⟩ := h.down slot huse n hslot
  have hxn : x ≠ n := fun heq => hx (heq ▸ hnlive)
  have hslotne : slot ≠ some (x, b) := fun heq => hx (huse x b heq)
  have hself : (g.interpose slot x b n).target slot = some x := by
    rw [Links.interpose, Links.target_setParent, Links.target_put_self]
  have hnew : (g.interpose slot x b n).target (some (x, b)) = some n := by
    rw [Links.interpose, Links.target_setParent, Links.target_put_of_ne _ hslotne.symm,
      Links.target_put_self]
  have hother : ∀ slot' : Slot ι, slot' ≠ slot → slot' ≠ some (x, b) →
      (g.interpose slot x b n).target slot' = g.target slot' :=
    fun slot' hne hne' => g.target_interpose_of_ne hne hne' n
  have hback : ∀ m, (g.interpose slot x b n).parent m =
      if m = n then some x else if m = x then slot.owner else g.parent m := by
    intro m
    rw [Links.interpose, Links.parent_setParent, Links.parent_put, Links.parent_put,
      Links.parent_setParent]
  constructor
  · intro slot' huse' m hm
    by_cases hs : slot' = slot
    · rw [hs, hself, Option.some.injEq] at hm
      subst hm
      rw [hback, if_neg hxn, if_pos rfl, hs]
      exact ⟨Finset.mem_insert_self _ _, rfl, hfits⟩
    · by_cases hb : slot' = some (x, b)
      · rw [hb, hnew, Option.some.injEq] at hm
        subst hm
        rw [hback, if_pos rfl, hb]
        refine ⟨Finset.mem_insert_of_mem hnlive, rfl, ?_⟩
        intro p d hplace
        cases hplace
        exact hedge
      · rw [hother slot' hs hb] at hm
        have huse'' : slot'.InUse live := by
          intro p d hplace
          rcases Finset.mem_insert.mp (huse' p d hplace) with rfl | hp
          · rw [hplace, Links.target, hleaf] at hm
            exact absurd hm (by simp)
          · exact hp
        obtain ⟨hlive, hup, hfits'⟩ := h.down slot' huse'' m hm
        have hmn : m ≠ n := by
          rintro rfl
          exact hs (h.slot_unique hrule huse'' hm huse hslot)
        have hmx : m ≠ x := fun heq => hx (heq ▸ hlive)
        rw [hback, if_neg hmn, if_neg hmx]
        exact ⟨Finset.mem_insert_of_mem hlive, hup, hfits'⟩
  · intro m hm
    rcases Finset.mem_insert.mp hm with rfl | hlive
    · exact ⟨slot, huse.mono (Finset.subset_insert _ _), hself⟩
    · by_cases hmn : m = n
      · refine ⟨some (x, b), ?_, hmn ▸ hnew⟩
        intro p d hplace
        cases hplace
        exact Finset.mem_insert_self _ _
      · obtain ⟨slot', huse', hslot'⟩ := h.up m hlive
        refine ⟨slot', huse'.mono (Finset.subset_insert _ _), ?_⟩
        rw [hother slot', hslot']
        · rintro rfl
          rw [hslot, Option.some.injEq] at hslot'
          exact hmn hslot'.symm
        · intro heq
          exact hx (huse' x b heq)

/-- A node with one child or none gives its slot to the child. -/
theorem cut (h : Tree g live edge) (hrule : EdgeRule edge rank) {slot : Slot ι} {n : ι}
    {c : Option ι} (huse : slot.InUse live) (hslot : g.target slot = some n)
    (honly : ∀ b m, g.child n b = some m → c = some m)
    (hchild : ∀ m, c = some m → ∃ b, g.child n b = some m) :
    Tree (g.cut slot c) (live.erase n) edge := by
  obtain ⟨hnlive, -, hnfits⟩ := h.down slot huse n hslot
  have hown : ∀ b, Slot.InUse live (some (n, b)) := by
    intro b p d hplace
    cases hplace
    exact hnlive
  have hslotn : ∀ b, slot ≠ some (n, b) := by
    intro b heq
    have hlt := hrule.rank_lt (hnfits n b heq)
    exact Nat.lt_irrefl _ hlt
  have huse₀ : slot.InUse (live.erase n) := by
    intro p b hplace
    apply Finset.mem_erase.mpr
    refine ⟨?_, huse p b hplace⟩
    rintro rfl
    exact hslotn b hplace
  have hself : (g.cut slot c).target slot = c := Links.target_put_self ..
  have hother : ∀ slot' : Slot ι, slot' ≠ slot → (g.cut slot c).target slot' = g.target slot' := by
    intro slot' hne
    rw [Links.cut, Links.target_put_of_ne _ hne, Links.target_adopt]
  have hback : ∀ m, (g.cut slot c).parent m =
      if c = some m then slot.owner else g.parent m := by
    intro m
    rw [Links.cut, Links.parent_put, Links.parent_adopt]
  constructor
  · intro slot' huse' m hm
    by_cases hs : slot' = slot
    · rw [hs, hself] at hm
      obtain ⟨b, hb⟩ := hchild m hm
      obtain ⟨hlive, -, hedge⟩ := h.down (some (n, b)) (hown b) m hb
      have hmn : m ≠ n := by
        rintro rfl
        exact Nat.lt_irrefl _ (hrule.rank_lt (hedge m b rfl))
      rw [hback, if_pos hm, hs]
      refine ⟨Finset.mem_erase.mpr ⟨hmn, hlive⟩, rfl, ?_⟩
      intro p d hplace
      exact hrule.trans (hnfits p d hplace) (hedge n b rfl)
    · rw [hother slot' hs] at hm
      have huse'' : slot'.InUse live := huse'.mono (Finset.erase_subset _ _)
      obtain ⟨hlive, hup, hfits⟩ := h.down slot' huse'' m hm
      have hmn : m ≠ n := by
        rintro rfl
        exact hs (h.slot_unique hrule huse'' hm huse hslot)
      have hmc : c ≠ some m := by
        intro heq
        obtain ⟨b, hb⟩ := hchild m heq
        have hplace := h.slot_unique hrule huse'' hm (hown b) hb
        exact Finset.notMem_erase n live (huse' n b hplace)
      rw [hback, if_neg hmc]
      exact ⟨Finset.mem_erase.mpr ⟨hmn, hlive⟩, hup, hfits⟩
  · intro m hm
    obtain ⟨hmn, hlive⟩ := Finset.mem_erase.mp hm
    obtain ⟨slot', huse', hslot'⟩ := h.up m hlive
    by_cases hn : ∃ b, slot' = some (n, b)
    · obtain ⟨b, rfl⟩ := hn
      exact ⟨slot, huse₀, hself.trans (honly b m hslot')⟩
    · refine ⟨slot', ?_, ?_⟩
      · intro p b hplace
        apply Finset.mem_erase.mpr
        refine ⟨?_, huse' p b hplace⟩
        rintro rfl
        exact hn ⟨b, hplace⟩
      · rw [hother slot', hslot']
        rintro rfl
        rw [hslot, Option.some.injEq] at hslot'
        exact hmn hslot'.symm

end Tree

/-- What a search looks for, and where it turns.  What covers the goal below an edge
covers it above, and the search takes that edge. -/
structure Search (edge : ι → Bool → ι → Prop) (covers : ι → Prop) (turn : ι → Bool) :
    Prop where
  up : ∀ {p b n}, edge p b n → covers n → covers p ∧ turn p = b

/-- The nodes a search passes from one to another. -/
inductive Walk (g : Links ι) (covers : ι → Prop) (turn : ι → Bool) : ι → ι → Prop where
  | refl (n : ι) : Walk g covers turn n n
  | step {p n m : ι} (hcov : covers p) (hnext : g.child p (turn p) = some n)
      (rest : Walk g covers turn n m) : Walk g covers turn p m

variable {covers : ι → Prop} {turn : ι → Bool}

namespace Walk

theorem snoc {a p n : ι} (h : Walk g covers turn a p) (hcov : covers p)
    (hnext : g.child p (turn p) = some n) : Walk g covers turn a n := by
  induction h with
  | refl m => exact step hcov hnext (refl n)
  | step hcov' hnext' _ ih => exact step hcov' hnext' (ih hcov hnext)

theorem total {a m m' : ι} (h : Walk g covers turn a m) (h' : Walk g covers turn a m') :
    Walk g covers turn m m' ∨ Walk g covers turn m' m := by
  induction h with
  | refl n => exact Or.inl h'
  | step hcov hnext rest ih =>
    cases h' with
    | refl => exact Or.inr (step hcov hnext rest)
    | step hcov' hnext' rest' =>
      rw [hnext, Option.some.injEq] at hnext'
      subst hnext'
      exact ih rest'

end Walk

namespace Tree

theorem child_spec (h : Tree g live edge) {p n : ι} {b : Bool} (hp : p ∈ live)
    (hn : g.child p b = some n) : n ∈ live ∧ g.parent n = some p ∧ edge p b n := by
  have huse : Slot.InUse live (some (p, b)) := by
    intro q d hplace
    cases hplace
    exact hp
  obtain ⟨hlive, hback, hfits⟩ := h.down (some (p, b)) huse n hn
  exact ⟨hlive, hback, hfits p b rfl⟩

theorem root_spec (h : Tree g live edge) {n : ι} (hn : g.root = some n) :
    n ∈ live ∧ g.parent n = none := by
  have huse : Slot.InUse live (none : Slot ι) := by
    intro p b hplace
    cases hplace
  obtain ⟨hlive, hback, -⟩ := h.down none huse n hn
  exact ⟨hlive, hback⟩

/-- The ranks along a walk grow. -/
theorem rank_walk (h : Tree g live edge) (hrule : EdgeRule edge rank) {n m : ι} (hn : n ∈ live)
    (hwalk : Walk g covers turn n m) : m ∈ live ∧ (n = m ∨ rank n < rank m) := by
  induction hwalk with
  | refl n => exact ⟨hn, Or.inl rfl⟩
  | step hcov hnext rest ih =>
    obtain ⟨hlive, -, hedge⟩ := h.child_spec hn hnext
    have hlt := hrule.rank_lt hedge
    obtain ⟨hm, hrank⟩ := ih hlive
    refine ⟨hm, Or.inr ?_⟩
    rcases hrank with rfl | hlt'
    · exact hlt
    · exact Nat.lt_trans hlt hlt'

/-- A search from the root passes every node that covers its goal. -/
theorem walk_of_covers (h : Tree g live edge) (hrule : EdgeRule edge rank)
    (hsearch : Search edge covers turn) {m : ι} (hm : m ∈ live) (hcov : covers m) :
    ∃ r, g.root = some r ∧ Walk g covers turn r m := by
  induction hrank : rank m using Nat.strong_induction_on generalizing m with
  | h k ih =>
    obtain ⟨slot, huse, hslot⟩ := h.up m hm
    cases slot with
    | none => exact ⟨m, hslot, Walk.refl m⟩
    | some place =>
      obtain ⟨p, b⟩ := place
      have hp := huse p b rfl
      have hedge := (h.child_spec hp hslot).2.2
      obtain ⟨hcov', hturn⟩ := hsearch.up hedge hcov
      have hlt : rank p < k := hrank ▸ hrule.rank_lt hedge
      obtain ⟨r, hr, hwalk⟩ := ih (rank p) hlt hp hcov' rfl
      refine ⟨r, hr, hwalk.snoc hcov' ?_⟩
      rw [hturn]
      exact hslot

/-- Two nodes of one rank that cover one goal are the same. -/
theorem eq_of_covers (h : Tree g live edge) (hrule : EdgeRule edge rank)
    (hsearch : Search edge covers turn) {m m' : ι} (hm : m ∈ live) (hm' : m' ∈ live)
    (hcov : covers m) (hcov' : covers m') (hrank : rank m = rank m') : m = m' := by
  obtain ⟨r, hr, hwalk⟩ := h.walk_of_covers hrule hsearch hm hcov
  obtain ⟨r', hr', hwalk'⟩ := h.walk_of_covers hrule hsearch hm' hcov'
  rw [hr, Option.some.injEq] at hr'
  subst hr'
  rcases hwalk.total hwalk' with hon | hon
  · rcases (h.rank_walk hrule hm hon).2 with heq | hlt
    · exact heq
    · omega
  · rcases (h.rank_walk hrule hm' hon).2 with heq | hlt
    · exact heq.symm
    · omega

end Tree

end LinkedTree
