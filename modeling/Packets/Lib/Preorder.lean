/-
The nodes of a linked tree in pre-order, and a walk over them with a stack.

The subtree of the branch `false` comes first.  Never more nodes wait than ranks are below a
bound.
-/
import Packets.Lib.LinkedTree
import Mathlib.Data.List.Pairwise

namespace LinkedTree

universe u

variable {ι : Type u}

/-- The nodes below a pointer, so many levels down. -/
def preorder (g : Links ι) : Nat → Option ι → List ι
  | 0, _ => []
  | _, none => []
  | fuel + 1, some n => n :: (preorder g fuel (g.child n false) ++ preorder g fuel (g.child n true))

@[simp] theorem preorder_none (g : Links ι) (fuel : Nat) : preorder g fuel none = [] := by
  cases fuel <;> rfl

/-- The nodes below a pointer, when no rank is above a bound. -/
def nodesBelow (g : Links ι) (top : Nat) (n : Option ι) : List ι := preorder g (top + 1) n

/-- The children of a node, the one of `false` first, before what is waiting. -/
def expand (g : Links ι) (n : ι) (waiting : List ι) : List ι :=
  (g.child n false).toList ++ ((g.child n true).toList ++ waiting)

variable {g : Links ι} {live : Finset ι} {edge : ι → Bool → ι → Prop} {rank : ι → Nat}

namespace Tree

theorem preorder_below (h : Tree g live edge) (hrule : EdgeRule edge rank) {fuel : Nat} {n m : ι}
    (hn : n ∈ live) (hm : m ∈ preorder g fuel (some n)) : m ∈ live ∧ (m = n ∨ ∃ b, edge n b m) := by
  induction fuel generalizing n with
  | zero => exact absurd hm List.not_mem_nil
  | succ fuel ih =>
    have hchild : ∀ b, m ∈ preorder g fuel (g.child n b) →
        m ∈ live ∧ (m = n ∨ ∃ b, edge n b m) := by
      intro b hb
      cases hc : g.child n b with
      | none =>
        rw [hc, preorder_none] at hb
        exact absurd hb List.not_mem_nil
      | some c =>
        rw [hc] at hb
        obtain ⟨hc', -, hedge⟩ := h.child_spec hn hc
        obtain ⟨hm', hbelow⟩ := ih hc' hb
        refine ⟨hm', Or.inr ⟨b, ?_⟩⟩
        rcases hbelow with rfl | ⟨d, hd⟩
        · exact hedge
        · exact hrule.trans hedge hd
    rw [preorder, List.mem_cons, List.mem_append] at hm
    rcases hm with rfl | hm | hm
    · exact ⟨hn, Or.inl rfl⟩
    · exact hchild false hm
    · exact hchild true hm

/-- What stands below a branch extends the node by that branch. -/
theorem preorder_branch (h : Tree g live edge) (hrule : EdgeRule edge rank) {fuel : Nat}
    {n m : ι} {b : Bool} (hn : n ∈ live) (hm : m ∈ preorder g fuel (g.child n b)) :
    m ∈ live ∧ edge n b m := by
  cases hc : g.child n b with
  | none =>
    rw [hc, preorder_none] at hm
    exact absurd hm List.not_mem_nil
  | some c =>
    rw [hc] at hm
    obtain ⟨hc', -, hedge⟩ := h.child_spec hn hc
    obtain ⟨hm', hbelow⟩ := h.preorder_below hrule hc' hm
    refine ⟨hm', ?_⟩
    rcases hbelow with rfl | ⟨d, hd⟩
    · exact hedge
    · exact hrule.trans hedge hd

/-- A relation that each node has to what is below it, and what is below its branch
`false` to what is below the other, orders the nodes. -/
theorem preorder_pairwise (h : Tree g live edge) (hrule : EdgeRule edge rank)
    {before : ι → ι → Prop} (hdown : ∀ n ∈ live, ∀ m ∈ live, ∀ b, edge n b m → before n m)
    (hside : ∀ n ∈ live, ∀ m ∈ live, ∀ m' ∈ live, edge n false m → edge n true m' → before m m')
    (fuel : Nat) {n : ι} (hn : n ∈ live) : (preorder g fuel (some n)).Pairwise before := by
  induction fuel generalizing n with
  | zero => exact List.Pairwise.nil
  | succ fuel ih =>
    have hsub : ∀ b, (preorder g fuel (g.child n b)).Pairwise before := by
      intro b
      cases hc : g.child n b with
      | none =>
        rw [preorder_none]
        exact List.Pairwise.nil
      | some c => exact ih (h.child_spec hn hc).1
    rw [preorder, List.pairwise_cons, List.pairwise_append]
    refine ⟨?_, hsub false, hsub true, ?_⟩
    · intro m hm
      rcases List.mem_append.mp hm with hm | hm
      · obtain ⟨hm', hedge⟩ := h.preorder_branch hrule hn hm
        exact hdown n hn m hm' false hedge
      · obtain ⟨hm', hedge⟩ := h.preorder_branch hrule hn hm
        exact hdown n hn m hm' true hedge
    · intro m hm m' hm'
      obtain ⟨hlive, hedge⟩ := h.preorder_branch hrule hn hm
      obtain ⟨hlive', hedge'⟩ := h.preorder_branch hrule hn hm'
      exact hside n hn m hlive m' hlive' hedge hedge'

section Levels

variable {top : Nat}

theorem preorder_fuel (h : Tree g live edge) (hrule : EdgeRule edge rank)
    (htop : ∀ n ∈ live, rank n ≤ top) {fuel fuel' : Nat} {n : ι} (hn : n ∈ live)
    (hfuel : top < fuel + rank n) (hfuel' : top < fuel' + rank n) :
    preorder g fuel (some n) = preorder g fuel' (some n) := by
  induction fuel generalizing fuel' n with
  | zero =>
    have := htop n hn
    omega
  | succ fuel ih =>
    have hle := htop n hn
    obtain ⟨k, rfl⟩ : ∃ k, fuel' = k + 1 := ⟨fuel' - 1, by omega⟩
    have hchild : ∀ b, preorder g fuel (g.child n b) = preorder g k (g.child n b) := by
      intro b
      cases hc : g.child n b with
      | none => rw [preorder_none, preorder_none]
      | some c =>
        obtain ⟨hc', -, hedge⟩ := h.child_spec hn hc
        have hlt := hrule.rank_lt hedge
        exact ih hc' (by omega) (by omega)
    rw [preorder, preorder, hchild, hchild]

theorem nodesBelow_some (h : Tree g live edge) (hrule : EdgeRule edge rank)
    (htop : ∀ n ∈ live, rank n ≤ top) {n : ι} (hn : n ∈ live) :
    nodesBelow g top (some n) =
      n :: (nodesBelow g top (g.child n false) ++ nodesBelow g top (g.child n true)) := by
  have hchild : ∀ b, preorder g top (g.child n b) = nodesBelow g top (g.child n b) := by
    intro b
    cases hc : g.child n b with
    | none => rw [preorder_none, nodesBelow, preorder_none]
    | some c =>
      obtain ⟨hc', -, hedge⟩ := h.child_spec hn hc
      have hlt := hrule.rank_lt hedge
      exact h.preorder_fuel hrule htop hc' (by omega) (by omega)
  rw [← hchild, ← hchild]
  rfl

theorem preorder_child (h : Tree g live edge) (hrule : EdgeRule edge rank)
    (htop : ∀ n ∈ live, rank n ≤ top) {fuel : Nat} {n p c : ι} {b : Bool} (hn : n ∈ live)
    (hfuel : top < fuel + rank n) (hp : p ∈ preorder g fuel (some n))
    (hc : g.child p b = some c) : c ∈ preorder g fuel (some n) := by
  induction fuel generalizing n with
  | zero => exact absurd hp List.not_mem_nil
  | succ fuel ih =>
    have hbranch : ∀ d, c ∈ preorder g fuel (g.child n d) → c ∈ preorder g (fuel + 1) (some n) := by
      intro d hd
      rw [preorder, List.mem_cons, List.mem_append]
      cases d with
      | false => exact Or.inr (Or.inl hd)
      | true => exact Or.inr (Or.inr hd)
    have hbelow : ∀ d, p ∈ preorder g fuel (g.child n d) → c ∈ preorder g (fuel + 1) (some n) := by
      intro d hd
      apply hbranch d
      cases hm : g.child n d with
      | none =>
        rw [hm, preorder_none] at hd
        exact absurd hd List.not_mem_nil
      | some m =>
        rw [hm] at hd
        obtain ⟨hm', -, hedge⟩ := h.child_spec hn hm
        have hlt := hrule.rank_lt hedge
        exact ih hm' (by omega) hd
    rw [preorder, List.mem_cons, List.mem_append] at hp
    rcases hp with rfl | hp | hp
    · apply hbranch b
      obtain ⟨hc', -, hedge⟩ := h.child_spec hn hc
      have hlt := hrule.rank_lt hedge
      have hle := htop c hc'
      obtain ⟨k, rfl⟩ : ∃ k, fuel = k + 1 := ⟨fuel - 1, by omega⟩
      rw [hc, preorder]
      exact List.mem_cons_self
    · exact hbelow false hp
    · exact hbelow true hp

/-- When each node is marked or has both children, marked nodes are in the majority. -/
theorem length_preorder_lt (h : Tree g live edge) (hrule : EdgeRule edge rank)
    (htop : ∀ n ∈ live, rank n ≤ top) (mark : ι → Bool)
    (hneed : ∀ n ∈ live, mark n = true ∨ ∀ b, (g.child n b).isSome = true) {fuel : Nat}
    {n : ι} (hn : n ∈ live) (hfuel : top < fuel + rank n) :
    (preorder g fuel (some n)).length < 2 * ((preorder g fuel (some n)).filter mark).length := by
  induction fuel generalizing n with
  | zero =>
    have := htop n hn
    omega
  | succ fuel ih =>
    have hsome : ∀ b, (g.child n b).isSome = true →
        (preorder g fuel (g.child n b)).length <
          2 * ((preorder g fuel (g.child n b)).filter mark).length := by
      intro b hb
      obtain ⟨c, hc⟩ := Option.isSome_iff_exists.mp hb
      obtain ⟨hc', -, hedge⟩ := h.child_spec hn hc
      have hlt := hrule.rank_lt hedge
      rw [hc]
      exact ih hc' (by omega)
    have hany : ∀ b, (preorder g fuel (g.child n b)).length ≤
        2 * ((preorder g fuel (g.child n b)).filter mark).length := by
      intro b
      cases hb : (g.child n b).isSome with
      | true => exact Nat.le_of_lt (hsome b hb)
      | false =>
        rw [Option.not_isSome_iff_eq_none.mp (Bool.not_eq_true _ |>.mpr hb), preorder_none]
        exact Nat.zero_le _
    rw [preorder, List.length_cons, List.length_append, List.filter_cons]
    by_cases hmark : mark n = true
    · have hfalse := hany false
      have htrue := hany true
      rw [if_pos hmark, List.length_cons, List.filter_append, List.length_append]
      omega
    · have hboth := (hneed n hn).resolve_left hmark
      have hfalse := hsome false (hboth false)
      have htrue := hsome true (hboth true)
      rw [if_neg hmark, List.filter_append, List.length_append]
      omega

/-- The nodes below the root are those in use. -/
theorem mem_nodesBelow_root (h : Tree g live edge) (hrule : EdgeRule edge rank)
    (htop : ∀ n ∈ live, rank n ≤ top) (n : ι) : n ∈ nodesBelow g top g.root ↔ n ∈ live := by
  constructor
  · intro hn
    cases hroot : g.root with
    | none =>
      rw [nodesBelow, hroot, preorder_none] at hn
      exact absurd hn List.not_mem_nil
    | some r =>
      rw [nodesBelow, hroot] at hn
      exact (h.preorder_below hrule (h.root_spec hroot).1 hn).1
  · -- The slot of a node is the root or belongs to a node of smaller rank.
    induction hk : rank n using Nat.strongRecOn generalizing n with
    | ind k ih =>
      intro hn
      obtain ⟨slot, huse, hslot⟩ := h.up n hn
      cases slot with
      | none =>
        have hroot : g.root = some n := hslot
        rw [hroot, h.nodesBelow_some hrule htop hn]
        exact List.mem_cons_self
      | some place =>
        obtain ⟨p, b⟩ := place
        have hp := huse p b rfl
        have hc : g.child p b = some n := hslot
        have hlt := hrule.rank_lt (h.child_spec hp hc).2.2
        have hmem := ih (rank p) (hk ▸ hlt) p rfl hp
        cases hroot : g.root with
        | none =>
          rw [nodesBelow, hroot, preorder_none] at hmem
          exact absurd hmem List.not_mem_nil
        | some r =>
          rw [nodesBelow, hroot] at hmem
          exact h.preorder_child hrule htop (h.root_spec hroot).1 (by omega) hmem hc

end Levels

end Tree

/-- Nodes waiting on a stack: each stands below a parent in use of smaller rank than the one of
those before it, and the first below a bound. -/
inductive Waiting (live : Finset ι) (edge : ι → Bool → ι → Prop) (rank : ι → Nat) :
    Nat → List ι → Prop
  | nil {bound : Nat} : Waiting live edge rank bound []
  | cons {bound : Nat} {p m : ι} {b : Bool} {rest : List ι} (hm : m ∈ live)
      (hedge : edge p b m) (hlt : rank p < bound) (hrest : Waiting live edge rank (rank p) rest) :
      Waiting live edge rank bound (m :: rest)

/-- A stack of a walk: a node in use on top of ones that wait. -/
inductive Stacked (live : Finset ι) (edge : ι → Bool → ι → Prop) (rank : ι → Nat) :
    List ι → Prop
  | nil : Stacked live edge rank []
  | cons {n : ι} {rest : List ι} (hn : n ∈ live)
      (hrest : Waiting live edge rank (rank n) rest) : Stacked live edge rank (n :: rest)

theorem Waiting.mono {bound bound' : Nat} {waiting : List ι}
    (h : Waiting live edge rank bound waiting) (hle : bound ≤ bound') :
    Waiting live edge rank bound' waiting := by
  cases h with
  | nil => exact .nil
  | cons hm hedge hlt hrest => exact .cons hm hedge (Nat.lt_of_lt_of_le hlt hle) hrest

theorem Waiting.length_le {bound : Nat} {waiting : List ι}
    (h : Waiting live edge rank bound waiting) : waiting.length ≤ bound := by
  induction h with
  | nil => exact Nat.zero_le _
  | cons _ _ hlt _ ih =>
    rw [List.length_cons]
    omega

theorem Stacked.length_le {top : Nat} {stack : List ι} (h : Stacked live edge rank stack)
    (htop : ∀ n ∈ live, rank n ≤ top) : stack.length ≤ top + 1 := by
  cases h with
  | nil => exact Nat.zero_le _
  | cons hn hrest =>
    have hle := htop _ hn
    have hlen := hrest.length_le
    rw [List.length_cons]
    omega

theorem Stacked.top_live {n : ι} {rest : List ι} (h : Stacked live edge rank (n :: rest)) :
    n ∈ live := by
  cases h with
  | cons hn _ => exact hn

theorem Waiting.stacked (hrule : EdgeRule edge rank) {bound : Nat} {waiting : List ι}
    (h : Waiting live edge rank bound waiting) : Stacked live edge rank waiting := by
  cases h with
  | nil => exact .nil
  | cons hm hedge _ hrest => exact .cons hm (hrest.mono (Nat.le_of_lt (hrule.rank_lt hedge)))

/-- Taking the top node off and putting its children there. -/
theorem Stacked.expand (h : Tree g live edge) (hrule : EdgeRule edge rank) {n : ι} {rest : List ι}
    (hstack : Stacked live edge rank (n :: rest)) : Stacked live edge rank (expand g n rest) := by
  cases hstack with
  | cons hn hrest =>
    have hone : ∀ b c, g.child n b = some c → Stacked live edge rank (c :: rest) := by
      intro b c hc
      obtain ⟨hc', -, hedge⟩ := h.child_spec hn hc
      exact .cons hc' (hrest.mono (Nat.le_of_lt (hrule.rank_lt hedge)))
    rw [LinkedTree.expand]
    cases hfalse : g.child n false with
    | none =>
      cases htrue : g.child n true with
      | none => exact hrest.stacked hrule
      | some c => exact hone true c htrue
    | some c =>
      cases htrue : g.child n true with
      | none => exact hone false c hfalse
      | some c' =>
        obtain ⟨hc, -, hedge⟩ := h.child_spec hn hfalse
        obtain ⟨hc', -, hedge'⟩ := h.child_spec hn htrue
        exact .cons hc (.cons hc' hedge' (hrule.rank_lt hedge) hrest)

/-- The nodes a walk has still to visit. -/
def unvisited (g : Links ι) (top : Nat) (stack : List ι) : List ι :=
  stack.flatMap fun n => nodesBelow g top (some n)

/-- A walk visits the top node first. -/
theorem unvisited_cons (h : Tree g live edge) (hrule : EdgeRule edge rank) {top : Nat}
    (htop : ∀ n ∈ live, rank n ≤ top) {n : ι} (hn : n ∈ live) (rest : List ι) :
    unvisited g top (n :: rest) = n :: unvisited g top (expand g n rest) := by
  have hchild : ∀ b, (g.child n b).toList.flatMap (fun n => nodesBelow g top (some n)) =
      nodesBelow g top (g.child n b) := by
    intro b
    cases g.child n b with
    | none => rw [nodesBelow, preorder_none]; rfl
    | some c => simp
  rw [unvisited, unvisited, expand, List.flatMap_cons, List.flatMap_append,
    List.flatMap_append, hchild, hchild, h.nodesBelow_some hrule htop hn, List.cons_append,
    List.append_assoc]

end LinkedTree
