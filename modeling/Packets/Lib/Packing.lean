/-
Packing a list, in order, into parts of bounded size.

Each part takes as many elements as fit.  An element that does not fit a part of its
own makes the packing fail.
-/
import Mathlib.Algebra.GroupWithZero.Nat
import Mathlib.Algebra.BigOperators.Group.List.Basic

namespace Packing

universe u

variable {α : Type u} (size : α → Nat)

def total (l : List α) : Nat := (l.map size).sum

/-- The longest front that fits a budget, and what is left. -/
def fill : Nat → List α → List α × List α
  | _, [] => ([], [])
  | budget, a :: rest =>
    if size a > budget then ([], a :: rest)
    else
      let more := fill (budget - size a) rest
      (a :: more.1, more.2)

/-- The whole list in parts.  The fuel bounds their number. -/
def parts (budget : Nat) : Nat → List α → Option (List (List α))
  | _, [] => some []
  | 0, _ :: _ => none
  | fuel + 1, a :: rest =>
    let run := fill size budget (a :: rest)
    if run.1 = [] then none else (parts budget fuel run.2).map (run.1 :: ·)

theorem size_le_total {a : α} {l : List α} (h : a ∈ l) : size a ≤ total size l := by
  induction l with
  | nil => exact absurd h List.not_mem_nil
  | cons head rest ih =>
    simp only [total, List.map_cons, List.sum_cons] at ih ⊢
    rcases List.mem_cons.mp h with rfl | hrest
    · omega
    · exact Nat.le_trans (ih hrest) (Nat.le_add_left _ _)

theorem fill_append (budget : Nat) (l : List α) :
    (fill size budget l).1 ++ (fill size budget l).2 = l := by
  induction l generalizing budget with
  | nil => rfl
  | cons a rest ih =>
    rw [fill]
    split
    · rfl
    · simp only [List.cons_append, ih]

theorem total_fill_le (budget : Nat) (l : List α) : total size (fill size budget l).1 ≤ budget := by
  induction l generalizing budget with
  | nil => exact Nat.zero_le _
  | cons a rest ih =>
    rw [fill]
    split
    · exact Nat.zero_le _
    · next hfits =>
        have hrest := ih (budget - size a)
        simp only [total, List.map_cons, List.sum_cons] at hrest ⊢
        omega

theorem fill_fst_eq_nil_iff {budget : Nat} {a : α} {rest : List α} :
    (fill size budget (a :: rest)).1 = [] ↔ budget < size a := by
  rw [fill]
  split
  · next hlarge => simpa using hlarge
  · next hfits => simpa using hfits

theorem parts_cons {budget fuel : Nat} {a : α} {rest : List α}
    {out : List (List α)} (h : parts size budget (fuel + 1) (a :: rest) = some out) :
    ∃ more, parts size budget fuel (fill size budget (a :: rest)).2 = some more ∧
      out = (fill size budget (a :: rest)).1 :: more ∧ size a ≤ budget := by
  rw [parts] at h
  by_cases hnil : (fill size budget (a :: rest)).1 = []
  · rw [if_pos hnil] at h
    exact absurd h (by simp)
  · rw [if_neg hnil] at h
    obtain ⟨more, hmore, rfl⟩ := Option.map_eq_some_iff.mp h
    rw [fill_fst_eq_nil_iff size] at hnil
    exact ⟨more, hmore, rfl, Nat.le_of_not_lt hnil⟩

/-- The parts are the list, in order. -/
theorem flatten_parts {budget fuel : Nat} {l : List α} {out : List (List α)}
    (h : parts size budget fuel l = some out) : out.flatten = l := by
  induction fuel generalizing l out with
  | zero =>
    cases l with
    | nil =>
      cases h
      rfl
    | cons a rest => exact absurd h (by simp [parts])
  | succ fuel ih =>
    cases l with
    | nil =>
      cases h
      rfl
    | cons a rest =>
      obtain ⟨more, hmore, rfl, -⟩ := parts_cons size h
      rw [List.flatten_cons, ih hmore, fill_append]

/-- With a part for every element to spare, packing fails exactly when an element fits
no part. -/
theorem parts_isSome_iff {budget fuel : Nat} {l : List α} (hfuel : l.length ≤ fuel) :
    (parts size budget fuel l).isSome ↔ ∀ a ∈ l, size a ≤ budget := by
  induction fuel generalizing l with
  | zero =>
    cases l with
    | nil => simp [parts]
    | cons a rest => simp at hfuel
  | succ fuel ih =>
    cases l with
    | nil => simp [parts]
    | cons a rest =>
      rw [parts]
      by_cases hnil : (fill size budget (a :: rest)).1 = []
      · have hlarge := (fill_fst_eq_nil_iff size).mp hnil
        simp only [hnil, if_true, Option.isSome_none, Bool.false_eq_true, false_iff, not_forall]
        exact ⟨a, List.mem_cons_self, by omega⟩
      · have happend := fill_append size budget (a :: rest)
        have hlen := congrArg List.length happend
        have hpos := List.length_pos_iff.mpr hnil
        rw [List.length_append, List.length_cons] at hlen
        rw [List.length_cons] at hfuel
        simp only [hnil, if_false, Option.isSome_map]
        rw [ih (by omega)]
        -- the elements of the first part fit together, so each fits alone
        have hfront : ∀ b ∈ (fill size budget (a :: rest)).1, size b ≤ budget :=
          fun b hb => Nat.le_trans (size_le_total size hb) (total_fill_le size budget _)
        constructor
        · intro hback b hb
          rw [← happend] at hb
          rcases List.mem_append.mp hb with hfirst | hlast
          · exact hfront b hfirst
          · exact hback b hlast
        · intro hall b hb
          apply hall
          rw [← happend]
          exact List.mem_append_right _ hb

end Packing
