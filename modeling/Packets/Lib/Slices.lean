/-
The part of a buffer between two offsets, and reading single items at an offset.
-/
import Mathlib.Data.List.Basic

namespace Slices

universe u

variable {α : Type u}

/-- The items from one offset up to another. -/
def slice (s : List α) (o e : Nat) : List α := (s.take e).drop o

theorem length_slice {s : List α} {o e : Nat} (h : e ≤ s.length) :
    (slice s o e).length = e - o := by
  rw [slice, List.length_drop, List.length_take, Nat.min_eq_left h]

theorem slice_self (s : List α) (o : Nat) : slice s o o = [] := by
  rw [slice, List.drop_eq_nil_iff, List.length_take]
  exact Nat.min_le_left o s.length

theorem slice_cons {s : List α} {o e : Nat} (ho : o < e) (he : e ≤ s.length) :
    ∃ x, s[o]? = some x ∧ slice s o e = x :: slice s (o + 1) e := by
  have hlt : o < (s.take e).length := by
    rw [List.length_take]
    omega
  refine ⟨s[o], List.getElem?_eq_getElem (by omega), ?_⟩
  rw [slice, List.drop_eq_getElem_cons hlt, List.getElem_take]
  rfl

theorem take_slice {s : List α} {o m e : Nat} (hm : m ≤ e) :
    (slice s o e).take (m - o) = slice s o m := by
  rw [slice, slice, List.take_drop, List.take_take]
  by_cases h : o ≤ m
  · rw [Nat.add_sub_cancel' h, Nat.min_eq_left hm]
  · rw [Nat.sub_eq_zero_of_le (by omega), Nat.add_zero]
    rw [List.drop_eq_nil_of_le, List.drop_eq_nil_of_le]
    · rw [List.length_take]; omega
    · rw [List.length_take]; omega

theorem drop_slice {s : List α} {o m e : Nat} (hm : o ≤ m) :
    (slice s o e).drop (m - o) = slice s m e := by
  rw [slice, slice, List.drop_drop, Nat.add_sub_cancel' hm]

end Slices
