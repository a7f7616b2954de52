/-
The elements of a list in ascending order, each once.

Two lists with the same elements have the same such form, so it stands for the set.
-/
import Mathlib.Data.List.Sort
import Mathlib.Data.List.Dedup

namespace Ascending

universe u v

variable {α : Type u} {β : Type v} [DecidableEq α] [DecidableEq β]
variable (r : α → α → Prop) [DecidableRel r] (s : β → β → Prop) [DecidableRel s]

/-- The form of a list: without duplicates, and sorted. -/
def form (l : List α) : List α := l.dedup.insertionSort r

@[simp] theorem mem_form {l : List α} {x : α} : x ∈ form r l ↔ x ∈ l := by
  rw [form, List.mem_insertionSort, List.mem_dedup]

theorem nodup_form (l : List α) : (form r l).Nodup :=
  (List.perm_insertionSort r l.dedup).nodup_iff.mpr l.nodup_dedup

section

variable [Std.Total r] [IsTrans α r]

theorem pairwise_form (l : List α) : (form r l).Pairwise r := List.pairwise_insertionSort r l.dedup

variable [Std.Antisymm r]

theorem form_eq_self {l : List α} (hsorted : l.Pairwise r) (hnodup : l.Nodup) : form r l = l := by
  apply List.Perm.eq_of_pairwise' (pairwise_form r l) hsorted
  rw [form, hnodup.dedup]
  exact List.perm_insertionSort r l

theorem form_congr {l l' : List α} (h : ∀ x, x ∈ l ↔ x ∈ l') : form r l = form r l' := by
  apply List.Perm.eq_of_pairwise' (pairwise_form r l) (pairwise_form r l')
  apply (List.perm_ext_iff_of_nodup (nodup_form r l) (nodup_form r l')).mpr
  intro x
  rw [mem_form, mem_form]
  exact h x

theorem form_form (l : List α) : form r (form r l) = form r l :=
  form_eq_self r (pairwise_form r l) (nodup_form r l)

omit [Std.Antisymm r] in
/-- An embedding of the order takes forms to forms. -/
theorem map_form [Std.Total s] [IsTrans β s] [Std.Antisymm s] {f : α → β} {l : List α}
    (hmono : ∀ x ∈ l, ∀ y ∈ l, r x y → s (f x) (f y)) (hinj : ∀ x ∈ l, ∀ y ∈ l, f x = f y → x = y) :
    (form r l).map f = form s (l.map f) := by
  have hsorted : ((form r l).map f).Pairwise s := by
    rw [List.pairwise_map]
    apply (pairwise_form r l).imp_of_mem
    intro x y hx hy hxy
    exact hmono x ((mem_form r).mp hx) y ((mem_form r).mp hy) hxy
  have hnodup : ((form r l).map f).Nodup := by
    apply List.Nodup.map_on _ (nodup_form r l)
    intro x hx y hy hxy
    exact hinj x ((mem_form r).mp hx) y ((mem_form r).mp hy) hxy
  rw [← form_eq_self s hsorted hnodup]
  apply form_congr
  intro z
  simp only [List.mem_map, mem_form]

end

end Ascending
