/-
Strings compared outside of their fields: what stands in a field is blanked first.
-/
import Mathlib.Data.List.Basic

namespace Masked

variable {α : Type} [Zero α]

/-- A string with its fields blanked.  `inField` says which positions are in one. -/
def blank (inField : Nat → Bool) : List α → List α
  | [] => []
  | a :: rest => (if inField 0 then 0 else a) :: blank (fun i => inField (i + 1)) rest

@[simp] theorem length_blank (inField : Nat → Bool) (s : List α) :
    (blank inField s).length = s.length := by
  induction s generalizing inField with
  | nil => rfl
  | cons a rest ih => simp [blank, ih]

theorem length_eq_of_blank {inField : Nat → Bool} {s t : List α}
    (h : blank inField s = blank inField t) : s.length = t.length := by
  simpa using congrArg List.length h

theorem blank_append (inField : Nat → Bool) (s t : List α) :
    blank inField (s ++ t) = blank inField s ++ blank (fun i => inField (i + s.length)) t := by
  induction s generalizing inField with
  | nil => rfl
  | cons a rest ih =>
    simp only [List.cons_append, blank, ih, List.length_cons]
    have hshift : (fun i => inField (i + rest.length + 1)) =
        fun i => inField (i + (rest.length + 1)) := rfl
    rw [hshift]

theorem blank_congr {inField inField' : Nat → Bool} {s : List α}
    (h : ∀ i < s.length, inField i = inField' i) : blank inField s = blank inField' s := by
  induction s generalizing inField inField' with
  | nil => rfl
  | cons a rest ih =>
    have hfirst : inField 0 = inField' 0 := h 0 (Nat.succ_pos _)
    have hrest : blank (fun i => inField (i + 1)) rest = blank (fun i => inField' (i + 1)) rest :=
      ih fun i hi => h (i + 1) (Nat.succ_lt_succ hi)
    simp only [blank, hfirst, hrest]

/-- What stands in a field makes no difference. -/
theorem blank_field {inField : Nat → Bool} {s t : List α} (hlen : s.length = t.length)
    (h : ∀ i < s.length, inField i = true) : blank inField s = blank inField t := by
  induction s generalizing inField t with
  | nil => rw [List.length_eq_zero_iff.mp hlen.symm]
  | cons a rest ih =>
    obtain ⟨b, t, rfl⟩ : ∃ b u, t = b :: u := by
      cases t with
      | nil => cases hlen
      | cons b u => exact ⟨b, u, rfl⟩
    have hrest : blank (fun i => inField (i + 1)) rest = blank (fun i => inField (i + 1)) t :=
      ih (Nat.succ.inj hlen) fun i hi => h (i + 1) (Nat.succ_lt_succ hi)
    have hfirst : inField 0 = true := h 0 (Nat.succ_pos _)
    simp only [blank, hfirst, if_true, hrest]

/-- Outside of the fields the strings are the same. -/
theorem getElem?_eq_of_blank {inField : Nat → Bool} {s t : List α} {i : Nat}
    (h : blank inField s = blank inField t) (hi : inField i = false) : s[i]? = t[i]? := by
  induction s generalizing inField t i with
  | nil => rw [List.length_eq_zero_iff.mp (length_eq_of_blank h).symm]
  | cons a rest ih =>
    cases t with
    | nil => cases h
    | cons b t =>
      simp only [blank, List.cons.injEq] at h
      cases i with
      | zero => simpa [hi] using h.1
      | succ i => simpa using ih h.2 hi

/-- Two strings in three parts, of which the middle one is a field. -/
theorem blank_around {inField : Nat → Bool} (s : List α) {m n : List α} {t u : List α}
    (hlen : m.length = n.length)
    (hfield : ∀ i < m.length, inField (i + s.length) = true)
    (h : blank (fun i => inField (i + m.length + s.length)) t =
      blank (fun i => inField (i + m.length + s.length)) u) :
    blank inField (s ++ m ++ t) = blank inField (s ++ n ++ u) := by
  rw [List.append_assoc, List.append_assoc, blank_append, blank_append, blank_append, blank_append]
  rw [blank_field hlen hfield]
  congr 2
  rw [← hlen]
  exact h

end Masked
