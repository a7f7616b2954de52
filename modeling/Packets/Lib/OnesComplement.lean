/-
One's complement sums: addition that brings its carry back in at the low end.
-/
import Mathlib.Data.Nat.ModEq

namespace OnesComplement

/-- Addition with an end-around carry, of digits below the base. -/
def endAround (base x y : Nat) : Nat := (x + y) % base + (x + y) / base

/-- The one's complement sum of words below the base. -/
def onesSum (base : Nat) (words : List Nat) : Nat := words.foldl (endAround base) 0

/-- Folding the part that does not fit back in. -/
def fold (base n : Nat) : Nat := n / base + n % base

/-- Two bytes the other way round, as a word of two digits below a base. -/
def swap (digit n : Nat) : Nat := n % digit * digit + n / digit

/-- What a number comes to: zero stays, and anything else is a nonzero word. -/
structure Reduces (base n r : Nat) : Prop where
  lt : r < base
  modEq : r ≡ n [MOD base - 1]
  zero : r = 0 ↔ n = 0

theorem Reduces.unique {base n r r' : Nat} (h : Reduces base n r) (h' : Reduces base n r') :
    r = r' := by
  have hmod : r ≡ r' [MOD base - 1] := h.modEq.trans h'.modEq.symm
  by_cases hn : n = 0
  · rw [h.zero.mpr hn, h'.zero.mpr hn]
  · have hr : r ≠ 0 := mt h.zero.mp hn
    have hr' : r' ≠ 0 := mt h'.zero.mp hn
    have hlt := h.lt
    have hlt' := h'.lt
    have hpred : r - 1 ≡ r' - 1 [MOD base - 1] := by
      refine Nat.ModEq.add_right_cancel' 1 ?_
      rwa [Nat.sub_add_cancel (Nat.pos_of_ne_zero hr), Nat.sub_add_cancel (Nat.pos_of_ne_zero hr')]
    have heq := Nat.ModEq.eq_of_lt_of_lt hpred (by omega) (by omega)
    omega

theorem fold_modEq {base : Nat} (hbase : 0 < base) (n : Nat) : fold base n ≡ n [MOD base - 1] := by
  have hone : base ≡ 1 [MOD base - 1] := by
    have h : 1 + (base - 1) ≡ 1 [MOD base - 1] := Nat.add_modEq_right
    rwa [Nat.add_sub_cancel' hbase] at h
  calc fold base n = 1 * (n / base) + n % base := by rw [fold, Nat.one_mul]
    _ ≡ base * (n / base) + n % base [MOD base - 1] := (hone.symm.mul_right _).add_right _
    _ = n := Nat.div_add_mod n base

theorem fold_eq_zero_iff {base : Nat} (n : Nat) : fold base n = 0 ↔ n = 0 := by
  rw [fold]
  constructor
  · intro h
    obtain ⟨hq, hr⟩ := Nat.add_eq_zero_iff.mp h
    have hdiv := Nat.div_add_mod n base
    rw [hq, hr, Nat.mul_zero] at hdiv
    exact hdiv.symm
  · rintro rfl
    simp

/-- Two folds bring a number of two words down to one. -/
theorem reduces_fold_fold {base n : Nat} (hbase : 2 ≤ base) (hn : n < base * base) :
    Reduces base n (fold base (fold base n)) := by
  have hpos : 0 < base := by omega
  have hq : n / base < base := Nat.div_lt_of_lt_mul hn
  have hr : n % base < base := Nat.mod_lt n hpos
  have honce : fold base n ≤ 2 * base - 2 := by
    rw [fold]
    omega
  refine ⟨?_, (fold_modEq hpos _).trans (fold_modEq hpos n),
    (fold_eq_zero_iff _).trans (fold_eq_zero_iff n)⟩
  generalize fold base n = m at honce
  rw [fold]
  by_cases hm : m < base
  · rw [Nat.div_eq_of_lt hm, Nat.mod_eq_of_lt hm]
    omega
  · have hdiv : m / base = 1 := by
      rw [Nat.div_eq_iff hpos]
      omega
    have hmod : m % base = m - base := by
      rw [Nat.mod_eq_sub_mod (not_lt.mp hm), Nat.mod_eq_of_lt (by omega)]
    omega

theorem Reduces.endAround {base n r x : Nat} (hbase : 2 ≤ base) (h : Reduces base n r)
    (hx : x < base) : Reduces base (n + x) (endAround base r x) := by
  have hfold : OnesComplement.endAround base r x = fold base (r + x) := Nat.add_comm _ _
  have hlt := h.lt
  rw [hfold]
  refine ⟨?_, (fold_modEq (by omega) _).trans (h.modEq.add_right x), ?_⟩
  · by_cases hsum : r + x < base
    · rw [fold, Nat.div_eq_of_lt hsum, Nat.mod_eq_of_lt hsum]
      omega
    · have hdiv : (r + x) / base = 1 := by
        rw [Nat.div_eq_iff (by omega)]
        omega
      have hmod : (r + x) % base = r + x - base := by
        rw [Nat.mod_eq_sub_mod (not_lt.mp hsum), Nat.mod_eq_of_lt (by omega)]
      rw [fold]
      omega
  · rw [fold_eq_zero_iff, Nat.add_eq_zero_iff, Nat.add_eq_zero_iff, h.zero]

/-- A one's complement sum is what the plain sum comes to. -/
theorem reduces_onesSum {base : Nat} (hbase : 2 ≤ base) {words : List Nat}
    (hwords : ∀ x ∈ words, x < base) : Reduces base words.sum (onesSum base words) := by
  have hfrom : ∀ {words : List Nat} {n r : Nat}, (∀ x ∈ words, x < base) → Reduces base n r →
      Reduces base (n + words.sum) (words.foldl (endAround base) r) := by
    intro words
    induction words with
    | nil => exact fun _ h => h
    | cons x words ih =>
      intro n r hwords h
      obtain ⟨hx, hwords⟩ := List.forall_mem_cons.mp hwords
      rw [List.sum_cons, ← Nat.add_assoc]
      exact ih hwords (h.endAround hbase hx)
  have hzero : Reduces base 0 0 := ⟨by omega, Nat.ModEq.refl 0, Iff.rfl⟩
  simpa [onesSum] using hfrom hwords hzero

/-- A sum of words with their digits swapped is the sum, swapped. -/
theorem Reduces.swap {digit n n' r : Nat} (hdigit : 2 ≤ digit) (h : Reduces (digit * digit) n r)
    (hmod : n' ≡ digit * n [MOD digit * digit - 1]) (hzero : n' = 0 ↔ n = 0) :
    Reduces (digit * digit) n' (swap digit r) := by
  have hpos : 0 < digit := by omega
  have hlow : r % digit < digit := Nat.mod_lt r hpos
  have hhigh : r / digit < digit := Nat.div_lt_of_lt_mul h.lt
  refine ⟨?_, ?_, ?_⟩
  · calc OnesComplement.swap digit r < r % digit * digit + digit := Nat.add_lt_add_left hhigh _
      _ = (r % digit + 1) * digit := by rw [Nat.add_mul, Nat.one_mul]
      _ ≤ digit * digit := Nat.mul_le_mul_right digit hlow
  · have hone : digit * digit ≡ 1 [MOD digit * digit - 1] := by
      have h : 1 + (digit * digit - 1) ≡ 1 [MOD digit * digit - 1] := Nat.add_modEq_right
      rwa [Nat.add_sub_cancel' (Nat.mul_pos hpos hpos)] at h
    calc OnesComplement.swap digit r = digit * (r % digit) + 1 * (r / digit) := by
          rw [OnesComplement.swap, Nat.mul_comm, Nat.one_mul]
      _ ≡ digit * (r % digit) + digit * digit * (r / digit) [MOD digit * digit - 1] :=
          (hone.symm.mul_right _).add_left _
      _ = digit * r := by rw [Nat.mul_assoc, ← Nat.mul_add, Nat.add_comm, Nat.div_add_mod]
      _ ≡ digit * n [MOD digit * digit - 1] := h.modEq.mul_left digit
      _ ≡ n' [MOD digit * digit - 1] := hmod.symm
  · rw [hzero, ← h.zero, OnesComplement.swap, Nat.add_eq_zero_iff, Nat.mul_eq_zero]
    constructor
    · rintro ⟨hmodr, hdivr⟩
      have hdiv := Nat.div_add_mod r digit
      rcases hmodr with hmodr | hmodr
      · rw [hdivr, hmodr, Nat.mul_zero] at hdiv
        exact hdiv.symm
      · omega
    · rintro rfl
      simp

end OnesComplement
