/-
Fields of a machine word.

A field is a run of bits.  What is put into it is read back from it, and fields
that stand apart from it keep theirs.
-/
import Mathlib.Data.Nat.Bitwise

/-- A run of bits, counted from the lowest. -/
structure BitField where
  offset : Nat
  width : Nat
deriving DecidableEq

namespace BitField

variable {w : Nat}

/-- The value of the field in a word. -/
def get (f : BitField) (v : BitVec w) : Nat := (v.toNat >>> f.offset) % 2 ^ f.width

/-- The ones of the field. -/
def mask (f : BitField) : BitVec w := BitVec.ofNat w (2 ^ f.width - 1) <<< f.offset

/-- The word with a value put into the field. -/
def put (f : BitField) (v : BitVec w) (x : Nat) : BitVec w :=
  (v &&& ~~~f.mask) ||| (BitVec.ofNat w x <<< f.offset)

/-- The field stands inside a word. -/
def Fits (f : BitField) (w : Nat) : Prop := f.offset + f.width ≤ w

/-- Two fields have no bit in common. -/
def Apart (f g : BitField) : Prop := f.offset + f.width ≤ g.offset ∨ g.offset + g.width ≤ f.offset

instance (f : BitField) (w : Nat) : Decidable (f.Fits w) := inferInstanceAs (Decidable (_ ≤ _))

instance (f g : BitField) : Decidable (f.Apart g) := inferInstanceAs (Decidable (_ ∨ _))

theorem testBit_get (f : BitField) (v : BitVec w) (i : Nat) :
    (f.get v).testBit i = (decide (i < f.width) && v.getLsbD (f.offset + i)) := by
  rw [get, Nat.testBit_mod_two_pow, Nat.testBit_shiftRight, BitVec.testBit_toNat]

theorem getLsbD_put (f : BitField) (v : BitVec w) (x i : Nat) (hi : i < w) :
    (f.put v x).getLsbD i =
      if f.offset ≤ i then
        (v.getLsbD i && !decide (i - f.offset < f.width)) || x.testBit (i - f.offset)
      else v.getLsbD i := by
  by_cases hle : f.offset ≤ i
  · have hnot : ¬ i < f.offset := by omega
    have hsub : i - f.offset < w := by omega
    have hone : (BitVec.ofNat w (2 ^ f.width - 1)).getLsbD (i - f.offset) =
        decide (i - f.offset < f.width) := by
      rw [BitVec.getLsbD_ofNat, Nat.testBit_two_pow_sub_one]
      simp [hsub]
    have hval : (BitVec.ofNat w x).getLsbD (i - f.offset) = x.testBit (i - f.offset) := by
      rw [BitVec.getLsbD_ofNat]
      simp [hsub]
    simp only [put, mask, BitVec.getLsbD_or, BitVec.getLsbD_and, BitVec.getLsbD_not,
      BitVec.getLsbD_shiftLeft, hone, hval, hi, hle, hnot, decide_true, decide_false,
      Bool.not_false, Bool.true_and, if_true]
  · have hlt : i < f.offset := by omega
    simp [put, mask, hi, hle, hlt]

/-- What is put into a field is read back. -/
theorem get_put {f : BitField} (hf : f.Fits w) (v : BitVec w) {x : Nat} (hx : x < 2 ^ f.width) :
    f.get (f.put v x) = x := by
  apply Nat.eq_of_testBit_eq
  intro i
  rw [testBit_get]
  by_cases hi : i < f.width
  · have hw : f.offset + i < w := Nat.lt_of_lt_of_le (by omega) hf
    rw [getLsbD_put f v x _ hw]
    simp [hi]
  · have hout : x.testBit i = false :=
      Nat.testBit_lt_two_pow (Nat.lt_of_lt_of_le hx (Nat.pow_le_pow_right (by decide) (by omega)))
    simp [hi, hout]

/-- A field that stands apart keeps its value. -/
theorem get_put_of_apart {f g : BitField} (hfg : f.Apart g) (hg : g.Fits w) (v : BitVec w)
    {x : Nat} (hx : x < 2 ^ f.width) : g.get (f.put v x) = g.get v := by
  apply Nat.eq_of_testBit_eq
  intro i
  rw [testBit_get, testBit_get]
  by_cases hi : i < g.width
  · have hw : g.offset + i < w := Nat.lt_of_lt_of_le (by omega) hg
    rw [getLsbD_put f v x _ hw]
    rcases hfg with hbelow | habove
    · have hout : x.testBit (g.offset + i - f.offset) = false :=
        Nat.testBit_lt_two_pow (Nat.lt_of_lt_of_le hx (Nat.pow_le_pow_right (by decide) (by omega)))
      have hnot : ¬ g.offset + i - f.offset < f.width := by omega
      simp [hi, hout, hnot]
    · have hnot : ¬ f.offset ≤ g.offset + i := by omega
      simp [hi, hnot]
  · simp [hi]

/-- The field of one bit. -/
def bit (offset : Nat) : BitField := ⟨offset, 1⟩

theorem mask_bit (offset : Nat) : ((bit offset).mask : BitVec w) = 1#w <<< offset := rfl

theorem put_bit_one (offset : Nat) (v : BitVec w) :
    (bit offset).put v 1 = v ||| (1#w <<< offset) := by
  apply BitVec.eq_of_getLsbD_eq
  intro i hi
  rw [getLsbD_put _ v _ i hi]
  by_cases hle : offset ≤ i
  · have hnot : ¬ i < offset := by omega
    have hone : Nat.testBit 1 (i - offset) = decide (i - offset = 0) := by
      rw [Bool.eq_iff_iff, Nat.testBit_one_eq_true_iff_self_eq_zero, decide_eq_true_eq]
    by_cases heq : i - offset = 0 <;> simp [bit, hle, hi, hnot, heq, hone]
  · have hlt : i < offset := by omega
    simp [bit, hle, hlt]

theorem put_bit_zero (offset : Nat) (v : BitVec w) :
    (bit offset).put v 0 = v &&& ~~~(1#w <<< offset) := by
  simp [put, mask_bit]

theorem and_bit_eq_zero_iff {offset : Nat} (hoffset : offset < w) (v : BitVec w) :
    v &&& (1#w <<< offset) = 0#w ↔ v.getLsbD offset = false := by
  constructor
  · intro h
    have hbit := congrArg (fun u => BitVec.getLsbD u offset) h
    simpa [hoffset] using hbit
  · intro h
    apply BitVec.eq_of_getLsbD_eq
    intro i hi
    by_cases heq : i = offset
    · subst heq
      simp [h]
    · by_cases hlt : i < offset
      · simp [hlt]
      · have hne : i - offset ≠ 0 := by omega
        simp [hne]

end BitField
