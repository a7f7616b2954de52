/-
Bit-level helpers on addresses (`rib/prefix.pxd`).

Each is characterised by the bits of the addresses it is given, bit 0 being the top
bit of the first byte.
-/
import Mathlib.Data.Nat.Bitwise
import Mathlib.Tactic.IntervalCases
import Packets.Rib.Prefix

namespace Packets

/-- `pfx_bit`: one bit of an address. -/
def pfxBit (addr : Bytes) (pos : Nat) : Bool := (addr.getD (pos / 8) 0).toNat.testBit (7 - pos % 8)

/-- `pfx_match`: whether an address falls inside a masked prefix. -/
def pfxMatch (net : Bytes) (plen : Nat) (addr : Bytes) : Bool :=
  let nbytes := plen / 8
  let rem := plen % 8
  net.take nbytes == addr.take nbytes &&
    (rem == 0 || (net.getD nbytes 0 ^^^ addr.getD nbytes 0) &&& highMask rem == 0)

/-- The position of the first bit set in a byte, scanned from the top. -/
def firstSet : Nat → UInt8 → Nat
  | 0, _ => 0
  | fuel + 1, x => if x &&& 0x80 = 0 then firstSet fuel (x <<< 1) + 1 else 0

/-- `pfx_common_bits` over so many bytes: the leading bits two addresses share. -/
def pfxCommonBits : Nat → Bytes → Bytes → Nat
  | 0, _, _ => 0
  | n + 1, a, b =>
    if a.headD 0 = b.headD 0 then pfxCommonBits n a.tail b.tail + 8
    else firstSet 8 (a.headD 0 ^^^ b.headD 0)

/-- Two addresses have the same bits below a position. -/
def AgreeTo (n : Nat) (a b : Bytes) : Prop := ∀ i < n, pfxBit a i = pfxBit b i

theorem AgreeTo.refl (n : Nat) (a : Bytes) : AgreeTo n a a := fun _ _ => rfl

theorem AgreeTo.symm {n : Nat} {a b : Bytes} (h : AgreeTo n a b) : AgreeTo n b a :=
  fun i hi => (h i hi).symm

theorem AgreeTo.trans {n : Nat} {a b c : Bytes} (h : AgreeTo n a b) (h' : AgreeTo n b c) :
    AgreeTo n a c :=
  fun i hi => (h i hi).trans (h' i hi)

theorem AgreeTo.mono {n m : Nat} {a b : Bytes} (h : AgreeTo n a b) (hm : m ≤ n) : AgreeTo m a b :=
  fun i hi => h i (Nat.lt_of_lt_of_le hi hm)

theorem pfxBit_cons_lt (b : UInt8) (rest : Bytes) {pos : Nat} (h : pos < 8) :
    pfxBit (b :: rest) pos = b.toNat.testBit (7 - pos) := by
  rw [pfxBit, Nat.div_eq_of_lt h, Nat.mod_eq_of_lt h]
  rfl

theorem pfxBit_cons_add (b : UInt8) (rest : Bytes) (pos : Nat) :
    pfxBit (b :: rest) (pos + 8) = pfxBit rest pos := by
  rw [pfxBit, Nat.add_div_right pos (by decide), Nat.add_mod_right]
  rfl

/-- A byte is the eight bits at its position. -/
theorem byte_eq_iff {x y : UInt8} :
    x = y ↔ ∀ i < 8, x.toNat.testBit (7 - i) = y.toNat.testBit (7 - i) := by
  constructor
  · rintro rfl i _
    rfl
  · intro h
    apply UInt8.toNat_inj.mp
    apply Nat.eq_of_testBit_eq
    intro i
    by_cases hi : i < 8
    · have hbit := h (7 - i) (by omega)
      rwa [show 7 - (7 - i) = i by omega] at hbit
    · have hpow : 2 ^ 8 ≤ 2 ^ i := Nat.pow_le_pow_right (by decide) (by omega)
      have hx := x.toNat_lt
      have hy := y.toNat_lt
      rw [Nat.testBit_lt_two_pow (by omega), Nat.testBit_lt_two_pow (by omega)]

theorem testBit_highMask {n i : Nat} (hi : i < 8) :
    (highMask n).toNat.testBit (7 - i) = decide (i < n) := by
  by_cases hn : n < 8
  · interval_cases n <;> interval_cases i <;> rfl
  · have hfull : highMask n = 255 := by
      rw [highMask, show 8 - n = 0 by omega]
      rfl
    rw [hfull, decide_eq_true (by omega)]
    interval_cases i <;> rfl

/-- Agreement over a first byte and the rest. -/
theorem agreeTo_cons {n : Nat} {x y : UInt8} {a b : Bytes} :
    AgreeTo n (x :: a) (y :: b) ↔
      (∀ i < 8, i < n → x.toNat.testBit (7 - i) = y.toNat.testBit (7 - i)) ∧
        AgreeTo (n - 8) a b := by
  constructor
  · intro h
    constructor
    · intro i hi hn
      have hbit := h i hn
      rwa [pfxBit_cons_lt x a hi, pfxBit_cons_lt y b hi] at hbit
    · intro i hi
      have hbit := h (i + 8) (by omega)
      rwa [pfxBit_cons_add, pfxBit_cons_add] at hbit
  · rintro ⟨hfirst, hrest⟩ i hi
    by_cases h8 : i < 8
    · rw [pfxBit_cons_lt x a h8, pfxBit_cons_lt y b h8]
      exact hfirst i h8 hi
    · have hsplit : i = i - 8 + 8 := by omega
      rw [hsplit, pfxBit_cons_add, pfxBit_cons_add]
      exact hrest (i - 8) (by omega)

theorem agreeTo_cons_of_le {n : Nat} {x y : UInt8} {a b : Bytes} (hn : 8 ≤ n) :
    AgreeTo n (x :: a) (y :: b) ↔ x = y ∧ AgreeTo (n - 8) a b := by
  rw [agreeTo_cons, byte_eq_iff]
  exact and_congr_left fun _ => forall₂_congr fun i hi => ⟨fun h => h (by omega), fun h _ => h⟩

theorem eq_of_agreeTo {a b : Bytes} (hlen : a.length = b.length)
    (h : AgreeTo (8 * a.length) a b) : a = b := by
  induction a generalizing b with
  | nil => exact (List.length_eq_zero_iff.mp hlen.symm).symm
  | cons x a ih =>
    cases b with
    | nil => simp at hlen
    | cons y b =>
      simp only [List.length_cons] at hlen h
      rw [agreeTo_cons_of_le (by omega)] at h
      rw [h.1, ih (by omega) (h.2.mono (by omega))]

theorem pfxBit_pfxMask (plen : Nat) (addr : Bytes) (i : Nat) :
    pfxBit (pfxMask plen addr) i = (decide (i < plen) && pfxBit addr i) := by
  induction addr generalizing plen i with
  | nil => simp [pfxMask, pfxBit]
  | cons b rest ih =>
    rw [pfxMask]
    by_cases hi : i < 8
    · rw [pfxBit_cons_lt _ _ hi, pfxBit_cons_lt _ _ hi, UInt8.toNat_and, Nat.testBit_and,
        testBit_highMask hi, Bool.and_comm]
    · have hsplit : i = i - 8 + 8 := by omega
      have hlt : (i - 8 < plen - 8) ↔ i < plen := by omega
      rw [hsplit, pfxBit_cons_add, pfxBit_cons_add, ih, ← hsplit]
      simp only [hlt]

theorem agreeTo_pfxMask (plen : Nat) (addr : Bytes) : AgreeTo plen (pfxMask plen addr) addr := by
  intro i hi
  rw [pfxBit_pfxMask, decide_eq_true hi, Bool.true_and]

theorem eq_of_masked {plen : Nat} {a b : Bytes} (hlen : a.length = b.length)
    (ha : pfxMask plen a = a) (hb : pfxMask plen b = b) (h : AgreeTo plen a b) : a = b := by
  apply eq_of_agreeTo hlen
  intro i _
  rw [← ha, ← hb, pfxBit_pfxMask, pfxBit_pfxMask]
  by_cases hi : i < plen
  · rw [h i hi]
  · rw [decide_eq_false hi, Bool.false_and, Bool.false_and]

theorem xor_and_highMask_eq_zero_iff {x y : UInt8} {n : Nat} :
    (x ^^^ y) &&& highMask n = 0 ↔
      ∀ i < 8, i < n → x.toNat.testBit (7 - i) = y.toNat.testBit (7 - i) := by
  rw [byte_eq_iff]
  apply forall₂_congr
  intro i hi
  rw [UInt8.toNat_and, Nat.testBit_and, UInt8.toNat_xor, Nat.testBit_xor, testBit_highMask hi]
  by_cases hin : i < n <;> simp [hin]

theorem pfxMatch_iff {net addr : Bytes} {plen : Nat} (hlen : net.length = addr.length)
    (hplen : plen ≤ 8 * net.length) : pfxMatch net plen addr = true ↔ AgreeTo plen net addr := by
  induction net generalizing addr plen with
  | nil =>
    have hzero : plen = 0 := by simpa using hplen
    subst hzero
    exact iff_of_true (by simp [pfxMatch]) fun i hi => absurd hi (Nat.not_lt_zero i)
  | cons x net ih =>
    cases addr with
    | nil => simp at hlen
    | cons y addr =>
      simp only [List.length_cons] at hlen hplen
      by_cases h8 : plen < 8
      · rw [agreeTo_cons, pfxMatch, Nat.div_eq_of_lt h8, Nat.mod_eq_of_lt h8]
        have htail : AgreeTo (plen - 8) net addr := by
          rw [show plen - 8 = 0 by omega]
          exact fun i hi => absurd hi (Nat.not_lt_zero i)
        simp only [List.take_zero, BEq.rfl, Bool.true_and, List.getD_cons_zero,
          Bool.or_eq_true, beq_iff_eq, xor_and_highMask_eq_zero_iff, htail, and_true,
          or_iff_right_iff_imp]
        rintro rfl i _ hi
        exact absurd hi (Nat.not_lt_zero i)
      · obtain ⟨k, rfl⟩ : ∃ k, plen = k + 8 := ⟨plen - 8, by omega⟩
        rw [agreeTo_cons_of_le (by omega), Nat.add_sub_cancel,
          ← ih (by omega) (by omega), pfxMatch, pfxMatch, Nat.add_div_right k (by decide),
          Nat.add_mod_right]
        simp only [List.take_succ_cons, List.getD_cons_succ,
          Bool.and_eq_true, beq_iff_eq, List.cons.injEq, and_assoc]

theorem firstSet_spec {x : UInt8} (hx : x ≠ 0) :
    firstSet 8 x < 8 ∧ x.toNat.testBit (7 - firstSet 8 x) = true ∧
      ∀ i < firstSet 8 x, x.toNat.testBit (7 - i) = false := by
  have hall : ∀ n < 256, UInt8.ofNat n ≠ 0 → firstSet 8 (UInt8.ofNat n) < 8 ∧
      (UInt8.ofNat n).toNat.testBit (7 - firstSet 8 (UInt8.ofNat n)) = true ∧
        ∀ i < firstSet 8 (UInt8.ofNat n), (UInt8.ofNat n).toNat.testBit (7 - i) = false := by
    decide +kernel
  have hbyte := hall x.toNat x.toNat_lt
  rw [UInt8.ofNat_toNat] at hbyte
  exact hbyte hx

theorem pfxCommonBits_cons (n : Nat) (x y : UInt8) (a b : Bytes) :
    pfxCommonBits (n + 1) (x :: a) (y :: b) =
      if x = y then pfxCommonBits n a b + 8 else firstSet 8 (x ^^^ y) := rfl

/-- The shared bits agree, and the next one differs. -/
theorem pfxCommonBits_spec {a b : Bytes} (hlen : a.length = b.length) :
    AgreeTo (pfxCommonBits a.length a b) a b ∧
      (pfxCommonBits a.length a b < 8 * a.length →
        pfxBit a (pfxCommonBits a.length a b) ≠ pfxBit b (pfxCommonBits a.length a b)) := by
  induction a generalizing b with
  | nil => exact ⟨fun i hi => absurd hi (Nat.not_lt_zero i), fun h => absurd h (by simp)⟩
  | cons x a ih =>
    cases b with
    | nil => simp at hlen
    | cons y b =>
      simp only [List.length_cons] at hlen
      simp only [List.length_cons, pfxCommonBits_cons]
      by_cases hxy : x = y
      · obtain ⟨hagree, hdiffer⟩ := ih (by omega : a.length = b.length)
        rw [if_pos hxy]
        constructor
        · rw [agreeTo_cons_of_le (by omega), Nat.add_sub_cancel]
          exact ⟨hxy, hagree⟩
        · intro hlt
          rw [pfxBit_cons_add, pfxBit_cons_add]
          exact hdiffer (by omega)
      · rw [if_neg hxy]
        have hne : x ^^^ y ≠ 0 := by
          intro hzero
          exact hxy (UInt8.xor_eq_zero_iff.mp hzero)
        obtain ⟨hlt, hset, hclear⟩ := firstSet_spec hne
        have hxor : ∀ i, (x ^^^ y).toNat.testBit i = (x.toNat.testBit i ^^ y.toNat.testBit i) := by
          intro i
          rw [UInt8.toNat_xor, Nat.testBit_xor]
        constructor
        · intro i hi
          have hbit := hclear i hi
          rw [hxor] at hbit
          rw [pfxBit_cons_lt x a (by omega), pfxBit_cons_lt y b (by omega)]
          simpa using hbit
        · intro _ heq
          rw [pfxBit_cons_lt x a hlt, pfxBit_cons_lt y b hlt] at heq
          rw [hxor, heq, Bool.xor_self] at hset
          exact absurd hset (by decide)

end Packets
