/-
The order of prefixes (`pfx_cmp` in `rib/prefix.pyx`): by family, address bytes and length.

An address comes before another when it has a 0 where they first differ.
-/
import Packets.Rib.RouteTable
import Packets.Rib.PrefixBits

namespace Packets

/-- `memcmp` of addresses of one width: its sign. -/
def memcmp : Bytes → Bytes → Int
  | x :: a, y :: b => if x ≠ y then (if x < y then -1 else 1) else memcmp a b
  | _, _ => 0

/-- `pfx_cmp`. -/
def pfxCmp (a b : Prefix) : Int :=
  if a.afi ≠ b.afi then (if a.afi < b.afi then -1 else 1)
  else
    let c := memcmp a.addr b.addr
    if c ≠ 0 then (if c < 0 then -1 else 1)
    else if a.plen ≠ b.plen then (if a.plen < b.plen then -1 else 1)
    else 0

theorem toNat_cons_lt {x y : UInt8} {a b : Bytes} (hlen : a.length = b.length) (h : x < y) :
    BigEndian.toNat (x :: a) < BigEndian.toNat (y :: b) := by
  have hbyte : x.toNat + 1 ≤ y.toNat := UInt8.lt_iff_toNat_lt.mp h
  have hmul := Nat.mul_le_mul_right (256 ^ b.length) hbyte
  have hrest := BigEndian.toNat_lt a
  rw [Nat.add_mul, Nat.one_mul] at hmul
  rw [hlen] at hrest
  simp only [BigEndian.toNat, hlen]
  omega

theorem toNat_inj {a b : Bytes} (hlen : a.length = b.length)
    (h : BigEndian.toNat a = BigEndian.toNat b) : a = b := by
  rw [← BigEndian.ofNat_toNat (s := a) rfl, ← BigEndian.ofNat_toNat (s := b) rfl, h, hlen]

theorem memcmp_eq {a b : Bytes} (hlen : a.length = b.length) :
    memcmp a b = if BigEndian.toNat a ≠ BigEndian.toNat b then
      (if BigEndian.toNat a < BigEndian.toNat b then -1 else 1) else 0 := by
  induction a generalizing b with
  | nil =>
    cases b with
    | nil => rfl
    | cons y b => simp at hlen
  | cons x a ih =>
    cases b with
    | nil => simp at hlen
    | cons y b =>
      have hrest : a.length = b.length := by simpa using hlen
      rw [memcmp]
      by_cases hxy : x = y
      · subst hxy
        rw [if_neg (not_not_intro rfl), ih hrest]
        simp only [BigEndian.toNat, hrest, Nat.add_lt_add_iff_left, ne_eq, Nat.add_left_cancel_iff]
      · rw [if_pos hxy]
        by_cases hlt : x < y
        · have hnum := toNat_cons_lt hrest hlt
          rw [if_pos hlt, if_pos (Nat.ne_of_lt hnum), if_pos hnum]
        · have hgt : y < x := by
            rw [UInt8.lt_iff_toNat_lt] at hlt ⊢
            have hne : x.toNat ≠ y.toNat := fun heq => hxy (UInt8.toNat_inj.mp heq)
            omega
          have hnum := toNat_cons_lt hrest.symm hgt
          rw [if_neg hlt, if_pos (Nat.ne_of_gt hnum), if_neg (Nat.not_lt.mpr (Nat.le_of_lt hnum))]

/-- The numbers a prefix is compared by. -/
def prefixRank (p : Prefix) : List Int := [(p.afi : Int), BigEndian.toNat p.addr, p.plen]

theorem pfxCmp_eq (a b : Prefix) :
    pfxCmp a b = Preference.compareRanks (prefixRank a) (prefixRank b) := by
  simp only [pfxCmp, prefixRank, Preference.compareRanks]
  by_cases hafi : a.afi = b.afi
  · have hlen : a.addr.length = b.addr.length := by
      rw [a.length_addr, b.length_addr, hafi]
    rw [memcmp_eq hlen]
    by_cases haddr : BigEndian.toNat a.addr = BigEndian.toNat b.addr
    · simp [hafi, haddr]
    · by_cases hlt : BigEndian.toNat a.addr < BigEndian.toNat b.addr
      · simp [hafi, haddr, hlt]
      · simp [hafi, haddr, hlt]
  · simp [hafi]

theorem pfxCmp_neg_iff {a b : Prefix} : pfxCmp a b < 0 ↔ prefixRank a < prefixRank b := by
  rw [pfxCmp_eq]
  exact Preference.compareRanks_neg_iff rfl

theorem prefixRank_inj {a b : Prefix} (h : prefixRank a = prefixRank b) : a = b := by
  obtain ⟨afi, plen, addr, _, _, hlen, _⟩ := a
  obtain ⟨afi', plen', addr', _, _, hlen', _⟩ := b
  simp only [prefixRank, List.cons.injEq, Nat.cast_inj, and_true] at h
  obtain ⟨rfl, haddr, rfl⟩ := h
  have hsame := toNat_inj (hlen.trans hlen'.symm) haddr
  subst hsame
  rfl

theorem Rib.GlobalRib.pfxLe_iff {a b : Prefix} :
    Rib.GlobalRib.pfxLe a b = true ↔ prefixRank a ≤ prefixRank b := by
  have hlen : (prefixRank a).length = (prefixRank b).length := rfl
  have hpos := Preference.compareRanks_pos_iff hlen
  rw [Rib.GlobalRib.pfxLe, decide_eq_true_iff, ← not_lt, ← not_lt]
  exact not_congr hpos

/-- The first bit in which two addresses differ orders them. -/
theorem toNat_lt_of_bit {a b : Bytes} {k : Nat} (hlen : a.length = b.length)
    (hagree : AgreeTo k a b) (hzero : pfxBit a k = false) (hone : pfxBit b k = true) :
    BigEndian.toNat a < BigEndian.toNat b := by
  induction a generalizing b k with
  | nil =>
    rw [List.length_eq_zero_iff.mp hlen.symm, pfxBit] at hone
    simp at hone
  | cons x a ih =>
    cases b with
    | nil => simp at hlen
    | cons y b =>
      have hrest : a.length = b.length := by simpa using hlen
      by_cases hk : k < 8
      · rw [pfxBit_cons_lt x a hk] at hzero
        rw [pfxBit_cons_lt y b hk] at hone
        apply toNat_cons_lt hrest
        apply UInt8.lt_iff_toNat_lt.mpr
        apply Nat.lt_of_testBit (7 - k) hzero hone
        intro j hj
        by_cases hj8 : j < 8
        · have hbit := hagree (7 - j) (by omega)
          rw [pfxBit_cons_lt x a (by omega), pfxBit_cons_lt y b (by omega)] at hbit
          rwa [show 7 - (7 - j) = j by omega] at hbit
        · have hpow : 2 ^ 8 ≤ 2 ^ j := Nat.pow_le_pow_right (by decide) (by omega)
          have hx := x.toNat_lt
          have hy := y.toNat_lt
          rw [Nat.testBit_lt_two_pow (by omega), Nat.testBit_lt_two_pow (by omega)]
      · obtain ⟨i, rfl⟩ : ∃ i, k = i + 8 := ⟨k - 8, by omega⟩
        obtain ⟨hxy, hagree'⟩ := (agreeTo_cons_of_le (by omega)).mp hagree
        rw [pfxBit_cons_add] at hzero hone
        have hlt := ih hrest hagree' hzero hone
        rw [hxy, BigEndian.toNat, BigEndian.toNat, hrest]
        omega

/-- A masked address is the least of those it covers. -/
theorem toNat_le_of_masked {a b : Bytes} {k : Nat} (hlen : a.length = b.length)
    (hmasked : pfxMask k a = a) (hagree : AgreeTo k a b) :
    BigEndian.toNat a ≤ BigEndian.toNat b := by
  by_cases heq : a = b
  · exact Nat.le_of_eq (congrArg _ heq)
  · obtain ⟨hshared, hdiffer⟩ := pfxCommonBits_spec hlen
    have hin : pfxCommonBits a.length a b < 8 * a.length := by
      by_contra hge
      exact heq (eq_of_agreeTo hlen (hshared.mono (Nat.le_of_not_lt hge)))
    have hne := hdiffer hin
    have hbeyond : ¬pfxCommonBits a.length a b < k := fun hlt => hne (hagree _ hlt)
    have hzero : pfxBit a (pfxCommonBits a.length a b) = false := by
      rw [← hmasked, pfxBit_pfxMask, hmasked, decide_eq_false hbeyond, Bool.false_and]
    have hone : pfxBit b (pfxCommonBits a.length a b) = true := by
      rw [hzero] at hne
      exact Bool.eq_true_of_not_eq_false hne.symm
    exact Nat.le_of_lt (toNat_lt_of_bit hlen hshared hzero hone)

end Packets
