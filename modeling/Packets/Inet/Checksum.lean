/-
The Internet checksum (`cksum_acc`, `cksum_fin`, `w_cksum` and `checksum` in
`core/inetpkt.pyx`).
-/
import Packets.Lib.OnesComplement
import Packets.Inet.Layer
import Mathlib.Algebra.Order.BigOperators.Group.List
import Mathlib.Algebra.Order.Ring.Nat

namespace Packets.Checksum

open OnesComplement (endAround fold onesSum swap Reduces)

/-- `cksum_acc`: the loop over pairs and the odd byte behind it. -/
def cksumAcc : Bytes → UInt32 → UInt32
  | a :: b :: rest, s => cksumAcc rest (s + (a.toUInt32 ||| (b.toUInt32 <<< 8)))
  | [a], s => s + a.toUInt32
  | [], s => s

/-- `cksum_fin` -/
def cksumFin (s : UInt32) : UInt16 :=
  let s := (s >>> 16) + (s &&& 0xffff)
  let s := s + (s >>> 16)
  let t := (~~~s).toUInt16
  (((t >>> 8) &&& (0xff : UInt16)) ||| (t <<< 8)) &&& (0xffff : UInt16)

/-- `checksum`, which writes the loop and the folds of the two out again. -/
def checksum (data : Bytes) : UInt16 := cksumFin (cksumAcc data 0)

/-- `w_cksum` over what was written from `start` on. -/
def wCksum (written : Bytes) (start : Nat) (seed : UInt32) : UInt16 :=
  cksumFin (cksumAcc (written.drop start) seed)

/-- The 16-bit words of a string, the last padded with a zero byte. -/
def wordsBy (word : Nat → Nat → Nat) : Bytes → List Nat
  | a :: b :: rest => word a.toNat b.toNat :: wordsBy word rest
  | [a] => [word a.toNat 0]
  | [] => []

def bigWords : Bytes → List Nat := wordsBy fun a b => a * 256 + b

/-- The same words, as the loop reads them. -/
def littleWords : Bytes → List Nat := wordsBy fun a b => a + b * 256

theorem toNat_pair (a b : UInt8) :
    (a.toUInt32 ||| (b.toUInt32 <<< 8)).toNat = a.toNat + b.toNat * 256 := by
  have ha := a.toNat_lt
  have hb := b.toNat_lt
  have hor := Nat.shiftLeft_add_eq_or_of_lt ha b.toNat
  have hshift : (b.toUInt32 <<< 8).toNat = b.toNat <<< 8 := by
    simp [UInt32.toNat_shiftLeft, Nat.shiftLeft_eq]
    omega
  rw [UInt32.toNat_or, hshift, UInt8.toNat_toUInt32, Nat.or_comm, ← hor, Nat.shiftLeft_eq]
  omega

/-- The accumulator is the sum of the words, as far as 32 bits go. -/
theorem cksumAcc_eq (b : Bytes) (seed : UInt32) :
    cksumAcc b seed = seed + UInt32.ofNat (littleWords b).sum := by
  induction b, seed using cksumAcc.induct with
  | case1 a b rest s ih =>
    have hpair : a.toUInt32 ||| (b.toUInt32 <<< 8) = UInt32.ofNat (a.toNat + b.toNat * 256) := by
      rw [← toNat_pair, UInt32.ofNat_toNat]
    rw [cksumAcc, ih, littleWords, wordsBy, List.sum_cons, UInt32.ofNat_add, hpair,
      UInt32.add_assoc]
  | case2 a s =>
    rw [cksumAcc, littleWords, wordsBy, List.sum_singleton, Nat.zero_mul, Nat.add_zero,
      ← UInt8.toNat_toUInt32, UInt32.ofNat_toNat]
  | case3 s =>
    rw [cksumAcc, littleWords, wordsBy, List.sum_nil]
    simp

theorem lt_of_mem_wordsBy {word : Nat → Nat → Nat}
    (hword : ∀ a b, a < 256 → b < 256 → word a b < 65536) {b : Bytes} :
    ∀ x ∈ wordsBy word b, x < 65536 := by
  induction b using wordsBy.induct with
  | case1 a b rest ih => exact List.forall_mem_cons.mpr ⟨hword _ _ a.toNat_lt b.toNat_lt, ih⟩
  | case2 a => exact List.forall_mem_singleton.mpr (hword _ _ a.toNat_lt (by decide))
  | case3 => simp [wordsBy]

theorem lt_of_mem_bigWords {b : Bytes} : ∀ x ∈ bigWords b, x < 65536 :=
  lt_of_mem_wordsBy fun a b ha hb => by omega

theorem lt_of_mem_littleWords {b : Bytes} : ∀ x ∈ littleWords b, x < 65536 :=
  lt_of_mem_wordsBy fun a b ha hb => by omega

theorem length_wordsBy (word : Nat → Nat → Nat) (b : Bytes) :
    (wordsBy word b).length = (b.length + 1) / 2 := by
  induction b using wordsBy.induct with
  | case1 a b rest ih =>
    rw [wordsBy, List.length_cons, ih, List.length_cons, List.length_cons]
    omega
  | case2 a => rw [wordsBy, List.length_singleton, List.length_singleton]
  | case3 => rfl

theorem sum_littleWords_le (b : Bytes) : (littleWords b).sum ≤ (b.length + 1) / 2 * 65535 := by
  have h := List.sum_le_card_nsmul (littleWords b) 65535 fun x hx =>
    Nat.le_of_lt_succ (lt_of_mem_littleWords x hx)
  rw [littleWords, length_wordsBy] at h
  exact h

/-- Reading the words the other way round multiplies their sum by 256, but for full words. -/
theorem sum_bigWords (b : Bytes) :
    (bigWords b).sum ≡ 256 * (littleWords b).sum [MOD 65535] ∧
      ((bigWords b).sum = 0 ↔ (littleWords b).sum = 0) := by
  rw [bigWords, littleWords]
  induction b using wordsBy.induct with
  | case1 a b rest ih =>
    rw [wordsBy, wordsBy, List.sum_cons, List.sum_cons, Nat.mul_add]
    refine ⟨Nat.ModEq.add ?_ ih.1, ?_⟩
    · have hfull : 65535 * b.toNat ≡ 0 [MOD 65535] := by
        rw [Nat.ModEq, Nat.mul_mod_right, Nat.zero_mod]
      have heq : a.toNat * 256 + b.toNat + 65535 * b.toNat =
          256 * (a.toNat + b.toNat * 256) := by omega
      have h := hfull.symm.add_left (a.toNat * 256 + b.toNat)
      rwa [heq, Nat.add_zero] at h
    · have := ih.2
      omega
  | case2 a =>
    rw [wordsBy, wordsBy, List.sum_singleton, List.sum_singleton, Nat.zero_mul, Nat.add_zero,
      Nat.add_zero, Nat.mul_comm]
    exact ⟨Nat.ModEq.refl _, by omega⟩
  | case3 => exact ⟨rfl, Iff.rfl⟩

theorem toNat_swapped (t : UInt16) :
    ((((t >>> 8) &&& (0xff : UInt16)) ||| (t <<< 8)) &&& (0xffff : UInt16)).toNat =
      swap 256 t.toNat := by
  have ht := t.toNat_lt
  have hhigh : ((t >>> 8) &&& (0xff : UInt16)).toNat = t.toNat / 256 := by
    have hand : (t.toNat / 256) &&& 255 = t.toNat / 256 % 256 := Nat.and_two_pow_sub_one_eq_mod _ 8
    simp [UInt16.toNat_shiftRight, Nat.shiftRight_eq_div_pow, hand]
    omega
  have hlow : (t <<< 8).toNat = (t.toNat % 256) <<< 8 := by
    simp [UInt16.toNat_shiftLeft, Nat.shiftLeft_eq]
    omega
  have hor := Nat.shiftLeft_add_eq_or_of_lt (i := 8) (b := t.toNat / 256) (by omega) (t.toNat % 256)
  have hmask : ∀ x : UInt16, x &&& (0xffff : UInt16) = x := fun x => UInt16.and_neg_one
  rw [hmask, UInt16.toNat_or, hhigh, hlow, Nat.or_comm, ← hor, Nat.shiftLeft_eq, swap]

/-- The folds leave the complement of a word, whose bytes are swapped. -/
theorem toNat_cksumFin (s : UInt32) :
    (cksumFin s).toNat = swap 256 (65535 - fold 65536 (fold 65536 s.toNat)) := by
  have hs := s.toNat_lt
  have hfold : ∀ x : UInt32, (x >>> 16).toNat = x.toNat / 65536 := by
    intro x
    simp [UInt32.toNat_shiftRight, Nat.shiftRight_eq_div_pow]
  have hmask : (s &&& 0xffff).toNat = s.toNat % 65536 := by
    rw [UInt32.toNat_and]
    exact Nat.and_two_pow_sub_one_eq_mod _ 16
  have honce : ((s >>> 16) + (s &&& 0xffff)).toNat = fold 65536 s.toNat := by
    rw [UInt32.toNat_add, hfold, hmask, fold]
    omega
  rw [cksumFin, toNat_swapped]
  congr 1
  rw [UInt32.toNat_toUInt16, UInt32.toNat_not, UInt32.toNat_add, hfold, honce]
  have hle : fold 65536 s.toNat ≤ 131070 := by
    rw [fold]
    omega
  generalize fold 65536 s.toNat = m at hle
  have hsize : UInt32.size = 4294967296 := rfl
  rw [fold, hsize]
  omega

/-- What the string's checksum is the complement of. -/
theorem toNat_checksum {b : Bytes} (hb : b.length ≤ 65535 + 40) :
    (cksumAcc b 0).toNat = (littleWords b).sum ∧
      (checksum b).toNat = 65535 - onesSum 65536 (bigWords b) := by
  have hle := sum_littleWords_le b
  have hacc : (cksumAcc b 0).toNat = (littleWords b).sum := by
    rw [cksumAcc_eq, UInt32.zero_add, UInt32.toNat_ofNat']
    exact Nat.mod_eq_of_lt (by omega)
  refine ⟨hacc, ?_⟩
  have hfolds : Reduces (256 * 256) (littleWords b).sum
      (fold 65536 (fold 65536 (littleWords b).sum)) :=
    OnesComplement.reduces_fold_fold (by decide) (by omega)
  obtain ⟨hmod, hzero⟩ := sum_bigWords b
  have hswapped := (hfolds.swap (by decide) hmod hzero).unique
    (OnesComplement.reduces_onesSum (by decide) lt_of_mem_bigWords)
  rw [checksum, toNat_cksumFin, hacc, ← hswapped]
  have hlt := hfolds.lt
  rw [swap, swap]
  omega

/-- The checksum that the layers write is this one. -/
theorem toNat_checksum_eq_cksumFin {b : Bytes} (hb : b.length ≤ 65535 + 40) :
    (checksum b).toNat = Inet.cksumFin (Inet.cksumAcc b 0) := by
  have hacc (seed : Nat) : Inet.cksumAcc b seed = seed + (littleWords b).sum := by
    induction b using wordsBy.induct generalizing seed with
    | case1 a b rest ih =>
      have hrest : rest.length ≤ 65535 + 40 := by
        rw [List.length_cons, List.length_cons] at hb
        omega
      rw [Inet.cksumAcc, ih hrest, littleWords, wordsBy, List.sum_cons, Nat.add_assoc]
    | case2 a => rw [Inet.cksumAcc, littleWords, wordsBy, List.sum_singleton, Nat.zero_mul,
        Nat.add_zero]
    | case3 => rfl
  rw [checksum, toNat_cksumFin, (toNat_checksum hb).1, hacc, Nat.zero_add]
  have hle := sum_littleWords_le b
  generalize (littleWords b).sum = n at hle
  rw [Inet.cksumFin, swap, fold, fold]
  omega

theorem cksumAcc_append {front : Bytes} (heven : front.length % 2 = 0) (back : Bytes)
    (seed : UInt32) : cksumAcc (front ++ back) seed = cksumAcc back (cksumAcc front seed) := by
  induction front, seed using cksumAcc.induct with
  | case1 a b rest s ih =>
    rw [List.length_cons, List.length_cons] at heven
    rw [cksumAcc, List.cons_append, List.cons_append, cksumAcc, ih (by omega)]
  | case2 a s => simp at heven
  | case3 s => rfl

theorem foldl_cksumAcc {pieces : List Bytes}
    (heven : ∀ piece ∈ pieces.dropLast, piece.length % 2 = 0) (seed : UInt32) :
    pieces.foldl (fun s piece => cksumAcc piece s) seed = cksumAcc pieces.flatten seed := by
  induction pieces generalizing seed with
  | nil => rfl
  | cons piece pieces ih =>
    cases pieces with
    | nil => simp
    | cons next pieces =>
      rw [List.dropLast_cons_cons] at heven
      obtain ⟨hpiece, heven⟩ := List.forall_mem_cons.mp heven
      rw [List.foldl_cons, ih heven]
      exact (cksumAcc_append hpiece (next :: pieces).flatten seed).symm

/-- The checksum of a datagram and its pseudo header is the complement of the one's complement
sum of the words: no addition leaves the 32 bits, two folds are enough, and the string can be
read in pieces. -/
theorem checksum_exact (b : Bytes) (hb : b.length ≤ 65535 + 40) :
    checksum b = ~~~UInt16.ofNat (onesSum 65536 (bigWords b)) ∧
      (∀ front, front <+: b → (littleWords front).sum < 2 ^ 32 ∧
        (cksumAcc front 0).toNat = (littleWords front).sum) ∧
      fold 65536 (fold 65536 (cksumAcc b 0).toNat) = onesSum 65536 (littleWords b) ∧
      (∀ pieces : List Bytes, pieces.flatten = b →
        (∀ piece ∈ pieces.dropLast, piece.length % 2 = 0) →
        (∀ seed, pieces.foldl (fun s piece => cksumAcc piece s) seed = cksumAcc b seed) ∧
          cksumFin (pieces.foldl (fun s piece => cksumAcc piece s) 0) = checksum b) ∧
      ∀ (pseudo written : Bytes) (start : Nat), pseudo.length % 2 = 0 →
        pseudo ++ written.drop start = b →
        wCksum written start (cksumAcc pseudo 0) = checksum b := by
  have hacc := (toNat_checksum hb).1
  have hfolds : Reduces (256 * 256) (littleWords b).sum
      (fold 65536 (fold 65536 (littleWords b).sum)) := by
    have hle := sum_littleWords_le b
    exact OnesComplement.reduces_fold_fold (by decide) (by omega)
  refine ⟨?_, fun front hfront => ?_, ?_, fun pieces hpieces heven => ?_,
    fun pseudo written start heven hb => ?_⟩
  · rw [← UInt16.toNat_inj, UInt16.toNat_not, (toNat_checksum hb).2, UInt16.toNat_ofNat']
    have hlt : onesSum 65536 (bigWords b) < 65536 :=
      (OnesComplement.reduces_onesSum (by decide) lt_of_mem_bigWords).lt
    rw [Nat.mod_eq_of_lt hlt]
    rfl
  · have hshort : front.length ≤ 65535 + 40 := hfront.length_le.trans hb
    have hle := sum_littleWords_le front
    exact ⟨by omega, (toNat_checksum hshort).1⟩
  · rw [hacc]
    exact hfolds.unique (OnesComplement.reduces_onesSum (by decide) lt_of_mem_littleWords)
  · have hfold := foldl_cksumAcc heven
    rw [hpieces] at hfold
    exact ⟨hfold, by rw [hfold, checksum]⟩
  · rw [wCksum, ← cksumAcc_append heven, hb, checksum]

/-- An IPv4 header, read in two pieces. -/
theorem checksum_exact_header :
    checksum [0x45, 0, 0, 20, 0, 1, 0, 0, 64, 17, 0, 0, 192, 0, 2, 1, 192, 0, 2, 2] = 0xf6d4 ∧
      cksumFin ([[0x45, 0, 0, 20, 0, 1, 0, 0, 64, 17, 0, 0],
        [192, 0, 2, 1, 192, 0, 2, 2]].foldl (fun s piece => cksumAcc piece s) 0) =
          checksum [0x45, 0, 0, 20, 0, 1, 0, 0, 64, 17, 0, 0, 192, 0, 2, 1, 192, 0, 2, 2] := by
  obtain ⟨hexact, -, -, hpieces, -⟩ := checksum_exact
    [0x45, 0, 0, 20, 0, 1, 0, 0, 64, 17, 0, 0, 192, 0, 2, 1, 192, 0, 2, 2] (by decide)
  exact ⟨by rw [hexact]; decide +kernel, (hpieces _ rfl (by decide)).2⟩

end Packets.Checksum
