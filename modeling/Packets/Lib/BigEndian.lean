/-
Network-order integers in byte strings, and reading them off the front.
-/
import Mathlib.Data.List.Basic
import Mathlib.Tactic.Ring

namespace BigEndian

/-- The number a byte string spells, most significant byte first. -/
def toNat : List UInt8 → Nat
  | [] => 0
  | b :: rest => b.toNat * 256 ^ rest.length + toNat rest

/-- The last `width` bytes of a number, most significant byte first. -/
def ofNat : Nat → Nat → List UInt8
  | 0, _ => []
  | width + 1, n => UInt8.ofNat (n / 256 ^ width) :: ofNat width n

@[simp] theorem length_ofNat (width n : Nat) : (ofNat width n).length = width := by
  induction width with
  | zero => rfl
  | succ width ih => simp [ofNat, ih]

theorem toNat_lt (s : List UInt8) : toNat s < 256 ^ s.length := by
  induction s with
  | nil => simp [toNat]
  | cons b rest ih =>
    have hb : b.toNat ≤ 255 := Nat.le_of_lt_succ b.toNat_lt
    have hmul := Nat.mul_le_mul_right (256 ^ rest.length) hb
    simp only [toNat, List.length_cons, Nat.pow_succ]
    omega

theorem toNat_append (s t : List UInt8) : toNat (s ++ t) = toNat s * 256 ^ t.length + toNat t := by
  induction s with
  | nil => simp [toNat]
  | cons b s ih =>
    rw [List.cons_append, toNat, ih, toNat, List.length_append, Nat.pow_add]
    ring

theorem toNat_ofNat_mod (width n : Nat) : toNat (ofNat width n) = n % 256 ^ width := by
  induction width with
  | zero => simp [ofNat, toNat, Nat.mod_one]
  | succ width ih =>
    have hbyte : (UInt8.ofNat (n / 256 ^ width)).toNat = n / 256 ^ width % 256 := UInt8.toNat_ofNat'
    rw [ofNat, toNat, length_ofNat, hbyte, ih, Nat.pow_succ, Nat.mod_mul,
      Nat.mul_comm, Nat.add_comm]

theorem toNat_ofNat {width n : Nat} (h : n < 256 ^ width) : toNat (ofNat width n) = n := by
  rw [toNat_ofNat_mod, Nat.mod_eq_of_lt h]

theorem ofNat_mul_add (width k n : Nat) : ofNat width (k * 256 ^ width + n) = ofNat width n := by
  induction width generalizing k with
  | zero => rfl
  | succ width ih =>
    have hsplit : k * 256 ^ (width + 1) = (k * 256) * 256 ^ width := by ring
    have hpos : 0 < 256 ^ width := Nat.pow_pos (by decide)
    simp only [ofNat]
    rw [hsplit, ih, Nat.add_comm, Nat.add_mul_div_right _ _ hpos]
    congr 1
    apply UInt8.toNat_inj.mp
    simp

theorem ofNat_toNat {width : Nat} {s : List UInt8} (h : s.length = width) :
    ofNat width (toNat s) = s := by
  induction s generalizing width with
  | nil => subst h; rfl
  | cons b rest ih =>
    subst h
    have hlt := toNat_lt rest
    have hpos : 0 < 256 ^ rest.length := Nat.pow_pos (by decide)
    simp only [List.length_cons, ofNat, toNat]
    rw [ofNat_mul_add, ih rfl, Nat.add_comm, Nat.add_mul_div_right _ _ hpos, Nat.div_eq_of_lt hlt]
    simp

theorem ofNat_mod (width n : Nat) : ofNat width (n % 256 ^ width) = ofNat width n := by
  have hsplit : n / 256 ^ width * 256 ^ width + n % 256 ^ width = n := by
    rw [Nat.mul_comm, Nat.div_add_mod]
  rw [← ofNat_mul_add width (n / 256 ^ width), hsplit]

theorem ofNat_add (high low n : Nat) :
    ofNat (high + low) n = ofNat high (n / 256 ^ low) ++ ofNat low n := by
  induction high with
  | zero => simp [ofNat]
  | succ high ih =>
    have hsum : high + 1 + low = (high + low) + 1 := by omega
    rw [hsum, ofNat, ofNat, ih, List.cons_append, Nat.div_div_eq_div_mul, ← Nat.pow_add,
      Nat.add_comm low high]

/-- Strings of one length compare as the numbers they spell. -/
theorem lt_iff_toNat_lt {s t : List UInt8} (h : s.length = t.length) :
    s < t ↔ toNat s < toNat t := by
  induction s generalizing t with
  | nil =>
    obtain rfl : t = [] := List.length_eq_zero_iff.mp h.symm
    simp
  | cons b s ih =>
    cases t with
    | nil => simp at h
    | cons c t =>
      have hlen : s.length = t.length := Nat.succ.inj h
      have hs := toNat_lt s
      have ht := toNat_lt t
      rw [List.cons_lt_cons_iff, ih hlen, toNat, toNat, hlen, UInt8.lt_iff_toNat_lt,
        ← UInt8.toNat_inj]
      rw [hlen] at hs
      generalize 256 ^ t.length = m at hs ht
      constructor
      · rintro (hlt | ⟨heq, hlt⟩)
        · have hmul := Nat.mul_le_mul_right m (Nat.succ_le_of_lt hlt)
          rw [Nat.succ_mul] at hmul
          omega
        · rw [heq]
          omega
      · intro hlt
        rcases Nat.lt_trichotomy b.toNat c.toNat with hbc | hbc | hbc
        · exact Or.inl hbc
        · rw [hbc] at hlt
          exact Or.inr ⟨hbc, by omega⟩
        · have hmul := Nat.mul_le_mul_right m (Nat.succ_le_of_lt hbc)
          rw [Nat.succ_mul] at hmul
          omega

theorem le_iff_toNat_le {s t : List UInt8} (h : s.length = t.length) :
    s ≤ t ↔ toNat s ≤ toNat t := by
  rw [← List.not_lt, lt_iff_toNat_lt h.symm, Nat.not_lt]

theorem toNat_inj {s t : List UInt8} (h : s.length = t.length) : toNat s = toNat t ↔ s = t := by
  constructor
  · intro heq
    rw [← ofNat_toNat (s := s) rfl, heq, h, ofNat_toNat rfl]
  · exact fun heq => congrArg toNat heq

theorem ofNat_le_ofNat_iff {width m n : Nat} (hm : m < 256 ^ width) (hn : n < 256 ^ width) :
    ofNat width m ≤ ofNat width n ↔ m ≤ n := by
  rw [le_iff_toNat_le (by simp), toNat_ofNat hm, toNat_ofNat hn]

/-- The bytes of an integer, off the front. -/
def readInt (width : Nat) (s : List UInt8) : Option (Nat × List UInt8) :=
  if width ≤ s.length then some (toNat (s.take width), s.drop width) else none

/-- A number of bytes, off the front. -/
def takeBytes (n : Nat) (s : List UInt8) : Option (List UInt8 × List UInt8) :=
  if n ≤ s.length then some (s.take n, s.drop n) else none

theorem readInt_sound {width n : Nat} {s rest : List UInt8}
    (h : readInt width s = some (n, rest)) : s = ofNat width n ++ rest ∧ n < 256 ^ width := by
  simp only [readInt] at h
  split at h
  · rename_i hle
    simp only [Option.some.injEq, Prod.mk.injEq] at h
    obtain ⟨rfl, rfl⟩ := h
    have hlen : (s.take width).length = width := List.length_take_of_le hle
    have hlt := toNat_lt (s.take width)
    rw [hlen] at hlt
    rw [ofNat_toNat hlen, List.take_append_drop]
    exact ⟨rfl, hlt⟩
  · cases h

theorem takeBytes_sound {n : Nat} {s front rest : List UInt8}
    (h : takeBytes n s = some (front, rest)) : s = front ++ rest ∧ front.length = n := by
  simp only [takeBytes] at h
  split at h
  · rename_i hle
    simp only [Option.some.injEq, Prod.mk.injEq] at h
    obtain ⟨rfl, rfl⟩ := h
    exact ⟨(List.take_append_drop n s).symm, List.length_take_of_le hle⟩
  · cases h

theorem readInt_ofNat {width n : Nat} (h : n < 256 ^ width) (rest : List UInt8) :
    readInt width (ofNat width n ++ rest) = some (n, rest) := by
  have hle : width ≤ (ofNat width n ++ rest).length := by simp
  rw [readInt, if_pos hle, List.take_left' (length_ofNat width n),
    List.drop_left' (length_ofNat width n), toNat_ofNat h]

theorem takeBytes_append (s rest : List UInt8) :
    takeBytes s.length (s ++ rest) = some (s, rest) := by
  rw [takeBytes, if_pos (by simp), List.take_left, List.drop_left]

theorem takeBytes_of_length {n : Nat} {s : List UInt8} (h : s.length = n) (rest : List UInt8) :
    takeBytes n (s ++ rest) = some (s, rest) := h ▸ takeBytes_append s rest

theorem exists_ofNat_append {width : Nat} {s : List UInt8} (h : width ≤ s.length) :
    ∃ n rest, n < 256 ^ width ∧ s = ofNat width n ++ rest := by
  have hread : readInt width s = some (toNat (s.take width), s.drop width) := if_pos h
  obtain ⟨hs, hlt⟩ := readInt_sound hread
  exact ⟨_, _, hlt, hs⟩

theorem exists_bytes_append {n : Nat} {s : List UInt8} (h : n ≤ s.length) :
    ∃ front rest, front.length = n ∧ s = front ++ rest :=
  ⟨s.take n, s.drop n, List.length_take_of_le h, (List.take_append_drop n s).symm⟩

end BigEndian
