/-
Whole numbers in text, as Python's `int()` reads them, and slices with negative bounds.

Blanks, a sign, the decimal digits of any script, and single underscores between them.
-/
import Packets.Lib.Slices

namespace DecimalText

/-- The zeros of the scripts that have decimal digits.  The nine others follow each. -/
def zeros : List Nat :=
  [0x30, 0x660, 0x6f0, 0x7c0, 0x966, 0x9e6, 0xa66, 0xae6, 0xb66, 0xbe6, 0xc66, 0xce6, 0xd66,
    0xde6, 0xe50, 0xed0, 0xf20, 0x1040, 0x1090, 0x17e0, 0x1810, 0x1946, 0x19d0, 0x1a80, 0x1a90,
    0x1b50, 0x1bb0, 0x1c40, 0x1c50, 0xa620, 0xa8d0, 0xa900, 0xa9d0, 0xa9f0, 0xaa50, 0xabf0,
    0xff10, 0x104a0, 0x10d30, 0x11066, 0x110f0, 0x11136, 0x111d0, 0x112f0, 0x11450, 0x114d0,
    0x11650, 0x116c0, 0x11730, 0x118e0, 0x11950, 0x11c50, 0x11d50, 0x11da0, 0x11f50, 0x16a60,
    0x16ac0, 0x16b50, 0x1d7ce, 0x1d7d8, 0x1d7e2, 0x1d7ec, 0x1d7f6, 0x1e140, 0x1e2f0, 0x1e4f0,
    0x1e950, 0x1fbf0]

/-- The value of a decimal digit. -/
def digitValue (c : Char) : Option Nat :=
  (zeros.find? fun z => z ≤ c.toNat && c.toNat < z + 10).map fun z => c.toNat - z

def isDigit (c : Char) : Bool := (digitValue c).isSome

def blanks : List Nat :=
  [0x9, 0xa, 0xb, 0xc, 0xd, 0x1c, 0x1d, 0x1e, 0x1f, 0x20, 0x85, 0xa0, 0x1680, 0x2000, 0x2001,
    0x2002, 0x2003, 0x2004, 0x2005, 0x2006, 0x2007, 0x2008, 0x2009, 0x200a, 0x2028, 0x2029,
    0x202f, 0x205f, 0x3000]

def isBlank (c : Char) : Bool := blanks.contains c.toNat

def strip (s : List Char) : List Char := ((s.dropWhile isBlank).reverse.dropWhile isBlank).reverse

/-- The number some digits spell. -/
def value (digits : List Char) : Nat := digits.foldl (fun n c => n * 10 + (digitValue c).getD 0) 0

/-- More digits are not read. -/
def MAX_STR_DIGITS : Nat := 4300

def readDigits (s : List Char) : Option Nat :=
  let groups := s.splitOn '_'
  if (groups.all fun g => !g.isEmpty && g.all isDigit) ∧ groups.flatten.length ≤ MAX_STR_DIGITS
  then some (value groups.flatten) else none

/-- `int()` of a text. -/
def int (s : List Char) : Option Int :=
  match strip s with
  | '-' :: rest => (readDigits rest).map fun n => -(n : Int)
  | '+' :: rest => (readDigits rest).map fun n => (n : Int)
  | rest => (readDigits rest).map fun n => (n : Int)

theorem digit_not_blank {c : Char} (h : isDigit c) : isBlank c = false := by
  rw [← Bool.not_eq_true]
  intro hblank
  have hmem : c.toNat ∈ blanks := by simpa [isBlank] using hblank
  obtain ⟨z, hz, hle, hlt⟩ : ∃ z ∈ zeros, z ≤ c.toNat ∧ c.toNat < z + 10 := by
    obtain ⟨n, hn⟩ := Option.isSome_iff_exists.mp h
    obtain ⟨z, hfind, -⟩ := Option.map_eq_some_iff.mp hn
    exact ⟨z, List.mem_of_find?_eq_some hfind, by simpa using List.find?_some hfind⟩
  have hnone : ∀ b ∈ blanks, ∀ z ∈ zeros, ¬(z ≤ b ∧ b < z + 10) := by decide
  exact hnone _ hmem z hz ⟨hle, hlt⟩

theorem digit_ne {c d : Char} (h : isDigit c) (hd : isDigit d = false) : c ≠ d := by
  rintro rfl
  rw [h] at hd
  cases hd

theorem strip_digits {s : List Char} (h : ∀ c ∈ s, isDigit c) : strip s = s := by
  have hkeep : ∀ t : List Char, (∀ c ∈ t, isDigit c) → t.dropWhile isBlank = t := by
    intro t ht
    cases t with
    | nil => rfl
    | cons c t =>
      have hc := digit_not_blank (ht c (List.mem_cons_self ..))
      rw [List.dropWhile_cons_of_neg (by simp [hc])]
  have hback := hkeep s.reverse fun c hc => h c (List.mem_reverse.mp hc)
  rw [strip, hkeep s h, hback, List.reverse_reverse]

/-- Digits alone are read, unless there are none or too many. -/
theorem int_digits {s : List Char} (h : ∀ c ∈ s, isDigit c) :
    int s = if s ≠ [] ∧ s.length ≤ MAX_STR_DIGITS then some (value s : Int) else none := by
  have hread : readDigits s =
      if s ≠ [] ∧ s.length ≤ MAX_STR_DIGITS then some (value s) else none := by
    have hsplit : s.splitOn '_' = [s] := by
      apply List.splitOn_eq_singleton_of_beq_eq_false
      intro c hc
      exact beq_eq_false_iff_ne.mpr (digit_ne (h c hc) (by decide))
    have hall : s.all isDigit = true := List.all_eq_true.mpr h
    simp [readDigits, hsplit, hall, List.isEmpty_eq_false_iff]
  rw [int, strip_digits h]
  split
  · rename_i rest
    exact absurd rfl (digit_ne (h '-' (List.mem_cons_self ..)) (by decide))
  · rename_i rest
    exact absurd rfl (digit_ne (h '+' (List.mem_cons_self ..)) (by decide))
  · rw [hread]
    split <;> rfl

/-- Where a bound of a slice stands.  A negative one counts from the end. -/
def bound (length : Nat) (i : Int) : Nat := if i < 0 then (i + length).toNat else min i.toNat length

/-- `s[first:last]` -/
def slice {α : Type} (s : List α) (first last : Int) : List α :=
  Slices.slice s (bound s.length first) (bound s.length last)

theorem slice_nat {α : Type} (s : List α) (first last : Nat) :
    slice s first last = (s.drop first).take (last - first) := by
  have hbound : ∀ n : Nat, bound s.length n = min n s.length := by
    intro n
    have hnat : ¬((n : Int) < 0) := by omega
    rw [bound, if_neg hnat, Int.toNat_natCast]
  have hdrop : ∀ t : List α, t.length ≤ s.length → t.drop (min first s.length) = t.drop first := by
    intro t ht
    by_cases hfirst : first ≤ s.length
    · rw [Nat.min_eq_left hfirst]
    · rw [List.drop_eq_nil_of_le (by omega), List.drop_eq_nil_of_le (by omega)]
  have hlen : (s.take last).length ≤ s.length := by
    rw [List.length_take]
    exact Nat.min_le_right last s.length
  rw [slice, hbound, hbound, Slices.slice, ← List.take_eq_take_min, hdrop _ hlen, List.drop_take]

end DecimalText
