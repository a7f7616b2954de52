/-
Fixed-width fields: numbers and byte strings that fit, and readers that return exactly what
stands on the wire.
-/
import Mathlib.Data.List.DropRight
import Packets.Lib.BigEndian

namespace WireFields

open BigEndian (ofNat readInt takeBytes readInt_ofNat readInt_sound takeBytes_sound
  takeBytes_of_length)

/-- A number of `width` bytes. -/
structure Word (width : Nat) where
  value : Nat
  fits : value < 256 ^ width
deriving DecidableEq

def Word.bytes {width : Nat} (w : Word width) : List UInt8 := ofNat width w.value

/-- A string of `n` bytes. -/
structure Slot (n : Nat) where
  bytes : List UInt8
  size : bytes.length = n
deriving DecidableEq

@[simp] theorem Word.length_bytes {width : Nat} (w : Word width) : w.bytes.length = width :=
  BigEndian.length_ofNat width w.value

@[simp] theorem Slot.length_bytes {n : Nat} (f : Slot n) : f.bytes.length = n := f.size

def Slot.zero (n : Nat) : Slot n := ⟨List.replicate n 0, List.length_replicate⟩

def readWord (width : Nat) (s : List UInt8) : Option (Word width × List UInt8) :=
  match h : readInt width s with
  | none => none
  | some (value, rest) => some (⟨value, (readInt_sound h).2⟩, rest)

def readSlot (n : Nat) (s : List UInt8) : Option (Slot n × List UInt8) :=
  match h : takeBytes n s with
  | none => none
  | some (bytes, rest) => some (⟨bytes, (takeBytes_sound h).2⟩, rest)

theorem readWord_eq_some_iff {width : Nat} {s rest : List UInt8} {w : Word width} :
    readWord width s = some (w, rest) ↔ s = w.bytes ++ rest := by
  constructor
  · intro h
    unfold readWord at h
    split at h
    · cases h
    · rename_i hread
      obtain ⟨rfl, rfl⟩ := Prod.mk.inj (Option.some.inj h)
      exact (readInt_sound hread).1
  · rintro rfl
    have hread := readInt_ofNat w.fits rest
    unfold readWord
    split
    · rename_i hnone
      rw [Word.bytes, hread] at hnone
      cases hnone
    · rename_i value rest' hsome
      rw [Word.bytes, hread] at hsome
      obtain ⟨rfl, rfl⟩ := Prod.mk.inj (Option.some.inj hsome)
      rfl

theorem readSlot_eq_some_iff {n : Nat} {s rest : List UInt8} {f : Slot n} :
    readSlot n s = some (f, rest) ↔ s = f.bytes ++ rest := by
  constructor
  · intro h
    unfold readSlot at h
    split at h
    · cases h
    · rename_i htake
      obtain ⟨rfl, rfl⟩ := Prod.mk.inj (Option.some.inj h)
      exact (takeBytes_sound htake).1
  · rintro rfl
    have htake := takeBytes_of_length f.size rest
    unfold readSlot
    split
    · rename_i hnone
      rw [htake] at hnone
      cases hnone
    · rename_i bytes rest' hsome
      rw [htake] at hsome
      obtain ⟨rfl, rfl⟩ := Prod.mk.inj (Option.some.inj hsome)
      rfl

theorem readWord_bytes {width : Nat} (w : Word width) (rest : List UInt8) :
    readWord width (w.bytes ++ rest) = some (w, rest) := readWord_eq_some_iff.mpr rfl

theorem readSlot_bytes {n : Nat} (f : Slot n) (rest : List UInt8) :
    readSlot n (f.bytes ++ rest) = some (f, rest) := readSlot_eq_some_iff.mpr rfl

theorem readWord_bind {width : Nat} {β : Type} (w : Word width) (rest : List UInt8)
    (f : Word width × List UInt8 → Option β) :
    (readWord width (w.bytes ++ rest)).bind f = f (w, rest) := by
  rw [readWord_bytes, Option.bind_some]

theorem readSlot_bind {n : Nat} {β : Type} (w : Slot n) (rest : List UInt8)
    (f : Slot n × List UInt8 → Option β) : (readSlot n (w.bytes ++ rest)).bind f = f (w, rest) := by
  rw [readSlot_bytes, Option.bind_some]

theorem exists_word (width : Nat) {s : List UInt8} (h : width ≤ s.length) :
    ∃ (w : Word width) (rest : List UInt8),
      s = w.bytes ++ rest ∧ width + rest.length = s.length := by
  obtain ⟨value, rest, hfits, rfl⟩ := BigEndian.exists_ofNat_append h
  exact ⟨⟨value, hfits⟩, rest, rfl, by simp⟩

theorem exists_slot (n : Nat) {s : List UInt8} (h : n ≤ s.length) :
    ∃ (f : Slot n) (rest : List UInt8), s = f.bytes ++ rest ∧ n + rest.length = s.length := by
  obtain ⟨front, rest, hsize, rfl⟩ := BigEndian.exists_bytes_append h
  exact ⟨⟨front, hsize⟩, rest, rfl, by simp [hsize]⟩

/-- `rstrip(b'\x00')` -/
def stripped (s : List UInt8) : List UInt8 := s.rdropWhile (· = 0)

/-- A string cut to a width, or padded to it. -/
def padded (width : Nat) (s : List UInt8) : List UInt8 :=
  s.take width ++ List.replicate (width - (s.take width).length) 0

theorem length_padded (width : Nat) (s : List UInt8) : (padded width s).length = width := by
  rw [padded, List.length_append, List.length_replicate, List.length_take]
  omega

theorem stripped_append_zeros (s : List UInt8) (n : Nat) :
    stripped (s ++ List.replicate n 0) = stripped s := by
  induction n with
  | zero => rw [List.replicate_zero, List.append_nil]
  | succ n ih =>
    rw [List.replicate_succ', ← List.append_assoc, stripped,
      List.rdropWhile_concat_pos _ _ _ (by simp)]
    exact ih

theorem exists_zeros (s : List UInt8) : ∃ n, s = stripped s ++ List.replicate n 0 := by
  refine ⟨(s.rtakeWhile (· = 0)).length, ?_⟩
  have hzeros : s.rtakeWhile (· = 0) = List.replicate (s.rtakeWhile (· = 0)).length 0 := by
    apply List.eq_replicate_of_mem
    intro b hb
    simpa using List.mem_rtakeWhile_imp hb
  rw [← hzeros]
  exact List.rdropWhile_append_rtakeWhile.symm

theorem padded_stripped {width : Nat} {s : List UInt8} (h : s.length = width) :
    padded width (stripped s) = s := by
  obtain ⟨n, hs⟩ := exists_zeros s
  have hlen := congrArg List.length hs
  rw [List.length_append, List.length_replicate, h] at hlen
  have htake : (stripped s).take width = stripped s := List.take_of_length_le (by omega)
  have hn : width - (stripped s).length = n := by omega
  rw [padded, htake, hn]
  exact hs.symm

theorem stripped_padded {width : Nat} {s : List UInt8} (hlen : s.length ≤ width)
    (hlast : s.getLast? ≠ some 0) : stripped (padded width s) = s := by
  rw [padded, stripped_append_zeros, List.take_of_length_le hlen, stripped,
    List.rdropWhile_eq_self_iff]
  intro hne hzero
  rw [decide_eq_true_eq] at hzero
  exact hlast (by rw [List.getLast?_eq_getLast_of_ne_nil hne, hzero])

end WireFields
