/-
Records that say their own length in a header and are padded to a multiple of four bytes.

The length counts the header and the body, not the padding, so the next record starts at
the length rounded up.
-/
import Packets.Lib.Records

namespace Padded

variable {β : Type*} (z : β) (size : Nat) (len : List β → Nat)

/-- A length rounded up to a multiple of four. -/
def align (n : Nat) : Nat := (n + 3) / 4 * 4

theorem le_align (n : Nat) : n ≤ align n := by
  rw [align]
  omega

/-- A record: header, body and padding. -/
def pack (record : List β × List β) : List β :=
  record.1 ++ record.2 ++
    List.replicate (align (size + record.2.length) - (size + record.2.length)) z

/-- The header and the body of the record at the front. -/
def next (s : List β) : Option ((List β × List β) × List β) :=
  if s.length < size then none
  else
    let n := len (s.take size)
    if n < size ∨ s.length < n then none
    else some ((s.take size, (s.take n).drop size), s.drop (align n))

/-- A header that says the length of its record. -/
def Headed (record : List β × List β) : Prop :=
  record.1.length = size ∧ len record.1 = size + record.2.length

variable {z size len}

theorem next_consumes (hsize : 0 < size) : Records.Consumes (next size len : List β → _) := by
  intro s record rest h
  rw [next] at h
  split at h
  · cases h
  · dsimp only at h
    split at h
    · cases h
    · rename_i hshort hn
      cases h
      have hle := le_align (len (s.take size))
      rw [List.length_drop]
      omega

theorem length_pack {record : List β × List β} (h : Headed size len record) :
    (pack z size record).length = align (size + record.2.length) := by
  have hle := le_align (size + record.2.length)
  rw [pack, List.length_append, List.length_append, List.length_replicate, h.1]
  omega

theorem next_pack {record : List β × List β} (h : Headed size len record) (rest : List β) :
    next size len (pack z size record ++ rest) = some (record, rest) := by
  have hpack : (pack z size record).length = align (size + record.2.length) := length_pack h
  obtain ⟨header, body⟩ := record
  obtain ⟨hheader, hlen⟩ := h
  dsimp only at hheader hlen hpack
  have hle := le_align (size + body.length)
  have htake : (pack z size (header, body) ++ rest).take size = header := by
    rw [pack, List.append_assoc, List.append_assoc, List.take_left' hheader]
  have hlength : (pack z size (header, body) ++ rest).length = _ := List.length_append
  rw [next, htake, hlen, if_neg (by omega), if_neg (by omega), ← hpack, List.drop_left]
  have hbody : (pack z size (header, body) ++ rest).take (size + body.length) = header ++ body := by
    rw [pack, List.append_assoc, List.take_left' (by rw [List.length_append, hheader])]
  rw [hbody, List.drop_left' hheader]

/-- A record that was cut off is not read. -/
theorem next_cut {record : List β × List β} (h : Headed size len record) {n : Nat}
    (hn : n < size + record.2.length) : next size len ((pack z size record).take n) = none := by
  obtain ⟨hheader, hlen⟩ := h
  have hlength : ((pack z size record).take n).length ≤ n := List.length_take_le _ _
  rw [next]
  split
  · rfl
  · rename_i hfits
    have htake : ((pack z size record).take n).take size = record.1 := by
      rw [List.take_take, Nat.min_eq_left (by omega), pack, List.append_assoc,
        List.take_left' hheader]
    rw [htake, hlen, if_pos (by omega)]

theorem readAll_pack (hsize : 0 < size) {records : List (List β × List β)}
    (h : ∀ record ∈ records, Headed size len record) {tail : List β}
    (htail : next size len tail = none) :
    Records.readAll (next size len) (records.flatMap (pack z size) ++ tail).length
      (records.flatMap (pack z size) ++ tail) = (records, tail) :=
  Records.readAll_flatMap (next_consumes hsize)
    (fun record hmem rest => next_pack (h record hmem) rest) htail

/-- What is read lies side by side in the input. -/
theorem sum_readAll_le (n : Nat) (s : List β) :
    ((Records.readAll (next size len) n s).1.map fun record => size + record.2.length).sum ≤
      s.length := by
  refine Records.sum_readAll_le (fun s record rest h => ?_) n s
  rw [next] at h
  split at h
  · cases h
  · dsimp only at h
    split at h
    · cases h
    · cases h
      have hle := le_align (len (s.take size))
      rw [List.length_drop, List.length_drop, List.length_take]
      omega

end Padded
