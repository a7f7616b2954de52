/-
Packed structures of unsigned fields in the byte order of the host, without alignment.
-/
import Mathlib.Data.List.Forall2
import Packets.Lib.BigEndian

namespace Struct

inductive ByteOrder
  | little
  | big
deriving DecidableEq

namespace ByteOrder

def put (order : ByteOrder) (width n : Nat) : List UInt8 :=
  match order with
  | .little => (BigEndian.ofNat width n).reverse
  | .big => BigEndian.ofNat width n

def get (order : ByteOrder) (s : List UInt8) : Nat :=
  match order with
  | .little => BigEndian.toNat s.reverse
  | .big => BigEndian.toNat s

@[simp] theorem length_put (order : ByteOrder) (width n : Nat) :
    (order.put width n).length = width := by
  cases order <;> simp [put]

theorem get_put (order : ByteOrder) {width n : Nat} (h : n < 256 ^ width) :
    order.get (order.put width n) = n := by
  cases order <;> simp [get, put, BigEndian.toNat_ofNat h]

end ByteOrder

variable (order : ByteOrder)

/-- The fields one after another; none if a value does not fit its field. -/
def pack : List Nat → List Nat → Option (List UInt8)
  | [], [] => some []
  | width :: widths, value :: values =>
    if value < 256 ^ width then
      (pack widths values).map fun rest => order.put width value ++ rest
    else none
  | _, _ => none

def unpack : List Nat → List UInt8 → List Nat
  | [], _ => []
  | width :: widths, s => order.get (s.take width) :: unpack widths (s.drop width)

theorem unpack_pack {widths values : List Nat} {s : List UInt8}
    (h : pack order widths values = some s) (rest : List UInt8) :
    unpack order widths (s ++ rest) = values ∧ s.length = widths.sum := by
  induction widths generalizing values s with
  | nil =>
    cases values with
    | nil =>
      cases h
      exact ⟨rfl, rfl⟩
    | cons value values => cases h
  | cons width widths ih =>
    cases values with
    | nil => cases h
    | cons value values =>
      rw [pack] at h
      split at h
      · rename_i hfits
        obtain ⟨tail, htail, rfl⟩ := Option.map_eq_some_iff.mp h
        obtain ⟨hvalues, hlength⟩ := ih htail
        have hfront := order.length_put width value
        rw [unpack, List.append_assoc, List.take_left' hfront, List.drop_left' hfront,
          order.get_put hfits, hvalues]
        exact ⟨rfl, by simp [hlength]⟩
      · cases h

theorem exists_pack {widths values : List Nat}
    (h : List.Forall₂ (fun width value => value < 256 ^ width) widths values) :
    ∃ s, pack order widths values = some s := by
  induction h with
  | nil => exact ⟨[], rfl⟩
  | cons hfits _ ih =>
    obtain ⟨rest, hrest⟩ := ih
    exact ⟨_, by rw [pack, if_pos hfits, hrest, Option.map_some]⟩

end Struct
