/-
Address families and prefixes (`rib/prefix.pyx`).

A `Prefix` is the key of every table of the routing engine.  Construction masks
the host bits off, so equality of prefixes is equality of their fields.
-/
import Mathlib.Algebra.Group.Nat.Defs
import Mathlib.Data.List.Basic
import Mathlib.Tactic.SplitIfs

namespace Packets

abbrev Bytes := List UInt8

/-- IANA address family numbers. -/
def AFI_IP : Nat := 1
def AFI_IP6 : Nat := 2
def SAFI_UNICAST : Nat := 1

/-- An `(afi, safi)` pair. -/
abbrev Family := Nat × Nat

def IPV4_UNICAST : Family := (AFI_IP, SAFI_UNICAST)

/-- Significant address bytes of a family, 0 for a family not known. -/
def pfxAddrLen (afi : Nat) : Nat := if afi = AFI_IP then 4 else if afi = AFI_IP6 then 16 else 0

/-- Longest prefix of a family, 0 for a family not known. -/
def pfxAddrBits (afi : Nat) : Nat := if afi = AFI_IP then 32 else if afi = AFI_IP6 then 128 else 0

theorem pfxAddrBits_eq (afi : Nat) : pfxAddrBits afi = 8 * pfxAddrLen afi := by
  unfold pfxAddrBits pfxAddrLen
  split_ifs <;> rfl

/-- The byte whose top `n` bits are set. -/
def highMask (n : Nat) : UInt8 := UInt8.ofNat (256 - 2 ^ (8 - n))

/-- Zero every bit of an address past the prefix length. -/
def pfxMask : Nat → Bytes → Bytes
  | _, [] => []
  | plen, b :: rest => (b &&& highMask plen) :: pfxMask (plen - 8) rest

@[simp] theorem length_pfxMask (plen : Nat) (addr : Bytes) :
    (pfxMask plen addr).length = addr.length := by
  induction addr generalizing plen with
  | nil => rfl
  | cons b rest ih => simp [pfxMask, ih]

theorem pfxMask_idem (plen : Nat) (addr : Bytes) :
    pfxMask plen (pfxMask plen addr) = pfxMask plen addr := by
  induction addr generalizing plen with
  | nil => rfl
  | cons b rest ih => simp [pfxMask, ih, UInt8.and_assoc]

/-- An address family, a prefix length and a masked address. -/
structure Prefix where
  afi : Nat
  plen : Nat
  addr : Bytes
  known : pfxAddrLen afi ≠ 0
  plen_le : plen ≤ pfxAddrBits afi
  length_addr : addr.length = pfxAddrLen afi
  masked : pfxMask plen addr = addr
deriving DecidableEq

/-- `Prefix(afi, plen, addr)`; `none` is its `ValueError`. -/
def Prefix.new (afi plen : Nat) (addr : Bytes) : Option Prefix :=
  if h : pfxAddrLen afi ≠ 0 ∧ plen ≤ pfxAddrBits afi ∧ addr.length = pfxAddrLen afi then
    some ⟨afi, plen, pfxMask plen addr, h.1, h.2.1, by simp [h.2.2], pfxMask_idem plen addr⟩
  else none

/-- An IPv4 prefix of at most 32 bits. -/
def Prefix.ipv4 (a b c d : UInt8) (plen : Nat) : Prefix :=
  ⟨AFI_IP, min plen 32, pfxMask (min plen 32) [a, b, c, d], by decide, Nat.min_le_right _ _,
    by simp; rfl, pfxMask_idem _ _⟩

@[simp] theorem Prefix.ipv4_afi (a b c d : UInt8) (plen : Nat) :
    (ipv4 a b c d plen).afi = AFI_IP := rfl

/-- Bytes a prefix length occupies on the wire. -/
def plenBytes (plen : Nat) : Nat := (plen + 7) / 8

/-- `pfx_new`: a prefix from the bytes a wire encoding carries, padded with
zeros to the width of the family. -/
def pfxNew (afi plen : Nat) (src : Bytes) : Option Prefix :=
  Prefix.new afi plen
    (src.take (plenBytes plen) ++ List.replicate (pfxAddrLen afi - plenBytes plen) 0)

end Packets
