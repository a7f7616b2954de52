/-
An OSPF packet is read whole from its header on, or not at all, and the LSAs of OSPF messages
(`core/inetpkt.pyx`).

What is shown of the body of an LSA, and of a body beside its LSAs, is not followed.
-/
import Packets.Inet.Decode
import Packets.Lib.Records

namespace Packets.Inet

open BigEndian (ofNat readInt_ofNat readInt_sound takeBytes_sound takeBytes_of_length length_ofNat)

theorem getD_of_not_some {α : Type} {o : Option α} {d : α} (h : ∀ a, o ≠ some a) :
    o.getD d = d := by
  rw [Option.eq_none_iff_forall_ne_some.mpr h, Option.getD_none]

theorem decodeOspfv2_short {s : Bytes} (h : s.length < 24) : decodeOspfv2 s =
    .ospf ⟨0, 0, 0, [0, 0, 0, 0], [0, 0, 0, 0], 0, 0, List.replicate 8 0, [], some s⟩ := by
  unfold decodeOspfv2
  dsimp only
  refine congrArg Layer.ospf (getD_of_not_some fun p hp => ?_)
  simp only [Option.bind_eq_bind, Option.bind_eq_some_iff, Prod.exists] at hp
  obtain ⟨_, _, h1, _, _, h2, _, _, h3, _, _, h4, _, _, h5, _, _, h6, _, _, h7, _, _, h8, -⟩ := hp
  obtain ⟨rfl, -⟩ := readInt_sound h1
  obtain ⟨rfl, -⟩ := readInt_sound h2
  obtain ⟨rfl, -⟩ := readInt_sound h3
  obtain ⟨rfl, h4⟩ := takeBytes_sound h4
  obtain ⟨rfl, h5⟩ := takeBytes_sound h5
  obtain ⟨rfl, -⟩ := readInt_sound h6
  obtain ⟨rfl, -⟩ := readInt_sound h7
  obtain ⟨rfl, h8⟩ := takeBytes_sound h8
  simp only [List.length_append, length_ofNat] at h
  omega

theorem decodeOspfv3_short {s : Bytes} (h : s.length < 16) : decodeOspfv3 s =
    .ospf3 ⟨0, 0, 0, [0, 0, 0, 0], [0, 0, 0, 0], 0, 0, [], some s⟩ := by
  unfold decodeOspfv3
  dsimp only
  refine congrArg Layer.ospf3 (getD_of_not_some fun p hp => ?_)
  simp only [Option.bind_eq_bind, Option.bind_eq_some_iff, Prod.exists] at hp
  obtain ⟨_, _, h1, _, _, h2, _, _, h3, _, _, h4, _, _, h5, _, _, h6, _, _, h7, _, _, h8, -⟩ := hp
  obtain ⟨rfl, -⟩ := readInt_sound h1
  obtain ⟨rfl, -⟩ := readInt_sound h2
  obtain ⟨rfl, -⟩ := readInt_sound h3
  obtain ⟨rfl, h4⟩ := takeBytes_sound h4
  obtain ⟨rfl, h5⟩ := takeBytes_sound h5
  obtain ⟨rfl, -⟩ := readInt_sound h6
  obtain ⟨rfl, -⟩ := readInt_sound h7
  obtain ⟨rfl, -⟩ := readInt_sound h8
  simp only [List.length_append, length_ofNat] at h
  omega

theorem decodeOspfv2_read {s srcRouter areaId auth rest : Bytes}
    {version type length checksum authType : Nat}
    (hs : s = ofNat 1 version ++ (ofNat 1 type ++ (ofNat 2 length ++ (srcRouter ++ (areaId ++
      (ofNat 2 checksum ++ (ofNat 2 authType ++ (auth ++ rest))))))))
    (hversion : version < 256 ^ 1) (htype : type < 256 ^ 1) (hlength : length < 256 ^ 2)
    (hsrcRouter : srcRouter.length = 4) (hareaId : areaId.length = 4)
    (hchecksum : checksum < 256 ^ 2) (hauthType : authType < 256 ^ 2) (hauth : auth.length = 8) :
    decodeOspfv2 s = .ospf ⟨version, type, length, srcRouter, areaId, checksum, authType, auth,
      if 24 ≤ length ∧ length ≤ 24 + rest.length then rest.take (length - 24) else rest,
      some s⟩ := by
  have hsize : s.length = 24 + rest.length := by
    rw [hs]
    simp only [List.length_append, length_ofNat, hsrcRouter, hareaId, hauth]
    omega
  unfold decodeOspfv2
  rw [hsize]
  simp only [hs, readInt_ofNat hversion, readInt_ofNat htype, readInt_ofNat hlength,
    takeBytes_of_length hsrcRouter, takeBytes_of_length hareaId,
    readInt_ofNat hchecksum, readInt_ofNat hauthType, takeBytes_of_length hauth,
    Option.bind_eq_bind, Option.bind_some, Option.pure_def, Option.getD_some]

theorem decodeOspfv3_read {s srcRouter areaId rest : Bytes}
    {version type length checksum instanceId reserved : Nat}
    (hs : s = ofNat 1 version ++ (ofNat 1 type ++ (ofNat 2 length ++ (srcRouter ++ (areaId ++
      (ofNat 2 checksum ++ (ofNat 1 instanceId ++ (ofNat 1 reserved ++ rest))))))))
    (hversion : version < 256 ^ 1) (htype : type < 256 ^ 1) (hlength : length < 256 ^ 2)
    (hsrcRouter : srcRouter.length = 4) (hareaId : areaId.length = 4)
    (hchecksum : checksum < 256 ^ 2) (hinstanceId : instanceId < 256 ^ 1)
    (hreserved : reserved < 256 ^ 1) :
    decodeOspfv3 s = .ospf3 ⟨version, type, length, srcRouter, areaId, checksum, instanceId,
      if 16 ≤ length ∧ length ≤ 16 + rest.length then rest.take (length - 16) else rest,
      some s⟩ := by
  have hsize : s.length = 16 + rest.length := by
    rw [hs]
    simp only [List.length_append, length_ofNat, hsrcRouter, hareaId]
    omega
  unfold decodeOspfv3
  rw [hsize]
  simp only [hs, readInt_ofNat hversion, readInt_ofNat htype, readInt_ofNat hlength,
    takeBytes_of_length hsrcRouter, takeBytes_of_length hareaId,
    readInt_ofNat hchecksum, readInt_ofNat hinstanceId, readInt_ofNat hreserved,
    Option.bind_eq_bind, Option.bind_some, Option.pure_def, Option.getD_some]

open BigEndian (readInt takeBytes)
open Records (Reader readAll)

/-- An `OSPFLSA`.  The ids are missing when the header is. -/
structure OSPFLSA where
  v3 : Bool
  lsAge : Nat
  options : Nat
  lsType : Nat
  lsId : Option Bytes
  advrouter : Option Bytes
  seqnum : Nat
  chksum : Nat
  length : Nat
  malformed : Bool
  raw : Bytes
deriving DecidableEq

/-- The options and the type of an LSA, which are one byte each, or a type of two. -/
def readLsType (v3 : Bool) (s : Bytes) : Option (Nat × Nat × Bytes) :=
  if v3 then do
    let (lsType, rest) ← readInt 2 s
    pure (0, lsType, rest)
  else do
    let (options, rest) ← readInt 1 s
    let (lsType, rest) ← readInt 1 rest
    pure (options, lsType, rest)

/-- The 20 bytes of a header, with what it was found in kept whole. -/
def readLsaHeader (v3 : Bool) (s : Bytes) : Option OSPFLSA := do
  let (lsAge, rest) ← readInt 2 s
  let (options, lsType, rest) ← readLsType v3 rest
  let (lsId, rest) ← takeBytes 4 rest
  let (advrouter, rest) ← takeBytes 4 rest
  let (seqnum, rest) ← readInt 4 rest
  let (chksum, rest) ← readInt 2 rest
  let (length, _) ← readInt 2 rest
  pure ⟨v3, lsAge, options, lsType, some lsId, some advrouter, seqnum, chksum, length, false, s⟩

/-- `_decode_one_lsa_v2` and `_decode_one_lsa_v3`, with what they consumed. -/
def decodeOneLsa (v3 : Bool) (s : Bytes) : OSPFLSA × Nat :=
  match readLsaHeader v3 s with
  | none => (⟨v3, 0, 0, 0, none, none, 0, 0, 0, true, s⟩, s.length)
  | some lsa =>
    if lsa.length < 20 ∨ s.length < lsa.length then ({ lsa with malformed := true }, s.length)
    else ({ lsa with raw := s.take lsa.length }, lsa.length)

/-- `_lsr_entry` and `_lsr_entry_v3`.  A type is the last byte of four, or the last two. -/
def lsrEntry (v3 : Bool) (s : Bytes) : Option (OSPFLSA × Bytes) := do
  let (word, rest) ← readInt 4 s
  let (lsId, rest) ← takeBytes 4 rest
  let (advrouter, rest) ← takeBytes 4 rest
  pure (⟨v3, 0, 0, if v3 then word % 65536 else word % 256, some lsId, some advrouter, 0, 0, 12,
    false, s.take 12⟩, rest)

/-- An LSA header that travels alone. -/
def nextLsaHeader (v3 : Bool) : Reader OSPFLSA UInt8 := fun s =>
  if 20 ≤ s.length then some ((decodeOneLsa v3 (s.take 20)).1, s.drop 20) else none

/-- A full LSA. -/
def nextLsa (v3 : Bool) : Reader OSPFLSA UInt8 := fun s =>
  if s.isEmpty then none
  else
    let (lsa, consumed) := decodeOneLsa v3 s
    some (lsa, s.drop consumed)

/-- The fixed part of a Database Description. -/
def dbdLen (v3 : Bool) : Nat := if v3 then 12 else 8

/-- What of a body the LSAs are read from. -/
def lsaArea (v3 : Bool) (type : Nat) (body : Bytes) : Bytes :=
  if type = 2 then body.drop (dbdLen v3)
  else if type = 4 then body.drop 4
  else if type = 3 ∨ type = 5 then body
  else []

/-- How an entry of it is read. -/
def nextEntry (v3 : Bool) (type : Nat) : Reader OSPFLSA UInt8 :=
  if type = 3 then lsrEntry v3
  else if type = 4 then nextLsa v3
  else nextLsaHeader v3

/-- The `lsas` of a packet, with what is left of its body when the walk is over. -/
def walkLsas (v3 : Bool) (type : Nat) (body : Bytes) : List OSPFLSA × Bytes :=
  let area := lsaArea v3 type body
  readAll (nextEntry v3 type) area.length area

/-- `lsas` of the packet that bytes are parsed as. -/
def lsasOf (v3 : Bool) (s : Bytes) : List OSPFLSA :=
  match if v3 then decodeOspfv3 s else decodeOspfv2 s with
  | .ospf p => (walkLsas false p.type p.body).1
  | .ospf3 p => (walkLsas true p.type p.body).1
  | _ => []

end Packets.Inet
