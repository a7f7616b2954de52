/-
IGMP messages: `IGMP` and `IGMPGroupRecord` (`core/inetpkt.pyx`).
-/
import Packets.Inet.Decode

namespace Packets.Inet

open BigEndian (readInt takeBytes)

def IGMP_MEMBER_QUERY : Nat := 0x11
def IGMP_V1_MEMBER_REPORT : Nat := 0x12
def IGMP_V2_MEMBER_REPORT : Nat := 0x16
def IGMP_V3_MEMBER_REPORT : Nat := 0x22
def IGMP_LEAVE_GROUP : Nat := 0x17

/-- `IGMPGroupRecord`.  The auxiliary data is counted in words. -/
structure IGMPGroupRecord where
  type : Nat
  auxDataLen : Nat
  numSrc : Nat
  groupAddress : Bytes
  sourceAddresses : Bytes
  auxData : Bytes
deriving DecidableEq

/-- `IGMP`.  A report of version 3 has no group address of its own. -/
structure IGMP where
  version : Nat := 0
  type : Nat
  maxResp : Nat
  checksum : Nat
  groupAddress : Option Bytes := none
  sQrv : Nat := 0
  qqic : Nat := 0
  reserved1 : Nat := 0
  reserved2 : Nat := 0
  numRecords : Nat := 0
  sourceAddresses : Bytes := []
  groupRecords : List IGMPGroupRecord := []
deriving DecidableEq

namespace IGMPGroupRecord

/-- `byte_len` -/
def byteLen (r : IGMPGroupRecord) : Nat := 8 + r.numSrc * 4 + r.auxDataLen * 4

/-- `IGMPGroupRecord._write` -/
def write (r : IGMPGroupRecord) : Bytes :=
  BigEndian.ofNat 1 r.type ++ BigEndian.ofNat 1 r.auxDataLen ++ BigEndian.ofNat 2 r.numSrc ++
    r.groupAddress ++ r.sourceAddresses ++ r.auxData

end IGMPGroupRecord

/-- `_decode_igmp_group_record`, of what is left of the message. -/
def decodeIgmpGroupRecord (s : Bytes) : Except Failure IGMPGroupRecord := do
  let (type, rest) ← need (readInt 1 s)
  let (auxDataLen, rest) ← need (readInt 1 rest)
  let (numSrc, rest) ← need (readInt 2 rest)
  let (groupAddress, rest) ← need (takeBytes 4 rest)
  let (sourceAddresses, rest) ← need (takeBytes (4 * numSrc) rest)
  let (auxData, _) ← need (takeBytes (4 * auxDataLen) rest)
  pure ⟨type, auxDataLen, numSrc, groupAddress, sourceAddresses, auxData⟩

/-- The loop over the records.  Each starts `byte_len` behind the one before. -/
def decodeIgmpGroupRecords : Nat → Bytes → Except Failure (List IGMPGroupRecord)
  | 0, _ => pure []
  | n + 1, s => do
    let rec' ← decodeIgmpGroupRecord s
    let rest ← decodeIgmpGroupRecords n (s.drop rec'.byteLen)
    pure (rec' :: rest)

/-- The version a message is taken for.  A length of zero is not stated. -/
def igmpVersion (s : Bytes) (operation secondByte packetLen : Nat) : Nat :=
  if packetLen ≠ 0 then
    if 8 < packetLen then 3
    else if operation = IGMP_MEMBER_QUERY then if secondByte = 0 then 1 else 2
    else if operation = IGMP_V1_MEMBER_REPORT then 1
    else 2
  else if operation = IGMP_MEMBER_QUERY then
    if 11 ≤ s.length ∧ s[9]? ≠ some 0 then 3
    else if secondByte = 0 then 1
    else 2
  else if operation = IGMP_V2_MEMBER_REPORT ∨ operation = IGMP_LEAVE_GROUP then 2
  else if operation = IGMP_V3_MEMBER_REPORT then 3
  else 1

/-- `_decode_igmp`.  The length is converted to 16 bits. -/
def decodeIgmp (s : Bytes) (packetLen : Nat) : Except Failure IGMP := do
  let (type, rest) ← need (readInt 1 s)
  let (maxResp, rest) ← need (readInt 1 rest)
  let (checksum, rest) ← need (readInt 2 rest)
  let (address, rest) ← need (takeBytes 4 rest)
  let groupAddress := if type ≠ IGMP_V3_MEMBER_REPORT then some address else none
  if 65536 ≤ packetLen then .error .valueError
  else
    let version := igmpVersion s type maxResp packetLen
    let pkt : IGMP :=
      { version := version, type := type, maxResp := maxResp, checksum := checksum,
        groupAddress := groupAddress }
    if version = 1 then pure { pkt with maxResp := 0 }
    else if version = 2 then pure pkt
    else if type = IGMP_MEMBER_QUERY then do
      let (sQrv, rest) ← need (readInt 1 rest)
      let (qqic, rest) ← need (readInt 1 rest)
      let (numRecords, rest) ← need (readInt 2 rest)
      let (sourceAddresses, _) ← need (takeBytes (4 * numRecords) rest)
      pure { pkt with
        sQrv := sQrv, qqic := qqic, numRecords := numRecords,
        sourceAddresses := sourceAddresses }
    else do
      let numRecords := BigEndian.toNat (address.drop 2)
      let groupRecords ← decodeIgmpGroupRecords numRecords rest
      pure { pkt with maxResp := 0, numRecords := numRecords, groupRecords := groupRecords }

namespace IGMP

/-- The message with a number of records or sources and a checksum of its own, and a second
byte.  A group address that was never set cannot be written. -/
def content (m : IGMP) (second numRecords checksum : Nat) : Option Bytes :=
  let head := BigEndian.ofNat 1 m.type ++ BigEndian.ofNat 1 second ++ BigEndian.ofNat 2 checksum
  if m.version = 3 then
    if m.type = IGMP_MEMBER_QUERY then
      m.groupAddress.map fun address =>
        head ++ address ++ BigEndian.ofNat 1 m.sQrv ++ BigEndian.ofNat 1 m.qqic ++
          BigEndian.ofNat 2 numRecords ++ m.sourceAddresses
    else
      some (head ++ BigEndian.ofNat 2 m.reserved2 ++ BigEndian.ofNat 2 numRecords ++
        m.groupRecords.flatMap IGMPGroupRecord.write)
  else m.groupAddress.map fun address => head ++ address

/-- The second byte as it is written. -/
def second (m : IGMP) : Nat :=
  if m.version = 3 ∧ m.type ≠ IGMP_MEMBER_QUERY then m.reserved1 else m.maxResp

/-- The second byte as the checksum is taken over it. -/
def summedSecond (m : IGMP) : Nat := if m.version ≠ 2 ∧ m.version ≠ 3 then m.reserved1 else m.second

/-- `IGMP._write` -/
def write (m : IGMP) (update csum : Bool) : Option Bytes :=
  let numRecords :=
    if update ∧ m.version = 3 then
      if m.type = IGMP_MEMBER_QUERY then m.sourceAddresses.length / 4 % 65536
      else m.groupRecords.length % 65536
    else m.numRecords
  if csum then do
    let summed ← m.content m.summedSecond numRecords 0
    m.content m.second numRecords (cksumFin (cksumAcc summed 0))
  else m.content m.second numRecords m.checksum

end IGMP

end Packets.Inet
