/-
BGP, RIP, RIPng and HSRP messages, their bytes, and what `update` changes in one that was
parsed (`core/inetpkt.pyx`).

A parsed message is written from its header fields and the copy of its body.
-/
import Mathlib.Data.UInt
import Packets.Inet.OspfPackets
import Packets.Lib.Masked

namespace Packets.Inet

open BigEndian (readInt takeBytes)

/-- One `BGP` message without its payload.  `raw` is what it was parsed from. -/
structure BGPMessage where
  marker : Bytes
  length : Nat
  type : Nat
  body : Bytes
  raw : Option Bytes
  malformed : Bool
deriving DecidableEq

/-- A `BGP` with its payload, which is bytes or the message that follows. -/
inductive BGP where
  | last (message : BGPMessage) (payload : Bytes)
  | chained (message : BGPMessage) (payload : BGP)
deriving DecidableEq

/-- `_bgp_msg_header`, with the marker before it and the bytes behind it. -/
def bgpMsgHeader (s : Bytes) : Option (Bytes × Nat × Nat × Bytes) := do
  let (marker, rest) ← takeBytes 16 s
  let (length, rest) ← readInt 2 rest
  let (type, rest) ← readInt 1 rest
  pure (marker, length, type, rest)

/-- Where a message of a stated length ends in the bytes there are. -/
def msgEnd (length available : Nat) : Nat :=
  if 19 ≤ length ∧ length ≤ available then length else available

/-- `_decode_bgp`.  A length of more than there is makes a message malformed. -/
def decodeBgp (s : Bytes) : BGP :=
  match bgpMsgHeader s with
  | none => .last ⟨List.replicate 16 255, 0, 0, [], some s, true⟩ s
  | some (marker, length, type, rest) =>
    let stop := msgEnd length s.length
    let message : BGPMessage :=
      ⟨marker, length, type, rest.take (stop - 19), some (s.take stop), s.length < length⟩
    if 19 ≤ s.length - stop then
      .chained message (decodeBgp (s.drop stop))
    else .last message (s.drop stop)
termination_by s.length
decreasing_by
  rename_i hroom
  simp only [stop, msgEnd] at hroom
  simp only [List.length_drop, msgEnd]
  split at hroom <;> split <;> omega

/-- `BGP._write` up to the payload. -/
def BGPMessage.write (update : Bool) (m : BGPMessage) : Bytes :=
  match m.raw, update with
  | some raw, false => raw
  | _, _ => takeInto m.marker 16 ++ BigEndian.ofNat 2 (19 + m.body.length) ++
      BigEndian.ofNat 1 m.type ++ m.body

/-- The copy a malformed message is written as. -/
def BGPMessage.kept (m : BGPMessage) : Option Bytes := if m.malformed then m.raw else none

/-- `BGP._write` -/
def BGP.write (update : Bool) : BGP → Bytes
  | last m payload => m.kept.getD (m.write update ++ payload)
  | chained m payload => m.kept.getD (m.write update ++ payload.write update)

structure RIP where
  command : Nat
  version : Nat
  routingDomain : Nat
  body : Bytes
  raw : Option Bytes
  malformed : Bool
  payload : Bytes
deriving DecidableEq

structure RIPng where
  command : Nat
  version : Nat
  reserved : Bytes
  body : Bytes
  raw : Option Bytes
  malformed : Bool
  payload : Bytes
deriving DecidableEq

structure HSRP where
  body : Bytes
  raw : Option Bytes
  malformed : Bool
  payload : Bytes
deriving DecidableEq

/-- `_decode_rip` -/
def decodeRip (s : Bytes) : RIP :=
  let read : Option RIP := do
    let (command, rest) ← readInt 1 s
    let (version, rest) ← readInt 1 rest
    let (routingDomain, body) ← readInt 2 rest
    pure ⟨command, version, routingDomain, body, some s, false, []⟩
  read.getD ⟨0, 0, 0, [], some s, true, []⟩

/-- `_decode_ripng` -/
def decodeRipng (s : Bytes) : RIPng :=
  let read : Option RIPng := do
    let (command, rest) ← readInt 1 s
    let (version, rest) ← readInt 1 rest
    let (reserved, body) ← takeBytes 2 rest
    pure ⟨command, version, reserved, body, some s, false, []⟩
  read.getD ⟨0, 0, [0, 0], [], some s, true, []⟩

/-- `_decode_hsrpv1` has too little for the layout that the opcode asks for. -/
def hsrpv1Malformed : Bytes → Bool
  | version :: opcode :: rest =>
    decide ((version :: opcode :: rest).length < if opcode = 3 then 16 else 20)
  | _ => true

/-- `_decode_hsrp`.  A first byte of zero is version 1. -/
def decodeHsrp (s : Bytes) : HSRP :=
  match s with
  | [] => ⟨[], some s, true, []⟩
  | first :: _ => ⟨s, some s, first = 0 && hsrpv1Malformed s, []⟩

/-- The writing of a message that keeps the bytes it was parsed from: these where it is
malformed, else these or, with `update`, what is rebuilt, and the payload. -/
def writeKept (update malformed : Bool) (raw : Option Bytes) (rebuilt payload : Bytes) : Bytes :=
  match raw with
  | none => rebuilt ++ payload
  | some raw => if malformed then raw else (if update then rebuilt else raw) ++ payload

/-- `RIP._write` -/
def RIP.write (update : Bool) (m : RIP) : Bytes :=
  writeKept update m.malformed m.raw
    (BigEndian.ofNat 1 m.command ++ BigEndian.ofNat 1 m.version ++
      BigEndian.ofNat 2 m.routingDomain ++ m.body) m.payload

/-- `RIPng._write` -/
def RIPng.write (update : Bool) (m : RIPng) : Bytes :=
  writeKept update m.malformed m.raw
    (BigEndian.ofNat 1 m.command ++ BigEndian.ofNat 1 m.version ++ takeInto m.reserved 2 ++ m.body)
    m.payload

/-- `HSRP._write` -/
def HSRP.write (update : Bool) (m : HSRP) : Bytes :=
  writeKept update m.malformed m.raw m.body m.payload

open BigEndian (readInt takeBytes ofNat readInt_ofNat takeBytes_append readInt_sound
  takeBytes_sound length_ofNat)
open Masked

inductive RoutingProtocol where
  | ospf2
  | ospf3
  | bgp
  | rip
  | ripng
  | hsrp
deriving DecidableEq

/-- An OSPF packet is a layer. -/
inductive RoutingMessage where
  | layer (l : Layer)
  | bgp (message : BGP)
  | rip (message : RIP)
  | ripng (message : RIPng)
  | hsrp (message : HSRP)
deriving DecidableEq

def RoutingProtocol.parse : RoutingProtocol → Bytes → RoutingMessage
  | ospf2, s => .layer (decodeOspfv2 s)
  | ospf3, s => .layer (decodeOspfv3 s)
  | bgp, s => .bgp (decodeBgp s)
  | rip, s => .rip (decodeRip s)
  | ripng, s => .ripng (decodeRipng s)
  | hsrp, s => .hsrp (decodeHsrp s)

/-- `pkt2net` with `update` or with no keywords. -/
def RoutingMessage.pkt2net (update : Bool) : RoutingMessage → Bytes
  | layer l => l.pkt2net update false
  | bgp m => m.write update
  | rip m => m.write update
  | ripng m => m.write update
  | hsrp m => m.write update

/-- The length field of one message, which a message that is written as its copy keeps. -/
def BGPMessage.inLength (m : BGPMessage) (i : Nat) : Bool :=
  !m.malformed && (decide (16 ≤ i) && decide (i < 18))

/-- The length fields of a message and those of what follows it. -/
def BGP.inLength : BGP → Nat → Bool
  | last m _, i => m.inLength i
  | chained m payload, i =>
    let size := (m.raw.getD []).length
    if i < size then m.inLength i else payload.inLength (i - size)

/-- The length and the checksum of an OSPF packet. -/
def inOspfDerived (i : Nat) : Bool := i == 2 || i == 3 || i == 12 || i == 13

/-- The positions of the length and checksum fields of a parsed message. -/
def RoutingMessage.inDerived : RoutingMessage → Nat → Bool
  | layer _, i => inOspfDerived i
  | bgp m, i => m.inLength i
  | rip _, _ => false
  | ripng _, _ => false
  | hsrp _, _ => false

/-- `update` leaves the bytes of a parsed message as they are outside of its length and checksum
fields. -/
def RoutingProtocol.Rebuilds (p : RoutingProtocol) (s : Bytes) : Prop :=
  blank (p.parse s).inDerived ((p.parse s).pkt2net true) = blank (p.parse s).inDerived s

/-- The length that an OSPF header states. -/
def statedLength (s : Bytes) : Nat := BigEndian.toNat ((s.drop 2).take 2)

/-- The stated length does not leave bytes behind the packet. -/
def NothingBehind (headerLen : Nat) (s : Bytes) : Prop :=
  ¬(headerLen ≤ statedLength s ∧ statedLength s < s.length)

/-- An OSPF packet has its header and nothing behind its stated length, and an OSPFv3 header a
reserved byte of zero. -/
def RoutingProtocol.NothingDropped : RoutingProtocol → Bytes → Prop
  | ospf2, s => 24 ≤ s.length ∧ NothingBehind 24 s
  | ospf3, s => 16 ≤ s.length ∧ NothingBehind 16 s ∧ s[15]? = some 0
  | bgp, _ => True
  | rip, _ => True
  | ripng, _ => True
  | hsrp, _ => True

/-- An OSPF packet, with its derived fields set apart. -/
def ospfBytes (kind : Bytes) (length : Nat) (origin : Bytes) (checksum : Nat) (rest : Bytes) :
    Bytes :=
  kind ++ ofNat 2 length ++ (origin ++ ofNat 2 checksum ++ rest)

theorem blank_ospfBytes {kind origin : Bytes} (hkind : kind.length = 2)
    (horigin : origin.length = 8) (length length' checksum checksum' : Nat) (rest : Bytes) :
    blank inOspfDerived (ospfBytes kind length origin checksum rest) =
      blank inOspfDerived (ospfBytes kind length' origin checksum' rest) := by
  apply blank_around
  · simp
  · intro i hi
    rw [length_ofNat] at hi
    obtain rfl | rfl : i = 0 ∨ i = 1 := by omega
    · rw [hkind]
      rfl
    · rw [hkind]
      rfl
  · apply blank_around
    · simp
    · intro i hi
      rw [length_ofNat] at hi
      obtain rfl | rfl : i = 0 ∨ i = 1 := by omega
      · rw [hkind, horigin, length_ofNat]
        rfl
      · rw [hkind, horigin, length_ofNat]
        rfl
    · rfl

theorem takeInto_of_length {s : Bytes} {k : Nat} (h : s.length = k) : takeInto s k = s := by
  rw [takeInto, ← h, List.take_length, Nat.sub_self, List.replicate_zero, List.append_nil]

theorem statedLength_ospfBytes {kind origin rest : Bytes} {length checksum : Nat}
    (hkind : kind.length = 2) (hlength : length < 256 ^ 2) :
    statedLength (ospfBytes kind length origin checksum rest) = length := by
  rw [statedLength, ospfBytes, List.append_assoc, List.drop_left' hkind,
    List.take_left' (length_ofNat 2 length), BigEndian.toNat_ofNat hlength]

/-- What a stated length leaves of a body, and what is behind it. -/
theorem exists_behind (headerLen length : Nat) (rest : Bytes) :
    ∃ behind, rest = (if headerLen ≤ length ∧ length ≤ headerLen + rest.length
        then rest.take (length - headerLen) else rest) ++ behind ∧
      (behind = [] ↔ ¬(headerLen ≤ length ∧ length < headerLen + rest.length)) := by
  by_cases h : headerLen ≤ length ∧ length ≤ headerLen + rest.length
  · refine ⟨rest.drop (length - headerLen), ?_, ?_⟩
    · rw [if_pos h, List.take_append_drop]
    · rw [List.drop_eq_nil_iff]
      omega
  · refine ⟨[], ?_, ?_⟩
    · rw [if_neg h, List.append_nil]
    · have hnot : ¬(headerLen ≤ length ∧ length < headerLen + rest.length) := by omega
      simp [hnot]

theorem ospf_rebuilt {p : OSPFv2Packet} (hauth : p.auth.length = 8) :
    ∃ length checksum, (Layer.ospf p).pkt2net true false =
      ospfBytes (ofNat 1 p.version ++ ofNat 1 p.type) length (p.srcRouter ++ p.areaId) checksum
        (ofNat 2 p.authType ++ p.auth ++ p.body) := by
  have htake : takeInto p.auth 8 = p.auth := takeInto_of_length hauth
  simp only [Layer.pkt2net, Layer.write, OSPFv2Packet.write, htake, ospfBytes]
  split
  · exact ⟨_, _, by simp only [List.append_assoc]; rfl⟩
  · exact ⟨_, _, by simp only [List.append_assoc]; rfl⟩

theorem ospf3_rebuilt (p : OSPFv3Packet) :
    ∃ length checksum, (Layer.ospf3 p).pkt2net true false =
      ospfBytes (ofNat 1 p.version ++ ofNat 1 p.type) length (p.srcRouter ++ p.areaId) checksum
        (ofNat 1 p.instanceId ++ [0] ++ p.body) := by
  simp only [Layer.pkt2net, Layer.write, OSPFv3Packet.write, ospfBytes]
  exact ⟨_, _, by simp only [List.append_assoc]; rfl⟩

/-- An OSPFv2 packet as it is parsed, and as it is rebuilt. -/
theorem decodeOspfv2_spec {s : Bytes} (h : 24 ≤ s.length) :
    ∃ kind length origin checksum auth body behind, kind.length = 2 ∧ length < 256 ^ 2 ∧
      origin.length = 8 ∧
      s = ospfBytes kind length origin checksum (auth ++ body ++ behind) ∧
      (behind = [] ↔ ¬(24 ≤ length ∧ length < s.length)) ∧
      ∃ length' checksum', (decodeOspfv2 s).pkt2net true false =
        ospfBytes kind length' origin checksum' (auth ++ body) := by
  obtain ⟨version, s, hversion, rfl⟩ := BigEndian.exists_ofNat_append (show 1 ≤ s.length by omega)
  rw [List.length_append, length_ofNat] at h
  obtain ⟨type, s, htype, rfl⟩ := BigEndian.exists_ofNat_append (show 1 ≤ s.length by omega)
  rw [List.length_append, length_ofNat] at h
  obtain ⟨length, s, hlength, rfl⟩ := BigEndian.exists_ofNat_append (show 2 ≤ s.length by omega)
  rw [List.length_append, length_ofNat] at h
  obtain ⟨srcRouter, s, hsrcRouter, rfl⟩ :=
    BigEndian.exists_bytes_append (show 4 ≤ s.length by omega)
  rw [List.length_append] at h
  obtain ⟨areaId, s, hareaId, rfl⟩ := BigEndian.exists_bytes_append (show 4 ≤ s.length by omega)
  rw [List.length_append] at h
  obtain ⟨checksum, s, hchecksum, rfl⟩ := BigEndian.exists_ofNat_append (show 2 ≤ s.length by omega)
  rw [List.length_append, length_ofNat] at h
  obtain ⟨authType, s, hauthType, rfl⟩ := BigEndian.exists_ofNat_append (show 2 ≤ s.length by omega)
  rw [List.length_append, length_ofNat] at h
  obtain ⟨auth, rest, hauth, rfl⟩ := BigEndian.exists_bytes_append (show 8 ≤ s.length by omega)
  obtain ⟨behind, hrest, hbehind⟩ := exists_behind 24 length rest
  generalize hbody : (if 24 ≤ length ∧ length ≤ 24 + rest.length
    then rest.take (length - 24) else rest) = body at hrest
  refine ⟨ofNat 1 version ++ ofNat 1 type, length, srcRouter ++ areaId, checksum,
    ofNat 2 authType ++ auth, body, behind, by simp, hlength, by simp [hsrcRouter, hareaId],
    ?_, ?_, ?_⟩
  · simp only [ospfBytes, List.append_assoc]
    rw [← hrest]
  · rw [hbehind]
    simp only [List.length_append, length_ofNat, hsrcRouter, hareaId, hauth]
    omega
  · rw [decodeOspfv2_read rfl hversion htype hlength hsrcRouter hareaId hchecksum hauthType
      hauth, hbody]
    exact ospf_rebuilt hauth

/-- An OSPFv3 packet, whose reserved byte is rebuilt as zero. -/
theorem decodeOspfv3_spec {s : Bytes} (h : 16 ≤ s.length) :
    ∃ kind length origin checksum instanceId reserved body behind, kind.length = 2 ∧
      length < 256 ^ 2 ∧ origin.length = 8 ∧
      s = ospfBytes kind length origin checksum
        (ofNat 1 instanceId ++ [reserved] ++ body ++ behind) ∧
      (behind = [] ↔ ¬(16 ≤ length ∧ length < s.length)) ∧
      ∃ length' checksum', (decodeOspfv3 s).pkt2net true false =
        ospfBytes kind length' origin checksum' (ofNat 1 instanceId ++ [0] ++ body) := by
  obtain ⟨version, s, hversion, rfl⟩ := BigEndian.exists_ofNat_append (show 1 ≤ s.length by omega)
  rw [List.length_append, length_ofNat] at h
  obtain ⟨type, s, htype, rfl⟩ := BigEndian.exists_ofNat_append (show 1 ≤ s.length by omega)
  rw [List.length_append, length_ofNat] at h
  obtain ⟨length, s, hlength, rfl⟩ := BigEndian.exists_ofNat_append (show 2 ≤ s.length by omega)
  rw [List.length_append, length_ofNat] at h
  obtain ⟨srcRouter, s, hsrcRouter, rfl⟩ :=
    BigEndian.exists_bytes_append (show 4 ≤ s.length by omega)
  rw [List.length_append] at h
  obtain ⟨areaId, s, hareaId, rfl⟩ := BigEndian.exists_bytes_append (show 4 ≤ s.length by omega)
  rw [List.length_append] at h
  obtain ⟨checksum, s, hchecksum, rfl⟩ := BigEndian.exists_ofNat_append (show 2 ≤ s.length by omega)
  rw [List.length_append, length_ofNat] at h
  obtain ⟨instanceId, s, hinstanceId, rfl⟩ :=
    BigEndian.exists_ofNat_append (show 1 ≤ s.length by omega)
  rw [List.length_append, length_ofNat] at h
  obtain ⟨reserved, rest, hreserved, rfl⟩ :=
    BigEndian.exists_ofNat_append (show 1 ≤ s.length by omega)
  obtain ⟨behind, hrest, hbehind⟩ := exists_behind 16 length rest
  generalize hbody : (if 16 ≤ length ∧ length ≤ 16 + rest.length
    then rest.take (length - 16) else rest) = body at hrest
  refine ⟨ofNat 1 version ++ ofNat 1 type, length, srcRouter ++ areaId, checksum, instanceId,
    UInt8.ofNat (reserved / 256 ^ 0), body, behind, by simp, hlength, by simp [hsrcRouter, hareaId],
    ?_, ?_, ?_⟩
  · simp only [ospfBytes, List.append_assoc]
    rw [← hrest]
    rfl
  · rw [hbehind]
    simp only [List.length_append, length_ofNat, hsrcRouter, hareaId]
    omega
  · rw [decodeOspfv3_read rfl hversion htype hlength hsrcRouter hareaId hchecksum hinstanceId
      hreserved, hbody]
    exact ospf3_rebuilt _

theorem length_ospfBytes {kind origin : Bytes} (hkind : kind.length = 2)
    (horigin : origin.length = 8) (length checksum : Nat) (rest : Bytes) :
    (ospfBytes kind length origin checksum rest).length = 14 + rest.length := by
  simp only [ospfBytes, List.length_append, length_ofNat, hkind, horigin]
  omega

theorem rebuilds_ospf2_iff (s : Bytes) :
    RoutingProtocol.ospf2.Rebuilds s ↔ RoutingProtocol.ospf2.NothingDropped s := by
  change blank inOspfDerived ((decodeOspfv2 s).pkt2net true false) = blank inOspfDerived s ↔
    24 ≤ s.length ∧ NothingBehind 24 s
  by_cases h : 24 ≤ s.length
  · obtain ⟨kind, length, origin, checksum, auth, body, behind, hkind, hlength, horigin, hs,
      hbehind, length', checksum', hwritten⟩ := decodeOspfv2_spec h
    have hstated : statedLength s = length := by rw [hs, statedLength_ospfBytes hkind hlength]
    rw [NothingBehind, hstated, ← hbehind, and_iff_right h, hwritten]
    constructor
    · intro heq
      have hsize := length_eq_of_blank heq
      rw [hs, length_ospfBytes hkind horigin, length_ospfBytes hkind horigin] at hsize
      simp only [List.length_append] at hsize
      exact List.length_eq_zero_iff.mp (by omega)
    · rintro rfl
      rw [hs, List.append_nil]
      exact blank_ospfBytes hkind horigin _ _ _ _ _
  · refine iff_of_false (fun heq => ?_) (fun hall => h hall.1)
    have hsize := length_eq_of_blank heq
    rw [decodeOspfv2_short (Nat.lt_of_not_le h)] at hsize
    obtain ⟨length, checksum, hwritten⟩ := ospf_rebuilt (p := ⟨0, 0, 0, [0, 0, 0, 0],
      [0, 0, 0, 0], 0, 0, List.replicate 8 0, [], some s⟩) (List.length_replicate)
    rw [hwritten, length_ospfBytes (by simp) (by simp)] at hsize
    simp only [List.length_append, length_ofNat, List.length_replicate, List.length_nil] at hsize
    omega

theorem rebuilds_ospf3_iff (s : Bytes) :
    RoutingProtocol.ospf3.Rebuilds s ↔ RoutingProtocol.ospf3.NothingDropped s := by
  change blank inOspfDerived ((decodeOspfv3 s).pkt2net true false) = blank inOspfDerived s ↔
    16 ≤ s.length ∧ NothingBehind 16 s ∧ s[15]? = some 0
  by_cases h : 16 ≤ s.length
  · obtain ⟨kind, length, origin, checksum, instanceId, reserved, body, behind, hkind, hlength,
      horigin, hs, hbehind, length', checksum', hwritten⟩ := decodeOspfv3_spec h
    have hstated : statedLength s = length := by rw [hs, statedLength_ospfBytes hkind hlength]
    have hat : ∀ length checksum rest b, (ospfBytes kind length origin checksum
        (ofNat 1 instanceId ++ [b] ++ rest))[15]? = some b := by
      intro length checksum rest b
      have hfront : ospfBytes kind length origin checksum (ofNat 1 instanceId ++ [b] ++ rest) =
          (kind ++ ofNat 2 length ++ origin ++ ofNat 2 checksum ++ ofNat 1 instanceId) ++
            b :: rest := by
        simp [ospfBytes]
      rw [hfront, List.getElem?_append_right (by simp [hkind, horigin])]
      simp [hkind, horigin]
    have hreserved : s[15]? = some reserved := by rw [hs, List.append_assoc _ body, hat]
    rw [NothingBehind, hstated, ← hbehind, and_iff_right h, hwritten, hreserved, Option.some.injEq]
    constructor
    · intro heq
      have hsize := length_eq_of_blank heq
      rw [hs, length_ospfBytes hkind horigin, length_ospfBytes hkind horigin] at hsize
      simp only [List.length_append, List.length_cons, List.length_nil] at hsize
      have hzero := getElem?_eq_of_blank heq (i := 15) rfl
      rw [hat, hreserved, Option.some.injEq] at hzero
      exact ⟨List.length_eq_zero_iff.mp (by omega), hzero.symm⟩
    · rintro ⟨rfl, rfl⟩
      rw [hs, List.append_nil]
      exact blank_ospfBytes hkind horigin _ _ _ _ _
  · refine iff_of_false (fun heq => ?_) (fun hall => h hall.1)
    have hsize := length_eq_of_blank heq
    rw [decodeOspfv3_short (Nat.lt_of_not_le h)] at hsize
    obtain ⟨length, checksum, hwritten⟩ := ospf3_rebuilt ⟨0, 0, 0, [0, 0, 0, 0],
      [0, 0, 0, 0], 0, 0, [], some s⟩
    rw [hwritten, length_ospfBytes (by simp) (by simp)] at hsize
    simp only [List.length_append, length_ofNat, List.length_cons, List.length_nil] at hsize
    omega

theorem bgpMsgHeader_sound {s marker rest : Bytes} {length type : Nat}
    (h : bgpMsgHeader s = some (marker, length, type, rest)) :
    s = marker ++ ofNat 2 length ++ (ofNat 1 type ++ rest) ∧ marker.length = 16 := by
  simp only [bgpMsgHeader, Option.bind_eq_bind, Option.bind_eq_some_iff, Prod.exists,
    Option.pure_def, Option.some.injEq, Prod.mk.injEq] at h
  obtain ⟨_, _, h1, _, _, h2, _, _, h3, rfl, rfl, rfl, rfl⟩ := h
  obtain ⟨rfl, hmarker⟩ := takeBytes_sound h1
  obtain ⟨rfl, -⟩ := readInt_sound h2
  obtain ⟨rfl, -⟩ := readInt_sound h3
  exact ⟨by simp, hmarker⟩

/-- A message that is not malformed, with its header and body. -/
structure BGPMessage.Whole (m : BGPMessage) (raw : Bytes) : Prop where
  copy : m.raw = some raw
  intact : m.malformed = false
  marker : m.marker.length = 16
  bytes : raw = m.marker ++ ofNat 2 m.length ++ (ofNat 1 m.type ++ m.body)

theorem BGPMessage.Whole.rebuilt {m : BGPMessage} {raw : Bytes} (h : m.Whole raw) :
    blank m.inLength (m.write true) = blank m.inLength raw := by
  have htake : takeInto m.marker 16 = m.marker := takeInto_of_length h.marker
  have hwrite : m.write true = takeInto m.marker 16 ++ ofNat 2 (19 + m.body.length) ++
      ofNat 1 m.type ++ m.body := by
    simp only [BGPMessage.write, h.copy]
  rw [hwrite, htake, h.bytes, List.append_assoc (m.marker ++ _)]
  apply blank_around
  · simp
  · intro i hi
    rw [length_ofNat] at hi
    obtain rfl | rfl : i = 0 ∨ i = 1 := by omega
    · rw [h.marker, inLength, h.intact]
      rfl
    · rw [h.marker, inLength, h.intact]
      rfl
  · rfl

theorem BGPMessage.Whole.length_rebuilt {m : BGPMessage} {raw : Bytes} (h : m.Whole raw) :
    (m.write true).length = raw.length := length_eq_of_blank h.rebuilt

theorem BGPMessage.Whole.last {m : BGPMessage} {raw : Bytes} (h : m.Whole raw) (payload : Bytes) :
    blank m.inLength (m.write true ++ payload) = blank m.inLength (raw ++ payload) := by
  rw [blank_append, blank_append, h.rebuilt, h.length_rebuilt]

theorem BGPMessage.Whole.chained {m : BGPMessage} {raw : Bytes} (h : m.Whole raw) {payload : BGP}
    {rest : Bytes}
    (hrest : blank payload.inLength (payload.write true) = blank payload.inLength rest) :
    blank (BGP.chained m payload).inLength (m.write true ++ payload.write true) =
      blank (BGP.chained m payload).inLength (raw ++ rest) := by
  have hfirst {t : Bytes} (ht : t.length = raw.length) :
      blank (BGP.chained m payload).inLength t = blank m.inLength t := by
    apply blank_congr
    intro i hi
    rw [BGP.inLength, h.copy, Option.getD_some, if_pos (ht ▸ hi)]
  have hbehind : (fun i => (BGP.chained m payload).inLength (i + raw.length)) =
      payload.inLength := by
    funext i
    rw [BGP.inLength, h.copy, Option.getD_some, if_neg (by omega), Nat.add_sub_cancel]
  rw [blank_append, blank_append, hfirst h.length_rebuilt, hfirst rfl, h.rebuilt,
    h.length_rebuilt, hbehind, hrest]

/-- What `update` makes of a run of messages. -/
theorem blank_bgp (s : Bytes) :
    blank (decodeBgp s).inLength ((decodeBgp s).write true) = blank (decodeBgp s).inLength s := by
  induction hn : s.length using Nat.strongRecOn generalizing s with
  | ind n ih =>
    subst hn
    rw [decodeBgp]
    cases hheader : bgpMsgHeader s with
    | none => rfl
    | some header =>
      obtain ⟨marker, length, type, rest⟩ := header
      obtain ⟨hs, hmarker⟩ := bgpMsgHeader_sound hheader
      have hroom : 19 ≤ s.length := by
        rw [hs]
        simp only [List.length_append, length_ofNat, hmarker]
        omega
      have hstop : 19 ≤ msgEnd length s.length ∧ msgEnd length s.length ≤ s.length := by
        unfold msgEnd
        split <;> omega
      dsimp only
      generalize hm : BGPMessage.mk marker length type _ _ _ = m
      by_cases hlong : s.length < length
      · have hend : msgEnd length s.length = s.length := if_neg (by omega)
        have hkept : m.kept = some s := by
          rw [← hm, BGPMessage.kept, if_pos (decide_eq_true hlong), hend, List.take_length]
        rw [if_neg (by omega), BGP.write, hkept, Option.getD_some]
      · have hwhole : m.Whole (s.take (msgEnd length s.length)) := by
          rw [← hm]
          refine ⟨rfl, decide_eq_false hlong, hmarker, ?_⟩
          have hfront : s = (marker ++ ofNat 2 length ++ ofNat 1 type) ++ rest := by
            rw [hs, ← List.append_assoc (marker ++ _)]
          have hsize : (marker ++ ofNat 2 length ++ ofNat 1 type).length = 19 := by simp [hmarker]
          dsimp only
          generalize msgEnd length s.length = stop at hstop
          rw [hfront, List.take_append, hsize, List.take_of_length_le (by omega),
            List.append_assoc (marker ++ _)]
        have hkept : m.kept = none := by
          rw [BGPMessage.kept, hwhole.intact]
          rfl
        have hsplit := List.take_append_drop (msgEnd length s.length) s
        split
        · have hrest := ih (s.drop (msgEnd length s.length)).length
            (by rw [List.length_drop]; omega) _ rfl
          have hboth := hwhole.chained hrest
          rw [hsplit] at hboth
          rw [BGP.write, hkept, Option.getD_none, hboth]
        · have hboth := hwhole.last (s.drop (msgEnd length s.length))
          rw [hsplit] at hboth
          rw [BGP.write, hkept, Option.getD_none]
          exact hboth

theorem rip_rebuilt (s : Bytes) : (decodeRip s).write true = s := by
  unfold decodeRip
  dsimp only
  generalize hread : bind (readInt 1 s) _ = read
  cases read with
  | none => rfl
  | some m =>
    simp only [Option.bind_eq_bind, Option.bind_eq_some_iff, Prod.exists, Option.pure_def,
      Option.some.injEq] at hread
    obtain ⟨_, _, h1, _, _, h2, _, _, h3, rfl⟩ := hread
    obtain ⟨rfl, -⟩ := readInt_sound h1
    obtain ⟨rfl, -⟩ := readInt_sound h2
    obtain ⟨rfl, -⟩ := readInt_sound h3
    simp [RIP.write, writeKept]

theorem ripng_rebuilt (s : Bytes) : (decodeRipng s).write true = s := by
  unfold decodeRipng
  dsimp only
  generalize hread : bind (readInt 1 s) _ = read
  cases read with
  | none => rfl
  | some m =>
    simp only [Option.bind_eq_bind, Option.bind_eq_some_iff, Prod.exists, Option.pure_def,
      Option.some.injEq] at hread
    obtain ⟨_, _, h1, _, _, h2, reserved, _, h3, rfl⟩ := hread
    obtain ⟨rfl, -⟩ := readInt_sound h1
    obtain ⟨rfl, -⟩ := readInt_sound h2
    obtain ⟨rfl, hreserved⟩ := takeBytes_sound h3
    have htake : takeInto reserved 2 = reserved := takeInto_of_length hreserved
    simp [RIPng.write, writeKept, htake]

theorem hsrp_rebuilt (s : Bytes) : (decodeHsrp s).write true = s := by
  cases s with
  | nil => rfl
  | cons first rest =>
    rw [decodeHsrp, HSRP.write, writeKept]
    split
    · rfl
    · exact List.append_nil _

/-- Rebuilding is the same as copying, outside of the derived fields, exactly where nothing is
dropped. -/
theorem rebuilds_iff_nothing_dropped (p : RoutingProtocol) (s : Bytes) :
    p.Rebuilds s ↔ p.NothingDropped s := by
  cases p with
  | ospf2 => exact rebuilds_ospf2_iff s
  | ospf3 => exact rebuilds_ospf3_iff s
  | bgp => exact iff_of_true (blank_bgp s) trivial
  | rip => exact iff_of_true (congrArg (blank _) (rip_rebuilt s)) trivial
  | ripng => exact iff_of_true (congrArg (blank _) (ripng_rebuilt s)) trivial
  | hsrp => exact iff_of_true (congrArg (blank _) (hsrp_rebuilt s)) trivial

/-- A Hello with a digest behind it, as cryptographic authentication has it. -/
def digestedHello : Bytes :=
  [2, 1, 0, 24, 10, 0, 0, 1, 0, 0, 0, 0, 0, 0, 0, 2, 0, 0, 1, 16, 0, 0, 0, 7] ++
    List.replicate 16 0xaa

theorem not_rebuilds_digestedHello : ¬∀ p s, RoutingProtocol.Rebuilds p s := by
  intro h
  have hsize := length_eq_of_blank (h .ospf2 digestedHello)
  revert hsize
  decide +kernel

end Packets.Inet
