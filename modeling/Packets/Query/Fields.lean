/-
The values a layer has for the fields of a query (`get_field_val` in `core/inetpkt.pyx`, and
`Frame` and `_descriptor_value` in `query/pcap_query.pyx`).
-/
import Packets.Inet.GetLayer
import Packets.Inet.HeaderFields
import Packets.Lib.DecimalText
import Mathlib.Data.Rat.Defs

namespace Packets.Query

open Packets.Inet

/-- What reading a field raises. -/
inductive Raised where
  | valueError
  | structError
  | osError
  | keyError
deriving DecidableEq

inductive Value where
  | int (n : Nat)
  | time (t : ℚ)
  | bytes (b : Bytes)
  | mac (octets : Bytes)
  | ip4 (octets : Bytes)
  | ip6 (octets : Bytes)
  | hex (octets : Bytes)
  | text (shown : String)
deriving DecidableEq

/-- A value that is read, or `None`. -/
abbrev Cell := Except Raised (Option Value)

def Cell.int (n : Nat) : Cell := .ok (some (.int n))

/-- `_fmt_mac` -/
def fmtMac (mac : Bytes) : Cell :=
  if mac.length < 6 then .error .structError else .ok (some (.mac (mac.take 6)))

/-- `_fmt_ipv4` -/
def fmtIpv4 (packed : Bytes) : Cell :=
  if packed.length ≠ 4 then .error .osError else .ok (some (.ip4 packed))

/-- `_fmt_ipv6` -/
def fmtIpv6 (packed : Bytes) : Cell :=
  if packed.length ≠ 16 then .error .valueError else .ok (some (.ip6 packed))

/-- What UDP or TCP carries: bytes a `NullPkt` holds, its range of the frame, or a layer 7
packet, which is given by what `pkt2net({})` makes of it. -/
inductive L7Payload where
  | held (payload : Bytes)
  | range (owner : Bytes) (start length : Nat) (inside : start + length ≤ owner.length)
  | decoded (net : Bytes)

/-- `payload.pkt2net({})` -/
def L7Payload.pkt2net : L7Payload → Bytes
  | held payload => payload
  | range owner start length _ => (owner.drop start).take length
  | decoded net => net

/-- `_payload_offset_bytes` -/
def payloadOffsetBytes (payload : L7Payload) (first last : Int) : Bytes :=
  match payload with
  | .held raw => DecimalText.slice raw first last
  | .range owner start length _ =>
    if (0 ≤ first ∧ first ≤ length) ∧ 0 ≤ last ∧ last ≤ length then
      if first ≥ last then []
      else (owner.drop (start + first.toNat)).take (last.toNat - first.toNat)
    else DecimalText.slice ((owner.drop start).take length) first last
  | .decoded net => DecimalText.slice net first last

theorem payloadOffsetBytes_nat (payload : L7Payload) (x y : Nat) :
    payloadOffsetBytes payload x y = (payload.pkt2net.drop x).take (y - x) := by
  cases payload with
  | held raw => exact DecimalText.slice_nat raw x y
  | decoded net => exact DecimalText.slice_nat net x y
  | range owner start length inside =>
    rw [payloadOffsetBytes]
    split
    · rename_i hin
      have hy : y ≤ length := by omega
      split
      · rename_i hge
        have hzero : y - x = 0 := by omega
        rw [hzero, List.take_zero]
      · rw [L7Payload.pkt2net, List.drop_take, List.drop_drop, List.take_take]
        have hmin : min (y - x) (length - x) = y - x := Nat.min_eq_left (by omega)
        rw [hmin]
        rfl
    · exact DecimalText.slice_nat _ x y

/-- The length of the two prefixes. -/
def PLOAD_F_LEN : Nat := 18

/-- Two bounds, each of which `int()` has to read. -/
def intBounds (first last : List Char) : Except Raised (Option (Int × Int)) :=
  match DecimalText.int first, DecimalText.int last with
  | some first, some last => .ok (some (first, last))
  | _, _ => .error .valueError

/-- The bounds a payload offset field spells: what stands between its bracket and the first
closing one, cut at the colons. -/
def offsets (field : String) : Except Raised (Option (Int × Int)) :=
  match field.toList.idxOf? ']' with
  | none => .error .valueError
  | some i =>
    match (Slices.slice field.toList (PLOAD_F_LEN + 1) i).splitOn ':' with
    | [first, last] => intBounds first last
    | _ => .ok none

def payloadOffset (field : String) (payload : L7Payload) : Cell := do
  match ← offsets field with
  | some (first, last) => pure (some (.bytes (payloadOffsetBytes payload first last)))
  | none => pure none

/-- The part of a field name the layer 4 classes look at. -/
def shortName (field : String) : List Char := field.toList.take PLOAD_F_LEN

def UDP.getFieldVal (self : UDPHeader) (payload : L7Payload) (field : String) : Cell :=
  let f := shortName field
  if f = "udp.srcport".toList then .int self.sport
  else if f = "udp.dstport".toList then .int self.dport
  else if f = "udp.length".toList then .int self.ulen
  else if f = "udp.checksum".toList then .int self.checksum
  else if f = "udp.payload".toList then .ok (some (.bytes payload.pkt2net))
  else if f = "udp.payload.offset".toList then payloadOffset field payload
  else .ok none

/-- The wireshark flags, fin to urg. -/
def TCP.flags (v : BitVec 16) : Nat := (v &&& 0b111111#16).toNat

def TCP.getFieldVal (self : TCPHeader) (payload : L7Payload) (field : String) : Cell :=
  let f := shortName field
  let offFlags := BitVec.ofNat 16 self.offFlags
  if f = "tcp.srcport".toList then .int self.sport
  else if f = "tcp.dstport".toList then .int self.dport
  else if f = "tcp.seq".toList then .int self.sequence
  else if f = "tcp.ack".toList then .int self.acknowledgment
  else if f = "tcp.hdr_len".toList then .int (Inet.TCP.dataOffset.get offFlags)
  else if f = "tcp.len".toList then .int self.wsLen
  else if f = "tcp.flags".toList then .int (TCP.flags offFlags)
  else if f = "tcp.flags.urg".toList then .int (Inet.TCP.flagUrg.get offFlags)
  else if f = "tcp.flags.ack".toList then .int (Inet.TCP.flagAck.get offFlags)
  else if f = "tcp.flags.push".toList then .int (Inet.TCP.flagPsh.get offFlags)
  else if f = "tcp.flags.reset".toList then .int (Inet.TCP.flagRst.get offFlags)
  else if f = "tcp.flags.syn".toList then .int (Inet.TCP.flagSyn.get offFlags)
  else if f = "tcp.flags.fin".toList then .int (Inet.TCP.flagFin.get offFlags)
  else if f = "tcp.window_size_va".toList then .int self.window
  else if f = "tcp.checksum".toList then .int self.checksum
  else if f = "tcp.urgent_pointer".toList then .int self.urgPtr
  else if f = "tcp.payload".toList then .ok (some (.bytes payload.pkt2net))
  else if f = "tcp.payload.offset".toList then payloadOffset field payload
  else .ok none

/-- `flags` of `IP` -/
def IP.flags (v : BitVec 16) : Nat := getShortNibble v 12 >>> 1

def IP.getFieldVal (self : IPHeader) (field : String) : Cell :=
  let versionIphl := BitVec.ofNat 8 self.versionIphl
  let flagsOffset := BitVec.ofNat 16 self.flagsOffset
  if field = "ip.version" then .int (Inet.IP.version.get versionIphl)
  else if field = "ip.hdr_len" then .int (Inet.IP.iphl.get versionIphl)
  else if field = "ip.tos" then .int self.tos
  else if field = "ip.len" then .int self.totalLen
  else if field = "ip.id" then .int self.ident
  else if field = "ip.flags" then .int (IP.flags flagsOffset)
  else if field = "ip.flags.df" then .int (Inet.IP.flagD.get flagsOffset)
  else if field = "ip.flags.mf" then .int (Inet.IP.flagM.get flagsOffset)
  else if field = "ip.frag_offset" then .int (Inet.IP.fragOffset.get flagsOffset)
  else if field = "ip.ttl" then .int self.ttl
  else if field = "ip.proto" then .int self.proto
  else if field = "ip.src" then fmtIpv4 self.src
  else if field = "ip.dst" then fmtIpv4 self.dst
  else if field = "ip.checksum" then .int self.checksum
  else .ok none

def IP6.getFieldVal (self : IP6Header) (field : String) : Cell :=
  let vTcFlow := BitVec.ofNat 32 self.vTcFlow
  if field = "ipv6.version" then .int (Inet.IP6.version.get vTcFlow)
  else if field = "ipv6.tclass" then .int (Inet.IP6.trafficClass.get vTcFlow)
  else if field = "ipv6.flow" then .int (Inet.IP6.flowLabel.get vTcFlow)
  else if field = "ipv6.plen" then .int self.payloadLen
  else if field = "ipv6.nxt" then .int self.nh
  else if field = "ipv6.hlim" then .int self.hopLimit
  else if field = "ipv6.src" then fmtIpv6 self.src
  else if field = "ipv6.dst" then fmtIpv6 self.dst
  else .ok none

/-- A frame without a tag has no tag type, and a tag of zeros. -/
def Ethernet.getFieldVal (self : EthernetHeader) (field : String) : Cell :=
  let tci := BitVec.ofNat 16 (self.tag.getD 0)
  if field = "eth.type" then .int self.type
  else if field = "eth.src" then fmtMac self.srcMac
  else if field = "eth.dst" then fmtMac self.dstMac
  else if field = "vlan.cfi" then .int (Inet.Ethernet.dropEligible.get tci)
  else if field = "vlan.id" then .int (Inet.Ethernet.vlanId.get tci)
  else if field = "vlan.priority" then .int (Inet.Ethernet.priorityCode.get tci)
  else if field = "eth.vlan.tpid" then .int (if self.tag.isSome then 0x8100 else 0)
  else .ok none

/-- The addresses of the upper protocol are texts already. -/
structure ARPHeader where
  hardwareType : Nat
  protoType : Nat
  hardwareLen : Nat
  protoLen : Nat
  operation : Nat
  senderHwAddr : Bytes
  senderProtoAddr : Value
  targetHwAddr : Bytes
  targetProtoAddr : Value
deriving DecidableEq

def ARP.getFieldVal (self : ARPHeader) (field : String) : Cell :=
  if field = "arp.hw.type" then .int self.hardwareType
  else if field = "arp.proto.type" then .int self.protoType
  else if field = "arp.hw.size" then .int self.hardwareLen
  else if field = "arp.proto.size" then .int self.protoLen
  else if field = "arp.opcode" then .int self.operation
  else if field = "arp.src.hw_mac" then fmtMac self.senderHwAddr
  else if field = "arp.src.proto_ipv4" then .ok (some self.senderProtoAddr)
  else if field = "arp.dst.hw_mac" then fmtMac self.targetHwAddr
  else if field = "arp.dst.proto_ipv4" then .ok (some self.targetProtoAddr)
  else .ok none

/-- A label does not have every field itself: the others are its payload's. -/
def MPLS.getFieldVal (data : Nat) (payload : String → Cell) (field : String) : Cell :=
  let data := BitVec.ofNat 32 data
  if field = "mpls.label" then .int (Inet.MPLS.label.get data)
  else if field = "mpls.exp" then .int (Inet.MPLS.tc.get data)
  else if field = "mpls.bottom" then .int (Inet.MPLS.s.get data)
  else if field = "mpls.ttl" then .int (Inet.MPLS.ttl.get data)
  else payload field

/-- What a layer of a parsed packet holds.  A parser reads addresses of their full length. -/
inductive LayerFields where
  | ethernet (h : EthernetHeader) (dst : h.dstMac.length = 6) (src : h.srcMac.length = 6)
  | ip (h : IPHeader) (src : h.src.length = 4) (dst : h.dst.length = 4)
  | ip6 (h : IP6Header) (src : h.src.length = 16) (dst : h.dst.length = 16)
  | tcp (h : TCPHeader) (payload : L7Payload)
  | udp (h : UDPHeader) (payload : L7Payload)
  | arp (h : ARPHeader)
  | mpls (data : Nat)
  | plain (pktName : String) (pqType : Nat) (values : String → Option Value)

def PQ_ETH : Nat := 1
def PQ_FRAME : Nat := 2
def PQ_ICMP : Nat := 3
def PQ_IGMP : Nat := 4
def PQ_IP : Nat := 0x0800
def PQ_IP6 : Nat := 0x86dd
def PQ_TCP : Nat := 6
def PQ_UDP : Nat := 17
def PQ_ICMPV6 : Nat := 58
def PQ_ARP : Nat := 0x0806
def PQ_MPLS : Nat := 0x8847

instance : PktLayer LayerFields where
  pktName
    | .ethernet _ _ _ => "Ethernet"
    | .ip _ _ _ => "IP"
    | .ip6 _ _ _ => "IP6"
    | .tcp _ _ => "TCP"
    | .udp _ _ => "UDP"
    | .arp _ => "ARP"
    | .mpls _ => "MPLS"
    | .plain pktName _ _ => pktName
  pqType
    | .ethernet _ _ _ => PQ_ETH
    | .ip _ _ _ => PQ_IP
    | .ip6 _ _ _ => PQ_IP6
    | .tcp _ _ => PQ_TCP
    | .udp _ _ => PQ_UDP
    | .arp _ => PQ_ARP
    | .mpls _ => PQ_MPLS
    | .plain _ pqType _ => pqType

def LayerFields.getFieldVal (below : String → Cell) (field : String) : LayerFields → Cell
  | ethernet h _ _ => Ethernet.getFieldVal h field
  | ip h _ _ => IP.getFieldVal h field
  | ip6 h _ _ => IP6.getFieldVal h field
  | tcp h payload => TCP.getFieldVal h payload field
  | udp h payload => UDP.getFieldVal h payload field
  | arp h => ARP.getFieldVal h field
  | mpls data => MPLS.getFieldVal data below field
  | plain _ _ values => .ok (values field)

/-- `get_field_val` of a layer of a packet. -/
def fieldVal : PKT LayerFields → String → Cell
  | .last layer, field => layer.getFieldVal (fun _ => .ok none) field
  | .above layer payload, field => layer.getFieldVal (fieldVal payload) field

/-- `Frame`: when a packet was captured, and the two lengths of its record. -/
structure Frame where
  ts : ℚ
  len : Nat
  caplen : Nat
deriving DecidableEq

def Frame.getFieldVal (self : Frame) (field : String) : Cell :=
  if field = "frame.time_epoch" then .ok (some (.time self.ts))
  else if field = "frame.len" then .int self.len
  else if field = "frame.caplen" then .int self.caplen
  else .ok none

/-- What a row reads a value from. -/
inductive LayerObject where
  | frame (f : Frame)
  | pkt (p : PKT LayerFields)

def LayerObject.getFieldVal : LayerObject → String → Cell
  | frame f, field => f.getFieldVal field
  | pkt p, field => fieldVal p field

inductive FieldId where
  | dynamic
  | frameTime | frameLen | frameCaplen
  | ethSrc | ethDst | ethType
  | ipSrc | ipDst | ipVersion | ipHdrLen | ipLen | ipTtl
  | udpSrcport | udpDstport | udpLength | udpChecksum
  | tcpSrcport | tcpDstport | tcpSeq | tcpAck | tcpHdrLen | tcpLen | tcpFlags | tcpFlagsUrg
  | tcpFlagsAck | tcpFlagsPush | tcpFlagsReset | tcpFlagsSyn | tcpFlagsFin | tcpWindowSize
  | tcpChecksum | tcpUrgentPointer
  | ipv6Version | ipv6Tclass | ipv6Flow | ipv6Plen | ipv6Nxt | ipv6Hlim | ipv6Src | ipv6Dst
deriving DecidableEq

/-- `known_fields` -/
def knownFields : List (String × FieldId) :=
  [("frame.time_epoch", .frameTime), ("frame.len", .frameLen), ("frame.caplen", .frameCaplen),
    ("eth.src", .ethSrc), ("eth.dst", .ethDst), ("eth.type", .ethType), ("ip.src", .ipSrc),
    ("ip.dst", .ipDst), ("ip.version", .ipVersion), ("ip.hdr_len", .ipHdrLen), ("ip.len", .ipLen),
    ("ip.ttl", .ipTtl), ("udp.srcport", .udpSrcport), ("udp.dstport", .udpDstport),
    ("udp.length", .udpLength), ("udp.checksum", .udpChecksum), ("tcp.srcport", .tcpSrcport),
    ("tcp.dstport", .tcpDstport), ("tcp.seq", .tcpSeq), ("tcp.ack", .tcpAck),
    ("tcp.hdr_len", .tcpHdrLen), ("tcp.len", .tcpLen), ("tcp.flags", .tcpFlags),
    ("tcp.flags.urg", .tcpFlagsUrg), ("tcp.flags.ack", .tcpFlagsAck),
    ("tcp.flags.push", .tcpFlagsPush), ("tcp.flags.reset", .tcpFlagsReset),
    ("tcp.flags.syn", .tcpFlagsSyn), ("tcp.flags.fin", .tcpFlagsFin),
    ("tcp.window_size_value", .tcpWindowSize), ("tcp.checksum", .tcpChecksum),
    ("tcp.urgent_pointer", .tcpUrgentPointer), ("ipv6.version", .ipv6Version),
    ("ipv6.tclass", .ipv6Tclass), ("ipv6.flow", .ipv6Flow), ("ipv6.plen", .ipv6Plen),
    ("ipv6.nxt", .ipv6Nxt), ("ipv6.hlim", .ipv6Hlim), ("ipv6.src", .ipv6Src),
    ("ipv6.dst", .ipv6Dst)]

/-- `_FieldDescriptor` -/
structure FieldDescriptor where
  layerIndex : Nat
  fieldName : String
deriving DecidableEq

def FieldDescriptor.fieldId (d : FieldDescriptor) : FieldId :=
  (knownFields.lookup d.fieldName).getD .dynamic

/-- The part of `_descriptor_value` for one of the classes that are read directly.  `none` goes
on to `get_field_val`. -/
def directValue (id : FieldId) (name : String) : LayerFields → Option Cell
  | .ethernet h _ _ =>
    match id with
    | .ethSrc | .ethDst => some (Ethernet.getFieldVal h name)
    | .ethType => some (.int h.type)
    | _ => none
  | .ip h _ _ =>
    match id with
    | .ipSrc | .ipDst => some (IP.getFieldVal h name)
    | .ipVersion => some (.int (BitVec.ofNat 8 h.versionIphl >>> 4).toNat)
    | .ipHdrLen => some (.int (BitVec.ofNat 8 h.versionIphl &&& 0x0f#8).toNat)
    | .ipLen => some (.int h.totalLen)
    | .ipTtl => some (.int h.ttl)
    | _ => none
  | .udp h _ =>
    match id with
    | .udpSrcport => some (.int h.sport)
    | .udpDstport => some (.int h.dport)
    | .udpLength => some (.int h.ulen)
    | .udpChecksum => some (.int h.checksum)
    | _ => none
  | .tcp h _ =>
    let offFlags := BitVec.ofNat 16 h.offFlags
    match id with
    | .tcpSrcport => some (.int h.sport)
    | .tcpDstport => some (.int h.dport)
    | .tcpSeq => some (.int h.sequence)
    | .tcpAck => some (.int h.acknowledgment)
    | .tcpHdrLen => some (.int (getShortNibble offFlags 12))
    | .tcpLen => some (.int h.wsLen)
    | .tcpFlags => some (.int (offFlags &&& 0b111111#16).toNat)
    | .tcpFlagsUrg => some (.int ((offFlags >>> 5) &&& 1#16).toNat)
    | .tcpFlagsAck => some (.int ((offFlags >>> 4) &&& 1#16).toNat)
    | .tcpFlagsPush => some (.int ((offFlags >>> 3) &&& 1#16).toNat)
    | .tcpFlagsReset => some (.int ((offFlags >>> 2) &&& 1#16).toNat)
    | .tcpFlagsSyn => some (.int ((offFlags >>> 1) &&& 1#16).toNat)
    | .tcpFlagsFin => some (.int (offFlags &&& 1#16).toNat)
    | .tcpWindowSize => some (.int h.window)
    | .tcpChecksum => some (.int h.checksum)
    | .tcpUrgentPointer => some (.int h.urgPtr)
    | _ => none
  | .ip6 h _ _ =>
    let vTcFlow := BitVec.ofNat 32 h.vTcFlow
    match id with
    | .ipv6Version => some (.int (vTcFlow >>> 28).toNat)
    | .ipv6Tclass => some (.int ((vTcFlow >>> 20) &&& 0xff#32).toNat)
    | .ipv6Flow => some (.int (vTcFlow &&& 0xfffff#32).toNat)
    | .ipv6Plen => some (.int h.payloadLen)
    | .ipv6Nxt => some (.int h.nh)
    | .ipv6Hlim => some (.int h.hopLimit)
    | .ipv6Src | .ipv6Dst => some (IP6.getFieldVal h name)
    | _ => none
  | .arp _ | .mpls _ | .plain _ _ _ => none

def directFrameValue (id : FieldId) (f : Frame) : Option Cell :=
  match id with
  | .frameTime => some (.ok (some (.time f.ts)))
  | .frameLen => some (.int f.len)
  | .frameCaplen => some (.int f.caplen)
  | _ => none

/-- `_descriptor_value`, on the layer of the descriptor. -/
def descriptorValue (d : FieldDescriptor) (layer : LayerObject) : Cell :=
  let direct := match layer with
    | .frame f => directFrameValue d.fieldId f
    | .pkt p => directValue d.fieldId d.fieldName p.info
  direct.getD (layer.getFieldVal d.fieldName)

theorem and_mask_eq_ushiftRight {w k j : Nat} (v : BitVec w) (hw : w ≤ k + j) :
    (v >>> k).toNat &&& (2 ^ j - 1) = (v >>> k).toNat := by
  rw [Nat.and_two_pow_sub_one_eq_mod]
  apply Nat.mod_eq_of_lt
  rw [BitVec.toNat_ushiftRight, Nat.shiftRight_eq_div_pow]
  apply Nat.div_lt_of_lt_mul
  have hlt := v.isLt
  have hpow : 2 ^ w ≤ 2 ^ k * 2 ^ j := by
    rw [← Nat.pow_add]
    exact Nat.pow_le_pow_right (by decide) hw
  omega

theorem version_direct (v : BitVec 8) : Inet.IP.version.get v = (v >>> 4).toNat :=
  (BitVec.toNat_and _ _).trans (and_mask_eq_ushiftRight (j := 4) v (by decide))

theorem version6_direct (v : BitVec 32) : Inet.IP6.version.get v = (v >>> 28).toNat :=
  (BitVec.toNat_and _ _).trans (and_mask_eq_ushiftRight (j := 4) v (by decide))

/-- What is read directly for a name is what `get_field_val` has for it. -/
theorem directValue_right {name : String} {id : FieldId} (he : (name, id) ∈ knownFields)
    (layer : LayerFields) (below : String → Cell) {value : Cell}
    (h : directValue id name layer = some value) : layer.getFieldVal below name = value := by
  have hversion (h : IPHeader) (src dst) :
      (LayerFields.ip h src dst).getFieldVal below "ip.version" =
        .int (BitVec.ofNat 8 h.versionIphl >>> 4).toNat := congrArg Cell.int (version_direct _)
  have hversion6 (h : IP6Header) (src dst) :
      (LayerFields.ip6 h src dst).getFieldVal below "ipv6.version" =
        .int (BitVec.ofNat 32 h.vTcFlow >>> 28).toNat := congrArg Cell.int (version6_direct _)
  cases layer
  all_goals
    simp only [directValue] at h
    try split at h
  all_goals cases h
  all_goals
    simp [knownFields] at he
    subst he
    first
      | rw [hversion]
      | rw [hversion6]
      | rfl

theorem directFrameValue_right {name : String} {id : FieldId} (he : (name, id) ∈ knownFields)
    (f : Frame) {value : Cell} (h : directFrameValue id f = some value) :
    f.getFieldVal name = value := by
  unfold directFrameValue at h
  split at h
  all_goals cases h
  all_goals
    simp [knownFields] at he
    subst he
    rfl

theorem FieldDescriptor.known (d : FieldDescriptor) :
    d.fieldId = .dynamic ∨ (d.fieldName, d.fieldId) ∈ knownFields := by
  unfold FieldDescriptor.fieldId
  cases hlookup : knownFields.lookup d.fieldName with
  | none => exact Or.inl rfl
  | some id =>
    obtain ⟨before, after, heq, -⟩ := List.lookup_eq_some_iff.mp hlookup
    have hmem : (d.fieldName, id) ∈ before ++ (d.fieldName, id) :: after :=
      List.mem_append_right _ (List.mem_cons_self ..)
    exact Or.inr (heq ▸ hmem)

theorem fieldVal_eq (p : PKT LayerFields) :
    ∃ below, ∀ field, fieldVal p field = p.info.getFieldVal below field := by
  cases p with
  | last layer => exact ⟨fun _ => .ok none, fun _ => rfl⟩
  | above layer payload => exact ⟨fieldVal payload, fun _ => rfl⟩

theorem descriptorValue_eq (d : FieldDescriptor) (layer : LayerObject) :
    descriptorValue d layer = layer.getFieldVal d.fieldName := by
  cases layer with
  | frame f =>
    cases hdirect : directFrameValue d.fieldId f with
    | none => simp only [descriptorValue, hdirect, Option.getD_none]
    | some value =>
      have hknown : (d.fieldName, d.fieldId) ∈ knownFields := by
        refine d.known.resolve_left fun hdynamic => ?_
        rw [hdynamic] at hdirect
        cases hdirect
      have hright := directFrameValue_right hknown f hdirect
      simp only [descriptorValue, hdirect, Option.getD_some]
      exact hright.symm
  | pkt p =>
    cases hdirect : directValue d.fieldId d.fieldName p.info with
    | none => simp only [descriptorValue, hdirect, Option.getD_none]
    | some value =>
      have hknown : (d.fieldName, d.fieldId) ∈ knownFields := by
        refine d.known.resolve_left fun hdynamic => ?_
        rw [hdynamic] at hdirect
        revert hdirect
        cases p.info <;> exact fun h => nomatch h
      obtain ⟨below, hbelow⟩ := fieldVal_eq p
      have hright := directValue_right hknown p.info below hdirect
      simp only [descriptorValue, hdirect, Option.getD_some]
      exact hright.symm.trans (hbelow d.fieldName).symm

end Packets.Query
