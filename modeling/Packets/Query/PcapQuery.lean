/-
The packet a query reads from a frame (`Ethernet` in `core/inetpkt.pyx`), and `PcapQuery`
(`query/pcap_query.pyx`): its fields, the row of a packet, and reading a capture row by row.
No stop event is set.
-/
import Packets.Inet.FastPath
import Packets.Query.Fields
import Packets.Lib.Dict
import Mathlib.Algebra.Order.Ring.Rat

namespace Packets.Query

open Packets.Inet
open BigEndian (readInt takeBytes)

/-- What the parsing is left to: the layer 7 classes and what `pkt2net({})` makes of them, the
values of GRE and OSPF, the packets of another protocol. -/
structure Parsing where
  l7 : Nat → Nat → Bytes → Option (PKT LayerFields × Bytes)
  values : Layer → String → Option Value
  outside : Bytes → Except Raised (PKT LayerFields)

/-- No layer 7 class, and nothing but what the decoders follow. -/
def plainParsing : Parsing := ⟨fun _ _ _ => none, fun _ _ => none, fun _ => .error .valueError⟩

def ethernetLayer (h : EthernetHeader) : Option LayerFields :=
  if hlen : h.dstMac.length = 6 ∧ h.srcMac.length = 6 then some (.ethernet h hlen.1 hlen.2)
  else none

def ipLayer (h : IPHeader) : Option LayerFields :=
  if hlen : h.src.length = 4 ∧ h.dst.length = 4 then some (.ip h hlen.1 hlen.2) else none

def ip6Layer (h : IP6Header) : Option LayerFields :=
  if hlen : h.src.length = 16 ∧ h.dst.length = 16 then some (.ip6 h hlen.1 hlen.2) else none

/-- `PKT()` and `NullPkt()` -/
def barePkt : PKT LayerFields := .last (.plain "PKT" 0 fun _ => none)
def nullPkt : PKT LayerFields := .last (.plain "NullPkt" 0xffff fun _ => none)

/-- A layer 4 packet over its payload. -/
def overPayload (parsing : Parsing) (layer : L7Payload → LayerFields) (sport dport : Nat)
    (payload : Bytes) : PKT LayerFields :=
  match parsing.l7 sport dport payload with
  | some (below, net) => .above (layer (.decoded net)) below
  | none => .above (layer (.range payload 0 payload.length (Nat.le_of_eq (Nat.zero_add _)))) nullPkt

/-- The layers of a decoded packet.  `none` is a packet the decoders do not make. -/
def layers (parsing : Parsing) : Layer → Option (PKT LayerFields)
  | .pkt => some barePkt
  | .null _ => some nullPkt
  | .ethernet h payload => do
    let layer ← ethernetLayer h
    let below ← layers parsing payload
    pure (.above layer below)
  | .mpls data payload => do
    let below ← layers parsing payload
    pure (.above (.mpls data) below)
  | .gre h malformed payload => do
    let below ← layers parsing payload
    pure (.above (.plain "GRE" 47 (parsing.values (.gre h malformed payload))) below)
  | .ip h payload _ => do
    let layer ← ipLayer h
    let below ← layers parsing payload
    pure (.above layer below)
  | .ip6 h payload _ => do
    let layer ← ip6Layer h
    let below ← layers parsing payload
    pure (.above layer below)
  | .udp h (.null payload) _ => some (overPayload parsing (.udp h) h.sport h.dport payload)
  | .tcp h (.null payload) => some (overPayload parsing (.tcp h) h.sport h.dport payload)
  | .ospf packet => some (.last (.plain "OSPFv2" 89 (parsing.values (.ospf packet))))
  | .ospf3 packet => some (.last (.plain "OSPFv3" 2008 (parsing.values (.ospf3 packet))))
  | _ => none

/-- `_decode_arp` -/
def decodeArp (s : Bytes) : Option ARPHeader := do
  let (hardwareType, rest) ← readInt 2 s
  let (protoType, rest) ← readInt 2 rest
  let (hardwareLen, rest) ← readInt 1 rest
  let (protoLen, rest) ← readInt 1 rest
  let (operation, rest) ← readInt 2 rest
  let (senderHwAddr, rest) ← takeBytes hardwareLen rest
  let (senderProtoAddr, rest) ← takeBytes protoLen rest
  let (targetHwAddr, rest) ← takeBytes hardwareLen rest
  let (targetProtoAddr, _) ← takeBytes protoLen rest
  let text := if hardwareType = 1 ∧ protoType = 0x0800 ∧ hardwareLen = 6 ∧ protoLen = 4
    then Value.ip4 else Value.hex
  pure ⟨hardwareType, protoType, hardwareLen, protoLen, operation, senderHwAddr,
    text senderProtoAddr, targetHwAddr, text targetProtoAddr⟩

/-- The header of `_decode_ethernet`, and what follows it. -/
def readEthernet (s : Bytes) : Option (EthernetHeader × Bytes) := do
  let (dstMac, rest) ← takeBytes 6 s
  let (srcMac, rest) ← takeBytes 6 rest
  let (type, rest) ← readInt 2 rest
  if type = 0x8100 then
    let (tci, rest) ← readInt 2 rest
    let (type, rest) ← readInt 2 rest
    pure (⟨dstMac, srcMac, some tci, type⟩, rest)
  else pure (⟨dstMac, srcMac, none, type⟩, rest)

/-- An ARP packet in its frame. -/
def arpPacket (h : EthernetHeader) (s : Bytes) : Option (PKT LayerFields) := do
  let layer ← ethernetLayer h
  let arp ← decodeArp s
  pure (.above layer (.last (.arp arp)))

/-- `Ethernet(pkt)` -/
def ethernetPacket (parsing : Parsing) (s : Bytes) : Except Raised (PKT LayerFields) :=
  match readEthernet s with
  | none => .error .valueError
  | some (h, rest) =>
    if h.type = 0x0806 then (arpPacket h rest).elim (.error .valueError) .ok
    else
      match ethernet s with
      | .ok l => (layers parsing l).elim (parsing.outside s) .ok
      | .error .valueError => .error .valueError
      | .error _ => parsing.outside s

/-- What `query_info` of a class gives. -/
structure PacketClass where
  ptype : Nat
  pfields : List String
deriving DecidableEq

namespace PacketClass

def frame : PacketClass := ⟨PQ_FRAME, ["frame.time_epoch", "frame.len", "frame.caplen"]⟩

def ethernet : PacketClass :=
  ⟨PQ_ETH, ["eth.type", "eth.src", "eth.dst", "vlan.cfi", "vlan.id", "vlan.priority",
    "eth.vlan.tpid"]⟩

def ip : PacketClass :=
  ⟨PQ_IP, ["ip.version", "ip.hdr_len", "ip.tos", "ip.len", "ip.id", "ip.flags", "ip.flags.df",
    "ip.flags.mf", "ip.frag_offset", "ip.ttl", "ip.proto", "ip.src", "ip.dst", "ip.checksum"]⟩

def ip6 : PacketClass :=
  ⟨PQ_IP6, ["ipv6.version", "ipv6.tclass", "ipv6.flow", "ipv6.plen", "ipv6.nxt", "ipv6.hlim",
    "ipv6.src", "ipv6.dst"]⟩

def icmp : PacketClass :=
  ⟨PQ_ICMP, ["icmp.checksum", "icmp.code", "icmp.seq", "icmp.mtu", "icmp.ident",
    "icmp.originate_timestamp", "icmp.pointer", "icmp.receive_timestamp", "icmp.redir_gw",
    "icmp.transmit_timestamp", "icmp.type"]⟩

def icmp6 : PacketClass :=
  ⟨PQ_ICMPV6, ["icmpv6.type", "icmpv6.code", "icmpv6.checksum", "icmpv6.echo.identifier",
    "icmpv6.echo.sequence_number", "icmpv6.mtu", "icmpv6.pointer", "icmpv6.nd.ra.cur_hop_limit",
    "icmpv6.nd.ra.flag.m", "icmpv6.nd.ra.flag.o", "icmpv6.nd.ra.router_lifetime",
    "icmpv6.nd.ra.reachable_time", "icmpv6.nd.ra.retrans_timer",
    "icmpv6.nd.ns.target_address", "icmpv6.nd.na.target_address", "icmpv6.nd.na.flag.r",
    "icmpv6.nd.na.flag.s", "icmpv6.nd.na.flag.o", "icmpv6.nd.rd.target_address",
    "icmpv6.rd.na.destination_address", "icmpv6.mld.maximum_response_delay",
    "icmpv6.mld.multicast_address", "icmpv6.mld.flag.s", "icmpv6.mld.flag.qrv",
    "icmpv6.mld.qqi", "icmpv6.mld.nb_sources", "icmpv6.mld.source_address",
    "icmpv6.mldr.nb_mcast_records"]⟩

def igmp : PacketClass :=
  ⟨PQ_IGMP, ["igmp.version", "igmp.type", "igmp.saddr", "igmp.s", "igmp.qrv", "igmp.num_src",
    "igmp.num_grp_recs", "igmp.max_resp", "igmp.maddr", "igmp.checksum", "igmp.obj.saddr",
    "igmp.obj.grecs"]⟩

def tcp : PacketClass :=
  ⟨PQ_TCP, ["tcp.srcport", "tcp.dstport", "tcp.seq", "tcp.ack", "tcp.hdr_len", "tcp.len",
    "tcp.flags", "tcp.flags.urg", "tcp.flags.ack", "tcp.flags.push", "tcp.flags.reset",
    "tcp.flags.syn", "tcp.flags.fin", "tcp.window_size_value", "tcp.checksum",
    "tcp.urgent_pointer", "tcp.payload", "tcp.payload.offset[x:y]"]⟩

def udp : PacketClass :=
  ⟨PQ_UDP, ["udp.srcport", "udp.dstport", "udp.length", "udp.checksum", "udp.payload",
    "udp.payload.offset[x:y]"]⟩

def arp : PacketClass :=
  ⟨PQ_ARP, ["arp.hw.type", "arp.proto.type", "arp.hw.size", "arp.proto.size", "arp.opcode",
    "arp.src.hw_mac", "arp.src.proto_ipv4", "arp.dst.hw_mac", "arp.dst.proto_ipv4"]⟩

def mpls : PacketClass := ⟨PQ_MPLS, ["mpls.label", "mpls.exp", "mpls.bottom", "mpls.ttl"]⟩

end PacketClass

def defaultClasses : List PacketClass :=
  [.frame, .ethernet, .ip, .ip6, .icmp, .icmp6, .igmp, .tcp, .udp, .arp, .mpls]

abbrev FieldTable := Dict String Nat

/-- One class registers its fields.  A name that is there is the class's from now on. -/
def registerClass (fields : FieldTable) (c : PacketClass) : FieldTable :=
  c.pfields.foldl (fun fields pfield => fields.set pfield c.ptype) fields

/-- `self.fields` with the classes a caller adds. -/
def registered (added : List PacketClass) : FieldTable :=
  (defaultClasses ++ added).foldl registerClass Dict.empty

def PLOAD_FIELDS : List String := ["tcp.payload.offset", "udp.payload.offset"]

/-- A name starts as a payload offset field does. -/
def isPload (name : String) : Bool := PLOAD_FIELDS.any fun f => shortName name == f.toList

/-- `field_key` -/
def fieldKey (name : String) : String :=
  if isPload name then String.ofList (shortName name) ++ "[x:y]" else name

/-- `offset_re`, with the two groups of digits.  The end may have a line break before it. -/
def offsetRe (name : String) : Option (List Char × List Char) :=
  if isPload name then
    match name.toList.drop PLOAD_F_LEN with
    | '[' :: rest =>
      let first := rest.takeWhile DecimalText.isDigit
      match rest.dropWhile DecimalText.isDigit with
      | ':' :: rest =>
        let last := rest.takeWhile DecimalText.isDigit
        match rest.dropWhile DecimalText.isDigit with
        | [']'] | [']', '\n'] => some (first, last)
        | _ => none
      | _ => none
    | _ => none
  else none

/-- `int()` of a group of digits. -/
def groupInt (digits : List Char) : Except Raised Int :=
  (DecimalText.int digits).elim (.error .valueError) .ok

/-- What `fields_supported` finds of one name. -/
def fieldFound (fields : FieldTable) (name : String) : Except Raised Bool :=
  if !fields.contains name && isPload name then
    match offsetRe name with
    | some (first, last) => do
      let first ← groupInt first
      let last ← groupInt last
      pure (first < last)
    | none => pure false
  else pure (fields.contains name)

/-- `fields_supported` -/
def fieldsSupported (fields : FieldTable) (names : List String) : Except Raised Bool := do
  let found ← names.mapM (fieldFound fields)
  pure (found.all id)

structure PcapQuery where
  fields : FieldTable
  layerOrder : List Nat
  fieldDescriptors : List FieldDescriptor
  wsharkFields : List String

/-- One wanted field: its class's place in the layer order, where it may be the first one. -/
def describe (fields : FieldTable) (order : List Nat) (pfield : String) :
    Except Raised (List Nat × FieldDescriptor) :=
  match fields.get? (fieldKey pfield) with
  | none => .error .keyError
  | some ptype =>
    let order := if ptype ∈ order then order else order ++ [ptype]
    .ok (order, ⟨order.idxOf ptype, pfield⟩)

def describeAll (fields : FieldTable) :
    List Nat → List String → Except Raised (List Nat × List FieldDescriptor)
  | order, [] => .ok (order, [])
  | order, pfield :: rest => do
    let (order, d) ← describe fields order pfield
    let (order, ds) ← describeAll fields order rest
    pure (order, d :: ds)

/-- `PcapQuery(pkt_classes=..., wshark_fields=...)` -/
def PcapQuery.build (added : List PacketClass) (wsharkFields : List String) :
    Except Raised PcapQuery := do
  let fields := registered added
  if ← fieldsSupported fields wsharkFields then
    let (order, descriptors) ← describeAll fields [] wsharkFields
    pure ⟨fields, order, descriptors, wsharkFields⟩
  else .error .valueError

namespace PcapQuery

def skipDecode (q : PcapQuery) : Bool := q.layerOrder.isEmpty || q.layerOrder == [PQ_FRAME]

/-- The layer of a packet for an entry of the layer order. -/
def layerOf (frame : Frame) (spkt : PKT LayerFields) (pqType : Nat) : LayerObject :=
  if pqType = PQ_FRAME then .frame frame
  else .pkt ((spkt.getLayerByType pqType).getD nullPkt)

/-- `_extract_row`, which has one layer for each type. -/
def extractRow (q : PcapQuery) (layers : List LayerObject) : Except Raised (List (Option Value)) :=
  q.fieldDescriptors.mapM fun d => descriptorValue d (layers.getD d.layerIndex (.pkt nullPkt))

end PcapQuery

/-- A record of a capture file. -/
structure Captured where
  frame : Frame
  bytes : Bytes

/-- `Ethernet(pkt)` with the layer 7 classes and the decode context, whose state is `σ`.
Fourteen bytes have to be there. -/
structure FrameParser (σ : Type) where
  parse : σ → Bytes → Except Raised (PKT LayerFields × σ)
  short : ∀ (s : σ) (b : Bytes), b.length < 14 → ∃ e, parse s b = .error e

theorem readEthernet_short {s : Bytes} (h : s.length < 14) : readEthernet s = none := by
  have hread : ∀ r, readEthernet s = some r → 14 ≤ s.length := by
    intro r hr
    simp only [readEthernet, BigEndian.takeBytes, BigEndian.readInt, Option.bind_eq_bind,
      Option.bind_eq_some_iff] at hr
    obtain ⟨⟨dst, rest₁⟩, hdst, ⟨src, rest₂⟩, hsrc, ⟨type, rest₃⟩, htype, -⟩ := hr
    split at hdst <;> split at hsrc <;> split at htype <;> cases hdst <;> cases hsrc <;>
      cases htype
    simp only [List.length_drop] at *
    omega
  cases hr : readEthernet s with
  | none => rfl
  | some r => exact absurd (hread r hr) (by omega)

/-- A parser that keeps nothing between frames. -/
def Parsing.parser (parsing : Parsing) : FrameParser Unit where
  parse _ s := (ethernetPacket parsing s).map fun p => (p, ())
  short := by
    intro _ s hs
    rw [ethernetPacket, readEthernet_short hs]
    exact ⟨.valueError, rfl⟩

/-- The reader of a file: what it has not read yet, and the decode context. -/
structure Reader (σ : Type) where
  rest : List Captured
  context : σ

namespace PcapQuery

variable {σ : Type}

/-- `_layers` -/
def layers (q : PcapQuery) (parser : FrameParser σ) (s : σ) (c : Captured) :
    Except Raised (List LayerObject × σ) :=
  if q.skipDecode then do
    -- a short frame is parsed for the error
    if c.bytes.length < 14 then let _ ← parser.parse s c.bytes
    pure (q.layerOrder.map fun _ => .frame c.frame, s)
  else do
    let (spkt, s) ← parser.parse s c.bytes
    pure (q.layerOrder.map (layerOf c.frame spkt), s)

/-- One row of a packet. -/
def rowOf (q : PcapQuery) (parser : FrameParser σ) (s : σ) (c : Captured) :
    Except Raised (List (Option Value) × σ) := do
  let (layers, s) ← q.layers parser s c
  let row ← q.extractRow layers
  pure (row, s)

/-- `__next__`.  `none` is the end of the iteration. -/
def next (q : PcapQuery) (parser : FrameParser σ) :
    Reader σ → Except Raised (Option (List (Option Value)) × Reader σ)
  | ⟨[], s⟩ => .ok (none, ⟨[], s⟩)
  | ⟨c :: rest, s⟩ =>
    if c.bytes.isEmpty then .ok (none, ⟨rest, s⟩)
    else do
      let (row, s) ← q.rowOf parser s c
      pure (some row, ⟨rest, s⟩)

/-- `for row in query`, with as many turns as there are records and one. -/
def iterate (q : PcapQuery) (parser : FrameParser σ) :
    Nat → Reader σ → Except Raised (List (List (Option Value)))
  | 0, _ => .ok []
  | turns + 1, reader => do
    match ← q.next parser reader with
    | (none, _) => pure []
    | (some row, reader) => do
      let rows ← iterate q parser turns reader
      pure (row :: rows)

/-- The keyword arguments of `query`. -/
structure QueryArgs where
  starttime : ℚ := 0
  endtime : ℚ := 0
  numPackets : Int := 0

/-- The loop of `query`. -/
def queryLoop (q : PcapQuery) (parser : FrameParser σ) (args : QueryArgs) :
    List Captured → σ → Nat → List (List (Option Value)) →
      Except Raised (List (List (Option Value)) × Reader σ)
  | [], s, _, data => .ok (data, ⟨[], s⟩)
  | c :: rest, s, pkts, data =>
    if c.bytes.isEmpty then .ok (data, ⟨rest, s⟩)
    else if args.starttime ≠ 0 ∧ c.frame.ts < args.starttime then
      queryLoop q parser args rest s pkts data
    else if args.endtime ≠ 0 ∧ c.frame.ts > args.endtime then .ok (data, ⟨rest, s⟩)
    else if args.numPackets ≠ 0 ∧ (pkts : Int) ≥ args.numPackets then .ok (data, ⟨rest, s⟩)
    else do
      let (row, s) ← q.rowOf parser s c
      -- a row without a value is not counted
      if row.count none ≠ q.fieldDescriptors.length then
        queryLoop q parser args rest s (pkts + 1) (data ++ [row])
      else queryLoop q parser args rest s pkts data

/-- `query` -/
def query (q : PcapQuery) (parser : FrameParser σ) (args : QueryArgs) (reader : Reader σ) :
    Except Raised (List (List (Option Value)) × Reader σ) :=
  q.queryLoop parser args reader.rest reader.context 0 []

end PcapQuery

end Packets.Query
