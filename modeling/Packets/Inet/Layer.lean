/-
Packets as layers, and their bytes (`core/inetpkt.pyx`).

A layer that keeps a range of its frame is given that range.  The message of an ICMP packet is
its bytes, or a word and the packet it quotes.
-/
import Packets.Lib.BigEndian
import Packets.Rib.Prefix

namespace Packets.Inet

/-- `tag` is the 802.1Q tag, which is written when the frame has one. -/
structure EthernetHeader where
  dstMac : Bytes
  srcMac : Bytes
  tag : Option Nat
  type : Nat
deriving DecidableEq

structure GREHeader where
  flags : Nat
  proto : Nat
  checksum : Nat
  reserved1 : Nat
  key : Nat
  sequence : Nat
  ack : Nat
deriving DecidableEq

structure IPHeader where
  versionIphl : Nat
  tos : Nat
  totalLen : Nat
  ident : Nat
  flagsOffset : Nat
  ttl : Nat
  proto : Nat
  checksum : Nat
  src : Bytes
  dst : Bytes
  options : Bytes
deriving DecidableEq

structure IP6Header where
  vTcFlow : Nat
  payloadLen : Nat
  nh : Nat
  hopLimit : Nat
  src : Bytes
  dst : Bytes
  extHdrs : Bytes
  upperProto : Nat
  extHdrsTruncated : Bool
deriving DecidableEq

/-- `wsLen` is the length that was there to parse. -/
structure TCPHeader where
  sport : Nat
  dport : Nat
  sequence : Nat
  acknowledgment : Nat
  offFlags : Nat
  window : Nat
  checksum : Nat
  urgPtr : Nat
  options : Bytes
  pad : Bytes
  wsLen : Nat
deriving DecidableEq

structure UDPHeader where
  sport : Nat
  dport : Nat
  ulen : Nat
  checksum : Nat
deriving DecidableEq

structure OSPFv2Packet where
  version : Nat
  type : Nat
  length : Nat
  srcRouter : Bytes
  areaId : Bytes
  checksum : Nat
  authType : Nat
  auth : Bytes
  body : Bytes
  raw : Option Bytes
deriving DecidableEq

structure OSPFv3Packet where
  version : Nat
  type : Nat
  length : Nat
  srcRouter : Bytes
  areaId : Bytes
  checksum : Nat
  instanceId : Nat
  body : Bytes
  raw : Option Bytes
deriving DecidableEq

structure ICMPHeader where
  type : Nat
  code : Nat
  checksum : Nat
deriving DecidableEq

/-- `pkt` is the bare `PKT()`, and `null` a `NullPkt`.  A malformed GRE keeps what it was
parsed from. -/
inductive Layer where
  | pkt
  | null (bytes : Bytes)
  | ethernet (header : EthernetHeader) (payload : Layer)
  | mpls (data : Nat) (payload : Layer)
  | gre (header : GREHeader) (malformed : Option Bytes) (payload : Layer)
  | ip (header : IPHeader) (payload : Layer) (trailer : Bytes)
  | ip6 (header : IP6Header) (payload : Layer) (trailer : Bytes)
  | udp (header : UDPHeader) (payload : Layer) (trailer : Bytes)
  | tcp (header : TCPHeader) (payload : Layer)
  | icmp (header : ICMPHeader) (message : Bytes)
  | icmpError (header : ICMPHeader) (word : Bytes) (hdrPkt : Layer)
  | icmpUnknown (raw : Bytes)
  | icmp6 (header : ICMPHeader) (message : Bytes)
  | icmp6Error (header : ICMPHeader) (word : Bytes) (hdrPkt : Layer)
  | ospf (packet : OSPFv2Packet)
  | ospf3 (packet : OSPFv3Packet)
deriving DecidableEq

def MIN_FRAME_SIZE : Nat := 60
def MPLS_MAX_STACK_DEPTH : Nat := 64
def TCP_MIN_DATA_OFFSET : Nat := 5
def TCP_QUOTE_LEN : Nat := 8
def IPV4_MIN_HDR_LEN : Nat := 5

/-- `cksum_acc`: little-endian words, an odd byte last. -/
def cksumAcc : Bytes → Nat → Nat
  | a :: b :: rest, s => cksumAcc rest (s + (a.toNat + b.toNat * 256))
  | [a], s => s + a.toNat
  | [], s => s

/-- `cksum_fin`, on a 32-bit sum. -/
def cksumFin (s : Nat) : Nat :=
  let s := s % 4294967296
  let s := s / 65536 + s % 65536
  let s := s + s / 65536
  let s := 65535 - s % 65536
  s / 256 + s % 256 * 256

structure Ip4Ph where
  src : Bytes
  dst : Bytes
  proto : Nat
deriving DecidableEq

structure Ip6Ph where
  src : Bytes
  dst : Bytes
  nh : Nat
deriving DecidableEq

/-- `ph_addr` -/
def phAddr (address : Bytes) (k : Nat) : Bytes :=
  address.take k ++ List.replicate (k - address.length) 0

/-- The bytes of a pseudo header.  The protocol is packed as a short. -/
def Ip4Ph.bytes (ph : Ip4Ph) (length : Nat) : Bytes :=
  phAddr ph.src 4 ++ phAddr ph.dst 4 ++ BigEndian.ofNat 2 ph.proto ++ BigEndian.ofNat 2 length

def Ip6Ph.bytes (ph : Ip6Ph) (length : Nat) : Bytes :=
  phAddr ph.src 16 ++ phAddr ph.dst 16 ++ [0, 0] ++ BigEndian.ofNat 2 length ++ [0, 0, 0] ++
    BigEndian.ofNat 1 ph.nh

/-- `_ZERO_IP4PH` -/
def zeroIp4Ph : Ip4Ph := ⟨[0, 0, 0, 0], [0, 0, 0, 0], 0⟩

/-- The keyword arguments of `pkt2net` as they are handed down. -/
structure Keywords where
  update : Bool := false
  csum : Bool := false
  forIcmp : Bool := false
  ipv4Pheader : Option Ip4Ph := none
  ipv6Pheader : Option Ip6Ph := none
deriving DecidableEq

/-- The pseudo header a layer 4 checksum is taken with. -/
def Keywords.pheader (k : Keywords) (length : Nat) : Bytes :=
  match k.ipv6Pheader with
  | some ph => ph.bytes length
  | none => (k.ipv4Pheader.getD zeroIp4Ph).bytes length

namespace Layer

/-- The EtherType an Ethernet frame settles for its payload. -/
def etherType (type : Nat) : Layer → Nat
  | ip6 _ _ _ => 0x86dd
  | ip _ _ _ => 0x0800
  | mpls _ _ => if type = 0x8847 ∨ type = 0x8848 then type else 0x8847
  | _ => type

/-- The protocol type a GRE header settles for its payload. -/
def greProto (proto : Nat) : Layer → Nat
  | ip _ _ _ => 0x0800
  | ip6 _ _ _ => 0x86dd
  | mpls _ _ => if proto = 0x8847 ∨ proto = 0x8848 then proto else 0x8847
  | ethernet _ _ => 0x6558
  | _ => proto

end Layer

def EthernetHeader.bytes (h : EthernetHeader) (type : Nat) : Bytes :=
  h.dstMac ++ h.srcMac ++
    (h.tag.elim [] fun tci => BigEndian.ofNat 2 0x8100 ++ BigEndian.ofNat 2 tci) ++
    BigEndian.ofNat 2 type

namespace GREHeader

def flagC (h : GREHeader) : Bool := h.flags / 32768 % 2 = 1
def flagK (h : GREHeader) : Bool := h.flags / 8192 % 2 = 1
def flagS (h : GREHeader) : Bool := h.flags / 4096 % 2 = 1

/-- An acknowledgment number is enhanced GRE's. -/
def flagA (h : GREHeader) : Bool := h.flags % 8 = 1 && h.flags / 128 % 2 = 1

def bytes (h : GREHeader) (proto checksum : Nat) : Bytes :=
  BigEndian.ofNat 2 h.flags ++ BigEndian.ofNat 2 proto ++
    (if h.flagC then BigEndian.ofNat 2 checksum ++ BigEndian.ofNat 2 h.reserved1 else []) ++
    (if h.flagK then BigEndian.ofNat 4 h.key else []) ++
    (if h.flagS then BigEndian.ofNat 4 h.sequence else []) ++
    (if h.flagA then BigEndian.ofNat 4 h.ack else [])

end GREHeader

def IPHeader.bytes (h : IPHeader) (versionIphl totalLen checksum : Nat) : Bytes :=
  BigEndian.ofNat 1 versionIphl ++ BigEndian.ofNat 1 h.tos ++ BigEndian.ofNat 2 totalLen ++
    BigEndian.ofNat 2 h.ident ++ BigEndian.ofNat 2 h.flagsOffset ++ BigEndian.ofNat 1 h.ttl ++
    BigEndian.ofNat 1 h.proto ++ BigEndian.ofNat 2 checksum ++ h.src ++ h.dst ++ h.options

def IP6Header.bytes (h : IP6Header) (payloadLen : Nat) : Bytes :=
  BigEndian.ofNat 4 h.vTcFlow ++ BigEndian.ofNat 2 payloadLen ++ BigEndian.ofNat 1 h.nh ++
    BigEndian.ofNat 1 h.hopLimit ++ h.src ++ h.dst ++ h.extHdrs

def TCPHeader.bytes (h : TCPHeader) (checksum : Nat) : Bytes :=
  BigEndian.ofNat 2 h.sport ++ BigEndian.ofNat 2 h.dport ++ BigEndian.ofNat 4 h.sequence ++
    BigEndian.ofNat 4 h.acknowledgment ++ BigEndian.ofNat 2 h.offFlags ++
    BigEndian.ofNat 2 h.window ++ BigEndian.ofNat 2 checksum ++ BigEndian.ofNat 2 h.urgPtr ++
    h.options ++ h.pad

def UDPHeader.bytes (h : UDPHeader) (ulen checksum : Nat) : Bytes :=
  BigEndian.ofNat 2 h.sport ++ BigEndian.ofNat 2 h.dport ++ BigEndian.ofNat 2 ulen ++
    BigEndian.ofNat 2 checksum

def ICMPHeader.bytes (h : ICMPHeader) (checksum : Nat) : Bytes :=
  BigEndian.ofNat 1 h.type ++ BigEndian.ofNat 1 h.code ++ BigEndian.ofNat 2 checksum

/-- Bytes of exactly a length, as `w_take_into` writes them. -/
def takeInto (s : Bytes) (k : Nat) : Bytes := s.take k ++ List.replicate (k - s.length) 0

/-- `OSPFv2._write` -/
def OSPFv2Packet.write (k : Keywords) (p : OSPFv2Packet) : Bytes :=
  match k.update, p.raw with
  | false, some raw => raw
  | _, _ =>
    let content (checksum : Nat) (auth : Bytes) : Bytes :=
      BigEndian.ofNat 1 p.version ++ BigEndian.ofNat 1 p.type ++
        BigEndian.ofNat 2 (24 + p.body.length) ++ p.srcRouter ++ p.areaId ++
        BigEndian.ofNat 2 checksum ++ BigEndian.ofNat 2 p.authType ++ auth ++ p.body
    if k.update ∧ p.authType ≠ 2 then
      content (cksumFin (cksumAcc (content 0 (List.replicate 8 0)) 0)) (takeInto p.auth 8)
    else content p.checksum (takeInto p.auth 8)

/-- `OSPFv3._write` -/
def OSPFv3Packet.write (k : Keywords) (p : OSPFv3Packet) : Bytes :=
  match k.update, p.raw with
  | false, some raw => raw
  | _, _ =>
    let content (checksum : Nat) : Bytes :=
      BigEndian.ofNat 1 p.version ++ BigEndian.ofNat 1 p.type ++
        BigEndian.ofNat 2 (16 + p.body.length) ++ p.srcRouter ++ p.areaId ++
        BigEndian.ofNat 2 checksum ++ BigEndian.ofNat 1 p.instanceId ++ [0] ++ p.body
    if k.update then content (cksumFin (cksumAcc (content 0) 0)) else content p.checksum

namespace Layer

/-- `_write` of each class. -/
def write (k : Keywords) : Layer → Bytes
  | pkt => []
  | null bytes => bytes
  | ethernet h payload =>
    let frame := h.bytes (payload.etherType h.type) ++ payload.write k
    frame ++ List.replicate (MIN_FRAME_SIZE - frame.length) 0
  | mpls data payload => BigEndian.ofNat 4 data ++ payload.write k
  | gre h malformed payload =>
    match malformed with
    | some raw => raw
    | none =>
      let body := payload.write k
      let header (checksum : Nat) := h.bytes (payload.greProto h.proto) checksum
      if k.csum ∧ h.flagC then
        header (cksumFin (cksumAcc (header 0 ++ body) 0)) ++ body
      else header h.checksum ++ body
  | ip h payload trailer =>
    let own := some ⟨h.src, h.dst, h.proto⟩
    let csum := k.csum && !k.forIcmp
    let update := k.update && !k.forIcmp
    let body :=
      if k.forIcmp then payload.write {}
      else payload.write { k with ipv4Pheader := k.ipv4Pheader <|> own }
    let hdrBytes := 20 + h.options.length
    let versionIphl :=
      if update ∧ hdrBytes ≤ 60 ∧ hdrBytes % 4 = 0 then
        h.versionIphl / 16 * 16 + hdrBytes / 4
      else h.versionIphl
    let totalLen := if update then (hdrBytes + body.length) % 65536 else h.totalLen
    let header := h.bytes versionIphl totalLen
    let checksum := if csum then cksumFin (cksumAcc (header 0) 0) else h.checksum
    header checksum ++ body ++ trailer
  | ip6 h payload trailer =>
    let own := some ⟨h.src, h.dst, h.upperProto⟩
    let update := k.update && !k.forIcmp
    let body :=
      if k.forIcmp then payload.write {}
      else payload.write { k with ipv6Pheader := k.ipv6Pheader <|> own }
    let payloadLen := if update then (h.extHdrs.length + body.length) % 65536 else h.payloadLen
    h.bytes payloadLen ++ body ++ trailer
  | udp h payload trailer =>
    let body := payload.write k
    let ulen := if k.update then (8 + body.length) % 65536 else h.ulen
    let computed := cksumFin (cksumAcc (h.bytes ulen 0 ++ body) (cksumAcc (k.pheader ulen) 0))
    let checksum := if k.csum then (if computed = 0 then 65535 else computed) else h.checksum
    h.bytes ulen checksum ++ body ++ trailer
  | tcp h payload =>
    let body := payload.write k
    let length := ((h.bytes 0).length + body.length) % 65536
    let computed := cksumFin (cksumAcc (h.bytes 0 ++ body) (cksumAcc (k.pheader length) 0))
    h.bytes (if k.csum then computed else h.checksum) ++ body
  | icmp h message =>
    let computed := cksumFin (cksumAcc (h.bytes 0 ++ message) 0)
    h.bytes (if k.csum then computed else h.checksum) ++ message
  | icmpError h word hdrPkt =>
    let message := word ++ hdrPkt.write { k with forIcmp := true }
    let computed := cksumFin (cksumAcc (h.bytes 0 ++ message) 0)
    h.bytes (if k.csum then computed else h.checksum) ++ message
  | icmpUnknown raw => raw
  | icmp6 h message =>
    let length := (4 + message.length) % 65536
    match k.csum, k.ipv6Pheader with
    | true, some ph =>
      h.bytes (cksumFin (cksumAcc (h.bytes 0 ++ message) (cksumAcc (ph.bytes length) 0))) ++ message
    | _, _ => h.bytes h.checksum ++ message
  | icmp6Error h word hdrPkt =>
    let message := word ++ hdrPkt.write { k with forIcmp := true }
    let length := (4 + message.length) % 65536
    match k.csum, k.ipv6Pheader with
    | true, some ph =>
      h.bytes (cksumFin (cksumAcc (h.bytes 0 ++ message) (cksumAcc (ph.bytes length) 0))) ++ message
    | _, _ => h.bytes h.checksum ++ message
  | ospf p => p.write k
  | ospf3 p => p.write k

/-- `pkt2net` with the keywords a caller gives. -/
def pkt2net (update csum : Bool) (l : Layer) : Bytes := l.write { update := update, csum := csum }

end Layer

end Packets.Inet
