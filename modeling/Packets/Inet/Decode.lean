/-
Parsing a frame into layers (`core/inetpkt.pyx`).

A decoder is given the bytes of the range it parses, and no layer 7 classes.  ARP, ICMP,
ICMPv6 and IGMP are outside of this.
-/
import Packets.Inet.Layer

namespace Packets.Inet

open BigEndian (readInt takeBytes)

/-- `valueError` is raised; `outside` is a layer that is not followed, and `fuel` never
happens. -/
inductive Failure where
  | valueError
  | outside
  | fuel
deriving DecidableEq

/-- What a range is decoded as.  A label has a depth in its stack. -/
inductive Protocol where
  | ethernet
  | mpls (depth : Nat)
  | gre
  | ip
  | ip6
deriving DecidableEq

abbrev Decoder := Protocol → Bytes → Except Failure Layer

/-- A read of bytes that have to be there. -/
def need {α : Type} : Option α → Except Failure α
  | none => .error .valueError
  | some a => .ok a

/-- `_decode_udp`.  A length of zero is not stated. -/
def decodeUdp (s : Bytes) : Except Failure Layer := do
  let (sport, rest) ← need (readInt 2 s)
  let (dport, rest) ← need (readInt 2 rest)
  let (ulen, rest) ← need (readInt 2 rest)
  let (checksum, rest) ← need (readInt 2 rest)
  let header : UDPHeader := ⟨sport, dport, ulen, checksum⟩
  if ulen = 0 then pure (.udp header (.null rest) [])
  else if ulen < 8 then .error .valueError
  else pure (.udp header (.null (rest.take (ulen - 8))) (rest.drop (ulen - 8)))

/-- `_decode_tcp`.  Eight bytes are what an ICMP error quotes. -/
def decodeTcp (s : Bytes) : Except Failure Layer := do
  if 20 ≤ s.length then
    let (sport, rest) ← need (readInt 2 s)
    let (dport, rest) ← need (readInt 2 rest)
    let (sequence, rest) ← need (readInt 4 rest)
    let (acknowledgment, rest) ← need (readInt 4 rest)
    let (offFlags, rest) ← need (readInt 2 rest)
    let (window, rest) ← need (readInt 2 rest)
    let (checksum, rest) ← need (readInt 2 rest)
    let (urgPtr, rest) ← need (readInt 2 rest)
    let doff := offFlags / 4096
    if doff < TCP_MIN_DATA_OFFSET then .error .valueError
    else
      let (options, rest) ← need (takeBytes (doff * 4 - 20) rest)
      pure (.tcp ⟨sport, dport, sequence, acknowledgment, offFlags, window, checksum, urgPtr,
        options, [], s.length⟩ (.null rest))
  else if s.length = TCP_QUOTE_LEN then
    let (sport, rest) ← need (readInt 2 s)
    let (dport, rest) ← need (readInt 2 rest)
    let (sequence, _) ← need (readInt 4 rest)
    pure (.tcp ⟨sport, dport, sequence, 0, 5 * 4096, 0, 0, 0, [], [], s.length⟩ (.null []))
  else .error .valueError

/-- `_decode_ospfv2`.  The messages and LSAs of the body are read out of it, and what is
written is the copy. -/
def decodeOspfv2 (s : Bytes) : Layer :=
  let read : Option OSPFv2Packet := do
    let (version, rest) ← readInt 1 s
    let (type, rest) ← readInt 1 rest
    let (length, rest) ← readInt 2 rest
    let (srcRouter, rest) ← takeBytes 4 rest
    let (areaId, rest) ← takeBytes 4 rest
    let (checksum, rest) ← readInt 2 rest
    let (authType, rest) ← readInt 2 rest
    let (auth, rest) ← takeBytes 8 rest
    let body := if 24 ≤ length ∧ length ≤ s.length then rest.take (length - 24) else rest
    pure ⟨version, type, length, srcRouter, areaId, checksum, authType, auth, body, some s⟩
  .ospf (read.getD ⟨0, 0, 0, [0, 0, 0, 0], [0, 0, 0, 0], 0, 0, List.replicate 8 0, [], some s⟩)

/-- `_decode_ospfv3` -/
def decodeOspfv3 (s : Bytes) : Layer :=
  let read : Option OSPFv3Packet := do
    let (version, rest) ← readInt 1 s
    let (type, rest) ← readInt 1 rest
    let (length, rest) ← readInt 2 rest
    let (srcRouter, rest) ← takeBytes 4 rest
    let (areaId, rest) ← takeBytes 4 rest
    let (checksum, rest) ← readInt 2 rest
    let (instanceId, rest) ← readInt 1 rest
    let (_, rest) ← readInt 1 rest
    let body := if 16 ≤ length ∧ length ≤ s.length then rest.take (length - 16) else rest
    pure ⟨version, type, length, srcRouter, areaId, checksum, instanceId, body, some s⟩
  .ospf3 (read.getD ⟨0, 0, 0, [0, 0, 0, 0], [0, 0, 0, 0], 0, 0, [], some s⟩)

/-- A GRE header as far as it was read, whether it broke off, and what is left. -/
structure GREReading where
  header : GREHeader
  truncated : Bool
  rest : Bytes

/-- One optional word of a GRE header. -/
def GREReading.word (r : GREReading) (flag : GREHeader → Bool)
    (store : GREHeader → Nat → GREHeader) : GREReading :=
  if r.truncated || !flag r.header then r
  else
    match readInt 4 r.rest with
    | none => { r with truncated := true }
    | some (value, rest) => ⟨store r.header value, false, rest⟩

def readGREHeader (s : Bytes) : GREReading :=
  let base : GREReading := ⟨⟨0, 0, 0, 0, 0, 0, 0⟩, false, s⟩
  base.word (fun _ => true) (fun h v => { h with flags := v / 65536, proto := v % 65536 })
    |>.word GREHeader.flagC (fun h v => { h with checksum := v / 65536, reserved1 := v % 65536 })
    |>.word GREHeader.flagK (fun h v => { h with key := v })
    |>.word GREHeader.flagS (fun h v => { h with sequence := v })
    |>.word GREHeader.flagA (fun h v => { h with ack := v })

/-- The payload of a GRE packet, by its protocol type. -/
def decodeGrePayload (inner : Decoder) (proto : Nat) (s : Bytes) : Except Failure Layer :=
  if proto = 0x0800 then inner .ip s
  else if proto = 0x86dd then inner .ip6 s
  else if proto = 0x8847 ∨ proto = 0x8848 then inner (.mpls 0) s
  else if proto = 0x6558 then inner .ethernet s
  else pure (.null s)

/-- `_decode_gre`.  A payload that cannot be parsed is kept whole. -/
def decodeGre (inner : Decoder) (s : Bytes) : Except Failure Layer :=
  let r := readGREHeader s
  if r.truncated then pure (.gre r.header (some s) (.null r.rest))
  else if r.rest.isEmpty then pure (.gre r.header none (.null []))
  else
    match decodeGrePayload inner r.header.proto r.rest with
    | .ok payload => pure (.gre r.header none payload)
    | .error .valueError => pure (.gre r.header (some s) (.null r.rest))
    | .error e => .error e

/-- `_declared_end`, as the length of what follows a header.  A declared length only
shortens. -/
def declared (total headerLen available : Nat) : Except Failure Nat :=
  if total = 0 then pure available
  else if total < headerLen then .error .valueError
  else pure (min (total - headerLen) available)

def decodeIpPayload (inner : Decoder) (proto : Nat) (s : Bytes) : Except Failure Layer :=
  if s.isEmpty then pure .pkt
  else if proto = 17 then decodeUdp s
  else if proto = 6 then decodeTcp s
  else if proto = 1 ∨ proto = 2 then .error .outside
  else if proto = 47 then inner .gre s
  else if proto = 89 then pure (decodeOspfv2 s)
  else pure (.null s)

/-- `_decode_ip` -/
def decodeIp (inner : Decoder) (s : Bytes) : Except Failure Layer := do
  let (versionIphl, rest) ← need (readInt 1 s)
  let (tos, rest) ← need (readInt 1 rest)
  let (totalLen, rest) ← need (readInt 2 rest)
  let (ident, rest) ← need (readInt 2 rest)
  let (flagsOffset, rest) ← need (readInt 2 rest)
  let (ttl, rest) ← need (readInt 1 rest)
  let (proto, rest) ← need (readInt 1 rest)
  let (checksum, rest) ← need (readInt 2 rest)
  let (src, rest) ← need (takeBytes 4 rest)
  let (dst, rest) ← need (takeBytes 4 rest)
  let iphl := versionIphl % 16
  if iphl < IPV4_MIN_HDR_LEN then .error .valueError
  else
    let (options, rest) ← need (takeBytes (iphl * 4 - 20) rest)
    let length ← declared totalLen (iphl * 4) rest.length
    let payload ← decodeIpPayload inner proto (rest.take length)
    pure (.ip ⟨versionIphl, tos, totalLen, ident, flagsOffset, ttl, proto, checksum, src, dst,
      options⟩ payload (rest.drop length))

/-- `_is_ip6_ext` -/
def isIp6Ext (nh : Nat) : Bool := nh = 0 || nh = 43 || nh = 44 || nh = 51 || nh = 60

/-- How a chain of extension headers ends. -/
structure Walk where
  upper : Nat
  headers : Bytes
  rest : Bytes
  incomplete : Bool
  truncated : Bool
deriving DecidableEq

/-- The length of an extension header. -/
def extSize (cur hlen : Nat) : Nat :=
  if cur = 44 then 8 else if cur = 51 then (hlen + 2) * 4 else (hlen + 1) * 8

/-- `_walk_ip6_ext_range` -/
def walkIp6Ext : Nat → Nat → Bytes → Bool → Walk
  | 0, cur, s, incomplete => ⟨cur, [], s, incomplete, false⟩
  | fuel + 1, cur, s, incomplete =>
    if !isIp6Ext cur then ⟨cur, [], s, incomplete, false⟩
    else
      match s with
      | nxt :: hlen :: _ =>
        let size := extSize cur hlen.toNat
        let fragment := cur = 44 && 4 ≤ s.length && BigEndian.toNat ((s.drop 2).take 2) / 8 ≠ 0
        if s.length < size then ⟨cur, [], s, true, true⟩
        else
          let w := walkIp6Ext fuel nxt.toNat (s.drop size) (incomplete || fragment)
          { w with headers := s.take size ++ w.headers }
      | _ => ⟨cur, [], s, true, true⟩

def decodeIp6Payload (inner : Decoder) (w : Walk) : Except Failure Layer :=
  if w.rest.isEmpty then pure .pkt
  else if w.incomplete then pure (.null w.rest)
  else if w.upper = 17 then decodeUdp w.rest
  else if w.upper = 6 then decodeTcp w.rest
  else if w.upper = 58 then .error .outside
  else if w.upper = 47 then inner .gre w.rest
  else if w.upper = 89 then pure (decodeOspfv3 w.rest)
  else pure (.null w.rest)

/-- `_decode_ip6`.  A payload length of zero is a jumbogram's. -/
def decodeIp6 (inner : Decoder) (s : Bytes) : Except Failure Layer := do
  let (vTcFlow, rest) ← need (readInt 4 s)
  let (payloadLen, rest) ← need (readInt 2 rest)
  let (nh, rest) ← need (readInt 1 rest)
  let (hopLimit, rest) ← need (readInt 1 rest)
  let (src, rest) ← need (takeBytes 16 rest)
  let (dst, rest) ← need (takeBytes 16 rest)
  let length := if payloadLen = 0 then rest.length else min payloadLen rest.length
  let w := walkIp6Ext (length + 1) nh (rest.take length) false
  let payload ← decodeIp6Payload inner w
  pure (.ip6 ⟨vTcFlow, payloadLen, nh, hopLimit, src, dst, w.headers, w.upper, w.truncated⟩
    payload (rest.drop length))

/-- The payload of the label at the bottom of a stack, by its first nibble. -/
def decodeMplsPayload (inner : Decoder) (s : Bytes) : Except Failure Layer :=
  let nibble := (s.headD 0).toNat / 16
  if nibble = 4 then inner .ip s
  else if nibble = 6 then inner .ip6 s
  else inner .ethernet s

/-- One label of `_decode_mpls`. -/
def decodeMpls (inner : Decoder) (depth : Nat) (s : Bytes) : Except Failure Layer := do
  let (data, rest) ← need (readInt 4 s)
  if rest.isEmpty then pure (.mpls data (.null []))
  else if data / 256 % 2 = 1 then
    let payload ← decodeMplsPayload inner rest
    pure (.mpls data payload)
  else if MPLS_MAX_STACK_DEPTH ≤ depth then pure (.mpls data (.null rest))
  else
    let payload ← inner (.mpls (depth + 1)) rest
    pure (.mpls data payload)

def decodeEthernetPayload (inner : Decoder) (type : Nat) (s : Bytes) : Except Failure Layer :=
  if type = 0x0800 then inner .ip s
  else if type = 0x86dd then inner .ip6 s
  else if type = 0x0806 then .error .outside
  else if type = 0x8847 ∨ type = 0x8848 then inner (.mpls 0) s
  else pure (.null s)

/-- `_decode_ethernet` -/
def decodeEthernet (inner : Decoder) (s : Bytes) : Except Failure Layer := do
  let (dstMac, rest) ← need (takeBytes 6 s)
  let (srcMac, rest) ← need (takeBytes 6 rest)
  let (type, rest) ← need (readInt 2 rest)
  if type = 0x8100 then
    let (tci, rest) ← need (readInt 2 rest)
    let (type, rest) ← need (readInt 2 rest)
    let payload ← decodeEthernetPayload inner type rest
    pure (.ethernet ⟨dstMac, srcMac, some tci, type⟩ payload)
  else
    let payload ← decodeEthernetPayload inner type rest
    pure (.ethernet ⟨dstMac, srcMac, none, type⟩ payload)

/-- The decoders, one inside another. -/
def decode : Nat → Decoder
  | 0, _, _ => .error .fuel
  | fuel + 1, .ethernet, s => decodeEthernet (decode fuel) s
  | fuel + 1, .mpls depth, s => decodeMpls (decode fuel) depth s
  | fuel + 1, .gre, s => decodeGre (decode fuel) s
  | fuel + 1, .ip, s => decodeIp (decode fuel) s
  | fuel + 1, .ip6, s => decodeIp6 (decode fuel) s

end Packets.Inet
