/-
Group membership and neighbour discovery messages in IPv4 and IPv6 packets
(`core/inetpkt.pyx`).
-/
import Packets.Inet.GroupRoundTrip

namespace Packets.Inet

open BigEndian (ofNat readInt takeBytes readInt_ofNat takeBytes_of_length length_ofNat)

/-- An IPv4 packet whose payload is an IGMP message. -/
structure IpIgmp where
  header : IPHeader
  payload : IGMP
  trailer : Bytes
deriving DecidableEq

/-- `_decode_ip` of a packet of protocol 2.  The message is as long as the packet has it. -/
def decodeIpIgmp (s : Bytes) : Except Failure IpIgmp := do
  let (header, body, trailer) ← readIp s
  if body.isEmpty ∨ header.proto ≠ 2 then .error .outside
  else
    let payload ← decodeIgmp body body.length
    pure ⟨header, payload, trailer⟩

def IpIgmp.pkt2net (update csum : Bool) (p : IpIgmp) : Option Bytes :=
  (p.payload.write update csum).map fun body =>
    (Layer.ip p.header (.null body) p.trailer).pkt2net update csum

/-- Every field fits its place, and the options are as long as the header says. -/
structure IPHeader.Fits (h : IPHeader) : Prop where
  versionIphl : h.versionIphl < 256 ^ 1
  tos : h.tos < 256 ^ 1
  totalLen : h.totalLen < 256 ^ 2
  ident : h.ident < 256 ^ 2
  flagsOffset : h.flagsOffset < 256 ^ 2
  ttl : h.ttl < 256 ^ 1
  proto : h.proto < 256 ^ 1
  checksum : h.checksum < 256 ^ 2
  src : h.src.length = 4
  dst : h.dst.length = 4
  options : h.versionIphl % 16 * 4 = 20 + h.options.length

/-- What is read of a packet whose length is correct. -/
theorem readIp_bytes {h : IPHeader} (hfits : h.Fits) {body : Bytes} (hbody : body ≠ [])
    (hlen : h.totalLen = 20 + h.options.length + body.length) (trailer : Bytes) :
    readIp (h.bytes h.versionIphl h.totalLen h.checksum ++ (body ++ trailer)) =
      .ok (h, body, trailer) := by
  have hoptions := hfits.options
  have hpos := List.length_pos_iff.mpr hbody
  have hsize : h.options.length = h.versionIphl % 16 * 4 - 20 := by omega
  have hlong : ¬h.versionIphl % 16 < IPV4_MIN_HDR_LEN := by
    rw [IPV4_MIN_HDR_LEN]
    omega
  have hdeclared : declared h.totalLen (h.versionIphl % 16 * 4) (body ++ trailer).length =
      .ok body.length := by
    rw [declared, if_neg (by omega), if_neg (by omega), List.length_append]
    exact congrArg Except.ok (by omega)
  simp only [readIp, IPHeader.bytes, List.append_assoc, readInt_ofNat hfits.versionIphl,
    readInt_ofNat hfits.tos, readInt_ofNat hfits.totalLen, readInt_ofNat hfits.ident,
    readInt_ofNat hfits.flagsOffset, readInt_ofNat hfits.ttl, readInt_ofNat hfits.proto,
    readInt_ofNat hfits.checksum, takeBytes_of_length hfits.src, takeBytes_of_length hfits.dst,
    takeBytes_of_length hsize, need_bind_some, if_neg hlong, hdeclared]
  simp only [bind, Except.bind, List.take_left, List.drop_left]
  rfl

/-- An IGMP message in a packet whose length is correct. -/
structure IgmpPacket where
  header : IPHeader
  message : IgmpMessage
  checksum : Number 2
  trailer : Bytes
  fits : header.Fits
  proto : header.proto = 2
  length : header.totalLen = 20 + header.options.length + (message.bytes checksum).length

namespace IgmpPacket

def bytes (p : IgmpPacket) : Bytes :=
  p.header.bytes p.header.versionIphl p.header.totalLen p.header.checksum ++
    (p.message.bytes p.checksum ++ p.trailer)

/-- The packet with the version and the values of its message. -/
def object (p : IgmpPacket) : IpIgmp := ⟨p.header, p.message.object p.checksum, p.trailer⟩

theorem message_nonempty (p : IgmpPacket) : p.message.bytes p.checksum ≠ [] := by
  apply List.ne_nil_of_length_pos
  simp [IgmpMessage.bytes]

theorem decodeIpIgmp_eq (p : IgmpPacket) :
    decodeIpIgmp p.bytes =
      decodeIgmp (p.message.bytes p.checksum) (p.message.bytes p.checksum).length >>= fun payload =>
        pure ⟨p.header, payload, p.trailer⟩ := by
  have hbody : ¬((p.message.bytes p.checksum).isEmpty ∨ p.header.proto ≠ 2) := by
    simp [p.proto, p.message_nonempty]
  rw [decodeIpIgmp, bytes, readIp_bytes p.fits p.message_nonempty p.length]
  simp only [bind, Except.bind]
  rw [if_neg hbody]

theorem pkt2net_object (p : IgmpPacket) : p.object.pkt2net false false = some p.bytes := by
  rw [IpIgmp.pkt2net, object, p.message.write_object]
  simp [Layer.pkt2net, Layer.write, bytes]

end IgmpPacket

/-- An IPv6 packet whose payload is an ICMPv6 message. -/
structure Ip6Icmp6 where
  header : IP6Header
  payload : ICMP6
  trailer : Bytes
deriving DecidableEq

/-- `_decode_ip6` of a packet whose extension headers end in ICMPv6. -/
def decodeIp6Icmp6 (inner : Decoder) (s : Bytes) : Except Failure Ip6Icmp6 := do
  let r ← readIp6 s
  if r.walk.rest.isEmpty ∨ r.walk.incomplete ∨ r.walk.upper ≠ 58 then .error .outside
  else
    let payload ← decodeIcmp6 inner r.walk.rest
    pure ⟨r.header, payload, r.trailer⟩

def Ip6Icmp6.pkt2net (update csum : Bool) (p : Ip6Icmp6) : Bytes :=
  (Layer.ip6 p.header p.payload.layer p.trailer).pkt2net update csum

/-- Extension headers that end in ICMPv6.  None is the Fragment header of a later fragment. -/
inductive ExtChain : Nat → Bytes → Prop
  | upper : ExtChain 58 []
  | header {cur : Nat} {next hlen : UInt8} {rest headers : Bytes} :
      isIp6Ext cur = true → 2 + rest.length = extSize cur hlen.toNat →
      (cur = 44 → BigEndian.toNat (rest.take 2) / 8 = 0) → ExtChain next.toNat headers →
      ExtChain cur (next :: hlen :: (rest ++ headers))

theorem ExtChain.fits {cur : Nat} {headers : Bytes} (h : ExtChain cur headers) : cur < 256 ^ 1 := by
  cases h with
  | upper => decide
  | header hext _ _ _ =>
    simp only [isIp6Ext, Bool.or_eq_true, decide_eq_true_eq] at hext
    omega

/-- The walk is over where the message begins. -/
theorem ExtChain.walk {cur : Nat} {headers : Bytes} (h : ExtChain cur headers) (body : Bytes)
    {fuel : Nat} (hfuel : headers.length < fuel) :
    walkIp6Ext fuel cur (headers ++ body) false = ⟨58, headers, body, false, false⟩ := by
  induction h generalizing fuel with
  | upper =>
    obtain ⟨fuel, rfl⟩ := Nat.exists_eq_succ_of_ne_zero (Nat.ne_of_gt hfuel)
    rfl
  | @header cur next hlen rest headers hext hsize hfirst _ ih =>
    rw [List.length_cons, List.length_cons, List.length_append] at hfuel
    obtain ⟨fuel, rfl⟩ := Nat.exists_eq_succ_of_ne_zero (show fuel ≠ 0 by omega)
    have hs : next :: hlen :: (rest ++ headers) ++ body =
        next :: hlen :: (rest ++ (headers ++ body)) := by simp
    have hfront : (next :: hlen :: rest).length = extSize cur hlen.toNat := by
      rw [← hsize, List.length_cons, List.length_cons]
      omega
    have htake : (next :: hlen :: (rest ++ (headers ++ body))).take (extSize cur hlen.toNat) =
        next :: hlen :: rest := List.take_left' hfront
    have hdrop : (next :: hlen :: (rest ++ (headers ++ body))).drop (extSize cur hlen.toNat) =
        headers ++ body := List.drop_left' hfront
    have hlong : extSize cur hlen.toNat ≤ (next :: hlen :: (rest ++ (headers ++ body))).length := by
      rw [List.length_cons, List.length_cons, List.length_append]
      omega
    have hwhole : ¬(cur = 44 ∧ BigEndian.toNat
        (((next :: hlen :: (rest ++ (headers ++ body))).drop 2).take 2) / 8 ≠ 0) := by
      rintro ⟨hcur, hoffset⟩
      have hrest : 2 ≤ rest.length := by
        rw [extSize, if_pos hcur] at hsize
        omega
      rw [List.drop_succ_cons, List.drop_succ_cons, List.drop_zero,
        List.take_append_of_le_length hrest] at hoffset
      exact hoffset (hfirst hcur)
    rw [hs, walkIp6Ext, if_neg (by simp [hext])]
    dsimp only
    rw [if_neg (Nat.not_lt.mpr hlong), fragment_iff hlong, decide_eq_false hwhole, htake, hdrop,
      Bool.or_false, ih (show headers.length < fuel by omega)]
    simp

/-- An ICMPv6 message in a packet whose length is correct. -/
structure Icmp6Packet where
  vTcFlow : Number 4
  nh : Nat
  hopLimit : Number 1
  src : Address 16
  dst : Address 16
  extHdrs : Bytes
  message : Icmp6Message
  code : Number 1
  checksum : Number 2
  trailer : Bytes
  chain : ExtChain nh extHdrs
  fits : extHdrs.length + (message.bytes code checksum).length < 256 ^ 2

namespace Icmp6Packet

def header (p : Icmp6Packet) : IP6Header :=
  ⟨p.vTcFlow.value, p.extHdrs.length + (p.message.bytes p.code p.checksum).length, p.nh,
    p.hopLimit.value, p.src.bytes, p.dst.bytes, p.extHdrs, 58, false⟩

def bytes (p : Icmp6Packet) : Bytes :=
  p.header.bytes p.header.payloadLen ++ (p.message.bytes p.code p.checksum ++ p.trailer)

/-- The packet with the version and the values of its message. -/
def object (p : Icmp6Packet) : Ip6Icmp6 := ⟨p.header, p.message.object p.code p.checksum, p.trailer⟩

/-- The range of the packet. -/
def reading (p : Icmp6Packet) : IP6Reading :=
  ⟨p.vTcFlow.value, p.extHdrs.length + (p.message.bytes p.code p.checksum).length, p.nh,
    p.hopLimit.value, p.src.bytes, p.dst.bytes, p.extHdrs ++ p.message.bytes p.code p.checksum,
    p.trailer⟩

theorem message_length_pos (p : Icmp6Packet) : 0 < (p.message.bytes p.code p.checksum).length := by
  rw [Icmp6Message.length_bytes]
  omega

theorem readIp6_bytes (p : Icmp6Packet) : readIp6 p.bytes = .ok p.reading := by
  have hpos := p.message_length_pos
  have hrange : (p.extHdrs ++ p.message.bytes p.code p.checksum).length =
      p.extHdrs.length + (p.message.bytes p.code p.checksum).length := List.length_append
  have hlen : (if p.extHdrs.length + (p.message.bytes p.code p.checksum).length = 0 then
        (p.extHdrs ++ p.message.bytes p.code p.checksum ++ p.trailer).length
      else min (p.extHdrs.length + (p.message.bytes p.code p.checksum).length)
        (p.extHdrs ++ p.message.bytes p.code p.checksum ++ p.trailer).length) =
      (p.extHdrs ++ p.message.bytes p.code p.checksum).length := by
    rw [if_neg (by omega), hrange, List.length_append, hrange]
    omega
  simp only [readIp6, bytes, IP6Header.bytes, header, List.append_assoc,
    readInt_ofNat p.vTcFlow.fits, readInt_ofNat p.fits, readInt_ofNat p.chain.fits,
    readInt_ofNat p.hopLimit.fits, p.src.take, p.dst.take, need_bind_some]
  rw [← List.append_assoc, hlen, List.take_left, List.drop_left]
  rfl

theorem walk_reading (p : Icmp6Packet) :
    p.reading.walk = ⟨58, p.extHdrs, p.message.bytes p.code p.checksum, false, false⟩ := by
  apply p.chain.walk
  rw [reading, List.length_append]
  omega

theorem decodeIp6Icmp6_eq (inner : Decoder) (p : Icmp6Packet) :
    decodeIp6Icmp6 inner p.bytes = .ok p.object := by
  have hbody : ¬((p.message.bytes p.code p.checksum).isEmpty ∨ false = true ∨ (58 : Nat) ≠ 58) := by
    simp [List.ne_nil_of_length_pos p.message_length_pos]
  rw [decodeIp6Icmp6, readIp6_bytes]
  simp only [bind, Except.bind, IP6Reading.header, walk_reading]
  rw [if_neg hbody, Icmp6Message.decodeIcmp6_bytes]
  rfl

theorem pkt2net_object (p : Icmp6Packet) : p.object.pkt2net false false = p.bytes := by
  have hmessage (k : Keywords) (hk : k.csum = false) :
      (p.message.object p.code p.checksum).layer.write k = p.message.bytes p.code p.checksum :=
    p.message.write_object p.code p.checksum hk
  rw [Ip6Icmp6.pkt2net, object, Layer.pkt2net, Layer.write, bytes]
  simp [hmessage]

end Icmp6Packet

/-- A well-formed message of group membership or neighbour discovery in a packet. -/
inductive GroupPacket where
  | igmp (packet : IgmpPacket)
  | icmp6 (packet : Icmp6Packet)

/-- The packet is parsed with the version of its message and the records, sources and options it
has, and written as it was. -/
def GroupPacket.Survives : GroupPacket → Prop
  | igmp p => ∃ parsed, decodeIpIgmp p.bytes = .ok parsed ∧ parsed = p.object ∧
      parsed.pkt2net false false = some p.bytes
  | icmp6 p => ∀ inner, ∃ parsed, decodeIp6Icmp6 inner p.bytes = .ok parsed ∧ parsed = p.object ∧
      parsed.pkt2net false false = p.bytes

/-- A membership report of version 3 with no records. -/
def GroupPacket.IsEmptyReport : GroupPacket → Prop
  | igmp p => p.message.IsEmptyReport
  | icmp6 _ => False

/-- The writer of version 2 has no group address to write. -/
theorem IgmpPacket.not_survives {p : IgmpPacket} (hempty : p.message.IsEmptyReport) :
    ¬∃ parsed, decodeIpIgmp p.bytes = .ok parsed ∧ parsed = p.object ∧
      parsed.pkt2net false false = some p.bytes := by
  rintro ⟨parsed, hparsed, rfl, -⟩
  obtain ⟨header, message, checksum, trailer, fits, proto, length⟩ := p
  cases message with
  | v3Report records count_fits =>
    obtain rfl : records = [] := hempty
    rw [decodeIpIgmp_eq, IgmpMessage.decodeIgmp_emptyReport] at hparsed
    have hversion := congrArg (fun o => o.payload.version) (Except.ok.inj hparsed)
    exact absurd hversion (show ¬(2 : Nat) = 3 by decide)
  | query _ _ => exact hempty.elim
  | v1Report _ => exact hempty.elim
  | v2Report _ _ => exact hempty.elim
  | leave _ _ => exact hempty.elim
  | v3Query _ _ _ _ _ => exact hempty.elim

/-- A report of no records in a packet of 32 bytes, with the router alert option. -/
def emptyReportPacket : IgmpPacket where
  header := ⟨0x46, 0xc0, 32, 1, 0, 1, 2, 0x1234, [10, 0, 0, 1], [224, 0, 0, 22], [148, 4, 0, 0]⟩
  message := .v3Report [] (by decide)
  checksum := ⟨0xddff, by decide⟩
  trailer := []
  fits := by constructor <;> decide
  proto := rfl
  length := rfl

end Packets.Inet
