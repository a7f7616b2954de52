/-
Fragments behind the first (`core/inetpkt.pyx`).

Their body has no header at its start.  The offset of an IPv4 packet is not looked at, and the
walk along IPv6 extension headers goes on into the body where a header names another.
-/
import Packets.Inet.Reserialize

namespace Packets.Inet

open BigEndian (readInt takeBytes ofNat readInt_sound takeBytes_sound)
open Fallible (Ends)

/-- `frag_offset` -/
def IPHeader.fragOffset (h : IPHeader) : Nat := h.flagsOffset % 8192

/-- The header of an IPv4 packet, its body, and what the frame has behind it. -/
def readIp (s : Bytes) : Except Failure (IPHeader × Bytes × Bytes) := do
  let (versionIphl, rest) ← need (readInt 1 s)
  let (tos, rest) ← need (readInt 1 rest)
  let (totalLen, rest) ← need (readInt 2 rest)
  let (ident, rest) ← need (readInt 2 rest)
  let (flagsOffset, rest) ← need (readInt 2 rest)
  let (ttl, rest) ← need (readInt 1 rest)
  let (proto, rest) ← need (readInt 1 rest)
  let (checksum, rest) ← need (readInt 2 rest)
  let (src, rest) ← need (takeBytes 4 rest)
  let (dst, rest) ← need (takeBytes 4 rest)
  let iphl := versionIphl % 16
  if iphl < IPV4_MIN_HDR_LEN then .error .valueError
  else
    let (options, rest) ← need (takeBytes (iphl * 4 - 20) rest)
    let length ← declared totalLen (iphl * 4) rest.length
    pure (⟨versionIphl, tos, totalLen, ident, flagsOffset, ttl, proto, checksum, src, dst,
      options⟩, rest.take length, rest.drop length)

theorem need_bind_assoc {α β γ : Type} (o : Option α) (f : α → Except Failure β)
    (g : β → Except Failure γ) : (need o >>= f) >>= g = need o >>= fun a => f a >>= g := by
  cases o <;> rfl

theorem decodeIp_eq (inner : Decoder) (s : Bytes) :
    decodeIp inner s = readIp s >>= fun r =>
      decodeIpPayload inner r.1.proto r.2.1 >>= fun payload => pure (.ip r.1 payload r.2.2) := by
  rw [decodeIp, readIp]
  simp only [need_bind_assoc]
  iterate 10
    apply need_bind_congr
    rintro ⟨_, rest⟩ -
  dsimp only
  split
  · rfl
  · simp only [need_bind_assoc]
    apply need_bind_congr
    rintro ⟨_, rest⟩ -
    dsimp only
    cases declared _ _ _ <;> rfl

theorem readIp_ends (s : Bytes) : Ends Failure.Real (readIp s) (fun r =>
    r.1.src.length = 4 ∧ r.1.dst.length = 4 ∧
      s = r.1.bytes r.1.versionIphl r.1.totalLen r.1.checksum ++ r.2.1 ++ r.2.2) := by
  apply ends_readInt 1
  rintro versionIphl rest rfl
  apply ends_readInt 1
  rintro tos rest rfl
  apply ends_readInt 2
  rintro totalLen rest rfl
  apply ends_readInt 2
  rintro ident rest rfl
  apply ends_readInt 2
  rintro flagsOffset rest rfl
  apply ends_readInt 1
  rintro ttl rest rfl
  apply ends_readInt 1
  rintro proto rest rfl
  apply ends_readInt 2
  rintro checksum rest rfl
  apply ends_takeBytes
  rintro src rest rfl hsrc
  apply ends_takeBytes
  rintro dst rest rfl hdst
  apply Ends.ite
  · intro _
    exact ends_valueError
  intro _
  apply ends_takeBytes
  rintro options rest rfl hoptions
  apply (declared_ends _ _ _).bind
  intro length _
  exact ⟨hsrc, hdst, by simp [IPHeader.bytes]⟩

/-- A payload is just the bytes of a range, and nothing of them was read as a header. -/
def Layer.IsRange (body : Bytes) (l : Layer) : Prop := l = .null body ∨ body = [] ∧ l = .pkt

theorem Layer.IsRange.write {body : Bytes} {l : Layer} (h : l.IsRange body) (k : Keywords) :
    l.write k = body := by
  rcases h with rfl | ⟨rfl, rfl⟩ <;> rfl

theorem Layer.isRange_ofRange (s : Bytes) :
    (if s.isEmpty then Layer.pkt else .null s).IsRange s := by
  cases s with
  | nil => exact Or.inr ⟨rfl, rfl⟩
  | cons _ _ => exact Or.inl rfl

/-- A packet is parsed with its body as a range, and whatever the keywords writes the body
back where it was. -/
def KeepsBody (parsed : Except Failure Layer) (packet : Layer → Layer) (start : Nat)
    (body : Bytes) : Prop :=
  ∃ payload, parsed = .ok (packet payload) ∧ payload.IsRange body ∧
    ∀ k, ∃ front back, front.length = start ∧ (packet payload).write k = front ++ body ++ back

theorem keepsBody_iff {parsed : Except Failure Layer} {packet : Layer → Layer} {start : Nat}
    {body : Bytes} (hwrite : ∀ payload : Layer, payload.IsRange body → ∀ k, ∃ front back,
      front.length = start ∧ (packet payload).write k = front ++ body ++ back) :
    KeepsBody parsed packet start body ↔
      ∃ payload, parsed = .ok (packet payload) ∧ payload.IsRange body := by
  constructor
  · rintro ⟨payload, hparsed, hrange, -⟩
    exact ⟨payload, hparsed, hrange⟩
  · rintro ⟨payload, hparsed, hrange⟩
    exact ⟨payload, hparsed, hrange, hwrite payload hrange⟩

theorem length_ipBytes {h : IPHeader} (hsrc : h.src.length = 4) (hdst : h.dst.length = 4)
    (versionIphl totalLen checksum : Nat) :
    (h.bytes versionIphl totalLen checksum).length = 20 + h.options.length := by
  simp [IPHeader.bytes, hsrc, hdst]
  omega

theorem write_ip_range {h : IPHeader} (hsrc : h.src.length = 4) (hdst : h.dst.length = 4)
    (trailer : Bytes) {body : Bytes} {payload : Layer} (hrange : payload.IsRange body)
    (k : Keywords) : ∃ front back, front.length = 20 + h.options.length ∧
      (Layer.ip h payload trailer).write k = front ++ body ++ back := by
  have hbody (k' : Keywords) :
      (if k.forIcmp then payload.write {} else payload.write k') = body := by
    cases k.forIcmp <;> exact hrange.write _
  simp only [Layer.write, hbody]
  exact ⟨_, trailer, length_ipBytes hsrc hdst _ _ _, rfl⟩

/-- The protocols `_decode_ip` looks for behind a header. -/
def hasIpDecoder (proto : Nat) : Bool :=
  proto = 17 || proto = 6 || proto = 1 || proto = 2 || proto = 47 || proto = 89

/-- Either it fails or something of a header was read. -/
abbrev NotRange (parsed : Except Failure Layer) (body : Bytes) : Prop :=
  Ends (fun _ => True) parsed fun l => ¬l.IsRange body

theorem NotRange.need {α : Type} {o : Option α} {f : α → Except Failure Layer} {body : Bytes}
    (h : ∀ a, NotRange (f a) body) : NotRange (need o >>= f) body := by
  cases o with
  | none => exact trivial
  | some a => exact h a

theorem NotRange.not_ok {parsed : Except Failure Layer} {body : Bytes} (h : NotRange parsed body) :
    ¬∃ payload : Layer, parsed = .ok payload ∧ payload.IsRange body := by
  rintro ⟨payload, rfl, hrange⟩
  exact h hrange

theorem not_isRange_udp (h : UDPHeader) (payload : Layer) (trailer body : Bytes) :
    ¬(Layer.udp h payload trailer).IsRange body := by
  simp [Layer.IsRange]

theorem decodeUdp_not_range (s body : Bytes) : NotRange (decodeUdp s) body := by
  rw [decodeUdp]
  iterate 4
    apply NotRange.need
    rintro ⟨_, rest⟩
  apply Ends.ite
  · intro _
    exact not_isRange_udp _ _ _ _
  · intro _
    apply Ends.ite
    · intro _
      exact trivial
    · intro _
      exact not_isRange_udp _ _ _ _

theorem not_isRange_tcp (h : TCPHeader) (payload : Layer) (body : Bytes) :
    ¬(Layer.tcp h payload).IsRange body := by
  simp [Layer.IsRange]

theorem decodeTcp_not_range (s body : Bytes) : NotRange (decodeTcp s) body := by
  rw [decodeTcp]
  apply Ends.ite
  · intro _
    iterate 8
      apply NotRange.need
      rintro ⟨_, rest⟩
    apply Ends.ite
    · intro _
      exact trivial
    · intro _
      apply NotRange.need
      rintro ⟨_, rest⟩
      exact not_isRange_tcp _ _ _
  · intro _
    apply Ends.ite
    · intro _
      iterate 3
        apply NotRange.need
        rintro ⟨_, rest⟩
      exact not_isRange_tcp _ _ _
    · intro _
      exact trivial

theorem not_isRange_gre (h : GREHeader) (malformed : Option Bytes) (payload : Layer)
    (body : Bytes) : ¬(Layer.gre h malformed payload).IsRange body := by
  simp [Layer.IsRange]

theorem decodeGre_not_range (inner : Decoder) (s body : Bytes) :
    NotRange (decodeGre inner s) body := by
  rw [decodeGre]
  apply Ends.ite
  · intro _
    exact not_isRange_gre _ _ _ _
  · intro _
    apply Ends.ite
    · intro _
      exact not_isRange_gre _ _ _ _
    · intro _
      split
      · exact not_isRange_gre _ _ _ _
      · exact not_isRange_gre _ _ _ _
      · exact trivial

theorem decode_gre_not_range (n : Nat) (s body : Bytes) : NotRange (decode n .gre s) body := by
  cases n with
  | zero => exact trivial
  | succ n => exact decodeGre_not_range (decode n) s body

/-- The body of an IPv4 packet is a range when there is none, or its protocol is one that
is not decoded. -/
theorem decodeIpPayload_isRange_iff (n proto : Nat) (body : Bytes) :
    (∃ payload, decodeIpPayload (decode n) proto body = .ok payload ∧ payload.IsRange body) ↔
      body = [] ∨ hasIpDecoder proto = false := by
  by_cases hempty : body = []
  · subst hempty
    exact iff_of_true ⟨.pkt, rfl, Or.inr ⟨rfl, rfl⟩⟩ (Or.inl rfl)
  · have hbody : body.isEmpty = false := by simpa using hempty
    rw [decodeIpPayload, hbody, or_iff_right hempty]
    cases hproto : hasIpDecoder proto with
    | false =>
      have hnone := hproto
      simp only [hasIpDecoder, Bool.or_eq_false_iff, decide_eq_false_iff_not] at hnone
      obtain ⟨⟨⟨⟨⟨hudp, htcp⟩, hicmp⟩, higmp⟩, hgre⟩, hospf⟩ := hnone
      simp only [hudp, htcp, hicmp, higmp, hgre, hospf, Bool.false_eq_true, if_false, or_self]
      exact iff_of_true ⟨.null body, rfl, Or.inl rfl⟩ trivial
    | true =>
      apply iff_of_false _ (by decide)
      apply NotRange.not_ok
      rw [if_neg Bool.false_ne_true]
      apply Ends.ite
      · intro _
        exact decodeUdp_not_range body body
      intro hudp
      apply Ends.ite
      · intro _
        exact decodeTcp_not_range body body
      intro htcp
      apply Ends.ite
      · intro _
        exact trivial
      intro hcontrol
      apply Ends.ite
      · intro _
        exact decode_gre_not_range n body body
      intro hgre
      apply Ends.ite
      · intro _
        simp [decodeOspfv2, Layer.IsRange, Ends, pure, Except.pure]
      intro hospf
      simp [hasIpDecoder, hudp, htcp, hgre, hospf, not_or.mp hcontrol] at hproto

/-- A payload found and put in its packet. -/
theorem exists_packet_iff {parsed : Except Failure Layer} {packet : Layer → Layer}
    (hpacket : Function.Injective packet) (body : Bytes) :
    (∃ payload, (parsed >>= fun l => pure (packet l)) = .ok (packet payload) ∧
        payload.IsRange body) ↔ ∃ payload, parsed = .ok payload ∧ payload.IsRange body := by
  cases parsed with
  | error e =>
    constructor
    · rintro ⟨payload, hparsed, -⟩
      cases hparsed
    · rintro ⟨payload, hparsed, -⟩
      cases hparsed
  | ok l =>
    constructor
    · rintro ⟨payload, hparsed, hrange⟩
      have hsame : l = payload := hpacket (Except.ok.inj hparsed)
      exact ⟨payload, by rw [hsame], hrange⟩
    · rintro ⟨payload, hparsed, hrange⟩
      rw [Except.ok.inj hparsed]
      exact ⟨payload, rfl, hrange⟩

theorem decode_ip_of_read {n : Nat} {s : Bytes} {h : IPHeader} {body trailer : Bytes}
    (hread : readIp s = .ok (h, body, trailer)) :
    decode (n + 1) .ip s =
      decodeIpPayload (decode n) h.proto body >>= fun payload => pure (.ip h payload trailer) := by
  rw [decode, decodeIp_eq, hread]
  rfl

theorem injective_ip (h : IPHeader) (trailer : Bytes) :
    Function.Injective fun payload => Layer.ip h payload trailer := by
  intro payload payload' heq
  injection heq

/-- The body of an IPv4 packet is kept as it is when there is none, or its protocol is one
that is not decoded. -/
theorem ip_keepsBody_iff (n : Nat) {s : Bytes} {h : IPHeader} {body trailer : Bytes}
    (hread : readIp s = .ok (h, body, trailer)) :
    KeepsBody (decode (n + 1) .ip s) (fun payload => .ip h payload trailer)
        (20 + h.options.length) body ↔
      body = [] ∨ hasIpDecoder h.proto = false := by
  obtain ⟨hsrc, hdst, -⟩ := (readIp_ends s).of_ok hread
  rw [keepsBody_iff fun payload hrange k => write_ip_range hsrc hdst trailer hrange k,
    decode_ip_of_read hread, exists_packet_iff (injective_ip h trailer),
    decodeIpPayload_isRange_iff]

/-- The header of a frame and what it carries. -/
def readEthernet (s : Bytes) : Except Failure (EthernetHeader × Bytes) := do
  let (dstMac, rest) ← need (takeBytes 6 s)
  let (srcMac, rest) ← need (takeBytes 6 rest)
  let (type, rest) ← need (readInt 2 rest)
  if type = 0x8100 then
    let (tci, rest) ← need (readInt 2 rest)
    let (type, rest) ← need (readInt 2 rest)
    pure (⟨dstMac, srcMac, some tci, type⟩, rest)
  else pure (⟨dstMac, srcMac, none, type⟩, rest)

theorem decodeEthernet_eq (inner : Decoder) (s : Bytes) :
    decodeEthernet inner s = readEthernet s >>= fun r =>
      decodeEthernetPayload inner r.1.type r.2 >>= fun payload => pure (.ethernet r.1 payload) := by
  rw [decodeEthernet, readEthernet]
  simp only [need_bind_assoc]
  iterate 3
    apply need_bind_congr
    rintro ⟨_, rest⟩ -
  dsimp only
  split
  · simp only [need_bind_assoc]
    iterate 2
      apply need_bind_congr
      rintro ⟨_, rest⟩ -
    rfl
  · rfl

theorem readEthernet_ends (s : Bytes) : Ends Failure.Real (readEthernet s) (fun r =>
    s = r.1.bytes r.1.type ++ r.2) := by
  apply ends_takeBytes
  rintro dstMac rest rfl hdst
  apply ends_takeBytes
  rintro srcMac rest rfl hsrc
  apply ends_readInt 2
  rintro type rest rfl
  apply Ends.ite
  · rintro rfl
    apply ends_readInt 2
    rintro tci rest rfl
    apply ends_readInt 2
    rintro inside rest rfl
    simp [Ends, pure, Except.pure, EthernetHeader.bytes]
  · intro _
    simp [Ends, pure, Except.pure, EthernetHeader.bytes]

theorem ethernet_of_read {s t : Bytes} {eth : EthernetHeader}
    (hread : readEthernet s = .ok (eth, t)) :
    ethernet s = decodeEthernetPayload (decode s.length) eth.type t >>= fun payload =>
      pure (.ethernet eth payload) := by
  rw [ethernet_eq_decode, decode, decodeEthernet_eq, hread]
  rfl

theorem length_ethernetBytes (eth : EthernetHeader) (type type' : Nat) :
    (eth.bytes type).length = (eth.bytes type').length := by
  simp [EthernetHeader.bytes]

theorem write_ethernet {eth : EthernetHeader} {l : Layer} {start : Nat} {body : Bytes}
    {k : Keywords}
    (hwrite : ∃ front back, front.length = start ∧ l.write k = front ++ body ++ back) :
    ∃ front back, front.length = (eth.bytes eth.type).length + start ∧
      (Layer.ethernet eth l).write k = front ++ body ++ back := by
  obtain ⟨front, back, hfront, hl⟩ := hwrite
  simp only [Layer.write, hl]
  generalize List.replicate (MIN_FRAME_SIZE - _) _ = pad
  refine ⟨eth.bytes (l.etherType eth.type) ++ front, back ++ pad, ?_, ?_⟩
  · rw [List.length_append, hfront, length_ethernetBytes eth _ eth.type]
  · simp only [List.append_assoc]

theorem injective_ethernet (eth : EthernetHeader) : Function.Injective (Layer.ethernet eth) := by
  intro payload payload' heq
  injection heq

theorem length_pos_of_readEthernet {s t : Bytes} {eth : EthernetHeader}
    (hread : readEthernet s = .ok (eth, t)) : 0 < s.length := by
  have hs : s = eth.bytes eth.type ++ t := (readEthernet_ends s).of_ok hread
  rw [hs]
  simp [EthernetHeader.bytes]

/-- The same for an IPv4 packet right behind the header of a frame, on either path. -/
theorem ethernet_keepsBody_iff {s t : Bytes} {eth : EthernetHeader} {h : IPHeader}
    {body trailer : Bytes} (hframe : readEthernet s = .ok (eth, t)) (htype : eth.type = 0x0800)
    (hread : readIp t = .ok (h, body, trailer)) :
    KeepsBody (ethernet s) (fun payload => .ethernet eth (.ip h payload trailer))
        ((eth.bytes eth.type).length + (20 + h.options.length)) body ↔
      body = [] ∨ hasIpDecoder h.proto = false := by
  obtain ⟨hsrc, hdst, -⟩ := (readIp_ends t).of_ok hread
  obtain ⟨n, hn⟩ := Nat.exists_eq_succ_of_ne_zero (length_pos_of_readEthernet hframe).ne'
  have hparsed : ethernet s = decodeIpPayload (decode n) h.proto body >>= fun payload =>
      pure (.ethernet eth (.ip h payload trailer)) := by
    rw [ethernet_of_read hframe, hn, htype, decodeEthernetPayload, if_pos rfl,
      decode_ip_of_read hread]
    cases decodeIpPayload (decode n) h.proto body <;> rfl
  have hinjective : Function.Injective fun payload => Layer.ethernet eth (.ip h payload trailer) :=
    (injective_ethernet eth).comp (injective_ip h trailer)
  rw [keepsBody_iff fun payload hrange k =>
      write_ethernet (write_ip_range hsrc hdst trailer hrange k),
    hparsed, exists_packet_iff hinjective, decodeIpPayload_isRange_iff]

/-- An IPv6 packet up to its extension headers, its range, and what the frame has behind
it. -/
structure IP6Reading where
  vTcFlow : Nat
  payloadLen : Nat
  nh : Nat
  hopLimit : Nat
  src : Bytes
  dst : Bytes
  range : Bytes
  trailer : Bytes

def readIp6 (s : Bytes) : Except Failure IP6Reading := do
  let (vTcFlow, rest) ← need (readInt 4 s)
  let (payloadLen, rest) ← need (readInt 2 rest)
  let (nh, rest) ← need (readInt 1 rest)
  let (hopLimit, rest) ← need (readInt 1 rest)
  let (src, rest) ← need (takeBytes 16 rest)
  let (dst, rest) ← need (takeBytes 16 rest)
  let length := if payloadLen = 0 then rest.length else min payloadLen rest.length
  pure ⟨vTcFlow, payloadLen, nh, hopLimit, src, dst, rest.take length, rest.drop length⟩

def IP6Reading.walk (r : IP6Reading) : Walk := walkIp6Ext (r.range.length + 1) r.nh r.range false

/-- The header with the extension headers that were found. -/
def IP6Reading.header (r : IP6Reading) : IP6Header :=
  ⟨r.vTcFlow, r.payloadLen, r.nh, r.hopLimit, r.src, r.dst, r.walk.headers, r.walk.upper,
    r.walk.truncated⟩

theorem decodeIp6_eq (inner : Decoder) (s : Bytes) :
    decodeIp6 inner s = readIp6 s >>= fun r =>
      decodeIp6Payload inner r.walk >>= fun payload => pure (.ip6 r.header payload r.trailer) := by
  rw [decodeIp6, readIp6]
  simp only [need_bind_assoc]
  iterate 6
    apply need_bind_congr
    rintro ⟨_, rest⟩ -
  have hlength (payloadLen : Nat) :
      (rest.take (if payloadLen = 0 then rest.length else min payloadLen rest.length)).length =
        if payloadLen = 0 then rest.length else min payloadLen rest.length := by
    rw [List.length_take]
    split <;> omega
  simp only [pure_bind, IP6Reading.header, IP6Reading.walk, hlength]

theorem readIp6_ends (s : Bytes) : Ends Failure.Real (readIp6 s) (fun r =>
    r.src.length = 16 ∧ r.dst.length = 16) := by
  apply ends_readInt 4
  rintro vTcFlow rest rfl
  apply ends_readInt 2
  rintro payloadLen rest rfl
  apply ends_readInt 1
  rintro nh rest rfl
  apply ends_readInt 1
  rintro hopLimit rest rfl
  apply ends_takeBytes
  rintro src rest rfl hsrc
  apply ends_takeBytes
  rintro dst rest rfl hdst
  exact ⟨hsrc, hdst⟩

/-- A Fragment header whose offset is not zero, found along whole extension headers: the headers
with it, the header it names next, and the body. -/
def fragmentBody : Nat → Nat → Bytes → Option (Bytes × Nat × Bytes)
  | 0, _, _ => none
  | fuel + 1, cur, s =>
    if !isIp6Ext cur then none
    else
      match s with
      | nxt :: hlen :: _ =>
        let size := extSize cur hlen.toNat
        if s.length < size then none
        else if cur = 44 ∧ BigEndian.toNat ((s.drop 2).take 2) / 8 ≠ 0 then
          some (s.take size, nxt.toNat, s.drop size)
        else
          (fragmentBody fuel nxt.toNat (s.drop size)).map fun found =>
            (s.take size ++ found.1, found.2)
      | _ => none

/-- The body starts with what would be a whole extension header of a kind. -/
def looksLikeExt (nxt : Nat) (body : Bytes) : Bool :=
  isIp6Ext nxt &&
    match body with
    | _ :: hlen :: _ => decide (extSize nxt hlen.toNat ≤ body.length)
    | _ => false

theorem extSize_pos (cur hlen : Nat) : 0 < extSize cur hlen := by
  rw [extSize]
  split
  · decide
  · split <;> omega

theorem fragment_iff {cur : Nat} {s : Bytes} (hsize : extSize cur hlen ≤ s.length) :
    (cur = 44 && decide (4 ≤ s.length) && decide (BigEndian.toNat ((s.drop 2).take 2) / 8 ≠ 0)) =
      decide (cur = 44 ∧ BigEndian.toNat ((s.drop 2).take 2) / 8 ≠ 0) := by
  by_cases hcur : cur = 44
  · rw [extSize, if_pos hcur] at hsize
    have hlong : 4 ≤ s.length := by omega
    simp [hcur, hlong]
  · simp [hcur]

/-- The walk goes on behind the Fragment header as it would at the start of a packet. -/
theorem walkIp6Ext_fragment {fuel cur nxt : Nat} {s headers body : Bytes} (incomplete : Bool)
    (hfuel : s.length < fuel) (h : fragmentBody fuel cur s = some (headers, nxt, body)) :
    ∃ fuel', body.length < fuel' ∧ walkIp6Ext fuel cur s incomplete =
      { walkIp6Ext fuel' nxt body true with
        headers := headers ++ (walkIp6Ext fuel' nxt body true).headers } := by
  induction fuel generalizing cur s headers incomplete with
  | zero => cases h
  | succ fuel ih =>
    rcases s with _ | ⟨first, _ | ⟨hlen, rest⟩⟩
    · simp [fragmentBody] at h
    · simp [fragmentBody] at h
    rw [fragmentBody] at h
    rw [walkIp6Ext]
    have hpos := extSize_pos cur hlen.toNat
    split at h
    · cases h
    next hext =>
    rw [if_neg hext]
    dsimp only at h ⊢
    split at h
    · cases h
    next hlong =>
    rw [if_neg hlong, fragment_iff (Nat.le_of_not_lt hlong)]
    have hfuel' : ((first :: hlen :: rest).drop (extSize cur hlen.toNat)).length < fuel := by
      rw [List.length_drop]
      omega
    split at h
    · next hfragment =>
        obtain ⟨rfl, hrest⟩ := Prod.mk.inj (Option.some.inj h)
        obtain ⟨rfl, rfl⟩ := Prod.mk.inj hrest
        rw [decide_eq_true hfragment, Bool.or_true]
        exact ⟨fuel, hfuel', rfl⟩
    · next hfragment =>
        rw [Option.map_eq_some_iff] at h
        obtain ⟨⟨later, found⟩, hlater, heq⟩ := h
        obtain ⟨rfl, rfl⟩ := Prod.mk.inj heq
        rw [decide_eq_false hfragment, Bool.or_false]
        obtain ⟨fuel', hbody, hwalk⟩ := ih incomplete hfuel' hlater
        refine ⟨fuel', hbody, ?_⟩
        rw [hwalk, List.append_assoc]

theorem incomplete_walkIp6Ext (fuel cur : Nat) (s : Bytes) :
    (walkIp6Ext fuel cur s true).incomplete = true := by
  induction fuel generalizing cur s with
  | zero => rfl
  | succ fuel ih =>
    rcases s with _ | ⟨first, _ | ⟨hlen, rest⟩⟩
    · simp only [walkIp6Ext]
      split <;> rfl
    · simp only [walkIp6Ext]
      split <;> rfl
    · rw [walkIp6Ext]
      split
      · rfl
      · dsimp only
        split
        · rfl
        · exact ih _ _

/-- The walk stops where the body does not look like an extension header. -/
theorem walkIp6Ext_body {fuel nxt : Nat} {body : Bytes} (hfuel : body.length < fuel)
    (h : looksLikeExt nxt body = false) :
    ∃ truncated, walkIp6Ext fuel nxt body true = ⟨nxt, [], body, true, truncated⟩ := by
  obtain ⟨fuel, rfl⟩ := Nat.exists_eq_succ_of_ne_zero (Nat.ne_of_gt (Nat.zero_lt_of_lt hfuel))
  rcases body with _ | ⟨first, _ | ⟨hlen, rest⟩⟩
  · simp only [walkIp6Ext]
    split
    · exact ⟨false, rfl⟩
    · exact ⟨true, rfl⟩
  · simp only [walkIp6Ext]
    split
    · exact ⟨false, rfl⟩
    · exact ⟨true, rfl⟩
  · rw [walkIp6Ext]
    split
    · exact ⟨false, rfl⟩
    · next hext =>
        have hshort : (first :: hlen :: rest).length < extSize nxt hlen.toNat := by
          have hkind : isIp6Ext nxt = true := by simpa using hext
          simpa [looksLikeExt, hkind] using h
        dsimp only
        rw [if_pos hshort]
        exact ⟨true, rfl⟩

/-- Where it does look like one, it is taken for one. -/
theorem length_rest_walkIp6Ext {fuel nxt : Nat} {body : Bytes} (hfuel : body.length < fuel)
    (h : looksLikeExt nxt body = true) :
    (walkIp6Ext fuel nxt body true).rest.length < body.length := by
  obtain ⟨fuel, rfl⟩ := Nat.exists_eq_succ_of_ne_zero (Nat.ne_of_gt (Nat.zero_lt_of_lt hfuel))
  rcases body with _ | ⟨first, _ | ⟨hlen, rest⟩⟩
  · simp [looksLikeExt] at h
  · simp [looksLikeExt] at h
  rw [looksLikeExt, Bool.and_eq_true] at h
  obtain ⟨hext, hsize⟩ := h
  have hpos := extSize_pos nxt hlen.toNat
  have hlong := of_decide_eq_true hsize
  rw [walkIp6Ext, if_neg (by simp [hext])]
  dsimp only
  rw [if_neg (Nat.not_lt.mpr hlong)]
  generalize (true || _) = incomplete
  have happend := congrArg List.length (walkIp6Ext_append fuel first.toNat
    ((first :: hlen :: rest).drop (extSize nxt hlen.toNat)) incomplete)
  rw [List.length_append, List.length_drop] at happend
  dsimp only
  omega

theorem walk_of_body {r : IP6Reading} {headers body : Bytes} {nxt : Nat}
    (hfragment : fragmentBody (r.range.length + 1) r.nh r.range = some (headers, nxt, body))
    (hlooks : looksLikeExt nxt body = false) : r.walk.headers = headers ∧ r.walk.rest = body := by
  obtain ⟨fuel, hfuel, hwalk⟩ := walkIp6Ext_fragment false (Nat.lt_succ_self _) hfragment
  obtain ⟨truncated, hstop⟩ := walkIp6Ext_body hfuel hlooks
  rw [IP6Reading.walk, hwalk, hstop]
  exact ⟨List.append_nil headers, rfl⟩

/-- The body of a fragment is the payload when it does not look like an extension header. -/
theorem decodeIp6Payload_isRange_iff (n : Nat) {r : IP6Reading} {headers body : Bytes} {nxt : Nat}
    (hfragment : fragmentBody (r.range.length + 1) r.nh r.range = some (headers, nxt, body)) :
    (∃ payload, decodeIp6Payload (decode n) r.walk = .ok payload ∧ payload.IsRange body) ↔
      looksLikeExt nxt body = false := by
  obtain ⟨fuel, hfuel, hwalk⟩ := walkIp6Ext_fragment false (Nat.lt_succ_self _) hfragment
  have hrest : r.walk.rest = (walkIp6Ext fuel nxt body true).rest := by rw [IP6Reading.walk, hwalk]
  have hincomplete : r.walk.incomplete = true := by
    rw [IP6Reading.walk, hwalk]
    exact incomplete_walkIp6Ext fuel nxt body
  have hpayload : decodeIp6Payload (decode n) r.walk =
      .ok (if r.walk.rest.isEmpty then .pkt else .null r.walk.rest) := by
    rw [decodeIp6Payload, hincomplete]
    split <;> rfl
  rw [hpayload]
  cases hlooks : looksLikeExt nxt body with
  | false =>
    have hbody : r.walk.rest = body := (walk_of_body hfragment hlooks).2
    rw [hbody]
    exact iff_of_true ⟨_, rfl, Layer.isRange_ofRange body⟩ rfl
  | true =>
    have hshort := length_rest_walkIp6Ext hfuel hlooks
    rw [← hrest] at hshort
    apply iff_of_false _ (by decide)
    rintro ⟨payload, hparsed, hrange⟩
    have hlength := congrArg List.length (hrange.write {})
    rw [← Except.ok.inj hparsed, (Layer.isRange_ofRange r.walk.rest).write] at hlength
    omega

theorem decode_ip6_of_read {n : Nat} {s : Bytes} {r : IP6Reading} (hread : readIp6 s = .ok r) :
    decode (n + 1) .ip6 s =
      decodeIp6Payload (decode n) r.walk >>= fun payload =>
        pure (.ip6 r.header payload r.trailer) := by
  rw [decode, decodeIp6_eq, hread]
  rfl

theorem injective_ip6 (h : IP6Header) (trailer : Bytes) :
    Function.Injective fun payload => Layer.ip6 h payload trailer := by
  intro payload payload' heq
  injection heq

theorem write_ip6_range {h : IP6Header} (hsrc : h.src.length = 16) (hdst : h.dst.length = 16)
    (trailer : Bytes) {body : Bytes} {payload : Layer} (hrange : payload.IsRange body)
    (k : Keywords) : ∃ front back, front.length = 40 + h.extHdrs.length ∧
      (Layer.ip6 h payload trailer).write k = front ++ body ++ back := by
  have hbody (k' : Keywords) :
      (if k.forIcmp then payload.write {} else payload.write k') = body := by
    cases k.forIcmp <;> exact hrange.write _
  simp only [Layer.write, hbody]
  refine ⟨_, trailer, ?_, rfl⟩
  simp [IP6Header.bytes, hsrc, hdst]
  omega

/-- The body of an IPv6 fragment is kept as it is when it does not look like an extension
header of the kind its Fragment header names. -/
theorem ip6_keepsBody_iff (n : Nat) {s : Bytes} {r : IP6Reading} {headers body : Bytes}
    {nxt : Nat} (hread : readIp6 s = .ok r)
    (hfragment : fragmentBody (r.range.length + 1) r.nh r.range = some (headers, nxt, body)) :
    KeepsBody (decode (n + 1) .ip6 s) (fun payload => .ip6 r.header payload r.trailer)
        (40 + headers.length) body ↔ looksLikeExt nxt body = false := by
  obtain ⟨hsrc, hdst⟩ := (readIp6_ends s).of_ok hread
  have hparsed := decode_ip6_of_read (n := n) hread
  rw [← decodeIp6Payload_isRange_iff n hfragment,
    ← exists_packet_iff (injective_ip6 r.header r.trailer), ← hparsed]
  constructor
  · rintro ⟨payload, hok, hrange, -⟩
    exact ⟨payload, hok, hrange⟩
  · rintro ⟨payload, hok, hrange⟩
    have hlooks : looksLikeExt nxt body = false := by
      rw [← decodeIp6Payload_isRange_iff n hfragment,
        ← exists_packet_iff (injective_ip6 r.header r.trailer), ← hparsed]
      exact ⟨payload, hok, hrange⟩
    refine ⟨payload, hok, hrange, fun k => ?_⟩
    rw [← (walk_of_body hfragment hlooks).1]
    exact write_ip6_range (h := r.header) hsrc hdst r.trailer hrange k

/-- The same for an IPv6 packet right behind the header of a frame. -/
theorem ethernet_keepsBody_ip6_iff {s t : Bytes} {eth : EthernetHeader} {r : IP6Reading}
    {headers body : Bytes} {nxt : Nat} (hframe : readEthernet s = .ok (eth, t))
    (htype : eth.type = 0x86dd) (hread : readIp6 t = .ok r)
    (hfragment : fragmentBody (r.range.length + 1) r.nh r.range = some (headers, nxt, body)) :
    KeepsBody (ethernet s) (fun payload => .ethernet eth (.ip6 r.header payload r.trailer))
        ((eth.bytes eth.type).length + (40 + headers.length)) body ↔
      looksLikeExt nxt body = false := by
  obtain ⟨n, hn⟩ := Nat.exists_eq_succ_of_ne_zero (length_pos_of_readEthernet hframe).ne'
  have hparsed : ethernet s = decode (n + 1) .ip6 t >>= fun payload =>
      pure (.ethernet eth payload) := by
    rw [ethernet_of_read hframe, hn, htype, decodeEthernetPayload, if_neg (by decide), if_pos rfl]
  rw [← ip6_keepsBody_iff n hread hfragment, hparsed]
  constructor
  · rintro ⟨payload, hok, hrange, -⟩
    rw [ip6_keepsBody_iff n hread hfragment, ← decodeIp6Payload_isRange_iff n hfragment,
      ← exists_packet_iff (injective_ip6 r.header r.trailer),
      ← decode_ip6_of_read (n := n) hread]
    cases hinner : decode (n + 1) .ip6 t with
    | error e =>
      rw [hinner] at hok
      cases hok
    | ok l =>
      rw [hinner] at hok
      have hl := injective_ethernet eth (Except.ok.inj hok)
      exact ⟨payload, by rw [hl], hrange⟩
  · rintro ⟨payload, hok, hrange, hwrite⟩
    refine ⟨payload, ?_, hrange, fun k => write_ethernet (hwrite k)⟩
    rw [hok]
    rfl

/-- A fragment behind the first is kept as it is, in whatever frame, exactly when an IPv4 one is
empty or of a protocol that is not decoded, and an IPv6 one does not look like the extension
header its Fragment header names. -/
theorem fragments_kept_iff (n : Nat) (s : Bytes) :
    (∀ (h : IPHeader) (body trailer : Bytes),
      readIp s = .ok (h, body, trailer) → h.fragOffset ≠ 0 →
        (KeepsBody (decode (n + 1) .ip s) (fun payload => .ip h payload trailer)
            (20 + h.options.length) body ↔ body = [] ∨ hasIpDecoder h.proto = false)) ∧
      (∀ (t : Bytes) (eth : EthernetHeader) (h : IPHeader) (body trailer : Bytes),
        readEthernet s = .ok (eth, t) → eth.type = 0x0800 →
        readIp t = .ok (h, body, trailer) → h.fragOffset ≠ 0 →
          (KeepsBody (ethernet s) (fun payload => .ethernet eth (.ip h payload trailer))
              ((eth.bytes eth.type).length + (20 + h.options.length)) body ↔
            body = [] ∨ hasIpDecoder h.proto = false)) ∧
      (∀ (r : IP6Reading) (headers body : Bytes) (nxt : Nat), readIp6 s = .ok r →
        fragmentBody (r.range.length + 1) r.nh r.range = some (headers, nxt, body) →
          (KeepsBody (decode (n + 1) .ip6 s) (fun payload => .ip6 r.header payload r.trailer)
              (40 + headers.length) body ↔ looksLikeExt nxt body = false)) ∧
      ∀ (t : Bytes) (eth : EthernetHeader) (r : IP6Reading) (headers body : Bytes) (nxt : Nat),
        readEthernet s = .ok (eth, t) → eth.type = 0x86dd → readIp6 t = .ok r →
        fragmentBody (r.range.length + 1) r.nh r.range = some (headers, nxt, body) →
          (KeepsBody (ethernet s) (fun payload => .ethernet eth (.ip6 r.header payload r.trailer))
              ((eth.bytes eth.type).length + (40 + headers.length)) body ↔
            looksLikeExt nxt body = false) :=
  ⟨fun _ _ _ hread _ => ip_keepsBody_iff n hread,
    fun _ _ _ _ _ hframe htype hread _ => ethernet_keepsBody_iff hframe htype hread,
    fun _ _ _ _ hread hfragment => ip6_keepsBody_iff n hread hfragment,
    fun _ _ _ _ _ _ hframe htype hread hfragment =>
      ethernet_keepsBody_ip6_iff hframe htype hread hfragment⟩

/-- A UDP fragment at offset 185 with three bytes. -/
def shortFragment : Bytes :=
  [0x45, 0, 0, 23, 0, 1, 0, 185, 64, 17, 0, 0, 10, 0, 0, 1, 10, 0, 0, 2, 1, 2, 3]

def shortFragmentHeader : IPHeader :=
  ⟨0x45, 0, 23, 1, 185, 64, 17, 0, [10, 0, 0, 1], [10, 0, 0, 2], []⟩

/-- The same in a frame, which takes the path for UDP. -/
def shortFragmentFrame : Bytes := List.replicate 12 0 ++ [8, 0] ++ shortFragment

/-- An IPv6 fragment whose Fragment header names destination options. -/
def optionsFragment : Bytes :=
  [0x60, 0, 0, 0, 0, 16, 44, 64] ++ List.replicate 32 0 ++
    [60, 0, 5, 200, 0, 0, 0, 1] ++ [17, 0, 1, 4, 0, 0, 0, 0]

def optionsFragmentReading : IP6Reading :=
  ⟨0x60000000, 16, 44, 64, List.replicate 16 0, List.replicate 16 0,
    [60, 0, 5, 200, 0, 0, 0, 1, 17, 0, 1, 4, 0, 0, 0, 0], []⟩

theorem fragments_kept_iff_short :
    ¬KeepsBody (decode 1 .ip shortFragment) (fun payload => .ip shortFragmentHeader payload [])
        20 [1, 2, 3] ∧
      ¬KeepsBody (ethernet shortFragmentFrame)
        (fun payload => .ethernet ⟨List.replicate 6 0, List.replicate 6 0, none, 0x0800⟩
          (.ip shortFragmentHeader payload [])) 34 [1, 2, 3] ∧
      ¬KeepsBody (decode 1 .ip6 optionsFragment)
        (fun payload => .ip6 optionsFragmentReading.header payload []) 48
        [17, 0, 1, 4, 0, 0, 0, 0] := by
  obtain ⟨hip, -⟩ := fragments_kept_iff 0 shortFragment
  obtain ⟨-, hframe, -⟩ := fragments_kept_iff 0 shortFragmentFrame
  obtain ⟨-, -, hip6, -⟩ := fragments_kept_iff 0 optionsFragment
  refine ⟨?_, ?_, ?_⟩
  · exact fun hkept => absurd ((hip shortFragmentHeader [1, 2, 3] []
      (by decide +kernel) (by decide)).mp hkept) (by decide)
  · exact fun hkept => absurd ((hframe shortFragment
      ⟨List.replicate 6 0, List.replicate 6 0, none, 0x0800⟩ shortFragmentHeader [1, 2, 3] []
      (by decide +kernel) rfl (by decide +kernel) (by decide)).mp hkept) (by decide)
  · exact fun hkept => absurd ((hip6 optionsFragmentReading
      [60, 0, 5, 200, 0, 0, 0, 1] [17, 0, 1, 4, 0, 0, 0, 0] 60
      rfl (by decide +kernel)).mp hkept) (by decide)

/-- The short fragment is not parsed at all. -/
theorem not_fragments_kept :
    ¬∀ (n : Nat) (s : Bytes) (h : IPHeader) (body trailer : Bytes),
      readIp s = .ok (h, body, trailer) → h.fragOffset ≠ 0 →
        KeepsBody (decode (n + 1) .ip s) (fun payload => .ip h payload trailer)
          (20 + h.options.length) body := by
  intro h
  obtain ⟨payload, hparsed, -⟩ := h 0 shortFragment shortFragmentHeader [1, 2, 3] []
    (by decide +kernel) (by decide)
  have hraised : decode 1 .ip shortFragment = .error .valueError := by decide +kernel
  rw [hraised] at hparsed
  cases hparsed

end Packets.Inet
