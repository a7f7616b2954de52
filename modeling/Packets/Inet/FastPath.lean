/-
The fast path for UDP over IPv4 (`core/inetpkt.pyx`).

Where a few bytes of a frame say that it carries UDP over IPv4, one function makes of it what
the general decoders would: the layers, and the pseudo header an `IP` keeps.
-/
import Packets.Inet.Decode
import Packets.Lib.Fallible

namespace Packets.Inet

open BigEndian (readInt takeBytes ofNat readInt_sound takeBytes_sound)

/-- A byte of a frame, as a number. -/
def byteAt (s : Bytes) (i : Nat) : Nat := (s.getD i 0).toNat

/-- Where an IPv4 header that carries UDP starts. -/
def preflight (s : Bytes) : Option Nat :=
  if s.length < 24 then none
  else
    let type := byteAt s 12 * 256 + byteAt s 13
    let ipStart : Option Nat :=
      if type = 0x0800 then some 14
      else if type = 0x8100 ∧ 28 ≤ s.length ∧ byteAt s 16 * 256 + byteAt s 17 = 0x0800 then
        some 18
      else none
    ipStart.filter fun i =>
      byteAt s i / 16 = 4 && IPV4_MIN_HDR_LEN ≤ byteAt s i % 16 && byteAt s (i + 9) = 17

def decodeUdpFast (s : Bytes) : Except Failure Layer := do
  let (sport, rest) ← need (readInt 2 s)
  let (dport, rest) ← need (readInt 2 rest)
  let (ulen, rest) ← need (readInt 2 rest)
  let (checksum, rest) ← need (readInt 2 rest)
  let length ← declared ulen 8 rest.length
  pure (.udp ⟨sport, dport, ulen, checksum⟩ (.null (rest.take length)) (rest.drop length))

def decodeIpUdpFast (s : Bytes) : Except Failure Layer := do
  let (versionIphl, rest) ← need (readInt 1 s)
  let (tos, rest) ← need (readInt 1 rest)
  let (totalLen, rest) ← need (readInt 2 rest)
  let (ident, rest) ← need (readInt 2 rest)
  let (flagsOffset, rest) ← need (readInt 2 rest)
  let (ttl, rest) ← need (readInt 1 rest)
  let (proto, rest) ← need (readInt 1 rest)
  let (checksum, rest) ← need (readInt 2 rest)
  let (src, rest) ← need (takeBytes 4 rest)
  let (dst, rest) ← need (takeBytes 4 rest)
  let iphl := versionIphl % 16
  let (options, rest) ← need (takeBytes (iphl * 4 - 20) rest)
  let length ← declared totalLen (iphl * 4) rest.length
  let body := rest.take length
  let payload ← if body.isEmpty then pure .pkt else decodeUdpFast body
  pure (.ip ⟨versionIphl, tos, totalLen, ident, flagsOffset, ttl, proto, checksum, src, dst,
    options⟩ payload (rest.drop length))

/-- `_decode_eth_ip_udp_fast` -/
def decodeEthIpUdpFast (s : Bytes) : Except Failure Layer := do
  let (dstMac, rest) ← need (takeBytes 6 s)
  let (srcMac, rest) ← need (takeBytes 6 rest)
  let (type, rest) ← need (readInt 2 rest)
  if type = 0x8100 then
    let (tci, rest) ← need (readInt 2 rest)
    let (type, rest) ← need (readInt 2 rest)
    let payload ← decodeIpUdpFast rest
    pure (.ethernet ⟨dstMac, srcMac, some tci, type⟩ payload)
  else
    let payload ← decodeIpUdpFast rest
    pure (.ethernet ⟨dstMac, srcMac, none, type⟩ payload)

/-- `Ethernet(s)` -/
def ethernet (s : Bytes) : Except Failure Layer :=
  if (preflight s).isSome then decodeEthIpUdpFast s else decode (s.length + 1) .ethernet s

theorem need_bind_some {α β : Type} (a : α) (f : α → Except Failure β) :
    (need (some a) >>= f) = f a := rfl

theorem need_bind_congr {α β : Type} {o : Option α} {f g : α → Except Failure β}
    (h : ∀ a, o = some a → f a = g a) : need o >>= f = need o >>= g := by
  cases o with
  | none => rfl
  | some a => exact h a rfl

theorem decodeUdpFast_eq (s : Bytes) : decodeUdpFast s = decodeUdp s := by
  apply need_bind_congr
  rintro ⟨sport, rest⟩ -
  apply need_bind_congr
  rintro ⟨dport, rest⟩ -
  apply need_bind_congr
  rintro ⟨ulen, rest⟩ -
  apply need_bind_congr
  rintro ⟨checksum, rest⟩ -
  by_cases hzero : ulen = 0
  · simp [hzero, declared, pure, Except.pure, bind, Except.bind]
  · by_cases hshort : ulen < 8
    · simp [hzero, hshort, declared, bind, Except.bind]
    · have htake : rest.take (min (ulen - 8) rest.length) = rest.take (ulen - 8) := by
        simp [List.take_eq_take_iff]
      have hdrop : rest.drop (min (ulen - 8) rest.length) = rest.drop (ulen - 8) := by
        simp [List.drop_eq_drop_iff]
      simp [hzero, hshort, declared, pure, Except.pure, bind, Except.bind, htake, hdrop]

theorem byteAt_rest {s front rest : Bytes} {n : Nat} (hs : s = front ++ rest)
    (hfront : front.length = n) (i : Nat) : byteAt s (n + i) = byteAt rest i := by
  subst hs hfront
  simp [byteAt, List.getElem?_append_right]

theorem byteAt_int {n : Nat} (h : n < 256) (rest : Bytes) : byteAt (ofNat 1 n ++ rest) 0 = n := by
  simp [byteAt, ofNat, Nat.mod_eq_of_lt h]

theorem byteAt_short {n : Nat} (h : n < 65536) (rest : Bytes) :
    byteAt (ofNat 2 n ++ rest) 0 * 256 + byteAt (ofNat 2 n ++ rest) 1 = n := by
  have hhigh : n / 256 % 256 = n / 256 := Nat.mod_eq_of_lt (by omega)
  simp [byteAt, ofNat, hhigh]
  omega

theorem decodeIpUdpFast_eq (inner : Decoder) {s : Bytes}
    (hiphl : IPV4_MIN_HDR_LEN ≤ byteAt s 0 % 16) (hudp : byteAt s 9 = 17) :
    decodeIpUdpFast s = decodeIp inner s := by
  apply need_bind_congr
  rintro ⟨versionIphl, rest⟩ hread
  obtain ⟨rfl, hlt⟩ := readInt_sound hread
  rw [byteAt_int (by simpa using hlt)] at hiphl
  apply need_bind_congr
  rintro ⟨tos, rest⟩ hread
  obtain ⟨rfl, -⟩ := readInt_sound hread
  apply need_bind_congr
  rintro ⟨totalLen, rest⟩ hread
  obtain ⟨rfl, -⟩ := readInt_sound hread
  apply need_bind_congr
  rintro ⟨ident, rest⟩ hread
  obtain ⟨rfl, -⟩ := readInt_sound hread
  apply need_bind_congr
  rintro ⟨flagsOffset, rest⟩ hread
  obtain ⟨rfl, -⟩ := readInt_sound hread
  apply need_bind_congr
  rintro ⟨ttl, rest⟩ hread
  obtain ⟨rfl, -⟩ := readInt_sound hread
  apply need_bind_congr
  rintro ⟨proto, rest⟩ hread
  obtain ⟨rfl, hproto⟩ := readInt_sound hread
  have hproto : proto = 17 := by
    simp [byteAt, ofNat] at hudp
    omega
  apply need_bind_congr
  rintro ⟨checksum, rest⟩ -
  apply need_bind_congr
  rintro ⟨src, rest⟩ -
  apply need_bind_congr
  rintro ⟨dst, rest⟩ -
  have hnot : ¬versionIphl % 16 < IPV4_MIN_HDR_LEN := by omega
  simp only [hnot, if_false]
  apply need_bind_congr
  rintro ⟨options, rest⟩ -
  have hpayload (body : Bytes) :
      (if body.isEmpty then pure Layer.pkt else decodeUdpFast body) =
        decodeIpPayload inner proto body := by
    simp [decodeIpPayload, hproto, decodeUdpFast_eq]
  apply bind_congr
  intro length
  dsimp only
  rw [← hpayload]
  split <;> rfl

/-- What the preflight finds: IPv4 behind the type, or behind a tag. -/
theorem preflight_isSome {s : Bytes} (h : (preflight s).isSome) :
    (∃ i, (i = 14 ∧ byteAt s 12 * 256 + byteAt s 13 = 0x0800 ∨
        i = 18 ∧ byteAt s 12 * 256 + byteAt s 13 = 0x8100 ∧
          byteAt s 16 * 256 + byteAt s 17 = 0x0800) ∧
      IPV4_MIN_HDR_LEN ≤ byteAt s i % 16 ∧ byteAt s (i + 9) = 17) := by
  obtain ⟨i, hi⟩ := Option.isSome_iff_exists.mp h
  simp only [preflight] at hi
  split at hi
  · cases hi
  · simp only [Option.filter_eq_some_iff, Bool.and_eq_true, decide_eq_true_eq] at hi
    obtain ⟨hstart, ⟨-, hiphl⟩, hudp⟩ := hi
    refine ⟨i, ?_, hiphl, hudp⟩
    split at hstart
    · rename_i htype
      cases hstart
      exact .inl ⟨rfl, htype⟩
    · split at hstart
      · rename_i htag
        cases hstart
        exact .inr ⟨rfl, htag.1, htag.2.2⟩
      · cases hstart

theorem decodeEthIpUdpFast_eq {inner inner' : Decoder}
    (hinner : ∀ t, inner .ip t = decodeIp inner' t) {s : Bytes} (h : (preflight s).isSome) :
    decodeEthIpUdpFast s = decodeEthernet inner s := by
  obtain ⟨i, hstart, hiphl, hudp⟩ := preflight_isSome h
  have hip (rest : Bytes) (hrest : ∀ j, byteAt s (i + j) = byteAt rest j) :
      decodeIpUdpFast rest = inner .ip rest := by
    rw [hinner]
    apply decodeIpUdpFast_eq
    · rwa [← hrest 0]
    · rwa [← hrest 9]
  apply need_bind_congr
  rintro ⟨dstMac, rest₁⟩ hread
  obtain ⟨hs₁, hdst⟩ := takeBytes_sound hread
  have hat₁ (j : Nat) : byteAt s (6 + j) = byteAt rest₁ j := byteAt_rest hs₁ hdst j
  apply need_bind_congr
  rintro ⟨srcMac, rest₂⟩ hread
  obtain ⟨hs₂, hsrc⟩ := takeBytes_sound hread
  have hat₂ (j : Nat) : byteAt s (12 + j) = byteAt rest₂ j := by
    have hskip := hat₁ (6 + j)
    rwa [← Nat.add_assoc, byteAt_rest hs₂ hsrc] at hskip
  apply need_bind_congr
  rintro ⟨type, rest₃⟩ hread
  obtain ⟨hs₃, hlt⟩ := readInt_sound hread
  have hat₃ (j : Nat) : byteAt s (14 + j) = byteAt rest₃ j := by
    have hskip := hat₂ (2 + j)
    rwa [← Nat.add_assoc, byteAt_rest hs₃ (BigEndian.length_ofNat 2 type)] at hskip
  have htype : byteAt s 12 * 256 + byteAt s 13 = type := by
    have hshort := byteAt_short (by simpa using hlt) rest₃
    rwa [← hs₃, ← hat₂, ← hat₂] at hshort
  rcases hstart with ⟨rfl, hipv4⟩ | ⟨rfl, htag, hipv4⟩
  · have heq : type = 0x0800 := htype.symm.trans hipv4
    simp [heq, decodeEthernetPayload, hip rest₃ hat₃]
  · have heq : type = 0x8100 := htype.symm.trans htag
    simp only [heq, if_true]
    apply need_bind_congr
    rintro ⟨tci, rest₄⟩ hread
    obtain ⟨hs₄, -⟩ := readInt_sound hread
    have hat₄ (j : Nat) : byteAt s (16 + j) = byteAt rest₄ j := by
      have hskip := hat₃ (2 + j)
      rwa [← Nat.add_assoc, byteAt_rest hs₄ (BigEndian.length_ofNat 2 tci)] at hskip
    apply need_bind_congr
    rintro ⟨inside, rest₅⟩ hread
    obtain ⟨hs₅, hlt⟩ := readInt_sound hread
    have hat₅ (j : Nat) : byteAt s (18 + j) = byteAt rest₅ j := by
      have hskip := hat₄ (2 + j)
      rwa [← Nat.add_assoc, byteAt_rest hs₅ (BigEndian.length_ofNat 2 inside)] at hskip
    have hinside : byteAt s 16 * 256 + byteAt s 17 = inside := by
      have hshort := byteAt_short (by simpa using hlt) rest₅
      rwa [← hs₅, ← hat₄, ← hat₄] at hshort
    have heq : inside = 0x0800 := hinside.symm.trans hipv4
    simp [heq, decodeEthernetPayload, hip rest₅ hat₅]

/-- Which path a frame takes does not change what it is decoded to. -/
theorem ethernet_eq_decode (s : Bytes) : ethernet s = decode (s.length + 1) .ethernet s := by
  rw [ethernet]
  split
  · rename_i h
    obtain ⟨i, hpreflight⟩ := Option.isSome_iff_exists.mp h
    have hlen : s.length - 1 + 1 = s.length := by
      simp only [preflight] at hpreflight
      split at hpreflight
      · cases hpreflight
      · omega
    rw [decode, ← hlen]
    have hinner (t : Bytes) :
        decode (s.length - 1 + 1) .ip t = decodeIp (decode (s.length - 1)) t := rfl
    exact decodeEthIpUdpFast_eq hinner h
  · rfl

open BigEndian (readInt takeBytes)
open Fallible

/-- A parsed packet, and the `ipv4_pheader` of the `IP` it is or carries. -/
structure ParsedPacket where
  layer : Layer
  ipv4Pheader : Option Ip4Ph
deriving DecidableEq

/-- `_decode_ip`.  The protocol and the addresses are stored twice as they are read. -/
def decodeIpParsed (inner : Decoder) (s : Bytes) : Except Failure ParsedPacket := do
  let (versionIphl, rest) ← need (readInt 1 s)
  let (tos, rest) ← need (readInt 1 rest)
  let (totalLen, rest) ← need (readInt 2 rest)
  let (ident, rest) ← need (readInt 2 rest)
  let (flagsOffset, rest) ← need (readInt 2 rest)
  let (ttl, rest) ← need (readInt 1 rest)
  let (proto, rest) ← need (readInt 1 rest)
  let (checksum, rest) ← need (readInt 2 rest)
  let (src, rest) ← need (takeBytes 4 rest)
  let (dst, rest) ← need (takeBytes 4 rest)
  let ipv4Pheader : Ip4Ph := ⟨src, dst, proto⟩
  let iphl := versionIphl % 16
  if iphl < IPV4_MIN_HDR_LEN then .error .valueError
  else
    let (options, rest) ← need (takeBytes (iphl * 4 - 20) rest)
    let length ← declared totalLen (iphl * 4) rest.length
    let payload ← decodeIpPayload inner proto (rest.take length)
    pure ⟨.ip ⟨versionIphl, tos, totalLen, ident, flagsOffset, ttl, proto, checksum, src, dst,
      options⟩ payload (rest.drop length), some ipv4Pheader⟩

/-- The part of `_decode_eth_ip_udp_fast` that reads the IPv4 header. -/
def decodeIpUdpFastParsed (s : Bytes) : Except Failure ParsedPacket := do
  let (versionIphl, rest) ← need (readInt 1 s)
  let (tos, rest) ← need (readInt 1 rest)
  let (totalLen, rest) ← need (readInt 2 rest)
  let (ident, rest) ← need (readInt 2 rest)
  let (flagsOffset, rest) ← need (readInt 2 rest)
  let (ttl, rest) ← need (readInt 1 rest)
  let (proto, rest) ← need (readInt 1 rest)
  let (checksum, rest) ← need (readInt 2 rest)
  let (src, rest) ← need (takeBytes 4 rest)
  let (dst, rest) ← need (takeBytes 4 rest)
  let ipv4Pheader : Ip4Ph := ⟨src, dst, proto⟩
  let iphl := versionIphl % 16
  let (options, rest) ← need (takeBytes (iphl * 4 - 20) rest)
  let length ← declared totalLen (iphl * 4) rest.length
  let body := rest.take length
  let payload ← if body.isEmpty then pure .pkt else decodeUdpFast body
  pure ⟨.ip ⟨versionIphl, tos, totalLen, ident, flagsOffset, ttl, proto, checksum, src, dst,
    options⟩ payload (rest.drop length), some ipv4Pheader⟩

/-- What an Ethernet frame has for a payload. -/
def decodeEthernetPayloadParsed (inner inner' : Decoder) (type : Nat) (s : Bytes) :
    Except Failure ParsedPacket :=
  if type = 0x0800 then decodeIpParsed inner' s
  else do
    let payload ← decodeEthernetPayload inner type s
    pure ⟨payload, none⟩

/-- `_decode_ethernet`.  The second decoder is what an `IP` in the frame is given. -/
def decodeEthernetParsed (inner inner' : Decoder) (s : Bytes) : Except Failure ParsedPacket := do
  let (dstMac, rest) ← need (takeBytes 6 s)
  let (srcMac, rest) ← need (takeBytes 6 rest)
  let (type, rest) ← need (readInt 2 rest)
  if type = 0x8100 then
    let (tci, rest) ← need (readInt 2 rest)
    let (type, rest) ← need (readInt 2 rest)
    let payload ← decodeEthernetPayloadParsed inner inner' type rest
    pure ⟨.ethernet ⟨dstMac, srcMac, some tci, type⟩ payload.layer, payload.ipv4Pheader⟩
  else
    let payload ← decodeEthernetPayloadParsed inner inner' type rest
    pure ⟨.ethernet ⟨dstMac, srcMac, none, type⟩ payload.layer, payload.ipv4Pheader⟩

/-- `_decode_eth_ip_udp_fast` -/
def decodeEthIpUdpFastParsed (s : Bytes) : Except Failure ParsedPacket := do
  let (dstMac, rest) ← need (takeBytes 6 s)
  let (srcMac, rest) ← need (takeBytes 6 rest)
  let (type, rest) ← need (readInt 2 rest)
  if type = 0x8100 then
    let (tci, rest) ← need (readInt 2 rest)
    let (type, rest) ← need (readInt 2 rest)
    let payload ← decodeIpUdpFastParsed rest
    pure ⟨.ethernet ⟨dstMac, srcMac, some tci, type⟩ payload.layer, payload.ipv4Pheader⟩
  else
    let payload ← decodeIpUdpFastParsed rest
    pure ⟨.ethernet ⟨dstMac, srcMac, none, type⟩ payload.layer, payload.ipv4Pheader⟩

/-- `_decode_ethernet` of a whole frame, with no layer 7 classes. -/
def ethernetGeneral (s : Bytes) : Except Failure ParsedPacket :=
  decodeEthernetParsed (decode s.length) (decode (s.length - 1)) s

/-- The pseudo header of a layer's own fields. -/
def ipPheader : Layer → Option Ip4Ph
  | .ip h _ _ => some ⟨h.src, h.dst, h.proto⟩
  | _ => none

/-- The one of the `IP` a frame carries, and the same when the type says that it carries one. -/
def payloadPheader : Layer → Option Ip4Ph
  | .ethernet _ payload => ipPheader payload
  | _ => none

def typedPheader : Layer → Option Ip4Ph
  | .ethernet h payload => if h.type = 0x0800 then ipPheader payload else none
  | _ => none

theorem decodeIpParsed_eq (inner : Decoder) (s : Bytes) :
    decodeIpParsed inner s = (fun l => ⟨l, ipPheader l⟩) <$> decodeIp inner s := by
  simp only [decodeIpParsed, decodeIp, map_bind, apply_ite, map_pure]
  rfl

theorem decodeIpUdpFastParsed_eq (s : Bytes) :
    decodeIpUdpFastParsed s = (fun l => ⟨l, ipPheader l⟩) <$> decodeIpUdpFast s := by
  simp only [decodeIpUdpFastParsed, decodeIpUdpFast, map_bind, apply_ite, map_pure]
  rfl

theorem decodeEthernetPayloadParsed_eq {inner inner' : Decoder}
    (hinner : ∀ t, inner .ip t = decodeIp inner' t) (type : Nat) (s : Bytes) :
    decodeEthernetPayloadParsed inner inner' type s =
      (fun l => ⟨l, if type = 0x0800 then ipPheader l else none⟩) <$>
        decodeEthernetPayload inner type s := by
  unfold decodeEthernetPayloadParsed
  by_cases htype : type = 0x0800
  · simp only [htype, if_true, decodeEthernetPayload, hinner, decodeIpParsed_eq]
  · simp only [htype, if_false, map_eq_pure_bind]

/-- Two frames read alike when their payloads are parsed alike. -/
theorem frame_parsed_eq {general : Nat → Bytes → Except Failure ParsedPacket}
    {layers : Nat → Bytes → Except Failure Layer} {pheader : Nat → Layer → Option Ip4Ph}
    (h : ∀ type s, general type s = (fun l => ⟨l, pheader type l⟩) <$> layers type s)
    (dstMac srcMac : Bytes) (tag : Option Nat) (type : Nat) (s : Bytes) :
    (do
      let payload ← general type s
      pure (⟨.ethernet ⟨dstMac, srcMac, tag, type⟩ payload.layer, payload.ipv4Pheader⟩ : ParsedPacket)) =
    (fun l => (⟨l, match l with
        | .ethernet h payload => pheader h.type payload
        | _ => none⟩ : ParsedPacket)) <$> (do
      let payload ← layers type s
      pure (.ethernet ⟨dstMac, srcMac, tag, type⟩ payload) : Except Failure Layer) := by
  rw [h, bind_map_left, map_bind]
  rfl

theorem decodeEthernetParsed_eq {inner inner' : Decoder}
    (hinner : ∀ t, inner .ip t = decodeIp inner' t) (s : Bytes) :
    decodeEthernetParsed inner inner' s =
      (fun l => ⟨l, typedPheader l⟩) <$> decodeEthernet inner s := by
  have hpayload := frame_parsed_eq (decodeEthernetPayloadParsed_eq hinner)
  simp only [decodeEthernetParsed, decodeEthernet, map_bind]
  apply need_bind_congr
  rintro ⟨dstMac, rest⟩ -
  apply need_bind_congr
  rintro ⟨srcMac, rest⟩ -
  apply need_bind_congr
  rintro ⟨type, rest⟩ -
  by_cases htag : type = 0x8100
  · simp only [htag, if_true, map_bind]
    apply need_bind_congr
    rintro ⟨tci, rest⟩ -
    apply need_bind_congr
    rintro ⟨type, rest⟩ -
    exact (hpayload dstMac srcMac (some tci) type rest).trans (map_bind ..)
  · simp only [htag, if_false]
    exact hpayload dstMac srcMac none type rest

theorem decodeEthIpUdpFastParsed_eq (s : Bytes) :
    decodeEthIpUdpFastParsed s = (fun l => ⟨l, payloadPheader l⟩) <$> decodeEthIpUdpFast s := by
  have hpayload := @frame_parsed_eq (fun _ => decodeIpUdpFastParsed) (fun _ => decodeIpUdpFast)
    (fun _ => ipPheader) (fun _ => decodeIpUdpFastParsed_eq)
  simp only [decodeEthIpUdpFastParsed, decodeEthIpUdpFast, map_bind]
  apply need_bind_congr
  rintro ⟨dstMac, rest⟩ -
  apply need_bind_congr
  rintro ⟨srcMac, rest⟩ -
  apply need_bind_congr
  rintro ⟨type, rest⟩ -
  by_cases htag : type = 0x8100
  · simp only [htag, if_true, map_bind]
    apply need_bind_congr
    rintro ⟨tci, rest⟩ -
    apply need_bind_congr
    rintro ⟨type, rest⟩ -
    exact (hpayload dstMac srcMac (some tci) type rest).trans (map_bind ..)
  · simp only [htag, if_false]
    exact hpayload dstMac srcMac none type rest

/-- What is parsed, if it is, is no `IP`. -/
abbrev NoIp (x : Except Failure Layer) : Prop := Ends (fun _ => True) x fun l => ipPheader l = none

theorem ends_need {α : Type} {Q : Layer → Prop} {o : Option α} {f : α → Except Failure Layer}
    (h : ∀ a, Ends (fun _ => True) (f a) Q) : Ends (fun _ => True) (need o >>= f) Q := by
  cases o with
  | none => trivial
  | some a => exact h a

theorem NoIp.over {x : Except Failure Layer} {layer : Layer → Layer}
    (h : ∀ payload, ipPheader (layer payload) = none) :
    NoIp (x >>= fun payload => pure (layer payload)) := by
  cases x with
  | error _ => trivial
  | ok payload => exact h payload

theorem decodeIp6_noIp (inner : Decoder) (s : Bytes) : NoIp (decodeIp6 inner s) := by
  apply ends_need
  rintro ⟨vTcFlow, rest⟩
  apply ends_need
  rintro ⟨payloadLen, rest⟩
  apply ends_need
  rintro ⟨nh, rest⟩
  apply ends_need
  rintro ⟨hopLimit, rest⟩
  apply ends_need
  rintro ⟨src, rest⟩
  apply ends_need
  rintro ⟨dst, rest⟩
  exact NoIp.over fun _ => rfl

theorem decodeMpls_noIp (inner : Decoder) (depth : Nat) (s : Bytes) :
    NoIp (decodeMpls inner depth s) := by
  apply ends_need
  rintro ⟨data, rest⟩
  apply Ends.ite
  · intro _
    exact rfl
  · intro _
    apply Ends.ite
    · intro _
      exact NoIp.over fun _ => rfl
    · intro _
      apply Ends.ite
      · intro _
        exact rfl
      · intro _
        exact NoIp.over fun _ => rfl

/-- The payload of a frame is an `IP` only when the type says so. -/
theorem decodeEthernetPayload_noIp (n : Nat) {type : Nat} (htype : type ≠ 0x0800) (s : Bytes) :
    NoIp (decodeEthernetPayload (decode n) type s) := by
  unfold decodeEthernetPayload
  rw [if_neg htype]
  apply Ends.ite
  · intro _
    cases n with
    | zero => trivial
    | succ n => exact decodeIp6_noIp (decode n) s
  · intro _
    apply Ends.ite
    · intro _
      trivial
    · intro _
      apply Ends.ite
      · intro _
        cases n with
        | zero => trivial
        | succ n => exact decodeMpls_noIp (decode n) 0 s
      · intro _
        exact rfl

theorem frame_pheader (n : Nat) (dstMac srcMac : Bytes) (tag : Option Nat) (type : Nat)
    (s : Bytes) :
    Ends (fun _ => True) (do
      let payload ← decodeEthernetPayload (decode n) type s
      pure (Layer.ethernet ⟨dstMac, srcMac, tag, type⟩ payload))
      fun l => typedPheader l = payloadPheader l := by
  by_cases htype : type = 0x0800
  · cases decodeEthernetPayload (decode n) type s with
    | error _ => trivial
    | ok payload => exact if_pos htype
  · refine Ends.bind (decodeEthernetPayload_noIp n htype s) fun payload hnone => ?_
    exact (if_neg htype).trans hnone.symm

theorem ethernet_pheader (n : Nat) (s : Bytes) :
    Ends (fun _ => True) (decodeEthernet (decode n) s)
      fun l => typedPheader l = payloadPheader l := by
  apply ends_need
  rintro ⟨dstMac, rest⟩
  apply ends_need
  rintro ⟨srcMac, rest⟩
  apply ends_need
  rintro ⟨type, rest⟩
  apply Ends.ite
  · intro _
    apply ends_need
    rintro ⟨tci, rest⟩
    apply ends_need
    rintro ⟨type, rest⟩
    exact frame_pheader n dstMac srcMac (some tci) type rest
  · intro _
    exact frame_pheader n dstMac srcMac none type rest

theorem map_congr_of_ends {α β : Type} {x : Except Failure α} {f g : α → β}
    (h : Ends (fun _ => True) x fun a => f a = g a) : f <$> x = g <$> x := by
  cases x with
  | error _ => rfl
  | ok a => exact congrArg Except.ok h

theorem preflight_length {s : Bytes} (h : (preflight s).isSome) : ∃ n, s.length = n + 2 := by
  obtain ⟨i, hpreflight⟩ := Option.isSome_iff_exists.mp h
  simp only [preflight] at hpreflight
  split at hpreflight
  · cases hpreflight
  · exact ⟨s.length - 2, by omega⟩

theorem decodeEthIpUdpFastParsed_eq_general {s : Bytes} (h : (preflight s).isSome) :
    decodeEthIpUdpFastParsed s = ethernetGeneral s := by
  obtain ⟨n, hlen⟩ := preflight_length h
  have hinner (t : Bytes) : decode s.length .ip t = decodeIp (decode (s.length - 1)) t := by
    rw [hlen]
    rfl
  rw [decodeEthIpUdpFastParsed_eq, ethernetGeneral, decodeEthernetParsed_eq hinner,
    decodeEthIpUdpFast_eq hinner h]
  refine map_congr_of_ends ((ethernet_pheader s.length s).mono fun l hl => ?_)
  rw [hl]

theorem layer_ethernetGeneral {s : Bytes} (h : (preflight s).isSome) :
    ParsedPacket.layer <$> ethernetGeneral s = decode (s.length + 1) .ethernet s := by
  obtain ⟨n, hlen⟩ := preflight_length h
  have hinner (t : Bytes) : decode s.length .ip t = decodeIp (decode (s.length - 1)) t := by
    rw [hlen]
    rfl
  rw [ethernetGeneral, decodeEthernetParsed_eq hinner, Functor.map_map]
  exact id_map (decodeEthernet (decode s.length) s)

/-- A frame that takes the fast path raises where the general path does, and is parsed to the
same layers with the same pseudo header, which are written alike. -/
theorem fast_path_is_general_path (s : Bytes) (h : (preflight s).isSome) :
    (∀ e, decodeEthIpUdpFastParsed s = .error e ↔ ethernetGeneral s = .error e) ∧
      ∀ fast, decodeEthIpUdpFastParsed s = .ok fast → ∃ general, ethernetGeneral s = .ok general ∧
        decode (s.length + 1) .ethernet s = .ok general.layer ∧
        fast.layer = general.layer ∧ fast.ipv4Pheader = general.ipv4Pheader ∧
        ∀ update csum, fast.layer.pkt2net update csum = general.layer.pkt2net update csum := by
  have heq := decodeEthIpUdpFastParsed_eq_general h
  refine ⟨fun e => by rw [heq], fun fast hfast => ⟨fast, heq ▸ hfast, ?_, rfl, rfl, fun _ _ => rfl⟩⟩
  rw [← layer_ethernetGeneral h, ← heq, hfast]
  rfl

/-- A frame of UDP over IPv4, with four bytes of padding behind the datagram. -/
def paddedUdp : Bytes :=
  [1, 2, 3, 4, 5, 6, 7, 8, 9, 10, 11, 12, 8, 0,
   0x45, 0, 0, 28, 0, 0, 0, 0, 64, 17, 0, 0, 10, 0, 0, 1, 10, 0, 0, 2,
   0, 53, 0, 53, 0, 8, 0, 0,
   0, 0, 0, 0]

theorem fast_path_is_general_path_paddedUdp :
    (∀ e, decodeEthIpUdpFastParsed paddedUdp = .error e ↔ ethernetGeneral paddedUdp = .error e) ∧
      ∀ fast, decodeEthIpUdpFastParsed paddedUdp = .ok fast →
        ∃ general, ethernetGeneral paddedUdp = .ok general ∧
          decode (paddedUdp.length + 1) .ethernet paddedUdp = .ok general.layer ∧
          fast.layer = general.layer ∧ fast.ipv4Pheader = general.ipv4Pheader ∧
          ∀ update csum, fast.layer.pkt2net update csum = general.layer.pkt2net update csum :=
  fast_path_is_general_path paddedUdp (by decide)

end Packets.Inet
