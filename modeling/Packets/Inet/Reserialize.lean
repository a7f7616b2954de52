/-
What is parsed is written back as it was.

`Spells l s`: what the layer `l` kept of the range `s` is all of it.  Two writers do not write
it: Ethernet's, which fills a frame to sixty bytes, and TCP's, of which eight bytes were there.
-/
import Packets.Inet.FastPath

namespace Packets.Inet

open BigEndian (readInt takeBytes ofNat readInt_sound takeBytes_sound)
open Fallible (Ends)

namespace Layer

/-- Whether a layer is what a range is decoded as. -/
def Of : Protocol → Layer → Prop
  | .ethernet, ethernet _ _ => True
  | .mpls _, mpls _ _ => True
  | .gre, gre _ _ _ => True
  | .ip, ip _ _ _ => True
  | .ip6, ip6 _ _ _ => True
  | _, _ => False

/-- The range a layer was parsed from, as its fields spell it. -/
def Spells : Layer → Bytes → Prop
  | pkt, s => s = []
  | null bytes, s => s = bytes
  | ethernet h payload, s =>
    ∃ body, payload.Spells body ∧ payload.etherType h.type = h.type ∧ s = h.bytes h.type ++ body
  | mpls data payload, s => ∃ body, payload.Spells body ∧ s = ofNat 4 data ++ body
  | gre _ (some raw) _, s => s = raw
  | gre h none payload, s =>
    ∃ body, payload.Spells body ∧ payload.greProto h.proto = h.proto ∧
      s = h.bytes h.proto h.checksum ++ body
  | ip h payload trailer, s =>
    ∃ body, payload.Spells body ∧ s = h.bytes h.versionIphl h.totalLen h.checksum ++ body ++ trailer
  | ip6 h payload trailer, s =>
    ∃ body, payload.Spells body ∧ s = h.bytes h.payloadLen ++ body ++ trailer
  | udp h payload trailer, s =>
    ∃ body, payload.Spells body ∧ s = h.bytes h.ulen h.checksum ++ body ++ trailer
  | tcp h payload, s =>
    s.length = h.wsLen ∧
      (h.wsLen ≠ TCP_QUOTE_LEN → ∃ body, payload.Spells body ∧ s = h.bytes h.checksum ++ body)
  | ospf p, s => p.raw = some s
  | ospf3 p, s => p.raw = some s
  | _, _ => False

/-- The number of bytes a layer was parsed from. -/
def size : Layer → Nat
  | pkt => 0
  | null bytes => bytes.length
  | ethernet h payload => (h.bytes h.type).length + payload.size
  | mpls _ payload => 4 + payload.size
  | gre _ (some raw) _ => raw.length
  | gre h none payload => (h.bytes h.proto h.checksum).length + payload.size
  | ip h payload trailer =>
    (h.bytes h.versionIphl h.totalLen h.checksum).length + payload.size + trailer.length
  | ip6 h payload trailer => (h.bytes h.payloadLen).length + payload.size + trailer.length
  | udp _ payload trailer => 8 + payload.size + trailer.length
  | tcp h _ => h.wsLen
  | icmp _ message => 4 + message.length
  | icmpError _ word hdrPkt => 4 + word.length + hdrPkt.size
  | icmpUnknown raw => raw.length
  | icmp6 _ message => 4 + message.length
  | icmp6Error _ word hdrPkt => 4 + word.length + hdrPkt.size
  | ospf p => (p.raw.getD []).length
  | ospf3 p => (p.raw.getD []).length

/-- No Ethernet frame was shorter than the least, and no TCP layer was the quote of one. -/
def verbatim : Layer → Bool
  | ethernet h payload => MIN_FRAME_SIZE ≤ (ethernet h payload).size && payload.verbatim
  | mpls _ payload => payload.verbatim
  | gre _ none payload => payload.verbatim
  | ip _ payload _ => payload.verbatim
  | ip6 _ payload _ => payload.verbatim
  | udp _ payload _ => payload.verbatim
  | tcp h payload => h.wsLen ≠ TCP_QUOTE_LEN && payload.verbatim
  | _ => true

theorem Spells.size {l : Layer} {s : Bytes} (h : l.Spells s) : l.size = s.length := by
  induction l generalizing s with
  | pkt => simp_all [Spells, Layer.size]
  | null bytes => simp_all [Spells, Layer.size]
  | ethernet header payload ih =>
    obtain ⟨body, hbody, -, rfl⟩ := h
    simp [Layer.size, ih hbody]
  | mpls data payload ih =>
    obtain ⟨body, hbody, rfl⟩ := h
    simp [Layer.size, ih hbody]
  | gre header malformed payload ih =>
    cases malformed with
    | some raw => simp_all [Spells, Layer.size]
    | none =>
      obtain ⟨body, hbody, -, rfl⟩ := h
      simp [Layer.size, ih hbody]
  | ip header payload trailer ih =>
    obtain ⟨body, hbody, rfl⟩ := h
    simp [Layer.size, ih hbody, Nat.add_assoc]
  | ip6 header payload trailer ih =>
    obtain ⟨body, hbody, rfl⟩ := h
    simp [Layer.size, ih hbody, Nat.add_assoc]
  | udp header payload trailer ih =>
    obtain ⟨body, hbody, rfl⟩ := h
    simp only [Layer.size, UDPHeader.bytes, ih hbody, List.length_append, BigEndian.length_ofNat]
  | tcp header payload ih => exact h.1.symm
  | ospf p => simp_all [Spells, Layer.size]
  | ospf3 p => simp_all [Spells, Layer.size]
  | icmp => exact h.elim
  | icmpError => exact h.elim
  | icmpUnknown => exact h.elim
  | icmp6 => exact h.elim
  | icmp6Error => exact h.elim

end Layer

/-- `t` is written for a layer that was parsed from `s`: nothing is lost, and `t` is `s`
where the layer is verbatim and nowhere else. -/
structure Written (l : Layer) (s t : Bytes) : Prop where
  grows : s.length ≤ t.length
  same : l.verbatim → t = s
  verbatim : t.length = s.length → l.verbatim

/-- A layer that writes bytes of its own around its payload. -/
theorem Written.around {l payload : Layer} {s t : Bytes} (h : Written payload s t)
    (hl : l.verbatim = payload.verbatim) (front back : Bytes) :
    Written l (front ++ s ++ back) (front ++ t ++ back) where
  grows := by
    have hgrows := h.grows
    simp only [List.length_append]
    omega
  same hverb := by
    rw [hl] at hverb
    rw [h.same hverb]
  verbatim hlen := by
    rw [hl]
    apply h.verbatim
    simp only [List.length_append] at hlen
    omega

theorem Written.refl {l : Layer} {s : Bytes} (hl : l.verbatim = true) : Written l s s :=
  ⟨Nat.le_refl _, fun _ => rfl, fun _ => hl⟩

theorem Written.ethernet {h : EthernetHeader} {payload : Layer} {s t : Bytes}
    (hw : Written payload s t) (hs : payload.size = s.length) (front : Bytes)
    (hfront : front.length = (h.bytes h.type).length) :
    Written (.ethernet h payload) (front ++ s)
      (front ++ t ++ List.replicate (MIN_FRAME_SIZE - (front ++ t).length) 0) := by
  have hgrows := hw.grows
  have hsize : (Layer.ethernet h payload).size = front.length + s.length := by
    rw [Layer.size, hs, hfront]
  constructor
  · simp only [List.length_append]
    omega
  · intro hverb
    simp only [Layer.verbatim, Bool.and_eq_true, decide_eq_true_eq] at hverb
    obtain ⟨hmin, hverb⟩ := hverb
    have heq := hw.same hverb
    have hpad : MIN_FRAME_SIZE - (front ++ t).length = 0 := by
      rw [hsize] at hmin
      simp only [heq, List.length_append]
      omega
    rw [hpad, heq, List.replicate_zero, List.append_nil]
  · intro hlen
    simp only [List.length_append, List.length_replicate] at hlen
    have hverb := hw.verbatim (by omega)
    have hmin : MIN_FRAME_SIZE ≤ (Layer.ethernet h payload).size := by
      rw [hsize]
      omega
    simp [Layer.verbatim, hmin, hverb]

theorem Written.tcp {h : TCPHeader} {payload : Layer} {s t : Bytes} (hs : s.length = h.wsLen)
    (hfull : h.wsLen ≠ TCP_QUOTE_LEN → ∃ body, s = h.bytes h.checksum ++ body ∧
      Written payload body t) :
    Written (.tcp h payload) s (h.bytes h.checksum ++ t) := by
  by_cases hlen : h.wsLen = TCP_QUOTE_LEN
  · have hquote : s.length = 8 := hs.trans hlen
    have hlong : 20 ≤ (h.bytes h.checksum ++ t).length := by
      simp only [TCPHeader.bytes, List.length_append, BigEndian.length_ofNat]
      omega
    constructor
    · omega
    · simp [Layer.verbatim, hlen]
    · omega
  · obtain ⟨body, rfl, hw⟩ := hfull hlen
    have hl : (Layer.tcp h payload).verbatim = payload.verbatim := by simp [Layer.verbatim, hlen]
    have haround := hw.around hl (h.bytes h.checksum) []
    simpa only [List.append_nil] using haround

/-- Nothing is to be recomputed. -/
def Keywords.Plain (k : Keywords) : Prop := k.update = false ∧ k.csum = false

namespace Layer

theorem write_ip_plain {k : Keywords} (hk : k.Plain) (h : IPHeader) (payload : Layer)
    (trailer : Bytes) : ∃ k' : Keywords, k'.Plain ∧ (ip h payload trailer).write k =
      h.bytes h.versionIphl h.totalLen h.checksum ++ payload.write k' ++ trailer := by
  obtain ⟨hupdate, hcsum⟩ := hk
  by_cases hicmp : k.forIcmp
  · exact ⟨{}, ⟨rfl, rfl⟩, by simp [write, hupdate, hcsum, hicmp]⟩
  · exact ⟨{ k with ipv4Pheader := k.ipv4Pheader <|> some ⟨h.src, h.dst, h.proto⟩ },
      ⟨hupdate, hcsum⟩, by simp [write, hupdate, hcsum, hicmp]⟩

theorem write_ip6_plain {k : Keywords} (hk : k.Plain) (h : IP6Header) (payload : Layer)
    (trailer : Bytes) : ∃ k' : Keywords, k'.Plain ∧ (ip6 h payload trailer).write k =
      h.bytes h.payloadLen ++ payload.write k' ++ trailer := by
  obtain ⟨hupdate, hcsum⟩ := hk
  by_cases hicmp : k.forIcmp
  · exact ⟨{}, ⟨rfl, rfl⟩, by simp [write, hupdate, hicmp]⟩
  · exact ⟨{ k with ipv6Pheader := k.ipv6Pheader <|> some ⟨h.src, h.dst, h.upperProto⟩ },
      ⟨hupdate, hcsum⟩, by simp [write, hupdate, hicmp]⟩

theorem write_udp_plain {k : Keywords} (hk : k.Plain) (h : UDPHeader) (payload : Layer)
    (trailer : Bytes) : (udp h payload trailer).write k =
      h.bytes h.ulen h.checksum ++ payload.write k ++ trailer := by
  simp [write, hk.1, hk.2]

theorem write_tcp_plain {k : Keywords} (hk : k.Plain) (h : TCPHeader) (payload : Layer) :
    (tcp h payload).write k = h.bytes h.checksum ++ payload.write k := by
  simp [write, hk.2]

theorem write_gre_plain {k : Keywords} (hk : k.Plain) (h : GREHeader) (payload : Layer) :
    (gre h none payload).write k =
      h.bytes (payload.greProto h.proto) h.checksum ++ payload.write k := by
  simp [write, hk.2]

end Layer

/-- Writing without updates. -/
theorem Layer.Spells.written {l : Layer} {s : Bytes} (h : l.Spells s) {k : Keywords}
    (hk : k.Plain) : Written l s (l.write k) := by
  induction l generalizing s k with
  | pkt =>
    simp only [Spells] at h
    subst h
    exact .refl rfl
  | null bytes =>
    simp only [Spells] at h
    subst h
    exact .refl rfl
  | ethernet header payload ih =>
    obtain ⟨body, hbody, htype, rfl⟩ := h
    have hframe := (ih hbody hk).ethernet (h := header) hbody.size (header.bytes header.type) rfl
    rw [write, htype]
    exact hframe
  | mpls data payload ih =>
    obtain ⟨body, hbody, rfl⟩ := h
    have hw := (ih hbody hk).around (l := .mpls data payload) rfl (ofNat 4 data) []
    simpa only [write, List.append_nil] using hw
  | gre header malformed payload ih =>
    cases malformed with
    | some raw =>
      simp only [Spells] at h
      subst h
      exact .refl rfl
    | none =>
      obtain ⟨body, hbody, hproto, rfl⟩ := h
      have hw := (ih hbody hk).around (l := .gre header none payload) rfl
        (header.bytes header.proto header.checksum) []
      rw [write_gre_plain hk, hproto]
      simpa only [List.append_nil] using hw
  | ip header payload trailer ih =>
    obtain ⟨body, hbody, rfl⟩ := h
    obtain ⟨k', hk', hwrite⟩ := write_ip_plain hk header payload trailer
    rw [hwrite]
    exact (ih hbody hk').around (l := .ip header payload trailer) rfl _ trailer
  | ip6 header payload trailer ih =>
    obtain ⟨body, hbody, rfl⟩ := h
    obtain ⟨k', hk', hwrite⟩ := write_ip6_plain hk header payload trailer
    rw [hwrite]
    exact (ih hbody hk').around (l := .ip6 header payload trailer) rfl _ trailer
  | udp header payload trailer ih =>
    obtain ⟨body, hbody, rfl⟩ := h
    rw [write_udp_plain hk]
    exact (ih hbody hk).around (l := .udp header payload trailer) rfl _ trailer
  | tcp header payload ih =>
    obtain ⟨hlen, hfull⟩ := h
    rw [write_tcp_plain hk]
    apply Written.tcp hlen
    intro hne
    obtain ⟨body, hbody, hs⟩ := hfull hne
    exact ⟨body, hs, ih hbody hk⟩
  | ospf p =>
    simp only [Spells] at h
    simp only [write, OSPFv2Packet.write, hk.1, h]
    exact .refl rfl
  | ospf3 p =>
    simp only [Spells] at h
    simp only [write, OSPFv3Packet.write, hk.1, h]
    exact .refl rfl
  | icmp => exact h.elim
  | icmpError => exact h.elim
  | icmpUnknown => exact h.elim
  | icmp6 => exact h.elim
  | icmp6Error => exact h.elim

/-- The failures a frame can have. -/
def Failure.Real (e : Failure) : Prop := e ≠ .fuel

section

variable {α : Type} {Q : α → Prop}

theorem ends_readInt (width : Nat) {s : Bytes} {f : Nat × Bytes → Except Failure α}
    (hf : ∀ n rest, s = ofNat width n ++ rest → Ends Failure.Real (f (n, rest)) Q) :
    Ends Failure.Real (need (readInt width s) >>= f) Q := by
  cases hread : readInt width s with
  | none => exact Failure.noConfusion
  | some out => exact hf out.1 out.2 (readInt_sound hread).1

theorem ends_takeBytes (n : Nat) {s : Bytes} {f : Bytes × Bytes → Except Failure α}
    (hf : ∀ front rest, s = front ++ rest → front.length = n →
      Ends Failure.Real (f (front, rest)) Q) :
    Ends Failure.Real (need (takeBytes n s) >>= f) Q := by
  cases htake : takeBytes n s with
  | none => exact Failure.noConfusion
  | some out =>
    have hsound := takeBytes_sound htake
    exact hf out.1 out.2 hsound.1 hsound.2

theorem ends_valueError : Ends Failure.Real (.error .valueError : Except Failure α) Q :=
  Failure.noConfusion

theorem ends_outside : Ends Failure.Real (.error .outside : Except Failure α) Q :=
  Failure.noConfusion

end

/-- What a range is parsed as spells it. -/
abbrev Parsed (x : Except Failure Layer) (s : Bytes) : Prop :=
  Ends Failure.Real x (fun l => l.Spells s)

theorem decodeUdp_parsed (s : Bytes) : Parsed (decodeUdp s) s := by
  apply ends_readInt 2
  rintro sport rest rfl
  apply ends_readInt 2
  rintro dport rest rfl
  apply ends_readInt 2
  rintro ulen rest rfl
  apply ends_readInt 2
  rintro checksum rest rfl
  apply Ends.ite
  · intro _
    exact ⟨rest, rfl, by simp [UDPHeader.bytes]⟩
  · intro _
    apply Ends.ite
    · intro _
      exact ends_valueError
    · intro _
      exact ⟨rest.take (ulen - 8), rfl, by simp [UDPHeader.bytes]⟩

theorem decodeTcp_parsed (s : Bytes) : Parsed (decodeTcp s) s := by
  apply Ends.ite
  · intro hlen
    have hquote : s.length ≠ TCP_QUOTE_LEN := by
      simp only [TCP_QUOTE_LEN]
      omega
    generalize hwsLen : s.length = wsLen at hquote ⊢
    apply ends_readInt 2
    intro sport rest hs
    apply ends_readInt 2
    rintro dport rest rfl
    apply ends_readInt 4
    rintro sequence rest rfl
    apply ends_readInt 4
    rintro acknowledgment rest rfl
    apply ends_readInt 2
    rintro offFlags rest rfl
    apply ends_readInt 2
    rintro window rest rfl
    apply ends_readInt 2
    rintro checksum rest rfl
    apply ends_readInt 2
    rintro urgPtr rest rfl
    apply Ends.ite
    · intro _
      exact ends_valueError
    · intro _
      apply ends_takeBytes
      rintro options rest rfl -
      refine ⟨hwsLen, fun _ => ⟨rest, rfl, ?_⟩⟩
      simp [hs, TCPHeader.bytes]
  · intro _
    apply Ends.ite
    · intro hlen
      apply ends_readInt 2
      intro sport rest _
      apply ends_readInt 2
      intro dport rest _
      apply ends_readInt 4
      intro sequence rest _
      exact ⟨rfl, fun hne => absurd hlen hne⟩
    · intro _
      exact ends_valueError

theorem decodeOspfv2_spells (s : Bytes) : (decodeOspfv2 s).Spells s := by
  simp only [decodeOspfv2, Layer.Spells]
  generalize hread : bind (readInt 1 s) _ = read
  cases read with
  | none => rfl
  | some p =>
    simp only [Option.bind_eq_bind, Option.bind_eq_some_iff, Option.pure_def,
      Option.some.injEq] at hread
    obtain ⟨_, -, _, -, _, -, _, -, _, -, _, -, _, -, _, -, rfl⟩ := hread
    rfl

theorem decodeOspfv3_spells (s : Bytes) : (decodeOspfv3 s).Spells s := by
  simp only [decodeOspfv3, Layer.Spells]
  generalize hread : bind (readInt 1 s) _ = read
  cases read with
  | none => rfl
  | some p =>
    simp only [Option.bind_eq_bind, Option.bind_eq_some_iff, Option.pure_def,
      Option.some.injEq] at hread
    obtain ⟨_, -, _, -, _, -, _, -, _, -, _, -, _, -, _, -, rfl⟩ := hread
    rfl

/-- An inner decoder on ranges shorter than `n`. -/
def Sound (inner : Decoder) (n : Nat) : Prop :=
  ∀ kind s, s.length < n → Ends Failure.Real (inner kind s) (fun l => l.Of kind ∧ l.Spells s)

theorem Sound.payload {inner : Decoder} {n : Nat} (h : Sound inner n) (kind : Protocol)
    {s : Bytes} (hs : s.length < n) {P : Layer → Prop} (hP : ∀ l : Layer, l.Of kind → P l) :
    Ends Failure.Real (inner kind s) (fun l => l.Spells s ∧ P l) := by
  apply (h kind s hs).mono
  intro l hl
  exact ⟨hl.2, hP l hl.1⟩

theorem decodeEthernetPayload_ends {inner : Decoder} {n : Nat} (h : Sound inner n) (type : Nat)
    {s : Bytes} (hs : s.length < n) :
    Ends Failure.Real (decodeEthernetPayload inner type s)
      (fun l => l.Spells s ∧ l.etherType type = type) := by
  apply Ends.ite
  · rintro rfl
    apply h.payload .ip hs
    intro l hl
    cases l <;> trivial
  intro _
  apply Ends.ite
  · rintro rfl
    apply h.payload .ip6 hs
    intro l hl
    cases l <;> trivial
  intro _
  apply Ends.ite
  · intro _
    exact ends_outside
  intro _
  apply Ends.ite
  · intro hmpls
    apply h.payload (.mpls 0) hs
    intro l hl
    cases l with
    | mpls => exact if_pos hmpls
    | _ => exact hl.elim
  · intro _
    exact ⟨rfl, rfl⟩

theorem decodeEthernet_ends {inner : Decoder} {s : Bytes} (h : Sound inner s.length) :
    Ends Failure.Real (decodeEthernet inner s) (fun l => l.Of .ethernet ∧ l.Spells s) := by
  apply ends_takeBytes
  rintro dstMac rest rfl hdst
  apply ends_takeBytes
  rintro srcMac rest rfl hsrc
  apply ends_readInt 2
  rintro type rest rfl
  apply Ends.ite
  · rintro rfl
    apply ends_readInt 2
    rintro tci rest rfl
    apply ends_readInt 2
    rintro type rest rfl
    apply (decodeEthernetPayload_ends h type (s := rest) (by simp; omega)).bind
    rintro payload ⟨hpayload, htype⟩
    exact ⟨trivial, rest, hpayload, htype, by simp [EthernetHeader.bytes]⟩
  · intro _
    apply (decodeEthernetPayload_ends h type (s := rest) (by simp; omega)).bind
    rintro payload ⟨hpayload, htype⟩
    exact ⟨trivial, rest, hpayload, htype, by simp [EthernetHeader.bytes]⟩

theorem decodeMpls_ends {inner : Decoder} {s : Bytes} (h : Sound inner s.length) (depth : Nat) :
    Ends Failure.Real (decodeMpls inner depth s) (fun l => l.Of (.mpls depth) ∧ l.Spells s) := by
  apply ends_readInt 4
  rintro data rest rfl
  have hshort : rest.length < (ofNat 4 data ++ rest).length := by simp
  have hinner (kind : Protocol) :
      Ends Failure.Real (inner kind rest) (fun l => l.Spells rest ∧ True) :=
    h.payload kind hshort (fun _ _ => trivial)
  apply Ends.ite
  · intro hempty
    exact ⟨trivial, rest, by simpa [Layer.Spells] using hempty, rfl⟩
  intro _
  apply Ends.ite
  · intro _
    have hbottom : Ends Failure.Real (decodeMplsPayload inner rest)
        (fun l => l.Spells rest ∧ True) := by
      apply Ends.ite
      · intro _
        exact hinner .ip
      intro _
      apply Ends.ite
      · intro _
        exact hinner .ip6
      · intro _
        exact hinner .ethernet
    apply hbottom.bind
    rintro payload ⟨hpayload, -⟩
    exact ⟨trivial, rest, hpayload, rfl⟩
  intro _
  apply Ends.ite
  · intro _
    exact ⟨trivial, rest, rfl, rfl⟩
  · intro _
    apply (hinner (.mpls (depth + 1))).bind
    rintro payload ⟨hpayload, -⟩
    exact ⟨trivial, rest, hpayload, rfl⟩

theorem ofNat_halves (v : Nat) : ofNat 2 (v / 65536) ++ ofNat 2 (v % 65536) = ofNat 4 v := by
  have hlow : ofNat 2 (v % 65536) = ofNat 2 v := BigEndian.ofNat_mod 2 v
  rw [hlow]
  exact (BigEndian.ofNat_add 2 2 v).symm

/-- Unless it broke off, what was read of a header spells what was taken. -/
def GREReading.Reads (r : GREReading) (spelled : GREHeader → Bytes) (s : Bytes) : Prop :=
  r.truncated = false → s = spelled r.header ++ r.rest

/-- A further word, whose storing leaves what was read before. -/
theorem GREReading.Reads.word {r : GREReading} {spelled : GREHeader → Bytes} {s : Bytes}
    (h : r.Reads spelled s) (flag : GREHeader → Bool) (store : GREHeader → Nat → GREHeader)
    (enc : GREHeader → Bytes) (hspelled : ∀ h v, spelled (store h v) = spelled h)
    (hflag : ∀ h v, flag (store h v) = flag h) (henc : ∀ h v, enc (store h v) = ofNat 4 v) :
    (r.word flag store).Reads (fun h => spelled h ++ if flag h then enc h else []) s := by
  intro htruncated
  cases hr : r.truncated with
  | true => simp [GREReading.word, hr] at htruncated
  | false =>
    have hs := h hr
    cases hf : flag r.header with
    | false => simp [GREReading.word, hr, hf, hs]
    | true =>
      cases hread : readInt 4 r.rest with
      | none => simp [GREReading.word, hr, hf, hread] at htruncated
      | some out =>
        obtain ⟨v, rest⟩ := out
        have hrest := (readInt_sound hread).1
        have hword : r.word flag store = ⟨store r.header v, false, rest⟩ := by
          simp [GREReading.word, hr, hf, hread]
        rw [hword]
        simp only [hspelled, hflag, henc, hf, if_true]
        rw [hs, hrest, List.append_assoc]

theorem readGREHeader_reads (s : Bytes) :
    (readGREHeader s).Reads (fun h => h.bytes h.proto h.checksum) s := by
  have hbase : GREReading.Reads ⟨⟨0, 0, 0, 0, 0, 0, 0⟩, false, s⟩ (fun _ => []) s := fun _ => rfl
  have htype := hbase.word (fun _ => true)
    (fun h v => { h with flags := v / 65536, proto := v % 65536 })
    (fun h => ofNat 2 h.flags ++ ofNat 2 h.proto) (fun _ _ => rfl) (fun _ _ => rfl)
    (fun _ v => ofNat_halves v)
  have hchecksum := htype.word GREHeader.flagC
    (fun h v => { h with checksum := v / 65536, reserved1 := v % 65536 })
    (fun h => ofNat 2 h.checksum ++ ofNat 2 h.reserved1) (fun _ _ => rfl) (fun _ _ => rfl)
    (fun _ v => ofNat_halves v)
  have hkey := hchecksum.word GREHeader.flagK (fun h v => { h with key := v })
    (fun h => ofNat 4 h.key) (fun _ _ => rfl) (fun _ _ => rfl) (fun _ _ => rfl)
  have hsequence := hkey.word GREHeader.flagS (fun h v => { h with sequence := v })
    (fun h => ofNat 4 h.sequence) (fun _ _ => rfl) (fun _ _ => rfl) (fun _ _ => rfl)
  have hack := hsequence.word GREHeader.flagA (fun h v => { h with ack := v })
    (fun h => ofNat 4 h.ack) (fun _ _ => rfl) (fun _ _ => rfl) (fun _ _ => rfl)
  exact hack

theorem decodeGrePayload_ends {inner : Decoder} {n : Nat} (h : Sound inner n) (proto : Nat)
    {s : Bytes} (hs : s.length < n) :
    Ends Failure.Real (decodeGrePayload inner proto s)
      (fun l => l.Spells s ∧ l.greProto proto = proto) := by
  apply Ends.ite
  · rintro rfl
    apply h.payload .ip hs
    intro l hl
    cases l <;> trivial
  intro _
  apply Ends.ite
  · rintro rfl
    apply h.payload .ip6 hs
    intro l hl
    cases l <;> trivial
  intro _
  apply Ends.ite
  · intro hmpls
    apply h.payload (.mpls 0) hs
    intro l hl
    cases l with
    | mpls => exact if_pos hmpls
    | _ => exact hl.elim
  intro _
  apply Ends.ite
  · rintro rfl
    apply h.payload .ethernet hs
    intro l hl
    cases l <;> trivial
  · intro _
    exact ⟨rfl, rfl⟩

theorem decodeGre_ends {inner : Decoder} {s : Bytes} (h : Sound inner s.length) :
    Ends Failure.Real (decodeGre inner s) (fun l => l.Of .gre ∧ l.Spells s) := by
  have hreads := readGREHeader_reads s
  simp only [decodeGre]
  generalize readGREHeader s = r at hreads
  cases htruncated : r.truncated with
  | true =>
    rw [if_pos rfl]
    exact ⟨trivial, rfl⟩
  | false =>
    have hs := hreads htruncated
    rw [if_neg Bool.false_ne_true]
    have hshort : r.rest.length < s.length := by
      rw [hs]
      simp [GREHeader.bytes]
      omega
    apply Ends.ite
    · intro hempty
      refine ⟨trivial, r.rest, ?_, rfl, hs⟩
      simpa [Layer.Spells] using hempty
    intro _
    have hpayload := decodeGrePayload_ends h r.header.proto hshort
    cases hinner : decodeGrePayload inner r.header.proto r.rest with
    | ok payload =>
      obtain ⟨hspells, hproto⟩ := hpayload.of_ok hinner
      exact ⟨trivial, r.rest, hspells, hproto, hs⟩
    | error e =>
      have hreal := hpayload.of_error hinner
      cases e with
      | valueError => exact ⟨trivial, rfl⟩
      | outside => exact hreal
      | fuel => exact hreal

theorem declared_ends (total headerLen available : Nat) :
    Ends Failure.Real (declared total headerLen available) (fun _ => True) := by
  apply Ends.ite
  · intro _
    trivial
  intro _
  apply Ends.ite
  · intro _
    exact ends_valueError
  · intro _
    trivial

theorem decodeIpPayload_ends {inner : Decoder} {n : Nat} (h : Sound inner n) (proto : Nat)
    {s : Bytes} (hs : s.length < n) : Parsed (decodeIpPayload inner proto s) s := by
  apply Ends.ite
  · intro hempty
    exact List.isEmpty_iff.mp hempty
  intro _
  apply Ends.ite
  · intro _
    exact decodeUdp_parsed s
  intro _
  apply Ends.ite
  · intro _
    exact decodeTcp_parsed s
  intro _
  apply Ends.ite
  · intro _
    exact ends_outside
  intro _
  apply Ends.ite
  · intro _
    exact (h .gre s hs).mono fun _ hl => hl.2
  intro _
  apply Ends.ite
  · intro _
    exact decodeOspfv2_spells s
  · intro _
    exact rfl

theorem decodeIp_ends {inner : Decoder} {s : Bytes} (h : Sound inner s.length) :
    Ends Failure.Real (decodeIp inner s) (fun l => l.Of .ip ∧ l.Spells s) := by
  apply ends_readInt 1
  rintro versionIphl rest rfl
  apply ends_readInt 1
  rintro tos rest rfl
  apply ends_readInt 2
  rintro totalLen rest rfl
  apply ends_readInt 2
  rintro ident rest rfl
  apply ends_readInt 2
  rintro flagsOffset rest rfl
  apply ends_readInt 1
  rintro ttl rest rfl
  apply ends_readInt 1
  rintro proto rest rfl
  apply ends_readInt 2
  rintro checksum rest rfl
  apply ends_takeBytes
  rintro src rest rfl hsrc
  apply ends_takeBytes
  rintro dst rest rfl hdst
  apply Ends.ite
  · intro _
    exact ends_valueError
  intro _
  apply ends_takeBytes
  rintro options rest rfl hoptions
  apply (declared_ends _ _ _).bind
  intro length _
  apply (decodeIpPayload_ends h proto (s := rest.take length) (by simp; omega)).bind
  intro payload hpayload
  exact ⟨trivial, rest.take length, hpayload, by simp [IPHeader.bytes]⟩

/-- The extension headers and what is left are the range. -/
theorem walkIp6Ext_append (fuel cur : Nat) (s : Bytes) (incomplete : Bool) :
    (walkIp6Ext fuel cur s incomplete).headers ++ (walkIp6Ext fuel cur s incomplete).rest = s := by
  induction fuel generalizing cur s incomplete with
  | zero => rfl
  | succ fuel ih =>
    simp only [walkIp6Ext]
    split
    · rfl
    · split
      · split
        · rfl
        · rw [List.append_assoc, ih, List.take_append_drop]
      · rfl

theorem decodeIp6Payload_ends {inner : Decoder} {n : Nat} (h : Sound inner n) (w : Walk)
    (hs : w.rest.length < n) : Parsed (decodeIp6Payload inner w) w.rest := by
  apply Ends.ite
  · intro hempty
    exact List.isEmpty_iff.mp hempty
  intro _
  apply Ends.ite
  · intro _
    exact rfl
  intro _
  apply Ends.ite
  · intro _
    exact decodeUdp_parsed w.rest
  intro _
  apply Ends.ite
  · intro _
    exact decodeTcp_parsed w.rest
  intro _
  apply Ends.ite
  · intro _
    exact ends_outside
  intro _
  apply Ends.ite
  · intro _
    exact (h .gre w.rest hs).mono fun _ hl => hl.2
  intro _
  apply Ends.ite
  · intro _
    exact decodeOspfv3_spells w.rest
  · intro _
    exact rfl

theorem decodeIp6_ends {inner : Decoder} {s : Bytes} (h : Sound inner s.length) :
    Ends Failure.Real (decodeIp6 inner s) (fun l => l.Of .ip6 ∧ l.Spells s) := by
  apply ends_readInt 4
  rintro vTcFlow rest rfl
  apply ends_readInt 2
  rintro payloadLen rest rfl
  apply ends_readInt 1
  rintro nh rest rfl
  apply ends_readInt 1
  rintro hopLimit rest rfl
  apply ends_takeBytes
  rintro src rest rfl hsrc
  apply ends_takeBytes
  rintro dst rest rfl hdst
  dsimp only
  generalize (if payloadLen = 0 then rest.length else min payloadLen rest.length) = length
  have hwalk := walkIp6Ext_append (length + 1) nh (rest.take length) false
  generalize walkIp6Ext (length + 1) nh (rest.take length) false = w at hwalk ⊢
  have hshort : w.rest.length ≤ rest.length := by
    have hlen := congrArg List.length hwalk
    simp only [List.length_append, List.length_take] at hlen
    omega
  apply (decodeIp6Payload_ends h w (by simp; omega)).bind
  intro payload hpayload
  refine ⟨trivial, w.rest, hpayload, ?_⟩
  have hrest : rest = w.headers ++ w.rest ++ rest.drop length := by
    rw [hwalk, List.take_append_drop]
  conv => lhs; rw [hrest]
  simp [IP6Header.bytes]

theorem decode_sound (n : Nat) : Sound (decode n) n := by
  induction n with
  | zero =>
    intro kind s hs
    omega
  | succ n ih =>
    intro kind s hs
    have hinner : Sound (decode n) s.length := fun kind t ht => ih kind t (by omega)
    cases kind with
    | ethernet => exact decodeEthernet_ends hinner
    | mpls depth => exact decodeMpls_ends hinner depth
    | gre => exact decodeGre_ends hinner
    | ip => exact decodeIp_ends hinner
    | ip6 => exact decodeIp6_ends hinner

theorem ethernet_ends (s : Bytes) :
    Ends Failure.Real (ethernet s) (fun l => l.Of .ethernet ∧ l.Spells s) := by
  rw [ethernet_eq_decode]
  exact decode_sound (s.length + 1) .ethernet s (Nat.lt_succ_self _)

/-- A parsed frame is written as it was if and only if it is verbatim. -/
theorem pkt2net_ethernet {s : Bytes} {frame : Layer} (h : ethernet s = .ok frame) :
    frame.pkt2net false false = s ↔ frame.verbatim := by
  have hwritten := ((ethernet_ends s).of_ok h).2.written (k := {}) ⟨rfl, rfl⟩
  constructor
  · intro heq
    exact hwritten.verbatim (congrArg List.length heq)
  · exact hwritten.same

/-- One byte of UDP over IPv4, in a frame its sender filled up. -/
def filledFrame : Bytes :=
  [2, 0, 0, 0, 0, 1, 2, 0, 0, 0, 0, 2, 8, 0,
    69, 0, 0, 29, 0, 1, 0, 0, 64, 17, 102, 200, 10, 0, 0, 1, 10, 0, 0, 2,
    3, 232, 7, 208, 0, 9, 0, 0, 65] ++ List.replicate 17 0

def filledLayers : Layer :=
  .ethernet ⟨[2, 0, 0, 0, 0, 1], [2, 0, 0, 0, 0, 2], none, 0x0800⟩
    (.ip ⟨69, 0, 29, 1, 0, 64, 17, 26312, [10, 0, 0, 1], [10, 0, 0, 2], []⟩
      (.udp ⟨1000, 2000, 9, 0⟩ (.null [65]) []) (List.replicate 17 0))

theorem pkt2net_filledFrame : ethernet filledFrame = .ok filledLayers ∧
    filledLayers.pkt2net false false = filledFrame :=
  have hparsed : ethernet filledFrame = .ok filledLayers := by decide +kernel
  ⟨hparsed, (pkt2net_ethernet hparsed).mpr (by decide +kernel)⟩

/-- A frame of sixty bytes around a label, which has a frame of 42 bytes behind it. -/
def frameInFrame : Bytes :=
  [2, 0, 0, 0, 0, 1, 2, 0, 0, 0, 0, 2, 136, 71, 0, 1, 1, 64,
    2, 0, 0, 0, 0, 3, 2, 0, 0, 0, 0, 4, 136, 181] ++ List.replicate 28 255

theorem not_pkt2net_ethernet : ¬∀ (s : Bytes) (frame : Layer), MIN_FRAME_SIZE ≤ s.length →
    ethernet s = .ok frame → frame.pkt2net false false = s := by
  intro h
  have hsame := h frameInFrame
    (.ethernet ⟨[2, 0, 0, 0, 0, 1], [2, 0, 0, 0, 0, 2], none, 0x8847⟩
      (.mpls 65856 (.ethernet ⟨[2, 0, 0, 0, 0, 3], [2, 0, 0, 0, 0, 4], none, 0x88b5⟩
        (.null (List.replicate 28 255)))))
    (by decide) (by decide +kernel)
  exact absurd (congrArg List.length hsame) (by decide +kernel)

end Packets.Inet
