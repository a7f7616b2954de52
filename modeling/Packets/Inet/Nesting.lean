/-
How deep a packet nests (`core/inetpkt.pyx`).
-/
import Packets.Inet.Fragments
import Packets.Inet.RebuiltMessages

namespace Packets.Inet

open BigEndian (readInt takeBytes ofNat readInt_ofNat takeBytes_of_length)

namespace Layer

/-- The longest chain of payload and quoted-packet links. -/
def links : Layer → Nat
  | pkt => 0
  | null _ => 0
  | ethernet _ payload => payload.links + 1
  | mpls _ payload => payload.links + 1
  | gre _ _ payload => payload.links + 1
  | ip _ payload _ => payload.links + 1
  | ip6 _ payload _ => payload.links + 1
  | udp _ payload _ => payload.links + 1
  | tcp _ payload => payload.links + 1
  | icmp _ _ => 0
  | icmpError _ _ hdrPkt => hdrPkt.links + 1
  | icmpUnknown _ => 0
  | icmp6 _ _ => 0
  | icmp6Error _ _ hdrPkt => hdrPkt.links + 1
  | ospf _ => 0
  | ospf3 _ => 0

/-- The nested decoder calls that built a layer.  `_decode_mpls` walks down a label stack in one
call. -/
def calls : Layer → Nat
  | pkt => 0
  | null _ => 0
  | ethernet _ payload => payload.calls + 1
  | mpls _ (mpls data payload) => (mpls data payload).calls
  | mpls _ payload => payload.calls + 1
  | gre _ _ payload => payload.calls + 1
  | ip _ payload _ => payload.calls + 1
  | ip6 _ payload _ => payload.calls + 1
  | udp _ _ _ => 1
  | tcp _ _ => 1
  | icmp _ _ => 1
  | icmpError _ _ hdrPkt => hdrPkt.calls + 1
  | icmpUnknown _ => 1
  | icmp6 _ _ => 1
  | icmp6Error _ _ hdrPkt => hdrPkt.calls + 1
  | ospf _ => 1
  | ospf3 _ => 1

end Layer

/-- Every message of a chain is linked, and decoded within the call for the one before it. -/
def BGP.links : BGP → Nat
  | last _ _ => 1
  | chained _ payload => payload.links + 1

def BGP.calls : BGP → Nat
  | last _ _ => 1
  | chained _ payload => payload.calls + 1

structure Nest where
  links : Nat
  calls : Nat
deriving DecidableEq

def Layer.nest (l : Layer) : Nest := ⟨l.links, l.calls⟩

/-- The classes that bytes are given to. -/
inductive ParsedClass where
  | ethernet
  | mpls
  | ip
  | ip6
  | gre
  | bgp
deriving DecidableEq

/-- How deep what a class builds from bytes nests. -/
def ParsedClass.nesting : ParsedClass → Bytes → Except Failure Nest
  | ethernet, s => Layer.nest <$> Inet.ethernet s
  | mpls, s => Layer.nest <$> decode (s.length + 1) (.mpls 0) s
  | ip, s => Layer.nest <$> decode (s.length + 1) .ip s
  | ip6, s => Layer.nest <$> decode (s.length + 1) .ip6 s
  | gre, s => Layer.nest <$> decode (s.length + 1) .gre s
  | bgp, s => .ok ⟨(decodeBgp s).links, (decodeBgp s).calls⟩

/-- An Ethernet header without addresses. -/
def bareFrame (type : Nat) : EthernetHeader := ⟨List.replicate 6 0, List.replicate 6 0, none, type⟩

/-- The label at the bottom of its stack. -/
def bottomLabel : Bytes := [0, 0, 1, 0]

/-- Frames, each behind a label of the one before it. -/
def labelledFrames : Nat → Bytes
  | 0 => (bareFrame 0).bytes 0
  | n + 1 => (bareFrame 0x8847).bytes 0x8847 ++ (bottomLabel ++ labelledFrames n)

def labelledLayers : Nat → Layer
  | 0 => .ethernet (bareFrame 0) (.null [])
  | n + 1 => .ethernet (bareFrame 0x8847) (.mpls 256 (labelledLayers n))

theorem readEthernet_bareFrame {type : Nat} (htype : type < 256 ^ 2) (htag : type ≠ 0x8100)
    (rest : Bytes) : readEthernet ((bareFrame type).bytes type ++ rest) =
      .ok (bareFrame type, rest) := by
  have hzeros : (List.replicate 6 (0 : UInt8)).length = 6 := by simp
  simp only [EthernetHeader.bytes, bareFrame, Option.elim_none, List.append_nil,
    List.append_assoc, readEthernet, takeBytes_of_length hzeros, readInt_ofNat htype,
    need_bind_some]
  exact if_neg htag

theorem decode_labelled_succ {fuel : Nat} {s : Bytes} {l : Layer} (hs : s.headD 0 = 0)
    (hne : s ≠ []) (h : decode fuel .ethernet s = .ok l) :
    decode (fuel + 1) (.mpls 0) (bottomLabel ++ s) = .ok (.mpls 256 l) := by
  have hread : readInt 4 (bottomLabel ++ s) = some (256, s) :=
    readInt_ofNat (show 256 < 256 ^ 4 by decide) s
  have hinner : decodeMplsPayload (decode fuel) s = .ok l := by
    rw [decodeMplsPayload, hs]
    exact h
  simp only [decode, decodeMpls, hread, need_bind_some, List.isEmpty_iff, hne, if_false, hinner]
  rfl

theorem headD_labelledFrames (n : Nat) : (labelledFrames n).headD 0 = 0 := by cases n <;> rfl

theorem decode_labelledFrames (n : Nat) {fuel : Nat} (h : 2 * n < fuel) :
    decode fuel .ethernet (labelledFrames n) = .ok (labelledLayers n) := by
  induction n generalizing fuel with
  | zero =>
    obtain ⟨fuel, rfl⟩ := Nat.exists_eq_succ_of_ne_zero (Nat.ne_of_gt h)
    rw [decode, decodeEthernet_eq, labelledFrames, ← List.append_nil ((bareFrame 0).bytes 0),
      readEthernet_bareFrame (by decide) (by decide)]
    rfl
  | succ n ih =>
    obtain ⟨fuel, rfl⟩ : ∃ k, fuel = k + 2 := ⟨fuel - 2, by omega⟩
    have hne : labelledFrames n ≠ [] := by cases n <;> exact List.cons_ne_nil _ _
    have hbehind : decode fuel .ethernet (labelledFrames n) = .ok (labelledLayers n) :=
      ih (by omega)
    have hlabel := decode_labelled_succ (headD_labelledFrames n) hne hbehind
    rw [decode, decodeEthernet_eq, labelledFrames, readEthernet_bareFrame (by decide) (by decide)]
    have hpayload : decodeEthernetPayload (decode (fuel + 1)) (bareFrame 0x8847).type
        (bottomLabel ++ labelledFrames n) = .ok (.mpls 256 (labelledLayers n)) := hlabel
    exact congrArg (fun p => p >>= fun l => pure (Layer.ethernet (bareFrame 0x8847) l)) hpayload

theorem length_labelledFrames (n : Nat) : (labelledFrames n).length = 18 * n + 14 := by
  induction n with
  | zero => rfl
  | succ n ih =>
    have hheader : ((bareFrame 0x8847).bytes 0x8847).length = 14 := rfl
    have hlabel : bottomLabel.length = 4 := rfl
    rw [labelledFrames, List.length_append, List.length_append, ih, hheader, hlabel]
    omega

theorem nest_labelledLayers (n : Nat) :
    2 * n < (labelledLayers n).links ∧ 2 * n < (labelledLayers n).calls := by
  induction n with
  | zero => decide
  | succ n ih =>
    have hcalls : (Layer.mpls 256 (labelledLayers n)).calls = (labelledLayers n).calls + 1 := by
      cases n <;> rfl
    simp only [labelledLayers, Layer.links]
    rw [Layer.calls, hcalls]
    omega

/-- A GRE header without a checksum, a key or numbers. -/
def bareGre (proto : Nat) : GREHeader := ⟨0, proto, 0, 0, 0, 0, 0⟩

/-- Packets with one header, each in a GRE packet that the one before it carries. -/
def tunnel (header : Bytes) (proto : Nat) : Nat → Bytes
  | 0 => header
  | n + 1 => header ++ ((bareGre proto).bytes proto 0 ++ tunnel header proto n)

def tunnelLayers (packet : Layer → Layer) (proto : Nat) : Nat → Layer
  | 0 => packet .pkt
  | n + 1 => packet (.gre (bareGre proto) none (tunnelLayers packet proto n))

/-- A header after which GRE is decoded, of a packet that GRE carries. -/
structure Tunnels (kind : Protocol) (proto : Nat) (header : Bytes) (packet : Layer → Layer) :
    Prop where
  nonempty : 0 < header.length
  fits : proto < 65536
  typed : ∀ inner s, decodeGrePayload inner proto s = inner kind s
  alone : ∀ fuel, decode (fuel + 1) kind header = .ok (packet .pkt)
  around : ∀ {fuel s l}, s ≠ [] → decode fuel .gre s = .ok l →
    decode (fuel + 1) kind (header ++ s) = .ok (packet l)
  links : ∀ l, (packet l).links = l.links + 1
  calls : ∀ l, (packet l).calls = l.calls + 1

@[simp] theorem flagC_bareGre (proto : Nat) : (bareGre proto).flagC = false := by
  simp [bareGre, GREHeader.flagC]

@[simp] theorem flagK_bareGre (proto : Nat) : (bareGre proto).flagK = false := by
  simp [bareGre, GREHeader.flagK]

@[simp] theorem flagS_bareGre (proto : Nat) : (bareGre proto).flagS = false := by
  simp [bareGre, GREHeader.flagS]

@[simp] theorem flagA_bareGre (proto : Nat) : (bareGre proto).flagA = false := by
  simp [bareGre, GREHeader.flagA]

theorem bareGre_bytes {proto : Nat} (hproto : proto < 65536) :
    (bareGre proto).bytes proto 0 = ofNat 4 proto := by
  rw [← ofNat_halves proto, Nat.mod_eq_of_lt hproto, Nat.div_eq_of_lt hproto]
  simp only [GREHeader.bytes, flagC_bareGre, flagK_bareGre, flagS_bareGre, flagA_bareGre,
    Bool.false_eq_true, if_false, List.append_nil]
  rfl

theorem readGREHeader_bareGre {proto : Nat} (hproto : proto < 65536) (rest : Bytes) :
    readGREHeader ((bareGre proto).bytes proto 0 ++ rest) = ⟨bareGre proto, false, rest⟩ := by
  have hread : readInt 4 (ofNat 4 proto ++ rest) = some (proto, rest) :=
    readInt_ofNat (by omega) rest
  have hfirst : (GREReading.mk ⟨0, 0, 0, 0, 0, 0, 0⟩ false (ofNat 4 proto ++ rest)).word
      (fun _ => true) (fun h v => { h with flags := v / 65536, proto := v % 65536 }) =
      ⟨bareGre proto, false, rest⟩ := by
    simp only [GREReading.word, hread, Nat.mod_eq_of_lt hproto, Nat.div_eq_of_lt hproto]
    rfl
  have hnone {flag : GREHeader → Bool} (hflag : flag (bareGre proto) = false)
      (store : GREHeader → Nat → GREHeader) :
      (GREReading.mk (bareGre proto) false rest).word flag store = ⟨bareGre proto, false, rest⟩ := by
    simp [GREReading.word, hflag]
  rw [bareGre_bytes hproto, readGREHeader, hfirst, hnone (flagC_bareGre proto),
    hnone (flagK_bareGre proto), hnone (flagS_bareGre proto), hnone (flagA_bareGre proto)]

theorem decode_bareGre {kind : Protocol} {proto fuel : Nat} {s : Bytes} {l : Layer}
    (hproto : proto < 65536) (htyped : ∀ inner s, decodeGrePayload inner proto s = inner kind s)
    (hs : s ≠ []) (h : decode fuel kind s = .ok l) :
    decode (fuel + 1) .gre ((bareGre proto).bytes proto 0 ++ s) =
      .ok (.gre (bareGre proto) none l) := by
  have hpayload : decodeGrePayload (decode fuel) (bareGre proto).proto s = .ok l := by
    rw [show (bareGre proto).proto = proto from rfl, htyped, h]
  simp only [decode, decodeGre, readGREHeader_bareGre hproto, hpayload, List.isEmpty_iff, hs,
    if_false]
  rfl

theorem length_tunnel (header : Bytes) {proto : Nat} (hproto : proto < 65536) (n : Nat) :
    (tunnel header proto n).length = (header.length + 4) * n + header.length := by
  induction n with
  | zero => simp [tunnel]
  | succ n ih =>
    rw [tunnel, bareGre_bytes hproto, List.length_append, List.length_append, ih,
      BigEndian.length_ofNat]
    ring

theorem tunnel_ne_nil {kind : Protocol} {proto : Nat} {header : Bytes} {packet : Layer → Layer}
    (h : Tunnels kind proto header packet) (n : Nat) : tunnel header proto n ≠ [] := by
  intro hnil
  have hlen := length_tunnel header h.fits n
  have hpos := h.nonempty
  rw [hnil, List.length_nil] at hlen
  omega

theorem decode_tunnel {kind : Protocol} {proto : Nat} {header : Bytes} {packet : Layer → Layer}
    (h : Tunnels kind proto header packet) (n : Nat) {fuel : Nat} (hfuel : 2 * n < fuel) :
    decode fuel kind (tunnel header proto n) = .ok (tunnelLayers packet proto n) := by
  induction n generalizing fuel with
  | zero =>
    obtain ⟨fuel, rfl⟩ := Nat.exists_eq_succ_of_ne_zero (Nat.ne_of_gt hfuel)
    exact h.alone fuel
  | succ n ih =>
    obtain ⟨fuel, rfl⟩ : ∃ k, fuel = k + 2 := ⟨fuel - 2, by omega⟩
    have hne := tunnel_ne_nil h n
    have hinner : decode fuel kind (tunnel header proto n) = .ok (tunnelLayers packet proto n) :=
      ih (by omega)
    have hgre := decode_bareGre h.fits h.typed hne hinner
    exact h.around (by simp [hne]) hgre

theorem nest_tunnelLayers {kind : Protocol} {proto : Nat} {header : Bytes}
    {packet : Layer → Layer} (h : Tunnels kind proto header packet) (n : Nat) :
    2 * n < (tunnelLayers packet proto n).links ∧ 2 * n < (tunnelLayers packet proto n).calls := by
  induction n with
  | zero =>
    rw [tunnelLayers, h.links, h.calls]
    omega
  | succ n ih =>
    rw [tunnelLayers, h.links, h.calls, Layer.links, Layer.calls]
    omega

/-- An IPv4 header that states no length and is followed by GRE. -/
def bareIp : IPHeader := ⟨0x45, 0, 0, 0, 0, 0, 47, 0, List.replicate 4 0, List.replicate 4 0, []⟩

theorem readIp_bareIp (rest : Bytes) :
    readIp (bareIp.bytes 0x45 0 0 ++ rest) = .ok (bareIp, rest, []) := by
  have hzeros : (List.replicate 4 (0 : UInt8)).length = 4 := by simp
  simp only [IPHeader.bytes, bareIp, List.append_assoc, List.nil_append, readIp,
    readInt_ofNat (show 0x45 < 256 ^ 1 by decide), readInt_ofNat (show 0 < 256 ^ 1 by decide),
    readInt_ofNat (show 0 < 256 ^ 2 by decide), readInt_ofNat (show 47 < 256 ^ 1 by decide),
    takeBytes_of_length hzeros, need_bind_some]
  have hoptions : takeBytes (0x45 % 16 * 4 - 20) rest = some ([], rest) :=
    takeBytes_of_length (s := []) rfl rest
  rw [if_neg (by decide), hoptions, need_bind_some]
  change Except.ok (bareIp, rest.take rest.length, rest.drop rest.length) = _
  rw [List.take_length, List.drop_length]
  rfl

theorem tunnels_ip : Tunnels .ip 0x0800 (bareIp.bytes 0x45 0 0) (fun l => .ip bareIp l []) where
  nonempty := by decide
  fits := by decide
  typed := fun inner s => rfl
  alone := by
    intro fuel
    rw [decode, decodeIp_eq, ← List.append_nil (bareIp.bytes 0x45 0 0), readIp_bareIp]
    rfl
  around := by
    intro fuel s l hs h
    have hpayload : decodeIpPayload (decode fuel) bareIp.proto s = .ok l := by
      have hempty : s.isEmpty = false := by simpa using hs
      rw [decodeIpPayload, hempty]
      exact h
    rw [decode, decodeIp_eq, readIp_bareIp]
    exact congrArg (fun p => p >>= fun l => pure (Layer.ip bareIp l [])) hpayload
  links := fun l => rfl
  calls := fun l => rfl

/-- An IPv6 header that states no length and is followed by GRE. -/
def bareIp6 : IP6Header :=
  ⟨0x60000000, 0, 47, 0, List.replicate 16 0, List.replicate 16 0, [], 47, false⟩

theorem readIp6_bareIp6 (rest : Bytes) : readIp6 (bareIp6.bytes 0 ++ rest) =
    .ok ⟨0x60000000, 0, 47, 0, List.replicate 16 0, List.replicate 16 0, rest, []⟩ := by
  have hzeros : (List.replicate 16 (0 : UInt8)).length = 16 := by simp
  simp only [IP6Header.bytes, bareIp6, List.append_assoc, List.nil_append, readIp6,
    readInt_ofNat (show 0x60000000 < 256 ^ 4 by decide), readInt_ofNat (show 0 < 256 ^ 2 by decide),
    readInt_ofNat (show 47 < 256 ^ 1 by decide), readInt_ofNat (show 0 < 256 ^ 1 by decide),
    takeBytes_of_length hzeros, need_bind_some, if_true, List.take_length, List.drop_length]
  rfl

theorem tunnels_ip6 : Tunnels .ip6 0x86dd (bareIp6.bytes 0) (fun l => .ip6 bareIp6 l []) where
  nonempty := by decide
  fits := by decide
  typed := fun inner s => rfl
  alone := by
    intro fuel
    rw [decode, decodeIp6_eq, ← List.append_nil (bareIp6.bytes 0), readIp6_bareIp6]
    rfl
  around := by
    intro fuel s l hs h
    have hpayload : decodeIp6Payload (decode fuel) ⟨47, [], s, false, false⟩ = .ok l := by
      have hempty : s.isEmpty = false := by simpa using hs
      rw [decodeIp6Payload, hempty]
      exact h
    rw [decode, decodeIp6_eq, readIp6_bareIp6]
    exact congrArg (fun p => p >>= fun l => pure (Layer.ip6 bareIp6 l [])) hpayload
  links := fun l => rfl
  calls := fun l => rfl

def keepalive : Bytes := List.replicate 16 255 ++ [0, 19, 4]

def keepalives : Nat → Bytes
  | 0 => keepalive
  | n + 1 => keepalive ++ keepalives n

theorem length_keepalives (n : Nat) : (keepalives n).length = 19 * (n + 1) := by
  induction n with
  | zero => rfl
  | succ n ih =>
    rw [keepalives, List.length_append, ih]
    simp [keepalive]
    ring

theorem decodeBgp_keepalive {rest : Bytes} (h : 19 ≤ rest.length) :
    ∃ m, decodeBgp (keepalive ++ rest) = .chained m (decodeBgp rest) := by
  have hheader : bgpMsgHeader (keepalive ++ rest) = some (List.replicate 16 255, 19, 4, rest) := by
    have hmarker : (List.replicate 16 (255 : UInt8)).length = 16 := by simp
    have hbytes : keepalive ++ rest =
        List.replicate 16 255 ++ (ofNat 2 19 ++ (ofNat 1 4 ++ rest)) := rfl
    rw [hbytes, bgpMsgHeader, takeBytes_of_length hmarker]
    simp only [Option.bind_eq_bind, Option.bind_some, Option.pure_def,
      readInt_ofNat (show 19 < 256 ^ 2 by decide), readInt_ofNat (show 4 < 256 ^ 1 by decide)]
  have hlength : keepalive.length = 19 := rfl
  have hend : msgEnd 19 (keepalive ++ rest).length = 19 := by
    rw [msgEnd, if_pos ⟨le_refl _, by rw [List.length_append]; omega⟩]
  rw [decodeBgp, hheader]
  dsimp only
  rw [hend, if_pos (by rw [List.length_append]; omega), ← hlength, List.drop_left]
  exact ⟨_, rfl⟩

theorem nest_keepalives (n : Nat) :
    n < (decodeBgp (keepalives n)).links ∧ n < (decodeBgp (keepalives n)).calls := by
  induction n with
  | zero => exact ⟨by cases decodeBgp _ <;> exact Nat.succ_pos _,
      by cases decodeBgp _ <;> exact Nat.succ_pos _⟩
  | succ n ih =>
    have hroom : 19 ≤ (keepalives n).length := by
      rw [length_keepalives]
      omega
    obtain ⟨m, hm⟩ := decodeBgp_keepalive hroom
    rw [keepalives, hm, BGP.links, BGP.calls]
    omega

theorem two_mul_le_length_tunnel {kind : Protocol} {proto : Nat} {header : Bytes}
    {packet : Layer → Layer} (h : Tunnels kind proto header packet) (n : Nat) :
    2 * n ≤ (tunnel header proto n).length := by
  have hwide := Nat.mul_le_mul_right n (show 2 ≤ header.length + 4 by omega)
  rw [length_tunnel header h.fits]
  omega

theorem nest_tunnel {kind : Protocol} {proto : Nat} {header : Bytes} {packet : Layer → Layer}
    (h : Tunnels kind proto header packet) (n : Nat) :
    ∃ nest, Layer.nest <$> decode ((tunnel header proto n).length + 1) kind
      (tunnel header proto n) = .ok nest ∧ n < nest.links ∧ n < nest.calls := by
  have hdecoded := decode_tunnel h n (Nat.lt_succ_of_le (two_mul_le_length_tunnel h n))
  have hnest := nest_tunnelLayers h n
  refine ⟨(tunnelLayers packet proto n).nest, by rw [hdecoded]; rfl, ?_, ?_⟩
  · exact Nat.lt_of_le_of_lt (by omega) hnest.1
  · exact Nat.lt_of_le_of_lt (by omega) hnest.2

/-- Whatever the bound, every class has bytes that it parses into a packet with more links, and
with more decoder calls within one another. -/
theorem nesting_unbounded (entry : ParsedClass) (bound : Nat) :
    ∃ s nest, entry.nesting s = .ok nest ∧ bound < nest.links ∧ bound < nest.calls := by
  have hframes := nest_labelledLayers bound
  cases entry with
  | ethernet =>
    refine ⟨labelledFrames bound, (labelledLayers bound).nest, ?_, ?_, ?_⟩
    · rw [ParsedClass.nesting, ethernet_eq_decode, decode_labelledFrames bound
        (by rw [length_labelledFrames]; omega)]
      rfl
    · exact Nat.lt_of_le_of_lt (by omega) hframes.1
    · exact Nat.lt_of_le_of_lt (by omega) hframes.2
  | mpls =>
    have hne : labelledFrames bound ≠ [] := by
      intro hnil
      have hlen := length_labelledFrames bound
      rw [hnil, List.length_nil] at hlen
      omega
    have hlong : 2 * bound < (bottomLabel ++ labelledFrames bound).length := by
      rw [List.length_append, length_labelledFrames]
      omega
    have hdecoded := decode_labelled_succ (headD_labelledFrames bound) hne
      (decode_labelledFrames bound hlong)
    refine ⟨bottomLabel ++ labelledFrames bound, (Layer.mpls 256 (labelledLayers bound)).nest,
      ?_, ?_, ?_⟩
    · rw [ParsedClass.nesting, hdecoded]
      rfl
    · exact Nat.lt_of_le_of_lt (by omega) (Nat.lt_succ_of_lt hframes.1)
    · have hcalls : (Layer.mpls 256 (labelledLayers bound)).calls =
          (labelledLayers bound).calls + 1 := by
        cases bound <;> rfl
      rw [Layer.nest, hcalls]
      exact Nat.lt_of_le_of_lt (by omega) (Nat.lt_succ_of_lt hframes.2)
  | ip =>
    obtain ⟨nest, hnest, hdeep⟩ := nest_tunnel tunnels_ip bound
    exact ⟨_, nest, hnest, hdeep⟩
  | ip6 =>
    obtain ⟨nest, hnest, hdeep⟩ := nest_tunnel tunnels_ip6 bound
    exact ⟨_, nest, hnest, hdeep⟩
  | gre =>
    have hlong : 2 * bound < ((bareGre 0x0800).bytes 0x0800 0 ++
        tunnel (bareIp.bytes 0x45 0 0) 0x0800 bound).length := by
      have hwide := two_mul_le_length_tunnel tunnels_ip bound
      rw [List.length_append, bareGre_bytes (by decide), BigEndian.length_ofNat]
      omega
    have hdecoded := decode_bareGre tunnels_ip.fits tunnels_ip.typed
      (tunnel_ne_nil tunnels_ip bound) (decode_tunnel tunnels_ip bound hlong)
    have hnest := nest_tunnelLayers tunnels_ip bound
    refine ⟨(bareGre 0x0800).bytes 0x0800 0 ++ tunnel (bareIp.bytes 0x45 0 0) 0x0800 bound,
      _, congrArg (Layer.nest <$> ·) hdecoded, ?_, ?_⟩
    · exact Nat.lt_of_le_of_lt (by omega) (Nat.lt_succ_of_lt hnest.1)
    · exact Nat.lt_of_le_of_lt (by omega) (Nat.lt_succ_of_lt hnest.2)
  | bgp => exact ⟨keepalives bound, _, rfl, nest_keepalives bound⟩

theorem not_nesting_bounded : ¬∃ bound, ∀ (entry : ParsedClass) (s : Bytes) (nest : Nest),
    entry.nesting s = .ok nest → nest.links ≤ bound ∧ nest.calls ≤ bound := by
  rintro ⟨bound, h⟩
  have hdeep := nest_keepalives bound
  have hbounded := h .bgp (keepalives bound) _ rfl
  exact absurd hbounded.1 (Nat.not_le_of_lt hdeep.1)

end Packets.Inet
