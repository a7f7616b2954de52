/-
The rows an object extracts for the fields it says it supports.
-/
import Packets.Query.Supported

namespace Packets.Query

open Packets.Inet
open DecimalText (isDigit value)

/-- A TCP segment without a payload. -/
def segment : Bytes :=
  [2, 0, 0, 0, 0, 1, 2, 0, 0, 0, 0, 2, 8, 0,
    69, 0, 0, 40, 0, 1, 0, 0, 64, 6, 0, 0, 10, 0, 0, 1, 10, 0, 0, 2,
    0, 80, 0, 81, 0, 0, 0, 1, 0, 0, 0, 2, 80, 2, 0, 0, 0, 0, 0, 0]

/-- A UDP datagram without a payload. -/
def datagram : Bytes :=
  [2, 0, 0, 0, 0, 1, 2, 0, 0, 0, 0, 2, 8, 0,
    69, 0, 0, 28, 0, 1, 0, 0, 64, 17, 0, 0, 10, 0, 0, 1, 10, 0, 0, 2, 0, 80, 0, 81, 0, 8, 0, 0]

/-- An ARP request whose addresses have one byte each. -/
def shortArp : Bytes :=
  [2, 0, 0, 0, 0, 1, 2, 0, 0, 0, 0, 2, 8, 6, 0, 6, 8, 0, 1, 1, 0, 1, 7, 8, 0, 9]

def frameHeader (type : Nat) : EthernetHeader :=
  ⟨[2, 0, 0, 0, 0, 1], [2, 0, 0, 0, 0, 2], none, type⟩

def datagramHeader (length proto : Nat) : IPHeader :=
  ⟨69, 0, length, 1, 0, 64, proto, 0, [10, 0, 0, 1], [10, 0, 0, 2], []⟩

def segmentHeader : TCPHeader := ⟨80, 81, 1, 2, 0x5002, 0, 0, 0, [], [], 20⟩

/-- Ethernet and IPv4 around a layer. -/
def framed (length proto : Nat) (p : PKT LayerFields) : PKT LayerFields :=
  .above (.ethernet (frameHeader 0x0800) (by decide) (by decide))
    (.above (.ip (datagramHeader length proto) (by simp [datagramHeader]) (by simp [datagramHeader])) p)

theorem ethernetPacket_segment (parsing : Parsing) : ethernetPacket parsing segment =
    .ok (framed 40 6 (overPayload parsing (.tcp segmentHeader) 80 81 [])) := by
  have hread : readEthernet segment = some (frameHeader 0x0800, segment.drop 14) := by
    decide +kernel
  have hdecoded : ethernet segment = .ok (.ethernet (frameHeader 0x0800)
      (.ip (datagramHeader 40 6) (.tcp segmentHeader (.null [])) [])) := by decide +kernel
  rw [ethernetPacket, hread]
  simp only [frameHeader, hdecoded]
  rfl

theorem ethernetPacket_datagram (parsing : Parsing) : ethernetPacket parsing datagram =
    .ok (framed 28 17 (overPayload parsing (.udp ⟨80, 81, 8, 0⟩) 80 81 [])) := by
  have hread : readEthernet datagram = some (frameHeader 0x0800, datagram.drop 14) := by
    decide +kernel
  have hdecoded : ethernet datagram = .ok (.ethernet (frameHeader 0x0800)
      (.ip (datagramHeader 28 17) (.udp ⟨80, 81, 8, 0⟩ (.null []) []) [])) := by decide +kernel
  rw [ethernetPacket, hread]
  simp only [frameHeader, hdecoded]
  rfl

def shortArpHeader : ARPHeader := ⟨6, 0x0800, 1, 1, 1, [7], .hex [8], [0], .hex [9]⟩

theorem ethernetPacket_shortArp (parsing : Parsing) : ethernetPacket parsing shortArp =
    .ok (.above (.ethernet (frameHeader 0x0806) (by decide) (by decide)) (.last (.arp shortArpHeader))) := by
  have hread : readEthernet shortArp = some (frameHeader 0x0806, shortArp.drop 14) := by
    decide +kernel
  have hdecoded : decodeArp (shortArp.drop 14) = some shortArpHeader := by decide +kernel
  rw [ethernetPacket, hread]
  simp only [frameHeader, arpPacket, hdecoded]
  rfl

theorem tcp_payloadOffset (h : TCPHeader) (payload : L7Payload) {name : String}
    (hshort : shortName name = "tcp.payload.offset".toList) :
    TCP.getFieldVal h payload name = payloadOffset name payload := by
  simp [TCP.getFieldVal, hshort]

theorem udp_payloadOffset (h : UDPHeader) (payload : L7Payload) {name : String}
    (hshort : shortName name = "udp.payload.offset".toList) :
    UDP.getFieldVal h payload name = payloadOffset name payload := by
  simp [UDP.getFieldVal, hshort]

theorem payloadOffset_raises {name : String} (h : ¬(offsets name).isOk) (payload : L7Payload) :
    ¬Shown (payloadOffset name payload) := by
  rintro ⟨v, hv⟩
  unfold payloadOffset at hv
  cases hoffsets : offsets name with
  | error e => rw [hoffsets] at hv; cases hv
  | ok bounds => exact h (by rw [hoffsets]; rfl)

theorem overPayload_spec (parsing : Parsing) (layer : L7Payload → LayerFields)
    (sport dport : Nat) (s : Bytes) : ∃ payload,
      (overPayload parsing layer sport dport s).info = layer payload := by
  unfold overPayload
  cases parsing.l7 sport dport s with
  | none => exact ⟨_, rfl⟩
  | some r => exact ⟨_, rfl⟩

theorem matching_head {t : Nat} {p : PKT LayerFields} (h : PktLayer.pqType p.info = t) :
    (p.matching fun layer => PktLayer.pqType layer == t).head? = some p := by
  cases p with
  | last info =>
    have htype : PktLayer.pqType info = t := h
    simp [PKT.matching, htype]
  | above info payload =>
    have htype : PktLayer.pqType info = t := h
    simp [PKT.matching, htype]

theorem matching_framed (length proto : Nat) {t : Nat} {p : PKT LayerFields}
    (h : PktLayer.pqType p.info = t) (heth : t ≠ PQ_ETH) (hip : t ≠ PQ_IP) :
    ((framed length proto p).matching fun layer => PktLayer.pqType layer == t).head? = some p := by
  have hnot : ∀ layer : LayerFields, PktLayer.pqType layer ≠ t →
      (PktLayer.pqType layer == t) = false := fun layer hne => beq_eq_false_iff_ne.mpr hne
  rw [framed, PKT.matching, PKT.matching, hnot (.ethernet _ _ _) heth.symm,
    hnot (.ip _ _ _) hip.symm]
  exact matching_head h

/-- A field that some packet may raise for has a frame that does. -/
theorem exists_raising (parsing : Parsing) {added : List PacketClass} {name : String}
    (h : Refused added name) : ∃ s p, ethernetPacket parsing s = .ok p ∧
      ∀ frame, ¬Shown (expectedCell added frame p name) := by
  obtain ⟨t, hoffer, hbad⟩ := h
  rcases hbad with ⟨rfl, hshort, hbounds⟩ | ⟨rfl, hshort, hbounds⟩ | ⟨rfl, hmac⟩
  · refine ⟨segment, _, ethernetPacket_segment parsing, fun frame => ?_⟩
    obtain ⟨payload, hinfo⟩ := overPayload_spec parsing (.tcp segmentHeader) 80 81 []
    obtain ⟨below, hbelow⟩ := fieldVal_eq (overPayload parsing (.tcp segmentHeader) 80 81 [])
    have hfirst := matching_framed 40 6 (t := PQ_TCP) (congrArg PktLayer.pqType hinfo)
      (by decide) (by decide)
    simp only [expectedCell, hoffer, hfirst, hbelow, hinfo, LayerFields.getFieldVal]
    rw [if_neg (by decide), tcp_payloadOffset _ _ hshort]
    exact payloadOffset_raises hbounds payload
  · refine ⟨datagram, _, ethernetPacket_datagram parsing, fun frame => ?_⟩
    obtain ⟨payload, hinfo⟩ := overPayload_spec parsing (.udp ⟨80, 81, 8, 0⟩) 80 81 []
    obtain ⟨below, hbelow⟩ := fieldVal_eq (overPayload parsing (.udp ⟨80, 81, 8, 0⟩) 80 81 [])
    have hfirst := matching_framed 28 17 (t := PQ_UDP) (congrArg PktLayer.pqType hinfo)
      (by decide) (by decide)
    simp only [expectedCell, hoffer, hfirst, hbelow, hinfo, LayerFields.getFieldVal]
    rw [if_neg (by decide), udp_payloadOffset _ _ hshort]
    exact payloadOffset_raises hbounds payload
  · refine ⟨shortArp, _, ethernetPacket_shortArp parsing, fun frame => ?_⟩
    have hraises : ∀ mac ∈ ["arp.src.hw_mac", "arp.dst.hw_mac"],
        ¬Shown (ARP.getFieldVal shortArpHeader mac) := by
      intro mac hmem
      simp only [List.mem_cons, List.not_mem_nil, or_false] at hmem
      rintro ⟨v, hv⟩
      rcases hmem with rfl | rfl
      · cases hv
      · cases hv
    simp only [expectedCell, hoffer]
    rw [if_neg (by decide)]
    exact hraises name (by simpa using hmac)

/-- The layer the value of a field is read from. -/
def sourceLayer (added : List PacketClass) (p : PKT LayerFields) (name : String) :
    Option (PKT LayerFields) := do
  let t ← offering added name
  (p.matching fun layer => PktLayer.pqType layer == t).head?

/-- A layer 4 layer, whose payload a name asks for. -/
def AsksFor (name : String) (layer : LayerFields) (payload : L7Payload) : Prop :=
  (∃ h, layer = .tcp h payload ∧ shortName name = "tcp.payload.offset".toList) ∨
    ∃ h, layer = .udp h payload ∧ shortName name = "udp.payload.offset".toList

/-- A payload offset field with its bounds in order has the bytes between them. -/
def OffsetCells (added : List PacketClass) (names : List String) (p : PKT LayerFields)
    (row : List (Option Value)) : Prop :=
  ∀ (i : Nat) (name : String) (first last : List Char) (layer : PKT LayerFields)
    (payload : L7Payload), names[i]? = some name →
    offsetRe name = some (first, last) → value first < value last →
    sourceLayer added p name = some layer → AsksFor name layer.info payload →
      row[i]? = some (some (Value.bytes
        ((payload.pkt2net.drop (value first)).take (value last - value first))))

/-- What is said of the fields an object supports. -/
structure Promise (parsing : Parsing) (added : List PacketClass) (names : List String) : Prop where
  returns : ∃ b, fieldsSupported (registered added) names = .ok b
  builds : fieldsSupported (registered added) names = .ok true →
    ∃ q, PcapQuery.build added names = .ok q
  extracts : ∀ q, PcapQuery.build added names = .ok q →
    ∀ c p, ethernetPacket parsing c.bytes = .ok p →
      ∃ row, q.rowOf parsing.parser () c = .ok (row, ()) ∧ OffsetCells added names p row

/-- Bounds that can be read, and, where all the names are supported, none that some packet may
raise for. -/
structure Extractable (added : List PacketClass) (names : List String) : Prop where
  bounds : ∀ name ∈ names, BoundsFit (registered added) name
  readable : (∀ name ∈ names, Supported (registered added) name) →
    ∀ name ∈ names, ¬Refused added name

theorem offsets_of_shown {name : String} {first last : List Char}
    (hre : offsetRe name = some (first, last)) {payload : L7Payload} {v : Option Value}
    (h : payloadOffset name payload = .ok v) :
    v = some (.bytes ((payload.pkt2net.drop (value first)).take (value last - value first))) := by
  have hname := offsetRe_spelled hre
  have hoffsets := offsets_of_spelled hname
  have hread {digits : List Char} (hdigits : ∀ c ∈ digits, isDigit c) {n : Int}
      (hn : DecimalText.int digits = some n) : n = value digits := by
    by_cases hfits : Fits digits
    · exact Option.some.inj (hn.symm.trans (int_of_fits hdigits hfits))
    · rw [int_of_not_fits hdigits hfits] at hn
      cases hn
  unfold payloadOffset at h
  rw [hoffsets, intBounds] at h
  cases hfirst : DecimalText.int first with
  | none => rw [hfirst] at h; cases h
  | some x =>
    cases hlast : DecimalText.int last with
    | none => rw [hfirst, hlast] at h; cases h
    | some y =>
      obtain rfl := hread hname.first hfirst
      obtain rfl := hread hname.last hlast
      rw [hfirst, hlast] at h
      rw [← payloadOffsetBytes_nat]
      exact (Except.ok.inj h).symm

theorem offsetCells (added : List PacketClass) {names : List String} {frame : Frame}
    {p : PKT LayerFields} {row : List (Option Value)}
    (hrow : names.mapM (expectedCell added frame p) = .ok row) : OffsetCells added names p row := by
  intro i name first last layer payload hname hre _ hsource hasks
  obtain ⟨t, hoffer, hfirst⟩ := Option.bind_eq_some_iff.mp hsource
  have htype := matching_type (List.mem_of_head? hfirst)
  have hframe : t ≠ PQ_FRAME := by
    rw [← htype]
    rcases hasks with ⟨h, hinfo, -⟩ | ⟨h, hinfo, -⟩
    · rw [hinfo]
      exact (by decide : PQ_TCP ≠ PQ_FRAME)
    · rw [hinfo]
      exact (by decide : PQ_UDP ≠ PQ_FRAME)
  obtain ⟨below, hbelow⟩ := fieldVal_eq layer
  have hcell : expectedCell added frame p name = payloadOffset name payload := by
    simp only [expectedCell, hoffer, hframe, if_false, hfirst, hbelow]
    rcases hasks with ⟨h, hinfo, hshort⟩ | ⟨h, hinfo, hshort⟩
    · rw [hinfo]
      exact tcp_payloadOffset h payload hshort
    · rw [hinfo]
      exact udp_payloadOffset h payload hshort
  have hall := Mapped.mapM_eq_ok_iff.mp hrow
  obtain ⟨hi, rfl⟩ := List.getElem?_eq_some_iff.mp hname
  have hi' : i < row.length := hall.length_eq ▸ hi
  have hget : expectedCell added frame p names[i] = .ok row[i] := hall.get hi hi'
  rw [List.getElem?_eq_getElem hi', ← offsets_of_shown hre (hcell.symm.trans hget)]

theorem rowOf_unkept {added : List PacketClass} {names : List String} {q : PcapQuery}
    (h : PcapQuery.build added names = .ok q) {parsing : Parsing} {c : Captured}
    {p : PKT LayerFields} (hparse : ethernetPacket parsing c.bytes = .ok p) :
    q.rowOf parsing.parser () c =
      (names.mapM (expectedCell added c.frame p)).map fun row => (row, ()) := by
  have hown : parsing.parser.parse () c.bytes = .ok (p, ()) := by
    simp only [Parsing.parser, hparse, Except.map]
  exact rowOf_eq h hown

/-- A field that is refused breaks the promise where the list is supported. -/
theorem not_refused_of_promise {parsing : Parsing} {added : List PacketClass}
    {names : List String} (h : Promise parsing added names)
    (hsupported : fieldsSupported (registered added) names = .ok true) {name : String}
    (hname : name ∈ names) : ¬Refused added name := by
  intro hrefused
  obtain ⟨q, hq⟩ := h.builds hsupported
  obtain ⟨s, p, hparse, hraises⟩ := exists_raising parsing hrefused
  obtain ⟨row, hrow, -⟩ := h.extracts q hq ⟨⟨0, 0, 0⟩, s⟩ p hparse
  rw [rowOf_unkept hq (c := ⟨⟨0, 0, 0⟩, s⟩) hparse] at hrow
  cases hcells : names.mapM (expectedCell added ⟨0, 0, 0⟩ p) with
  | error e => rw [hcells] at hrow; cases hrow
  | ok cells =>
    obtain ⟨v, hv⟩ := Mapped.exists_mapM_ok_iff.mp ⟨cells, hcells⟩ name hname
    exact hraises _ ⟨v, hv⟩

theorem not_promise_of_refused {name : String}
    (hreg : (defaultClasses.any fun c => c.pfields.contains name) = true) {t : Nat}
    (hoffer : offering [] name = some t) (hbad : Unreadable t name) :
    ¬Promise plainParsing [] [name] := by
  intro h
  have hsupported : fieldsSupported (registered []) [name] = .ok true := by
    apply supported_of_registered
    intro n hn
    rw [List.mem_singleton.mp hn, contains_registered]
    exact hreg
  exact not_refused_of_promise h hsupported (List.mem_singleton_self name) ⟨t, hoffer, hbad⟩

end Packets.Query
