/-
The cells of a row: each is the value its field has in the first layer of the class that
offers it.

The names whose value can be read from every packet.
-/
import Packets.Lib.Mapped
import Packets.Query.PcapQuery

namespace Packets.Query

open Packets.Inet

/-- The type of the class that offers a name: the last one that registers it. -/
def offering (added : List PacketClass) (name : String) : Option Nat :=
  ((defaultClasses ++ added).reverse.find? fun c => c.pfields.contains (fieldKey name)).map
    PacketClass.ptype

theorem get?_registerClass (fields : FieldTable) (c : PacketClass) (key : String) :
    (registerClass fields c).get? key =
      if c.pfields.contains key then some c.ptype else fields.get? key := by
  obtain ⟨ptype, pfields⟩ := c
  simp only [registerClass]
  induction pfields generalizing fields with
  | nil => simp
  | cons pfield rest ih =>
    rw [List.foldl_cons, ih, Dict.get?_set]
    by_cases hrest : key ∈ rest
    · simp [hrest]
    · by_cases hkey : key = pfield
      · simp [hkey]
      · simp [hrest, hkey]

theorem get?_foldl_registerClass (classes : List PacketClass) (fields : FieldTable)
    (key : String) : (classes.foldl registerClass fields).get? key =
      ((classes.reverse.find? fun c => c.pfields.contains key).map PacketClass.ptype).or
        (fields.get? key) := by
  induction classes generalizing fields with
  | nil => rfl
  | cons c rest ih =>
    rw [List.foldl_cons, ih, get?_registerClass, List.reverse_cons, List.find?_append]
    cases rest.reverse.find? fun c => c.pfields.contains key with
    | some later => rfl
    | none =>
      by_cases hkey : key ∈ c.pfields
      · simp [hkey]
      · simp [hkey]

theorem get?_registered (added : List PacketClass) (name : String) :
    (registered added).get? (fieldKey name) = offering added name := by
  rw [registered, get?_foldl_registerClass, Dict.get?_empty, Option.or_none]
  rfl

/-- A descriptor reads its field from the layer of the class that offers it. -/
def Describes (fields : FieldTable) (order : List Nat) (name : String) (d : FieldDescriptor) :
    Prop :=
  d.fieldName = name ∧ ∃ t, fields.get? (fieldKey name) = some t ∧ order[d.layerIndex]? = some t

theorem Describes.mono {fields : FieldTable} {order order' : List Nat} {name : String}
    {d : FieldDescriptor} (h : Describes fields order name d) (hle : order <+: order') :
    Describes fields order' name d := by
  obtain ⟨hname, t, hget, hplace⟩ := h
  obtain ⟨more, rfl⟩ := hle
  have hlt := (List.getElem?_eq_some_iff.mp hplace).1
  exact ⟨hname, t, hget, by rw [List.getElem?_append_left hlt, hplace]⟩

theorem describe_spec {fields : FieldTable} {order order' : List Nat} {name : String}
    {d : FieldDescriptor} (h : describe fields order name = .ok (order', d)) :
    order <+: order' ∧ Describes fields order' name d := by
  unfold describe at h
  cases hget : fields.get? (fieldKey name) with
  | none => rw [hget] at h; cases h
  | some t =>
    rw [hget] at h
    cases h
    by_cases hmem : t ∈ order
    · simp only [hmem, if_true]
      refine ⟨List.prefix_rfl, rfl, t, hget, ?_⟩
      exact List.getElem?_idxOf hmem
    · simp only [hmem, if_false]
      refine ⟨List.prefix_append order [t], rfl, t, hget, ?_⟩
      exact List.getElem?_idxOf (List.mem_append_right order (List.mem_singleton_self t))

theorem describeAll_spec {fields : FieldTable} {order order' : List Nat} {names : List String}
    {ds : List FieldDescriptor} (h : describeAll fields order names = .ok (order', ds)) :
    order <+: order' ∧ List.Forall₂ (Describes fields order') names ds := by
  induction names generalizing order ds with
  | nil =>
    cases h
    exact ⟨List.prefix_rfl, .nil⟩
  | cons name rest ih =>
    simp only [describeAll, bind, Except.bind] at h
    cases hone : describe fields order name with
    | error e => rw [hone] at h; cases h
    | ok one =>
      obtain ⟨order₁, d⟩ := one
      rw [hone] at h
      cases hrest : describeAll fields order₁ rest with
      | error e => simp only [hrest] at h; cases h
      | ok more =>
        obtain ⟨order₂, ds₂⟩ := more
        simp only [hrest] at h
        cases h
        obtain ⟨hle, hd⟩ := describe_spec hone
        obtain ⟨hle', hds⟩ := ih hrest
        exact ⟨hle.trans hle', .cons (hd.mono hle') hds⟩

/-- What is built: the wanted fields are supported and described. -/
theorem build_spec {added : List PacketClass} {names : List String} {q : PcapQuery}
    (h : PcapQuery.build added names = .ok q) :
    fieldsSupported (registered added) names = .ok true ∧
      List.Forall₂ (Describes (registered added) q.layerOrder) names q.fieldDescriptors := by
  simp only [PcapQuery.build, bind, Except.bind] at h
  cases hsupported : fieldsSupported (registered added) names with
  | error e => rw [hsupported] at h; cases h
  | ok b =>
    rw [hsupported] at h
    cases b with
    | false => cases h
    | true =>
      simp only [if_true] at h
      cases hall : describeAll (registered added) [] names with
      | error e => rw [hall] at h; cases h
      | ok all =>
        obtain ⟨order, ds⟩ := all
        rw [hall] at h
        cases h
        exact ⟨rfl, (describeAll_spec hall).2⟩

/-- The value a field has in the first layer of the class that offers it. -/
def expectedCell (added : List PacketClass) (frame : Frame) (p : PKT LayerFields)
    (name : String) : Cell :=
  match offering added name with
  | none => .ok none
  | some t =>
    if t = PQ_FRAME then frame.getFieldVal name
    else
      match (p.matching fun layer => PktLayer.pqType layer == t).head? with
      | some layer => fieldVal layer name
      | none => .ok none

theorem layerOf_getFieldVal (added : List PacketClass) (frame : Frame) (p : PKT LayerFields)
    {name : String} {t : Nat} (h : offering added name = some t) :
    (PcapQuery.layerOf frame p t).getFieldVal name = expectedCell added frame p name := by
  simp only [expectedCell, h, PcapQuery.layerOf]
  by_cases hframe : t = PQ_FRAME
  · simp only [hframe, if_true]
    rfl
  · simp only [hframe, if_false, PKT.getLayerByType, PKT.search_first]
    cases (p.matching fun layer => PktLayer.pqType layer == t).head? with
    | none => rfl
    | some layer => rfl

theorem extractRow_eq {added : List PacketClass} {names : List String} {q : PcapQuery}
    (h : PcapQuery.build added names = .ok q) (frame : Frame) (p : PKT LayerFields) :
    q.extractRow (q.layerOrder.map (PcapQuery.layerOf frame p)) =
      names.mapM (expectedCell added frame p) := by
  obtain ⟨-, hdescribed⟩ := build_spec h
  refine (Mapped.mapM_eq_mapM (hdescribed.imp fun name d hd => ?_)).symm
  obtain ⟨hname, t, hget, hplace⟩ := hd
  have hoffer : offering added name = some t := by rw [← get?_registered, hget]
  have hlayer : (q.layerOrder.map (PcapQuery.layerOf frame p)).getD d.layerIndex (.pkt nullPkt) =
      PcapQuery.layerOf frame p t := by
    rw [List.getD_eq_getElem?_getD, List.getElem?_map, hplace]
    rfl
  rw [hlayer, descriptorValue_eq, hname, layerOf_getFieldVal added frame p hoffer]

/-- Where the frame is all that is wanted, its layers are the same for any packet. -/
theorem skipDecode_layers {q : PcapQuery} (h : q.skipDecode = true) (frame : Frame)
    (p : PKT LayerFields) : (q.layerOrder.map fun _ => LayerObject.frame frame) =
      q.layerOrder.map (PcapQuery.layerOf frame p) := by
  apply List.map_congr_left
  intro t ht
  have hframe : t = PQ_FRAME := by
    simp only [PcapQuery.skipDecode, Bool.or_eq_true, List.isEmpty_iff, beq_iff_eq] at h
    rcases h with hnil | hone
    · rw [hnil] at ht
      cases ht
    · rw [hone] at ht
      exact List.mem_singleton.mp ht
  rw [PcapQuery.layerOf, if_pos hframe]

/-- The row of a packet that parses.  Where only the frame is wanted the decode context is not
touched. -/
theorem rowOf_eq {σ : Type} {added : List PacketClass} {names : List String} {q : PcapQuery}
    (h : PcapQuery.build added names = .ok q) {parser : FrameParser σ} {s s' : σ} {c : Captured}
    {p : PKT LayerFields} (hparse : parser.parse s c.bytes = .ok (p, s')) :
    q.rowOf parser s c = (names.mapM (expectedCell added c.frame p)).map fun row =>
      (row, if q.skipDecode then s else s') := by
  have hlayers : q.layers parser s c = .ok (q.layerOrder.map (PcapQuery.layerOf c.frame p),
      if q.skipDecode then s else s') := by
    unfold PcapQuery.layers
    cases hskip : q.skipDecode with
    | false => simp only [Bool.false_eq_true, if_false, hparse]; rfl
    | true =>
      simp only [if_true, hparse, skipDecode_layers hskip c.frame p]
      split <;> rfl
  simp only [PcapQuery.rowOf, hlayers, bind, Except.bind, extractRow_eq h]
  cases names.mapM (expectedCell added c.frame p) <;> rfl

/-- A field that a layer of a type may raise for: a payload offset that cannot be read, or a
hardware address, which may be short. -/
def Unreadable (t : Nat) (name : String) : Prop :=
  (t = PQ_TCP ∧ shortName name = "tcp.payload.offset".toList ∧ ¬(offsets name).isOk) ∨
    (t = PQ_UDP ∧ shortName name = "udp.payload.offset".toList ∧ ¬(offsets name).isOk) ∨
      t = PQ_ARP ∧ (name = "arp.src.hw_mac" ∨ name = "arp.dst.hw_mac")

instance (t : Nat) (name : String) : Decidable (Unreadable t name) := by
  unfold Unreadable
  infer_instance

/-- A value is read, or `None`. -/
def Shown (cell : Cell) : Prop := ∃ v, cell = .ok v

theorem Shown.ok (v : Option Value) : Shown (.ok v) := ⟨v, rfl⟩

theorem Shown.int (n : Nat) : Shown (.int n) := ⟨_, rfl⟩

theorem Shown.ite {c : Prop} [Decidable c] {x y : Cell} (hx : c → Shown x) (hy : Shown y) :
    Shown (if c then x else y) := by
  split
  · exact hx ‹c›
  · exact hy

theorem fmtMac_shown {mac : Bytes} (h : mac.length = 6) : Shown (fmtMac mac) := by
  rw [fmtMac, if_neg (by omega)]
  exact Shown.ok _

theorem fmtIpv4_shown {packed : Bytes} (h : packed.length = 4) : Shown (fmtIpv4 packed) := by
  rw [fmtIpv4, if_neg (not_not_intro h)]
  exact Shown.ok _

theorem fmtIpv6_shown {packed : Bytes} (h : packed.length = 16) : Shown (fmtIpv6 packed) := by
  rw [fmtIpv6, if_neg (not_not_intro h)]
  exact Shown.ok _

theorem payloadOffset_shown {name : String} (h : (offsets name).isOk) (payload : L7Payload) :
    Shown (payloadOffset name payload) := by
  unfold payloadOffset
  cases hoffsets : offsets name with
  | error e => rw [hoffsets] at h; cases h
  | ok bounds =>
    cases bounds with
    | none => exact Shown.ok none
    | some bounds => exact Shown.ok _

theorem ethernet_shown {h : EthernetHeader} (hdst : h.dstMac.length = 6)
    (hsrc : h.srcMac.length = 6) (name : String) : Shown (Ethernet.getFieldVal h name) := by
  unfold Ethernet.getFieldVal
  repeat' first
    | exact fmtMac_shown ‹_›
    | refine Shown.ite (fun _ => ?_) ?_
  all_goals first
    | exact Shown.int _
    | exact Shown.ok _

theorem ip_shown {h : IPHeader} (hsrc : h.src.length = 4) (hdst : h.dst.length = 4)
    (name : String) : Shown (IP.getFieldVal h name) := by
  unfold IP.getFieldVal
  repeat' first
    | exact fmtIpv4_shown ‹_›
    | refine Shown.ite (fun _ => ?_) ?_
  all_goals first
    | exact Shown.int _
    | exact Shown.ok _

theorem ip6_shown {h : IP6Header} (hsrc : h.src.length = 16) (hdst : h.dst.length = 16)
    (name : String) : Shown (IP6.getFieldVal h name) := by
  unfold IP6.getFieldVal
  repeat' first
    | exact fmtIpv6_shown ‹_›
    | refine Shown.ite (fun _ => ?_) ?_
  all_goals first
    | exact Shown.int _
    | exact Shown.ok _

theorem tcp_shown (h : TCPHeader) (payload : L7Payload) {name : String}
    (hname : ¬Unreadable PQ_TCP name) : Shown (TCP.getFieldVal h payload name) := by
  have hoffset (hshort : shortName name = "tcp.payload.offset".toList) :
      Shown (payloadOffset name payload) :=
    payloadOffset_shown
      (Decidable.of_not_not fun hbad => hname (Or.inl ⟨rfl, hshort, hbad⟩)) payload
  unfold TCP.getFieldVal
  repeat' refine Shown.ite (fun _ => ?_) ?_
  all_goals first
    | exact Shown.int _
    | exact Shown.ok _
    | exact hoffset ‹_›

theorem udp_shown (h : UDPHeader) (payload : L7Payload) {name : String}
    (hname : ¬Unreadable PQ_UDP name) : Shown (UDP.getFieldVal h payload name) := by
  have hoffset (hshort : shortName name = "udp.payload.offset".toList) :
      Shown (payloadOffset name payload) :=
    payloadOffset_shown
      (Decidable.of_not_not fun hbad => hname (Or.inr (Or.inl ⟨rfl, hshort, hbad⟩))) payload
  unfold UDP.getFieldVal
  repeat' refine Shown.ite (fun _ => ?_) ?_
  all_goals first
    | exact Shown.int _
    | exact Shown.ok _
    | exact hoffset ‹_›

theorem arp_shown (h : ARPHeader) {name : String} (hname : ¬Unreadable PQ_ARP name) :
    Shown (ARP.getFieldVal h name) := by
  have hsrc : name ≠ "arp.src.hw_mac" := fun heq => hname (Or.inr (Or.inr ⟨rfl, Or.inl heq⟩))
  have hdst : name ≠ "arp.dst.hw_mac" := fun heq => hname (Or.inr (Or.inr ⟨rfl, Or.inr heq⟩))
  unfold ARP.getFieldVal
  repeat' refine Shown.ite (fun _ => ?_) ?_
  all_goals first
    | exact Shown.int _
    | exact Shown.ok _
    | contradiction

theorem mpls_shown (data : Nat) (payload : String → Cell) {name : String}
    (hname : name ∈ PacketClass.mpls.pfields) : Shown (MPLS.getFieldVal data payload name) := by
  simp only [PacketClass.mpls, List.mem_cons, List.not_mem_nil, or_false] at hname
  rcases hname with rfl | rfl | rfl | rfl
  all_goals exact Shown.int _

/-- A layer has a value, or none, for a field that is not unreadable in its type. -/
theorem fieldVal_shown (p : PKT LayerFields) {name : String}
    (h : ¬Unreadable (PktLayer.pqType p.info) name)
    (hlabel : PktLayer.pqType p.info = PQ_MPLS → name ∈ PacketClass.mpls.pfields) :
    Shown (fieldVal p name) := by
  obtain ⟨below, hbelow⟩ := fieldVal_eq p
  rw [hbelow]
  cases hinfo : p.info with
  | ethernet head hdst hsrc => exact ethernet_shown hdst hsrc name
  | ip head hsrc hdst => exact ip_shown hsrc hdst name
  | ip6 head hsrc hdst => exact ip6_shown hsrc hdst name
  | tcp head payload => rw [hinfo] at h; exact tcp_shown head payload h
  | udp head payload => rw [hinfo] at h; exact udp_shown head payload h
  | arp head => rw [hinfo] at h; exact arp_shown head h
  | mpls data => rw [hinfo] at hlabel; exact mpls_shown data below (hlabel rfl)
  | plain pktName pqType values => exact Shown.ok (values name)

/-- What a class offers under the type of the labels, the labels have themselves. -/
def LabelsOwn (added : List PacketClass) : Prop :=
  ∀ c ∈ added, c.ptype = PQ_MPLS → ∀ name ∈ c.pfields, name ∈ PacketClass.mpls.pfields

/-- A name that some packet may raise for. -/
def Refused (added : List PacketClass) (name : String) : Prop :=
  ∃ t, offering added name = some t ∧ Unreadable t name

theorem offset_not_label (f : List Char) :
    String.ofList f ++ "[x:y]" ∉ PacketClass.mpls.pfields := by
  intro hmem
  have hlast : ∀ name ∈ PacketClass.mpls.pfields, name.toList.getLast? ≠ some ']' := by
    intro name hname
    simp only [PacketClass.mpls, List.mem_cons, List.not_mem_nil, or_false] at hname
    rcases hname with rfl | rfl | rfl | rfl
    all_goals decide
  apply hlast _ hmem
  rw [String.toList_append, List.getLast?_append_of_ne_nil _ (by decide)]
  decide

theorem label_of_offering {added : List PacketClass} (hlabels : LabelsOwn added) {name : String}
    (h : offering added name = some PQ_MPLS) : name ∈ PacketClass.mpls.pfields := by
  obtain ⟨c, hfind, htype⟩ := Option.map_eq_some_iff.mp h
  have hkey : fieldKey name ∈ c.pfields := by simpa using List.find?_some hfind
  have hmem := List.mem_reverse.mp (List.mem_of_find?_eq_some hfind)
  have hlabel : fieldKey name ∈ PacketClass.mpls.pfields := by
    rcases List.mem_append.mp hmem with hdefault | hadded
    · have hone : ∀ c ∈ defaultClasses, c.ptype = PQ_MPLS → c = PacketClass.mpls := by decide
      exact hone c hdefault htype ▸ hkey
    · exact hlabels c hadded htype _ hkey
  by_cases hpload : isPload name
  · rw [fieldKey, if_pos hpload] at hlabel
    exact absurd hlabel (offset_not_label (shortName name))
  · rw [fieldKey, if_neg hpload] at hlabel
    exact hlabel

theorem matching_type {t : Nat} {p layer : PKT LayerFields}
    (h : layer ∈ p.matching fun layer => PktLayer.pqType layer == t) :
    PktLayer.pqType layer.info = t := by
  induction p with
  | last info =>
    by_cases htype : PktLayer.pqType info = t
    · simp only [PKT.matching, htype, BEq.rfl, if_true, List.mem_singleton] at h
      rw [h]
      exact htype
    · simp [PKT.matching, htype] at h
  | above info payload ih =>
    by_cases htype : PktLayer.pqType info = t
    · simp only [PKT.matching, htype, BEq.rfl, if_true, List.singleton_append, List.mem_cons] at h
      rcases h with rfl | hbelow
      · exact htype
      · exact ih hbelow
    · simp only [PKT.matching, beq_iff_eq, htype, if_false, List.nil_append] at h
      exact ih h

theorem expectedCell_shown {added : List PacketClass} (hlabels : LabelsOwn added) {name : String}
    (h : ¬Refused added name) (frame : Frame) (p : PKT LayerFields) :
    Shown (expectedCell added frame p name) := by
  unfold expectedCell
  cases hoffer : offering added name with
  | none => exact Shown.ok none
  | some t =>
    simp only
    refine Shown.ite (fun _ => ?_) ?_
    · unfold Frame.getFieldVal
      repeat' refine Shown.ite (fun _ => ?_) ?_
      all_goals first
        | exact Shown.int _
        | exact Shown.ok _
    · cases hfirst : (p.matching fun layer => PktLayer.pqType layer == t).head? with
      | none => exact Shown.ok none
      | some layer =>
        have htype := matching_type (List.mem_of_head? hfirst)
        apply fieldVal_shown layer
        · rw [htype]
          exact fun hbad => h ⟨t, hoffer, hbad⟩
        · rw [htype]
          rintro rfl
          exact label_of_offering hlabels hoffer

end Packets.Query
