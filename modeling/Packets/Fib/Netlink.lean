/-
Netlink messages of the kernel FIB sink (`fib/netlink.py`): how they are packed, and what
is read of a receive buffer, a run of attributes and a route.
-/
import Packets.Lib.Dict
import Packets.Lib.Mapped
import Packets.Lib.Padded
import Packets.Lib.Struct
import Packets.Rib.Prefix

namespace Packets

namespace Netlink

open Struct (ByteOrder pack unpack unpack_pack)

def RTM_NEWROUTE : Nat := 24
def RTM_DELROUTE : Nat := 25

def NLM_F_REQUEST : Nat := 0x1
def NLM_F_ACK : Nat := 0x4
def NLM_F_REPLACE : Nat := 0x100
def NLM_F_CREATE : Nat := 0x400

def RTA_DST : Nat := 1
def RTA_OIF : Nat := 4
def RTA_GATEWAY : Nat := 5
def RTA_PRIORITY : Nat := 6
def RTA_TABLE : Nat := 15

def RT_TABLE_UNSPEC : Nat := 0
def RTN_UNICAST : Nat := 1
def RT_SCOPE_UNIVERSE : Nat := 0
def RT_SCOPE_NOWHERE : Nat := 255

def AF_UNSPEC : Nat := 0
def AF_INET : Nat := 2
def AF_INET6 : Nat := 10

/-- `_AFI_TO_AF`, with the default of its callers. -/
def afOf (afi : Nat) : Nat :=
  if afi = AFI_IP then AF_INET else if afi = AFI_IP6 then AF_INET6 else AF_UNSPEC

/-- `_AF_TO_AFI` -/
def afiOf (family : Nat) : Option Nat :=
  if family = AF_INET then some AFI_IP
  else if family = AF_INET6 then some AFI_IP6
  else none

/-- `_AF_ADDR_LEN` -/
def afAddrLen (family : Nat) : Nat :=
  if family = AF_INET then 4 else if family = AF_INET6 then 16 else 0

def SIZEOF_NLMSGHDR : Nat := 16
def SIZEOF_RTMSG : Nat := 12
def SIZEOF_RTATTR : Nat := 4

/-- The fields of `_NLMSGHDR`, `_RTMSG` and `_RTATTR`. -/
def NLMSGHDR : List Nat := [4, 2, 2, 4, 4]
def RTMSG : List Nat := [1, 1, 1, 1, 1, 1, 1, 1, 4]
def RTATTR : List Nat := [2, 2]

structure Message where
  msgType : Nat
  flags : Nat
  seq : Nat
  portid : Nat
  body : Bytes
deriving DecidableEq

variable (order : ByteOrder)

/-- `pack_attr`; none where a number does not fit its field. -/
def packAttr (attr : Nat × Bytes) : Option Bytes :=
  (pack order RTATTR [SIZEOF_RTATTR + attr.2.length, attr.1]).map fun header =>
    Padded.pack 0 SIZEOF_RTATTR (header, attr.2)

/-- The attribute that `pack_u32_attr` packs. -/
def u32Attr (attrType value : Nat) : Nat × Bytes := (attrType, order.put 4 (value % 2 ^ 32))

/-- `pack_message` -/
def packMessage (m : Message) : Option Bytes :=
  (pack order NLMSGHDR [SIZEOF_NLMSGHDR + m.body.length, m.msgType, m.flags, m.seq, m.portid]).map
    fun header => Padded.pack 0 SIZEOF_NLMSGHDR (header, m.body)

/-- What the header of a message or an attribute says its length is. -/
def lengthAt (width : Nat) (header : Bytes) : Nat := order.get (header.take width)

def messageOf (record : Bytes × Bytes) : Message :=
  match unpack order NLMSGHDR record.1 with
  | [_, msgType, flags, seq, portid] => ⟨msgType, flags, seq, portid, record.2⟩
  | _ => ⟨0, 0, 0, 0, record.2⟩

/-- `parse_messages`, on what is left of the buffer at each offset. -/
def parseMessages (buf : Bytes) : List Message :=
  (Records.readAll (Padded.next SIZEOF_NLMSGHDR (lengthAt order 4)) buf.length buf).1.map
    (messageOf order)

def attrOf (record : Bytes × Bytes) : Nat × Bytes :=
  match unpack order RTATTR record.1 with
  | [_, attrType] => (attrType, record.2)
  | _ => (0, record.2)

/-- An attribute as it is kept: the first of its type. -/
def keepFirst (attrs : Dict Nat Bytes) (attr : Nat × Bytes) : Dict Nat Bytes :=
  if attrs.contains attr.1 then attrs else attrs.set attr.1 attr.2

/-- `parse_attrs` -/
def parseAttrs (buf : Bytes) (offset : Nat) : Dict Nat Bytes :=
  ((Records.readAll (Padded.next SIZEOF_RTATTR (lengthAt order 2)) buf.length
    (buf.drop offset)).1.map (attrOf order)).foldl keepFirst Dict.empty

/-- `KernelRoute` -/
structure KernelRoute where
  family : Nat
  dstLen : Nat
  table : Nat
  protocol : Nat
  scope : Nat
  rtype : Nat
  flags : Nat
  dst : Bytes
  gateway : Bytes
  oif : Nat
  priority : Nat
  pfx : Option Prefix
deriving DecidableEq

/-- `_attr_u32` -/
def attrU32 (attrs : Dict Nat Bytes) (attrType default : Nat) : Nat :=
  match attrs.get? attrType with
  | none => default
  | some payload => if payload.length < 4 then default else order.get (payload.take 4)

/-- The destination padded, or cut, to the width of a known family. -/
def widened (width : Nat) (dst : Bytes) : Bytes :=
  if width = 0 then dst else (dst ++ List.replicate width 0).take width

/-- `parse_route`: none for a body too short, or, outside, for a prefix the kernel cannot
mean. -/
def parseRoute (body : Bytes) : Option (Option KernelRoute) :=
  if body.length < SIZEOF_RTMSG then some none
  else
    match unpack order RTMSG body with
    | [family, dstLen, _, _, table, protocol, scope, rtype, flags] =>
      let attrs := parseAttrs order body SIZEOF_RTMSG
      let dst := widened (afAddrLen family) ((attrs.get? RTA_DST).getD [])
      let route : KernelRoute := {
        family, dstLen, protocol, scope, rtype, flags, dst
        table := if attrs.contains RTA_TABLE then attrU32 order attrs RTA_TABLE table else table
        gateway := (attrs.get? RTA_GATEWAY).getD []
        oif := attrU32 order attrs RTA_OIF 0
        priority := attrU32 order attrs RTA_PRIORITY 0
        pfx := none }
      match afiOf family with
      | none => some (some route)
      | some afi => (Prefix.new afi dstLen dst).map fun pfx => some { route with pfx := some pfx }
    | _ => some none

inductive Op
  | add
  | del
deriving DecidableEq

/-- What a request is built from: the fields of an `_Entry` that `_build` reads. -/
structure Request where
  kind : Op
  family : Nat
  dstLen : Nat
  dst : Bytes
  gateway : Bytes
  oif : Nat
  priority : Nat
deriving DecidableEq

/-- The attributes of a request, in the order written; the gateway and the interface only
where there is one. -/
def requestAttrs (table : Nat) (r : Request) : List (Nat × Bytes) :=
  [(RTA_DST, r.dst)] ++ (if r.gateway = [] then [] else [(RTA_GATEWAY, r.gateway)]) ++
    (if r.oif = 0 then [] else [u32Attr order RTA_OIF r.oif]) ++
    [u32Attr order RTA_PRIORITY r.priority, u32Attr order RTA_TABLE table]

/-- `_build`, for a sink of this table and protocol. -/
def build (table protocol : Nat) (r : Request) (seq : Nat) : Option Bytes := do
  let scope := if r.kind = .add then RT_SCOPE_UNIVERSE else RT_SCOPE_NOWHERE
  let tableByte := if table ≤ 255 then table else RT_TABLE_UNSPEC
  let header ← pack order RTMSG
    [r.family, r.dstLen, 0, 0, tableByte, protocol, scope, RTN_UNICAST, 0]
  let attrs ← (requestAttrs order table r).mapM (packAttr order)
  packMessage order {
    msgType := if r.kind = .add then RTM_NEWROUTE else RTM_DELROUTE
    flags := if r.kind = .add then NLM_F_REQUEST + NLM_F_ACK + NLM_F_CREATE + NLM_F_REPLACE
      else NLM_F_REQUEST + NLM_F_ACK
    seq, portid := 0, body := header ++ attrs.flatten }

variable {order}

/-- A packed header says the length of its record. -/
theorem headed_of_pack {width value size : Nat} {widths values : List Nat} {header body : Bytes}
    (h : pack order (width :: widths) (value :: values) = some header)
    (hsize : (width :: widths).sum = size) (hvalue : value = size + body.length) :
    Padded.Headed size (lengthAt order width) (header, body) := by
  obtain ⟨hvalues, hlength⟩ := unpack_pack order h []
  rw [List.append_nil, unpack] at hvalues
  exact ⟨by rw [hlength, hsize], (List.cons.inj hvalues).1.trans hvalue⟩

/-- What packs one by one is a run of records that reads back. -/
theorem records_of_mapM {α : Type} {encode : α → Option Bytes} {decode : Bytes × Bytes → α}
    {size : Nat} {len : Bytes → Nat} {items : List α} {packed : List Bytes}
    (hone : ∀ a p, encode a = some p → ∃ record, p = Padded.pack 0 size record ∧
      Padded.Headed size len record ∧ decode record = a)
    (h : items.mapM encode = some packed) : ∃ records : List (Bytes × Bytes),
      packed.flatten = records.flatMap (Padded.pack 0 size) ∧
        (∀ record ∈ records, Padded.Headed size len record) ∧ records.map decode = items := by
  induction items generalizing packed with
  | nil =>
    obtain rfl : packed = [] := by simpa using h.symm
    exact ⟨[], rfl, by simp, rfl⟩
  | cons a items ih =>
    obtain ⟨p, rest, hp, hrest, rfl⟩ := Mapped.mapM_cons_eq_some_iff.mp h
    obtain ⟨record, rfl, hheaded, rfl⟩ := hone a p hp
    obtain ⟨records, hflat, hall, rfl⟩ := ih hrest
    refine ⟨record :: records, by simp [hflat], ?_, rfl⟩
    exact List.forall_mem_cons.mpr ⟨hheaded, hall⟩

theorem packMessage_record {m : Message} {p : Bytes} (h : packMessage order m = some p) :
    ∃ record, p = Padded.pack 0 SIZEOF_NLMSGHDR record ∧
      Padded.Headed SIZEOF_NLMSGHDR (lengthAt order 4) record ∧ messageOf order record = m := by
  obtain ⟨header, hheader, rfl⟩ := Option.map_eq_some_iff.mp h
  refine ⟨(header, m.body), rfl, headed_of_pack hheader rfl rfl, ?_⟩
  obtain ⟨hvalues, -⟩ := unpack_pack order hheader []
  rw [List.append_nil] at hvalues
  rw [messageOf, hvalues]

theorem packAttr_record {attr : Nat × Bytes} {p : Bytes} (h : packAttr order attr = some p) :
    ∃ record, p = Padded.pack 0 SIZEOF_RTATTR record ∧
      Padded.Headed SIZEOF_RTATTR (lengthAt order 2) record ∧ attrOf order record = attr := by
  obtain ⟨header, hheader, rfl⟩ := Option.map_eq_some_iff.mp h
  refine ⟨(header, attr.2), rfl, headed_of_pack hheader rfl rfl, ?_⟩
  obtain ⟨hvalues, -⟩ := unpack_pack order hheader []
  rw [List.append_nil] at hvalues
  rw [attrOf, hvalues]

theorem get?_keepFirst (attrs : List (Nat × Bytes)) (d : Dict Nat Bytes) (t : Nat) :
    (attrs.foldl keepFirst d).get? t = (d.get? t).or (attrs.lookup t) := by
  induction attrs generalizing d with
  | nil => simp
  | cons attr attrs ih =>
    obtain ⟨t', payload⟩ := attr
    rw [List.foldl_cons, ih, List.lookup_cons, keepFirst]
    dsimp only
    by_cases ht : t = t'
    · subst ht
      rw [beq_self_eq_true, Dict.contains]
      cases hget : d.get? t with
      | none => simp [Dict.get?_set]
      | some held => simp [hget]
    · rw [beq_false_of_ne ht]
      split
      · rfl
      · rw [Dict.get?_set, if_neg ht]

/-- Attributes behind a header read back, the first of each type. -/
theorem get?_parseAttrs {attrs : List (Nat × Bytes)} {packed : List Bytes}
    (h : attrs.mapM (packAttr order) = some packed) (front : Bytes) (t : Nat) :
    (parseAttrs order (front ++ packed.flatten) front.length).get? t = attrs.lookup t := by
  obtain ⟨records, hflat, hheaded, hdecode⟩ := records_of_mapM (fun _ _ hp => packAttr_record hp) h
  have hend : Padded.next SIZEOF_RTATTR (lengthAt order 2) [] = none := by
    rw [Padded.next, if_pos (by decide)]
  have hread := Padded.readAll_pack (z := 0) (by decide) hheaded hend
  rw [List.append_nil, ← hflat] at hread
  have hmore : Records.readAll (Padded.next SIZEOF_RTATTR (lengthAt order 2))
      (front ++ packed.flatten).length packed.flatten =
        Records.readAll (Padded.next SIZEOF_RTATTR (lengthAt order 2)) packed.flatten.length
          packed.flatten :=
    Records.readAll_fuel (Padded.next_consumes (by decide)) (by simp) (Nat.le_refl _)
  rw [parseAttrs, List.drop_left, hmore, hread, hdecode, get?_keepFirst, Dict.get?_empty,
    Option.none_or]

/-- Messages read back, in front of nothing or of one that was cut off. -/
theorem parseMessages_packed {msgs : List Message} {packed : List Bytes}
    (h : msgs.mapM (packMessage order) = some packed) {tail : Bytes}
    (htail : tail = [] ∨ ∃ m p n, packMessage order m = some p ∧
      n < SIZEOF_NLMSGHDR + m.body.length ∧ tail = p.take n) :
    parseMessages order (packed.flatten ++ tail) = msgs := by
  obtain ⟨records, hflat, hheaded, hdecode⟩ :=
    records_of_mapM (fun _ _ hp => packMessage_record hp) h
  have hend : Padded.next SIZEOF_NLMSGHDR (lengthAt order 4) tail = none := by
    rcases htail with rfl | ⟨m, p, n, hp, hn, rfl⟩
    · rw [Padded.next, if_pos (by decide)]
    · obtain ⟨record, rfl, hrecord, rfl⟩ := packMessage_record hp
      refine Padded.next_cut hrecord (hn.trans_eq ?_)
      rw [messageOf]
      split <;> rfl
  rw [parseMessages, hflat, Padded.readAll_pack (by decide) hheaded hend, hdecode]

/-- Netlink framing loses nothing.  Messages packed one behind another are read back in their
order, also when a last one was cut off; of a run of attributes the first of each type is
read back, whatever stands in front; and whatever was received, the messages read of it lie
side by side in the buffer. -/
theorem parse_packed (order : ByteOrder) :
    (∀ (msgs : List Message) packed, msgs.mapM (packMessage order) = some packed → ∀ tail,
      (tail = [] ∨ ∃ m p n, packMessage order m = some p ∧
        n < SIZEOF_NLMSGHDR + m.body.length ∧ tail = p.take n) →
      parseMessages order (packed.flatten ++ tail) = msgs) ∧
    (∀ (attrs : List (Nat × Bytes)) packed, attrs.mapM (packAttr order) = some packed →
      ∀ front t,
        (parseAttrs order (front ++ packed.flatten) front.length).get? t = attrs.lookup t) ∧
    ∀ buf, ((parseMessages order buf).map fun m => SIZEOF_NLMSGHDR + m.body.length).sum ≤
      buf.length := by
  refine ⟨fun msgs packed h tail => parseMessages_packed h, fun attrs packed => get?_parseAttrs,
    fun buf => ?_⟩
  have hbody : ((fun m : Message => SIZEOF_NLMSGHDR + m.body.length) ∘ messageOf order) =
      fun record : Bytes × Bytes => SIZEOF_NLMSGHDR + record.2.length := by
    funext record
    rw [Function.comp_apply, messageOf]
    split <;> rfl
  rw [parseMessages, List.map_map, hbody]
  exact Padded.sum_readAll_le buf.length buf

def ackMessage : Message := ⟨2, 0, 7, 0, [0, 0, 0, 0]⟩

def ackBytes : Bytes := [20, 0, 0, 0, 2, 0, 0, 0, 7, 0, 0, 0, 0, 0, 0, 0, 0, 0, 0, 0]

/-- An acknowledgement in front of one that was cut off. -/
theorem parse_packed_cut : packMessage .little ackMessage = some ackBytes ∧
    parseMessages .little ([ackBytes].flatten ++ ackBytes.take 18) = [ackMessage] :=
  ⟨by decide, (parse_packed .little).1 [ackMessage] [ackBytes] (by decide) _
    (.inr ⟨ackMessage, ackBytes, 18, by decide, by decide, rfl⟩)⟩

end Netlink

end Packets
