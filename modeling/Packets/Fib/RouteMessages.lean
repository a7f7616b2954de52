/-
Routes as the kernel FIB sink writes and recognises them (`fib/netlink.py`): the kernel's
view of a route, the request that carries it, and what start-up reconciliation makes of a
dump.
-/
import Mathlib.Algebra.Order.BigOperators.Group.List
import Packets.Fib.Netlink
import Packets.Rib.AddressText
import Packets.Rib.RouteTable

namespace Packets

namespace Netlink

open Struct (ByteOrder pack unpack unpack_pack)

def NLMSG_ERROR : Nat := 2
def NLMSG_DONE : Nat := 3

/-- The settings of a sink.  The constructor refuses a table or a protocol out of range;
`oifFn` is none where there is no function or it raises. -/
structure Settings where
  table : Nat
  protocol : Nat
  priorityMap : Dict Nat Int
  priorityDefault : Int
  priorityFn : Option (Rib.Route → Int)
  oifFn : Rib.Route → Option Int
  table_le : table ≤ 0xffffffff
  protocol_pos : 1 ≤ protocol
  protocol_le : protocol ≤ 255

namespace Settings

variable (s : Settings)

/-- `priority_for` -/
def priorityFor (route : Rib.Route) : Nat :=
  match s.priorityFn with
  | some priority => (priority route % 2 ^ 32).toNat
  | none => ((s.priorityMap.get? route.adminDistance).getD s.priorityDefault % 2 ^ 32).toNat

/-- `oif_for` -/
def oifFor (route : Rib.Route) : Nat := ((s.oifFn route).getD 0 % 2 ^ 32).toNat

/-- `_attrs`: gateway, priority and interface; none where the next hop cannot be expressed. -/
def attrs (route : Rib.Route) : Option (Bytes × Nat × Nat) :=
  let width := afAddrLen (afOf route.pfx.afi)
  if route.nexthop = [] then some ([], s.priorityFor route, s.oifFor route)
  else if route.nexthop.length ≠ width then none
  else
    let gateway := if route.nexthop = List.replicate width 0 then [] else route.nexthop
    some (gateway, s.priorityFor route, s.oifFor route)

/-- What `_build` reads of the entry made for a route. -/
def request (kind : Op) (route : Rib.Route) : Option Request :=
  (s.attrs route).map fun (gateway, priority, oif) =>
    ⟨kind, afOf route.pfx.afi, route.pfx.plen, route.pfx.addr, gateway, oif, priority⟩

end Settings

/-- What a dump comes to. -/
inductive Dump
  | reading (routes : List KernelRoute)
  | done (routes : List KernelRoute)
  | failed
deriving DecidableEq

/-- The body of the loop over messages in `dump_routes`. -/
def dumpMessage (order : ByteOrder) (seq : Nat) : Dump → Message → Dump
  | .reading routes, m =>
    if m.seq ≠ seq then .reading routes
    else if m.msgType = NLMSG_DONE then .done routes
    else if m.msgType = NLMSG_ERROR then
      if m.body.length < 4 ∨ order.get (m.body.take 4) = 0 then .reading routes else .failed
    else if m.msgType = RTM_NEWROUTE ∨ m.msgType = RTM_DELROUTE then
      match parseRoute order m.body with
      | none => .failed
      | some parsed => .reading (routes ++ parsed.toList)
    else .reading routes
  | dump, _ => dump

/-- `dump_routes`, of the datagrams that come before it times out. -/
def dumpRoutes (order : ByteOrder) (seq : Nat) (datagrams : List Bytes) :
    Option (List KernelRoute) :=
  match datagrams.foldl (fun dump data => (parseMessages order data).foldl (dumpMessage order seq)
      dump) (.reading []) with
  | .done routes => some routes
  | _ => none

/-- A route wanted, under the kernel's key. -/
def desire (s : Settings) (wanted : Dict (Prefix × Nat) (Rib.Route × Bytes × Nat))
    (route : Rib.Route) : Dict (Prefix × Nat) (Rib.Route × Bytes × Nat) :=
  match s.attrs route with
  | none => wanted
  | some (gateway, priority, oif) => wanted.set (route.pfx, priority) (route, gateway, oif)

def desired (s : Settings) (current : List Rib.Route) :
    Dict (Prefix × Nat) (Rib.Route × Bytes × Nat) :=
  current.foldl (desire s) Dict.empty

/-- Whether a route of the dump is one of ours. -/
def ours (s : Settings) (k : KernelRoute) : Bool :=
  k.pfx.isSome && k.protocol == s.protocol && k.table == s.table

/-- The route that `reconcile` adopts a route of the kernel for. -/
def adoptedFor (s : Settings) (current : List Rib.Route) (k : KernelRoute) : Option Rib.Route := do
  let pfx ← k.pfx
  let (route, gateway, oif) ← (desired s current).get? (pfx, k.priority)
  if gateway = k.gateway ∧ (k.oif = 0 ∨ oif = 0 ∨ k.oif = oif) then some route else none

/-- `reconcile`'s sorting of a dump: the routes adopted, and what is deleted. -/
def reconcile (s : Settings) (current : List Rib.Route) (found : List KernelRoute) :
    List Rib.Route × List KernelRoute :=
  let mine := found.filter (ours s)
  (mine.filterMap (adoptedFor s current), mine.filter fun k => (adoptedFor s current k).isNone)

variable {order : ByteOrder} {s : Settings}

theorem attrs_fit {route : Rib.Route} {gateway : Bytes} {priority oif : Nat}
    (h : s.attrs route = some (gateway, priority, oif)) :
    gateway.length ≤ 16 ∧ priority < 2 ^ 32 ∧ oif < 2 ^ 32 := by
  have hpriority : s.priorityFor route < 2 ^ 32 := by
    rw [Settings.priorityFor]
    split <;> omega
  have hoif : s.oifFor route < 2 ^ 32 := by
    rw [Settings.oifFor]
    omega
  have hwidth : afAddrLen (afOf route.pfx.afi) ≤ 16 := by
    rw [afAddrLen]
    split_ifs <;> omega
  rw [Settings.attrs] at h
  dsimp only at h
  split_ifs at h with hnone hlength hzero
  · cases h
    exact ⟨Nat.zero_le _, hpriority, hoif⟩
  · cases h
    exact ⟨Nat.zero_le _, hpriority, hoif⟩
  · cases h
    rw [Decidable.not_not] at hlength
    exact ⟨hlength.trans_le hwidth, hpriority, hoif⟩

theorem length_packAttr {attr : Nat × Bytes} {p : Bytes} (h : packAttr order attr = some p) :
    p.length ≤ attr.2.length + 7 := by
  obtain ⟨header, hheader, rfl⟩ := Option.map_eq_some_iff.mp h
  have hheaded : Padded.Headed SIZEOF_RTATTR (lengthAt order 2) (header, attr.2) :=
    headed_of_pack hheader rfl rfl
  rw [Padded.length_pack hheaded, Padded.align, SIZEOF_RTATTR]
  dsimp only
  omega

theorem exists_packAttr (order : ByteOrder) {attr : Nat × Bytes} (htype : attr.1 < 256)
    (hlen : attr.2.length ≤ 16) : ∃ p, packAttr order attr = some p := by
  have hfits : List.Forall₂ (fun width value => value < 256 ^ width) RTATTR
      [SIZEOF_RTATTR + attr.2.length, attr.1] :=
    .cons (by rw [SIZEOF_RTATTR]; omega) (.cons (by omega) .nil)
  obtain ⟨header, hheader⟩ := Struct.exists_pack order hfits
  exact ⟨_, by rw [packAttr, hheader, Option.map_some]⟩

/-- What a request of a route says of it. -/
structure Tells (route : Rib.Route) (r : Request) : Prop where
  family : r.family = afOf route.pfx.afi
  dstLen : r.dstLen = route.pfx.plen
  dst : r.dst = route.pfx.addr
  gateway : r.gateway.length ≤ 16
  priority : r.priority < 2 ^ 32
  oif : r.oif < 2 ^ 32

theorem tells_request {kind : Op} {route : Rib.Route} {r : Request}
    (h : s.request kind route = some r) : Tells route r ∧ r.kind = kind := by
  obtain ⟨⟨gateway, priority, oif⟩, hattrs, rfl⟩ := Option.map_eq_some_iff.mp h
  obtain ⟨hgateway, hpriority, hoif⟩ := attrs_fit hattrs
  exact ⟨⟨rfl, rfl, rfl, hgateway, hpriority, hoif⟩, rfl⟩

theorem known_afi (p : Prefix) : p.afi = AFI_IP ∨ p.afi = AFI_IP6 := by
  by_contra h
  rw [not_or] at h
  exact p.known (by rw [pfxAddrLen, if_neg h.1, if_neg h.2])

theorem family_facts (p : Prefix) : afOf p.afi < 256 ∧ p.plen < 256 ∧
    afAddrLen (afOf p.afi) = p.addr.length ∧ p.addr.length ≤ 16 ∧ 0 < p.addr.length ∧
      afiOf (afOf p.afi) = some p.afi := by
  have hplen := p.plen_le
  have haddr := p.length_addr
  rw [pfxAddrBits_eq] at hplen
  rcases known_afi p with h | h <;> rw [h] at hplen haddr ⊢ <;> rw [haddr] <;>
    norm_num [pfxAddrLen, AFI_IP, AFI_IP6] at hplen ⊢ <;>
    exact ⟨by decide, by omega, by decide, by decide⟩

/-- The route that the kernel is asked for, as it is read back. -/
def readBack (s : Settings) (pfx : Prefix) (r : Request) : KernelRoute where
  family := r.family
  dstLen := r.dstLen
  table := s.table
  protocol := s.protocol
  scope := if r.kind = .add then RT_SCOPE_UNIVERSE else RT_SCOPE_NOWHERE
  rtype := RTN_UNICAST
  flags := 0
  dst := r.dst
  gateway := r.gateway
  oif := r.oif
  priority := r.priority
  pfx := some pfx

theorem exists_packed (order : ByteOrder) (s : Settings) {route : Rib.Route} {r : Request}
    (htells : Tells route r) : ∃ packed, (requestAttrs order s.table r).mapM (packAttr order) =
      some packed ∧ packed.flatten.length ≤ 115 := by
  have hdst : r.dst.length ≤ 16 := htells.dst ▸ (family_facts route.pfx).2.2.2.1
  have hgateway := htells.gateway
  have hsmall : ∀ attr ∈ requestAttrs order s.table r, attr.1 < 256 ∧ attr.2.length ≤ 16 := by
    intro attr hattr
    simp only [requestAttrs, List.mem_append, List.mem_cons, List.not_mem_nil, or_false] at hattr
    rcases hattr with ((rfl | hattr) | hattr) | rfl | rfl
    · exact ⟨(by decide : RTA_DST < 256), hdst⟩
    · split at hattr
      · cases hattr
      · obtain rfl := List.mem_singleton.mp hattr
        exact ⟨(by decide : RTA_GATEWAY < 256), hgateway⟩
    · split at hattr
      · cases hattr
      · obtain rfl := List.mem_singleton.mp hattr
        exact ⟨(by decide : RTA_OIF < 256), by simp [u32Attr]⟩
    · exact ⟨(by decide : RTA_PRIORITY < 256), by simp [u32Attr]⟩
    · exact ⟨(by decide : RTA_TABLE < 256), by simp [u32Attr]⟩
  obtain ⟨packed, hpacked⟩ := Mapped.exists_mapM fun attr hattr =>
    exists_packAttr order (hsmall attr hattr).1 (hsmall attr hattr).2
  refine ⟨packed, hpacked, ?_⟩
  have hcount : packed.length ≤ 5 := by
    rw [← (Mapped.mapM_eq_some_iff.mp hpacked).length_eq, requestAttrs]
    split_ifs <;> simp
  have heach : ∀ n ∈ packed.map List.length, n ≤ 23 := by
    intro n hn
    obtain ⟨p, hp, rfl⟩ := List.mem_map.mp hn
    obtain ⟨attr, hattr, hread⟩ := Mapped.exists_of_mem_right hpacked hp
    exact (length_packAttr hread).trans (by have := (hsmall attr hattr).2; omega)
  have hsum := List.sum_le_card_nsmul _ 23 heach
  rw [List.length_map, Nat.nsmul_eq_mul] at hsum
  rw [List.length_flatten]
  omega

theorem attrU32_put {attrs : Dict Nat Bytes} {attrType n default : Nat}
    (h : attrs.get? attrType = some (order.put 4 (n % 2 ^ 32))) (hn : n < 2 ^ 32) :
    attrU32 order attrs attrType default = n := by
  rw [Nat.mod_eq_of_lt hn] at h
  rw [attrU32, h]
  dsimp only
  rw [order.length_put, if_neg (by omega), List.take_of_length_le (by simp), order.get_put hn]

/-- A request of a route can be built, and says what the settings make of the route. -/
theorem build_spec {kind : Op} {route : Rib.Route} {r : Request}
    (h : s.request kind route = some r) {seq : Nat} (hseq : seq < 2 ^ 32) :
    ∃ m msg, build order s.table s.protocol r seq = some msg ∧
      packMessage order m = some msg ∧ m.seq = seq ∧
      m.msgType = (if kind = .add then RTM_NEWROUTE else RTM_DELROUTE) ∧
      parseRoute order m.body = some (some (readBack s route.pfx r)) := by
  obtain ⟨htells, rfl⟩ := tells_request h
  have htable := s.table_le
  have hprotocol := s.protocol_le
  obtain ⟨hfamily, hplen, hwidth, hshort, hpos, hafi⟩ := family_facts route.pfx
  obtain ⟨packed, hpacked, hlength⟩ := exists_packed order s htells
  have hfits : List.Forall₂ (fun width value => value < 256 ^ width) RTMSG
      [r.family, r.dstLen, 0, 0, if s.table ≤ 255 then s.table else RT_TABLE_UNSPEC, s.protocol,
        if r.kind = .add then RT_SCOPE_UNIVERSE else RT_SCOPE_NOWHERE, RTN_UNICAST, 0] := by
    refine .cons ?_ (.cons ?_ (.cons (by decide) (.cons (by decide) (.cons ?_ (.cons ?_ (.cons ?_
      (.cons (by decide) (.cons (by decide) .nil))))))))
    · rw [htells.family]
      omega
    · rw [htells.dstLen]
      omega
    · split_ifs
      · omega
      · decide
    · omega
    · split_ifs <;> decide
  obtain ⟨header, hheader⟩ := Struct.exists_pack order hfits
  obtain ⟨hvalues, hheaderLength⟩ := unpack_pack order hheader packed.flatten
  have hsize : header.length = SIZEOF_RTMSG := hheaderLength
  generalize hm : ({ msgType := if r.kind = .add then RTM_NEWROUTE else RTM_DELROUTE
                     flags := if r.kind = .add then
                         NLM_F_REQUEST + NLM_F_ACK + NLM_F_CREATE + NLM_F_REPLACE
                       else NLM_F_REQUEST + NLM_F_ACK
                     seq, portid := 0, body := header ++ packed.flatten } : Message) = m
  have hbody : m.body = header ++ packed.flatten := by rw [← hm]
  have hmessage : List.Forall₂ (fun width value => value < 256 ^ width) NLMSGHDR
      [SIZEOF_NLMSGHDR + m.body.length, m.msgType, m.flags, m.seq, m.portid] := by
    have hbound : m.body.length ≤ 127 := by
      rw [hbody, List.length_append, hsize, SIZEOF_RTMSG]
      omega
    refine .cons ?_ (.cons ?_ (.cons ?_ (.cons ?_ (.cons ?_ .nil))))
    · rw [SIZEOF_NLMSGHDR]
      omega
    · rw [← hm]
      dsimp only
      split_ifs <;> decide
    · rw [← hm]
      dsimp only
      split_ifs <;> decide
    · rw [← hm]
      exact hseq
    · rw [← hm]
      exact Nat.two_pow_pos 32
  obtain ⟨front, hfront⟩ := Struct.exists_pack order hmessage
  have hpack : packMessage order m = some (Padded.pack 0 SIZEOF_NLMSGHDR (front, m.body)) := by
    rw [packMessage, hfront, Option.map_some]
  refine ⟨m, _, ?_, hpack, by rw [← hm], by rw [← hm], ?_⟩
  · rw [build, hheader, Option.bind_eq_bind, Option.bind_some, hpacked, Option.bind_eq_bind,
      Option.bind_some, hm, hpack]
  · have hget := get?_parseAttrs hpacked header
    rw [hsize, ← hbody] at hget
    rw [← hbody] at hvalues
    have hlookup : ∀ t, (parseAttrs order m.body SIZEOF_RTMSG).get? t =
      (requestAttrs order s.table r).lookup t := hget
    have hdst : (parseAttrs order m.body SIZEOF_RTMSG).get? RTA_DST = some r.dst := by
      rw [hlookup]
      rfl
    have hgateway : ((parseAttrs order m.body SIZEOF_RTMSG).get? RTA_GATEWAY).getD [] =
        r.gateway := by
      rw [hlookup, requestAttrs]
      split_ifs with hnone hoif hoif <;>
        simp [List.lookup_cons, u32Attr, hnone, RTA_DST, RTA_GATEWAY, RTA_OIF, RTA_PRIORITY,
          RTA_TABLE]
    have hoif : attrU32 order (parseAttrs order m.body SIZEOF_RTMSG) RTA_OIF 0 = r.oif := by
      by_cases hzero : r.oif = 0
      · rw [attrU32, hlookup, requestAttrs, if_pos hzero, hzero]
        split_ifs <;> rfl
      · refine attrU32_put ?_ htells.oif
        rw [hlookup, requestAttrs, if_neg hzero]
        split_ifs <;> rfl
    have hpriority : attrU32 order (parseAttrs order m.body SIZEOF_RTMSG) RTA_PRIORITY 0 =
        r.priority := by
      refine attrU32_put ?_ htells.priority
      rw [hlookup, requestAttrs]
      split_ifs <;> rfl
    have htableAttr : (parseAttrs order m.body SIZEOF_RTMSG).get? RTA_TABLE =
        some (order.put 4 (s.table % 2 ^ 32)) := by
      rw [hlookup, requestAttrs]
      split_ifs <;> rfl
    have hshortBody : ¬m.body.length < SIZEOF_RTMSG := by
      rw [hbody, List.length_append, hsize]
      omega
    have hwide : widened (afAddrLen r.family) r.dst = r.dst := by
      rw [htells.family, hwidth, htells.dst, widened, if_neg (by omega), List.take_left]
    rw [parseRoute, if_neg hshortBody, hvalues]
    dsimp only
    rw [hdst, Option.getD_some, hwide, htells.family, hafi]
    dsimp only
    rw [htells.dstLen, htells.dst, Prefix.new_self, Option.map_some, hgateway, hoif, hpriority,
      Dict.contains, htableAttr, Option.isSome_some, if_pos rfl,
      attrU32_put htableAttr (by omega), readBack, htells.family, htells.dstLen, htells.dst]

/-- What the sink writes it recognises: a request of any route that has an expression can be
built, is one message of its sequence number and verb, and is read back as the route's
prefix, gateway, interface and priority in the sink's table, under its protocol. -/
theorem route_recognised (order : ByteOrder) (s : Settings) (kind : Op) (route : Rib.Route)
    (r : Request) (seq : Nat) (h : s.request kind route = some r) (hseq : seq < 2 ^ 32) :
    ∃ msg m, build order s.table s.protocol r seq = some msg ∧ parseMessages order msg = [m] ∧
      m.seq = seq ∧ m.msgType = (if kind = .add then RTM_NEWROUTE else RTM_DELROUTE) ∧
      parseRoute order m.body = some (some (readBack s route.pfx r)) := by
  obtain ⟨m, msg, hbuild, hpack, hspec⟩ := build_spec h hseq
  have hmapM : [m].mapM (packMessage order) = some [msg] :=
    Mapped.mapM_eq_some_iff.mpr (.cons hpack .nil)
  have hparse := parseMessages_packed hmapM (.inl rfl)
  rw [List.append_nil, List.flatten_singleton] at hparse
  exact ⟨msg, m, hbuild, hparse, hspec⟩

def plainSettings : Settings where
  table := 254
  protocol := 190
  priorityMap := ⟨[(20, 20), (200, 200)], by decide⟩
  priorityDefault := 200
  priorityFn := none
  oifFn := fun _ => none
  table_le := by decide
  protocol_pos := by decide
  protocol_le := by decide

def tenNet : Prefix := .ipv4 10 0 0 0 8

def tenRoute : Rib.Route := ⟨0, tenNet, 1, 20, 0, [192, 0, 2, 1], 0, 0⟩

def tenRequest : Request := ⟨.add, 2, 8, [10, 0, 0, 0], [192, 0, 2, 1], 0, 20⟩

theorem route_recognised_external : ∃ msg m,
    build .little 254 190 tenRequest 1 = some msg ∧ parseMessages .little msg = [m] ∧
      m.seq = 1 ∧ m.msgType = RTM_NEWROUTE ∧
      parseRoute .little m.body = some (some (readBack plainSettings tenNet tenRequest)) :=
  route_recognised .little plainSettings .add tenRoute tenRequest 1 (by decide) (by decide)

/-- What the kernel reports of the route it was asked for: all but scope, type and flags, and
an interface of its own where none was named. -/
structure Reported (k asked : KernelRoute) : Prop where
  pfx : k.pfx = asked.pfx
  table : k.table = asked.table
  protocol : k.protocol = asked.protocol
  gateway : k.gateway = asked.gateway
  priority : k.priority = asked.priority
  oif : k.oif = 0 ∨ asked.oif = 0 ∨ k.oif = asked.oif

/-- The report of a route that the sink wrote. -/
def Written (s : Settings) (route : Rib.Route) (k : KernelRoute) : Prop :=
  ∃ r, s.request .add route = some r ∧ Reported k (readBack s route.pfx r)

def Answers (order : ByteOrder) (s : Settings) (seq : Nat) (route : Rib.Route) (m : Message) :
    Prop :=
  m.seq = seq ∧ m.msgType = RTM_NEWROUTE ∧
    ∃ k, parseRoute order m.body = some (some k) ∧ Written s route k

/-- A message of a dump that is passed over: of another request, or of a route that is not
the sink's own. -/
def Passed (order : ByteOrder) (s : Settings) (seq : Nat) (m : Message) : Prop :=
  m.seq ≠ seq ∨ m.msgType = RTM_NEWROUTE ∧
    ∃ parsed, parseRoute order m.body = some parsed ∧ ∀ k ∈ parsed, ours s k = false

/-- What one message of a dump tells of. -/
def Conveys (order : ByteOrder) (s : Settings) (seq : Nat) : Option Rib.Route → Message → Prop
  | some route, m => Answers order s seq route m
  | none, m => Passed order s seq m

theorem dumpMessage_passed {seq : Nat} {m : Message} (h : Passed order s seq m)
    (routes : List KernelRoute) : ∃ others, (∀ k ∈ others, ours s k = false) ∧
      dumpMessage order seq (.reading routes) m = .reading (routes ++ others) := by
  rcases h with hseq | ⟨htype, parsed, hparse, hours⟩
  · exact ⟨[], by simp, by rw [dumpMessage, if_pos hseq, List.append_nil]⟩
  · by_cases hseq : m.seq = seq
    · refine ⟨parsed.toList, by simpa using hours, ?_⟩
      rw [dumpMessage, if_neg (not_not_intro hseq), htype, if_neg (by decide),
        if_neg (by decide), if_pos (.inl rfl), hparse]
    · exact ⟨[], by simp, by rw [dumpMessage, if_pos hseq, List.append_nil]⟩

/-- The answers of a dump leave the sink's own routes read, in their order. -/
theorem foldl_dumpMessage {seq : Nat} {told : List (Option Rib.Route)} {answers : List Message}
    (h : List.Forall₂ (Conveys order s seq) told answers) (routes : List KernelRoute) :
    ∃ found, answers.foldl (dumpMessage order seq) (.reading routes) = .reading (routes ++ found) ∧
      List.Forall₂ (Written s) told.reduceOption (found.filter (ours s)) := by
  induction h generalizing routes with
  | nil => exact ⟨[], by simp, .nil⟩
  | @cons one m _ _ hone _ ih =>
    cases one with
    | none =>
      obtain ⟨others, hothers, hread⟩ := dumpMessage_passed hone routes
      obtain ⟨found, hfound, hall⟩ := ih (routes ++ others)
      refine ⟨others ++ found, by rw [List.foldl_cons, hread, hfound, List.append_assoc], ?_⟩
      rw [List.filter_append, List.filter_eq_nil_iff.mpr (by simpa using hothers)]
      exact hall
    | some route =>
      obtain ⟨hseq, htype, k, hroute, r, hr, hreported⟩ := hone
      obtain ⟨found, hfound, hall⟩ := ih (routes ++ [k])
      refine ⟨k :: found, ?_, ?_⟩
      · rw [List.foldl_cons, dumpMessage, if_neg (by simp [hseq]), htype, if_neg (by decide),
          if_neg (by decide), if_pos (.inl rfl), hroute]
        simpa using hfound
      · have hours : ours s k = true := by
          simp [ours, hreported.pfx, hreported.protocol, hreported.table, readBack]
        rw [List.filter_cons_of_pos hours]
        exact .cons ⟨r, hr, hreported⟩ hall

theorem get?_desired_of_notMem {current : List Rib.Route} {p : Prefix}
    (h : p ∉ current.map Rib.Route.pfx) (priority : Nat) (d : Dict (Prefix × Nat) (Rib.Route × Bytes × Nat)) :
    (current.foldl (desire s) d).get? (p, priority) = d.get? (p, priority) := by
  induction current generalizing d with
  | nil => rfl
  | cons route current ih =>
    rw [List.map_cons, List.mem_cons, not_or] at h
    rw [List.foldl_cons, ih h.2, desire]
    split
    · rfl
    · rw [Dict.get?_set, if_neg (fun heq => h.1 (Prod.mk.inj heq).1)]

/-- The one route wanted for a prefix is found under the priority it is written with. -/
theorem get?_desired {current : List Rib.Route} (hdistinct : (current.map Rib.Route.pfx).Nodup)
    {route : Rib.Route} (hmem : route ∈ current) {gateway : Bytes} {priority oif : Nat}
    (hattrs : s.attrs route = some (gateway, priority, oif))
    (d : Dict (Prefix × Nat) (Rib.Route × Bytes × Nat)) :
    (current.foldl (desire s) d).get? (route.pfx, priority) = some (route, gateway, oif) := by
  induction current generalizing d with
  | nil => cases hmem
  | cons head current ih =>
    rw [List.map_cons, List.nodup_cons] at hdistinct
    rw [List.foldl_cons]
    rcases List.mem_cons.mp hmem with rfl | hmem
    · rw [get?_desired_of_notMem hdistinct.1, desire, hattrs]
      exact (Dict.get?_set _ _ _ _).trans (if_pos rfl)
    · exact ih hdistinct.2 hmem _

/-- A restart takes over what the last run left.  Where the kernel's routes of the sink's
protocol in its table are those that a sink with the same settings wrote for the same winners,
and a dump reports them, among whatever else there is, in any order and any datagrams,
`reconcile` adopts every one of them and deletes none. -/
theorem restart_adopts (order : ByteOrder) (s : Settings) (current : List Rib.Route)
    (told : List (Option Rib.Route)) (hdistinct : (current.map Rib.Route.pfx).Nodup)
    (hheld : told.reduceOption.Perm current) (seq : Nat) (answers : List Message)
    (hanswers : List.Forall₂ (Conveys order s seq) told answers)
    (done : Message) (hseq : done.seq = seq) (hdone : done.msgType = NLMSG_DONE)
    (grams : List (List Message)) (hgrams : grams.flatten = answers ++ [done])
    (datagrams : List Bytes)
    (hdatagrams : List.Forall₂ (fun gram data => ∃ packed,
      gram.mapM (packMessage order) = some packed ∧ data = packed.flatten) grams datagrams) :
    ∃ found, dumpRoutes order seq datagrams = some found ∧
      reconcile s current found = (told.reduceOption, []) := by
  obtain ⟨found, hfold, hfound⟩ := foldl_dumpMessage hanswers []
  have hread : ∀ dump, datagrams.foldl (fun dump data =>
      (parseMessages order data).foldl (dumpMessage order seq) dump) dump =
        grams.flatten.foldl (dumpMessage order seq) dump := by
    clear hgrams
    induction hdatagrams with
    | nil => exact fun _ => rfl
    | cons hone _ ih =>
      intro dump
      obtain ⟨packed, hpacked, rfl⟩ := hone
      have hparse := parseMessages_packed hpacked (.inl rfl)
      rw [List.append_nil] at hparse
      rw [List.foldl_cons, hparse, ih, List.flatten_cons, List.foldl_append]
  refine ⟨found, ?_, ?_⟩
  · rw [dumpRoutes, hread, hgrams, List.foldl_append, hfold, List.foldl_cons, List.foldl_nil,
      dumpMessage, if_neg (by simp [hseq]), if_pos hdone, List.nil_append]
  · have hsub : ∀ route ∈ told.reduceOption, route ∈ current :=
      fun route hmem => hheld.mem_iff.mp hmem
    have hadopted : ∀ {route : Rib.Route} {k : KernelRoute}, route ∈ current → Written s route k →
        adoptedFor s current k = some route := by
      rintro route k hmem ⟨r, hr, hreported⟩
      obtain ⟨⟨gateway, priority, oif⟩, hattrs, rfl⟩ := Option.map_eq_some_iff.mp hr
      have hget := get?_desired hdistinct hmem hattrs Dict.empty
      rw [adoptedFor, hreported.pfx, readBack, Option.bind_eq_bind, Option.bind_some,
        hreported.priority, desired, readBack, hget]
      exact if_pos ⟨hreported.gateway.symm, hreported.oif⟩
    clear hheld hfold hanswers
    rw [reconcile]
    generalize told.reduceOption = held at hfound hsub ⊢
    generalize found.filter (ours s) = mine at hfound
    induction hfound with
    | nil => rfl
    | cons hone _ ih =>
      have hroute := hadopted (hsub _ List.mem_cons_self) hone
      have htail := Prod.mk.inj (ih fun route hmem => hsub route (List.mem_cons_of_mem _ hmem))
      rw [List.filterMap_cons_some hroute, List.filter_cons_of_neg (by simp [hroute]), htail.1,
        htail.2]

def tenBody : Bytes :=
  [2, 8, 0, 0, 254, 190, 0, 1, 0, 0, 0, 0, 8, 0, 15, 0, 254, 0, 0, 0, 8, 0, 1, 0, 10, 0, 0, 0,
    8, 0, 6, 0, 20, 0, 0, 0, 8, 0, 5, 0, 192, 0, 2, 1, 8, 0, 4, 0, 2, 0, 0, 0]

/-- A restart with one route, which the kernel sends out of an interface, dumped behind one of
another protocol. -/
theorem restart_adopts_one : ∃ found,
    dumpRoutes .little 9 [(packMessage .little ⟨24, 2, 9, 0, tenBody.set 5 2⟩).getD [],
      ((packMessage .little ⟨24, 2, 9, 0, tenBody⟩).getD []) ++
        ((packMessage .little ⟨3, 2, 9, 0, [0, 0, 0, 0]⟩).getD [])] = some found ∧
      reconcile plainSettings [tenRoute] found = ([tenRoute], []) :=
  restart_adopts .little plainSettings [tenRoute] [none, some tenRoute] (by decide) (.refl _) 9
    [⟨24, 2, 9, 0, tenBody.set 5 2⟩, ⟨24, 2, 9, 0, tenBody⟩]
    (.cons (.inr ⟨rfl, _, rfl, by decide⟩)
      (.cons ⟨rfl, rfl, _, rfl, tenRequest, by decide,
        ⟨by decide, by decide, by decide, by decide, by decide, by decide⟩⟩ .nil))
    ⟨3, 2, 9, 0, [0, 0, 0, 0]⟩ rfl rfl
    [[⟨24, 2, 9, 0, tenBody.set 5 2⟩], [⟨24, 2, 9, 0, tenBody⟩, ⟨3, 2, 9, 0, [0, 0, 0, 0]⟩]] rfl _
    (.cons ⟨[(packMessage .little ⟨24, 2, 9, 0, tenBody.set 5 2⟩).getD []], by decide, by decide⟩
      (.cons ⟨[(packMessage .little ⟨24, 2, 9, 0, tenBody⟩).getD [],
        (packMessage .little ⟨3, 2, 9, 0, [0, 0, 0, 0]⟩).getD []], by decide, by decide⟩ .nil))

end Netlink

end Packets
