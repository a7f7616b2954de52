/-
Everything configured about one neighbour (`plugins/bgp/peer.py`, `PeerConfig`), and how its
outbound stream is produced (`OutboundSpec`, `_outbound_spec`).
-/
import Packets.Bgp.Capabilities
import Packets.Bgp.Fsm
import Packets.Bgp.Policy

namespace Packets

inductive Direction where
  | dirIn
  | dirOut
deriving DecidableEq, Repr

/-- `remove-private-as`: off, only from an all-private path, or always. -/
inductive RemovePrivate where
  | off
  | ifAllPrivate
  | all
deriving DecidableEq, Repr

structure PeerConfig where
  address : String
  remoteAs : Nat
  localAs : Nat
  routerId : Nat
  updateSource : Option String := none
  password : Option String := none
  /-- The key chain of TCP-AO, and whether MD5 may stand in for it. -/
  ao : Option (String × Bool) := none
  ttlSecurity : Option Nat := none
  ebgpMultihop : Option Nat := none
  port : Nat := 179
  passive : Bool := false
  shutdown : Bool := false
  holdTime : Nat := 90
  keepalive : Option Nat := none
  connectRetry : Nat := 120
  delayOpen : Nat := 0
  afiSafi : List Family := [IPV4_UNICAST]
  nextHopSelf : Bool := false
  addPathReceive : Bool := false
  extendedMessage : Bool := false
  routeRefresh : Bool := true
  gracefulRestart : Option Nat := none
  maximumPrefix : Nat := 0
  sendCommunity : Bool := true
  sendExtCommunity : Bool := true
  sendLargeCommunity : Bool := true
  weight : Nat := 0
  allowasIn : Nat := 0
  removePrivateAs : RemovePrivate := .off
  asOverride : Bool := false
  advertisementInterval : Nat := 0
  /-- The policy names of each family and direction that has any. -/
  policy : List ((Family × Direction) × PolicyNames) := []
  nextHopSelfAf : List (Family × Bool) := []
  senderLoopCheck : Bool := true
  nextHopAf : List (Family × String) := []
  maxasLimit : Nat := 255
deriving DecidableEq

namespace PeerConfig

/-- `next_hop_self_for`: the override of a family, else the neighbour's setting. -/
def nextHopSelfFor (c : PeerConfig) (af : Family) : Bool :=
  (c.nextHopSelfAf.lookup af).getD c.nextHopSelf

/-- `policy_names`: the names configured for one direction, all unset when none
are. -/
def policyNames (c : PeerConfig) (af : Family) (direction : Direction) : PolicyNames :=
  (c.policy.lookup (af, direction)).getD {}

def isEbgp (c : PeerConfig) : Bool := c.remoteAs != c.localAs

/-- `local_capabilities`: ADD-PATH is advertised as receive-only. -/
def localCapabilities (c : PeerConfig) : Capabilities where
  asn := some c.localAs
  afiSafi := c.afiSafi
  as4 := true
  routeRefresh := c.routeRefresh
  enhancedRouteRefresh := false
  extendedMessage := c.extendedMessage
  addPath := if c.addPathReceive then c.afiSafi.map fun af => (af, ADD_PATH_RECEIVE) else []
  gracefulRestart := c.gracefulRestart

end PeerConfig

structure OutboundSpec where
  afi : Nat
  safi : Nat
  isEbgp : Bool
  peerAs : Nat
  localAs : Nat
  routerId : Nat
  localAddr : Bytes
  nextHopSelf : Bool
  defaultLocalPref : Nat
  sendCommunity : Bool
  sendExtCommunity : Bool
  sendLargeCommunity : Bool
  maxSize : Nat
  as4 : Bool
  addPathSend : Bool
  removePrivateAs : RemovePrivate
  asOverride : Bool
  senderLoopCheck : Bool
  mrai : Nat
  policy : PolicyChain
  policyId : List (PolicyKind × String × Option Nat)
  /-- The peer the spec was built for, once it is bound. -/
  peerAddr : Option String

/-- The identity of an update group: everything two members must agree on. -/
structure UpdateGroupKey where
  afi : Nat
  safi : Nat
  isEbgp : Bool
  peerAs : Nat
  localAs : Nat
  localAddr : Bytes
  nextHopSelf : Bool
  defaultLocalPref : Nat
  sendCommunity : Bool
  sendExtCommunity : Bool
  sendLargeCommunity : Bool
  maxSize : Nat
  as4 : Bool
  addPathSend : Bool
  removePrivateAs : RemovePrivate
  asOverride : Bool
  senderLoopCheck : Bool
  mrai : Nat
  policyId : List (PolicyKind × String × Option Nat)
  /-- The address of a peer that may share a group with nobody. -/
  unique : Option String
deriving DecidableEq

namespace OutboundSpec

/-- Why a peer may share its stream with nobody. -/
def isUnique (spec : OutboundSpec) : Bool := spec.asOverride || !spec.senderLoopCheck

/-- `bind`: attach the peer a spec was built for. -/
def bind (spec : OutboundSpec) (address : String) : OutboundSpec :=
  { spec with peerAddr := some address }

/-- `key`: the group identity a spec implies. -/
def key (spec : OutboundSpec) : UpdateGroupKey where
  afi := spec.afi
  safi := spec.safi
  isEbgp := spec.isEbgp
  peerAs := spec.peerAs
  localAs := spec.localAs
  localAddr := spec.localAddr
  nextHopSelf := spec.nextHopSelf
  defaultLocalPref := spec.defaultLocalPref
  sendCommunity := spec.sendCommunity
  sendExtCommunity := spec.sendExtCommunity
  sendLargeCommunity := spec.sendLargeCommunity
  maxSize := spec.maxSize
  as4 := spec.as4
  addPathSend := spec.addPathSend
  removePrivateAs := spec.removePrivateAs
  asOverride := spec.asOverride
  senderLoopCheck := spec.senderLoopCheck
  mrai := spec.mrai
  policyId := spec.policyId
  unique := if spec.isUnique then some (spec.peerAddr.getD "") else none

end OutboundSpec

/-- What a spec is built from besides policy: the neighbour's configuration, what its session
negotiated, its local address, and two settings of the instance. -/
structure OutboundSession where
  config : PeerConfig
  negotiated : Option Negotiated
  transport : Option String
  routerId : Nat
  defaultLocalPref : Nat

/-- The width of a next hop of a family. -/
def nexthopWidth (afi : Nat) : Nat := if afi = AFI_IP then 4 else 16

def isZero (addr : Bytes) : Bool := addr.all (· == 0)

/-- `_addr_bytes_for_af`: an address packed to a family's width, zeros when it is
not one of that family. -/
def addrBytesForAf (text : String) (afi : Nat) : Bytes :=
  match packAddr text with
  | some addr => if addr.length = nexthopWidth afi then addr
      else List.replicate (nexthopWidth afi) 0
  | none => List.replicate (nexthopWidth afi) 0

/-- The addresses a next hop may come from, in order of precedence. -/
def nexthopCandidates (s : OutboundSession) (af : Family) : List String :=
  ((s.config.nextHopAf.lookup af).toList ++ s.config.updateSource.toList ++
    s.transport.toList).filter fun text => text ≠ ""

/-- `_local_next_hop`: the next hop to advertise when we rewrite it.  Over an IPv4
session an IPv6 family falls back on the IPv4-mapped form. -/
def localNextHop (s : OutboundSession) (af : Family) : Bytes :=
  let candidates := nexthopCandidates s af
  match candidates.find? fun text => !isZero (addrBytesForAf text af.1) with
  | some text => addrBytesForAf text af.1
  | none =>
    let mapped :=
      if af.1 = AFI_IP6 then
        candidates.find? fun text => !isZero (addrBytesForAf text AFI_IP)
      else none
    match mapped with
    | some text => List.replicate 10 0 ++ [0xff, 0xff] ++ addrBytesForAf text AFI_IP
    | none => List.replicate (nexthopWidth af.1) 0

/-- `_outbound_spec`: how one session's stream for a family is produced. -/
def outboundSpec (store : PolicyStore) (s : OutboundSession) (af : Family) : OutboundSpec where
  afi := af.1
  safi := af.2
  isEbgp := s.config.isEbgp
  peerAs := s.config.remoteAs
  localAs := s.config.localAs
  routerId := s.routerId
  localAddr := localNextHop s af
  nextHopSelf := s.config.nextHopSelfFor af
  defaultLocalPref := s.defaultLocalPref
  sendCommunity := s.config.sendCommunity
  sendExtCommunity := s.config.sendExtCommunity
  sendLargeCommunity := s.config.sendLargeCommunity
  maxSize := match s.negotiated with
    | some negotiated => negotiated.maxMessageSize
    | none => MSG_SIZE
  as4 := true
  addPathSend := match s.negotiated with
    | some negotiated => negotiated.addPathSend.contains af
    | none => false
  removePrivateAs := s.config.removePrivateAs
  asOverride := s.config.asOverride
  senderLoopCheck := s.config.senderLoopCheck
  mrai := s.config.advertisementInterval
  policy := buildChain store (s.config.policyNames af .dirOut) af.1
  policyId := policyId store (s.config.policyNames af .dirOut) af.1
  peerAddr := none

end Packets
