/-
The Adj-RIB-Out: what one neighbour is told (`plugins/bgp/adjout.py`).

Counters and what only `show` reads are left out.  A `raised` call is the `none` of
the outermost option.
-/
import Packets.Bgp.AsPathSegments
import Packets.Bgp.Bestpath
import Packets.Bgp.PeerConfig

namespace Packets

def WIRE_NO_EXPORT : Bytes := [0xff, 0xff, 0xff, 0x01]
def WIRE_NO_ADVERTISE : Bytes := [0xff, 0xff, 0xff, 0x02]
def WIRE_NO_EXPORT_SUBCONFED : Bytes := [0xff, 0xff, 0xff, 0x03]

/-- `_has_community`: whether a packed value holds a community, on its boundary. -/
def hasCommunity (packed target : Bytes) : Bool := hasAligned packed target 4

def PRIVATE_AS2_FIRST : Nat := 64512
def PRIVATE_AS2_LAST : Nat := 65534
def PRIVATE_AS4_FIRST : Nat := 4200000000
def PRIVATE_AS4_LAST : Nat := 4294967294

def isPrivateAs (asn : Nat) : Bool :=
  (PRIVATE_AS2_FIRST ≤ asn && asn ≤ PRIVATE_AS2_LAST) ||
    (PRIVATE_AS4_FIRST ≤ asn && asn ≤ PRIVATE_AS4_LAST)

/-- `_all_private`: private ASNs and no others; an empty path has none to remove. -/
def allPrivate (segments : List Segment) : Bool :=
  let asns := segments.flatMap Prod.snd
  asns ≠ [] && asns.all isPrivateAs

/-- `_prepend_as_path`: our AS in front, in a new sequence where the first segment is
no sequence or a full one. -/
def prependAsPath (segments : List Segment) (localAs : Nat) : List Segment :=
  prependOne segments localAs

/-- What `_map_as_path` makes of one AS: nothing when it is dropped. -/
def mapAs (replaceAs replacement : Nat) (dropPrivate : Bool) (asn : Nat) : Option Nat :=
  if replaceAs ≠ 0 ∧ asn = replaceAs then some replacement
  else if dropPrivate ∧ isPrivateAs asn then none
  else some asn

/-- `_map_as_path`: rewrite the ASNs; a segment left with none is dropped. -/
def mapAsPath (segments : List Segment) (replaceAs replacement : Nat)
    (dropPrivate : Bool) : List Segment :=
  (segments.map fun seg =>
    (seg.1, seg.2.filterMap (mapAs replaceAs replacement dropPrivate))).filter fun seg => seg.2 ≠ []

/-- `_addr_len_for_afi`: the next-hop width of a family, 0 for one without. -/
def addrLenForAfi (afi : Nat) : Nat := if afi = AFI_IP then 4 else if afi = AFI_IP6 then 16 else 0

/-- The reasons a path is not advertised, in the order the rules are tried. -/
inductive Suppress where
  | fromPeer
  | asLoop
  | ibgpSplitHorizon
  | noAdvertise
  | noExport
  | noExportSubconfed
  | unresolved
  | policy
deriving DecidableEq, Repr

structure AdjRibOut where
  peer : PeerRef
  afi : Nat
  safi : Nat
  localAs : Nat
  routerId : Nat
  localAddr : Bytes
  nextHopSelf : Bool
  defaultLocalPref : Nat
  sendCommunity : Bool
  sendExtCommunity : Bool
  sendLargeCommunity : Bool
  maxSize : Nat
  as4 : Bool
  addPathSend : Bool
  removePrivateAs : RemovePrivate
  asOverride : Bool
  senderLoopCheck : Bool
  policy : PolicyChain
  /-- What the peer has been told. -/
  advertised : Dict Prefix AttrSet
  /-- Staged and not encoded yet. -/
  announced : Dict Prefix AttrSet
  withdrawn : Dict Prefix Unit

/-- `OutboundSpec.build`: an empty table for a peer.  `none` is the `ValueError` of a
local address that is not a usable next hop of the family. -/
def OutboundSpec.build (spec : OutboundSpec) (ref : PeerRef) : Option AdjRibOut :=
  let width := addrLenForAfi spec.afi
  if width = 0 ∨ spec.localAddr.length ≠ width ∨ isZero spec.localAddr = true then none
  else
    some {
      peer := ref
      afi := spec.afi
      safi := spec.safi
      localAs := spec.localAs
      routerId := spec.routerId
      localAddr := spec.localAddr
      nextHopSelf := spec.nextHopSelf
      defaultLocalPref := spec.defaultLocalPref
      sendCommunity := spec.sendCommunity
      sendExtCommunity := spec.sendExtCommunity
      sendLargeCommunity := spec.sendLargeCommunity
      maxSize := spec.maxSize
      as4 := spec.as4
      addPathSend := spec.addPathSend
      removePrivateAs := spec.removePrivateAs
      asOverride := spec.asOverride
      senderLoopCheck := spec.senderLoopCheck
      policy := spec.policy
      advertised := Dict.empty
      announced := Dict.empty
      withdrawn := Dict.empty }

namespace AdjRibOut

/-- Whether a path came in on the session of a ref. -/
def fromPeer (peer : PeerRef) (path : BgpPath) : Bool :=
  path.peer.oid == peer.oid || (peer.addr ≠ [] && path.peer.addr == peer.addr)

/-- The first rule after split horizon that suppresses a path. -/
def suppression (t : AdjRibOut) (path : BgpPath) : Option Suppress :=
  let a := path.attrs
  if t.peer.isEbgp ∧ t.peer.peerAs ≠ 0 ∧ t.asOverride = false ∧ t.senderLoopCheck ∧
      a.hasAs t.peer.peerAs then
    some .asLoop
  else if t.peer.isEbgp = false ∧ path.source = .peer ∧ path.peer.isEbgp = false then
    some .ibgpSplitHorizon
  else if hasCommunity a.communities WIRE_NO_ADVERTISE then some .noAdvertise
  else if t.peer.isEbgp ∧ hasCommunity a.communities WIRE_NO_EXPORT then some .noExport
  else if t.peer.isEbgp ∧ hasCommunity a.communities WIRE_NO_EXPORT_SUBCONFED then
    some .noExportSubconfed
  else if path.resolved = false then some .unresolved
  else none

/-- The AS_PATH an external peer is sent. -/
def externalSegments (t : AdjRibOut) (a : AttrSet) : List Segment :=
  let segments := a.asPathList
  let dropPrivate := t.removePrivateAs = .all ∨
    (t.removePrivateAs = .ifAllPrivate ∧ allPrivate segments)
  let segments :=
    if t.asOverride ∨ dropPrivate then
      mapAsPath segments (if t.asOverride then t.peer.peerAs else 0) t.localAs dropPrivate
    else segments
  prependAsPath segments t.localAs

/-- `_transform_ebgp`.  `none` is the `ValueError` of `make_as_path`. -/
def transformEbgp (t : AdjRibOut) (path : BgpPath) : Option AttrSet :=
  let a := path.attrs
  (makeAsPath (t.externalSegments a)).map fun asPath =>
    { a with
      asPath := asPath
      localPref := none
      med := if path.source = .peer then none else a.med
      originatorId := none
      clusterList := []
      nexthop := t.localAddr
      nexthopLocal := [] }

/-- `_transform_ibgp`. -/
def transformIbgp (t : AdjRibOut) (path : BgpPath) : AttrSet :=
  let a := path.attrs
  let ours := t.nextHopSelf ∨ a.nexthop.length ≠ t.localAddr.length ∨ isZero a.nexthop
  { a with
    localPref := a.localPref.or (some (UInt32.ofNat t.defaultLocalPref))
    nexthop := if ours then t.localAddr else a.nexthop
    nexthopLocal := if ours then [] else a.nexthopLocal }

/-- What outbound policy is shown. -/
def transform (t : AdjRibOut) (path : BgpPath) : Option AttrSet :=
  (if t.peer.isEbgp then t.transformEbgp path else some (t.transformIbgp path)).map AttrSet.finalize

/-- `_filter_communities`. -/
def filterCommunities (t : AdjRibOut) (a : AttrSet) : AttrSet :=
  { a with
    communities := if t.sendCommunity then a.communities else []
    extCommunities := if t.sendExtCommunity then a.extCommunities else []
    largeCommunities := if t.sendLargeCommunity then a.largeCommunities else [] }

/-- Outbound policy over a transformed set, `none` when it is filtered. -/
def policed (rx : RegexEngine) (lists : Resolver) (t : AdjRibOut) (pfx : Prefix)
    (out : AttrSet) : Option AttrSet :=
  if t.policy.empty then some out
  else (t.policy.apply rx lists pfx out).map PolicyOutcome.attrs

/-- `_outbound_attrs`: what the peer should hear for a path, or why nothing. -/
def outboundAttrs (rx : RegexEngine) (lists : Resolver) (t : AdjRibOut) (pfx : Prefix)
    (path : BgpPath) : Option (Except Suppress AttrSet) :=
  if fromPeer t.peer path then some (.error .fromPeer)
  else
    match t.suppression path with
    | some reason => some (.error reason)
    | none =>
      (t.transform path).map fun out =>
        match policed rx lists t pfx out with
        | none => .error .policy
        | some out => .ok (t.filterCommunities out).finalize

end AdjRibOut

theorem mapAsPath_short {segments : List Segment} (h : Short segments)
    (replaceAs replacement : Nat) (dropPrivate : Bool) :
    Short (mapAsPath segments replaceAs replacement dropPrivate) := by
  intro seg hseg
  obtain ⟨held, hheld, rfl⟩ := List.mem_map.mp (List.mem_of_mem_filter hseg)
  exact Nat.le_trans (List.length_filterMap_le _ _) (h held hheld)

namespace AdjRibOut

theorem transform_isSome (t : AdjRibOut) (path : BgpPath) : (t.transform path).isSome := by
  have hshort : Short path.attrs.asPathList := pathSegments_short 4 _
  have hexternal : Short (t.externalSegments path.attrs) := by
    apply prependOne_short
    split
    · exact mapAsPath_short hshort _ _ _
    · exact hshort
  rw [transform, Option.isSome_map]
  cases t.peer.isEbgp with
  | false => rfl
  | true =>
    rw [if_pos rfl, transformEbgp, Option.isSome_map]
    exact makeAsPath_isSome hexternal

theorem outboundAttrs_isSome (rx : RegexEngine) (lists : Resolver) (t : AdjRibOut)
    (pfx : Prefix) (path : BgpPath) : (outboundAttrs rx lists t pfx path).isSome := by
  rw [outboundAttrs]
  split
  · rfl
  · split
    · rfl
    · rw [Option.isSome_map]
      exact t.transform_isSome path

end AdjRibOut

end Packets
