/-
The BGP Loc-RIB of one address family (`plugins/bgp/locrib.py`).

Destinations are shared by the table, the indexes and the change queue and compared with `is`,
so they are kept in a heap.  `published` records the calls made to the core's table.
-/
import Packets.Bgp.Bestpath

namespace Packets

abbrev DestId := Nat

structure Route where
  pfx : Prefix
  adminDistance : Nat
  metric : Nat
  nexthop : Bytes
  /-- none when the route takes the time of the call. -/
  recvTime : Option Int
deriving DecidableEq

inductive RibCall where
  | offer (route : Route)
  | retract (pfx : Prefix)
deriving DecidableEq

structure LocRib where
  afi : Nat
  safi : Nat
  attrTable : AttrTable
  config : BestpathConfig
  adminDistanceEbgp : Nat
  adminDistanceIbgp : Nat
  heap : Heap BgpDest
  nextPath : Nat
  dests : Dict Prefix DestId
  byPeer : Dict Nat (Dict Prefix DestId)
  nhDests : Dict Bytes (Dict Prefix DestId)
  nhState : Dict Bytes (Bool × Nat)
  offered : List Prefix
  queue : List DestId
  pathCount : Nat
  published : List RibCall

/-- What next-hop tracking last learned of a path: `(resolved, igp_metric)`. -/
def BgpPath.answer (p : BgpPath) : Bool × Nat := (p.resolved, p.igpMetric)

def BgpPath.setAnswer (answer : Bool × Nat) (p : BgpPath) : BgpPath :=
  { p with resolved := answer.1, igpMetric := answer.2 }

namespace LocRib

def DEFAULT_DISTANCE_EBGP : Nat := 20
def DEFAULT_DISTANCE_IBGP : Nat := 200

/-- A table as its constructor leaves it.  The cells of the heap are unused. -/
def new (afi safi : Nat) (attrTable : AttrTable) (config : BestpathConfig)
    (unused : BgpDest) : LocRib where
  afi := afi
  safi := safi
  attrTable := attrTable
  config := config
  adminDistanceEbgp := DEFAULT_DISTANCE_EBGP
  adminDistanceIbgp := DEFAULT_DISTANCE_IBGP
  heap := ⟨0, fun _ => unused⟩
  nextPath := 0
  dests := Dict.empty
  byPeer := Dict.empty
  nhDests := Dict.empty
  nhState := Dict.empty
  offered := []
  queue := []
  pathCount := 0
  published := []

/-- The destination object at an address. -/
def cell (s : LocRib) (d : DestId) : BgpDest := s.heap.cell d

def setDest (s : LocRib) (d : DestId) (dest : BgpDest) : LocRib :=
  { s with heap := s.heap.write d dest }

/-- `dest`: the destination of a prefix, created if needed.  `none` is the
`ValueError` of a prefix of another family. -/
def dest (s : LocRib) (pfx : Prefix) : Option (LocRib × DestId) :=
  if pfx.afi ≠ s.afi then none
  else
    match s.dests.get? pfx with
    | some d => some (s, d)
    | none =>
      some ({ s with
        heap := s.heap.alloc (BgpDest.new pfx)
        dests := s.dests.set pfx s.heap.next }, s.heap.next)

/-- `paths_for`: every path held for a prefix. -/
def pathsFor (s : LocRib) (pfx : Prefix) : List BgpPath :=
  match s.dests.get? pfx with
  | none => []
  | some d => (s.cell d).paths

/-- `_enqueue`: mark a destination dirty, once. -/
def enqueue (s : LocRib) (d : DestId) : LocRib :=
  if (s.cell d).queued then s
  else { s.setDest d { s.cell d with queued := true } with
    queue := s.queue ++ [d] }

def pending (s : LocRib) : Nat := s.queue.length

def indexAdd (s : LocRib) (peer : PeerRef) (d : DestId) : LocRib :=
  let contributed := (s.byPeer.get? peer.oid).getD Dict.empty
  { s with byPeer := s.byPeer.set peer.oid (contributed.set (s.cell d).pfx d) }

def indexRemove (s : LocRib) (peer : PeerRef) (pfx : Prefix) : LocRib :=
  match s.byPeer.get? peer.oid with
  | none => s
  | some contributed =>
    let contributed := contributed.erase pfx
    if contributed.isEmpty then { s with byPeer := s.byPeer.erase peer.oid }
    else { s with byPeer := s.byPeer.set peer.oid contributed }

/-- `_peer_has`: whether a peer still has any path in a destination. -/
def peerHas (s : LocRib) (peer : PeerRef) (d : DestId) : Bool :=
  (s.cell d).paths.any fun p => p.peer.oid == peer.oid

/-- Whether some path of a destination uses a next hop. -/
def usesNexthop (dest : BgpDest) (nexthop : Bytes) : Bool :=
  dest.paths.any fun p => p.attrs.nexthop == nexthop

def indexNexthop (s : LocRib) (nexthop : Bytes) (d : DestId) (resolved : Bool)
    (igpMetric : Nat) : LocRib :=
  if nexthop = [] then s
  else
    let dests := (s.nhDests.get? nexthop).getD Dict.empty
    { s with
      nhDests := s.nhDests.set nexthop (dests.set (s.cell d).pfx d)
      nhState := s.nhState.set nexthop (resolved, igpMetric) }

/-- Write back the destinations filed under a next hop, forgetting a next hop
that has none left. -/
def fileNexthop (s : LocRib) (nexthop : Bytes) (dests : Dict Prefix DestId) :
    LocRib :=
  if dests.isEmpty then
    { s with
      nhDests := s.nhDests.erase nexthop
      nhState := s.nhState.erase nexthop }
  else { s with nhDests := s.nhDests.set nexthop dests }

def unindexNexthop (s : LocRib) (nexthop : Bytes) (d : DestId) : LocRib :=
  if nexthop = [] then s
  else
    match s.nhDests.get? nexthop with
    | none => s
    | some dests =>
      if dests.get? (s.cell d).pfx ≠ some d then s
      else if s.dests.get? (s.cell d).pfx = some d ∧ usesNexthop (s.cell d) nexthop = true then s
      else s.fileNexthop nexthop (dests.erase (s.cell d).pfx)

/-- The arguments of `add_path` besides the peer and the prefix. -/
structure Arrival where
  attrs : AttrSet
  pathId : Nat
  weight : Nat
  source : PathSource
  igpMetric : Nat
  recvTime : Int
  resolved : Bool
  keepAge : Bool
deriving DecidableEq

/-- The path `add_path` builds.  A replay keeps the age of the path it replaces. -/
def Arrival.path (a : Arrival) (oid interned : Nat) (peer : PeerRef)
    (dest : BgpDest) : BgpPath where
  oid := oid
  attrs := a.attrs
  interned := interned
  peer := peer
  pathId := a.pathId
  weight := a.weight
  source := a.source
  igpMetric := a.igpMetric
  recvTime :=
    match dest.find peer a.pathId with
    | some held => if a.keepAge then held.recvTime else a.recvTime
    | none => a.recvTime
  resolved := a.resolved

/-- What `add_path` does with the path a new one replaced. -/
def settleReplaced (s : LocRib) (d : DestId) (nexthop : Bytes) : Option BgpPath → LocRib
  | none => { s with pathCount := s.pathCount + 1 }
  | some old =>
    let s := { s with attrTable := s.attrTable.release old.attrs old.interned }
    if old.attrs.nexthop ≠ nexthop then s.unindexNexthop old.attrs.nexthop d
    else s

/-- `add_path`.  `none` is its `ValueError`. -/
def addPath (s : LocRib) (peer : PeerRef) (pfx : Prefix) (a : Arrival) : Option LocRib :=
  match s.dest pfx with
  | none => none
  | some (s, d) =>
    let replaced := (s.cell d).find peer a.pathId
    let path := a.path s.nextPath (s.attrTable.intern a.attrs).2 peer (s.cell d)
    let s := { s with
      attrTable := (s.attrTable.intern a.attrs).1
      nextPath := s.nextPath + 1 }
    let s := s.setDest d ((s.cell d).add path)
    let s := s.settleReplaced d a.attrs.nexthop replaced
    let s := s.indexAdd peer d
    let s := s.indexNexthop a.attrs.nexthop d a.resolved a.igpMetric
    some (s.enqueue d)

/-- Forget a destination whose last path has gone. -/
def dropEmpty (s : LocRib) (d : DestId) : LocRib :=
  if (s.cell d).paths.isEmpty ∧ s.dests.get? (s.cell d).pfx = some d then
    { s with dests := s.dests.erase (s.cell d).pfx }
  else s

/-- `remove_path`. -/
def removePath (s : LocRib) (peer : PeerRef) (pfx : Prefix) (pathId : Nat) :
    LocRib :=
  match s.dests.get? pfx with
  | none => s
  | some d =>
    match (s.cell d).find peer pathId with
    | none => s
    | some path =>
      let s := { s.setDest d ((s.cell d).remove peer pathId) with
        pathCount := s.pathCount - 1
        attrTable := s.attrTable.release path.attrs path.interned }
      let s := if s.peerHas peer d then s else s.indexRemove peer pfx
      let s := s.enqueue d
      let s := s.dropEmpty d
      s.unindexNexthop path.attrs.nexthop d

/-- The body of `remove_peer` for one destination of the peer. -/
def removePeerFrom (peer : PeerRef) (s : LocRib) (d : DestId) : LocRib :=
  let gone := (s.cell d).paths.filter fun p => p.peer.oid == peer.oid
  let s := { s with
    attrTable := gone.foldl (fun t p => t.release p.attrs p.interned) s.attrTable }
  if gone.isEmpty then s
  else
    let s := { s.setDest d ((s.cell d).removePeer peer) with
      pathCount := s.pathCount - gone.length }
    let s := s.enqueue d
    let s := s.dropEmpty d
    gone.foldl (fun s p => s.unindexNexthop p.attrs.nexthop d) s

/-- `remove_peer`. -/
def removePeer (s : LocRib) (peer : PeerRef) : LocRib :=
  match s.byPeer.get? peer.oid with
  | none => s
  | some contributed =>
    contributed.values.foldl (removePeerFrom peer) { s with byPeer := s.byPeer.erase peer.oid }

/-- What a resolver answers for a next hop: `(resolved, igp_metric)`. -/
abbrev Check := Nat → Bytes → Bool × Nat

/-- Give every path of a destination through a next hop the same answer.  The
winner of the last selection is one of these objects or has left the list. -/
def setAnswers (nexthop : Bytes) (answer : Bool × Nat) (dest : BgpDest) :
    BgpDest :=
  let touch := fun p : BgpPath =>
    if p.attrs.nexthop = nexthop then BgpPath.setAnswer answer p else p
  { dest with
    paths := dest.paths.map touch
    best := dest.best.map fun b => if dest.paths.any fun p => p.oid == b.oid then touch b else b }

/-- Whether an answer would change a path of a destination. -/
def answerMoves (nexthop : Bytes) (answer : Bool × Nat) (dest : BgpDest) : Bool :=
  dest.paths.any fun p => p.attrs.nexthop == nexthop && BgpPath.answer p != answer

/-- `_prune_nexthop`: keep the destinations that are still in the table and
still use the next hop. -/
def pruneNexthop (s : LocRib) (nexthop : Bytes) (dests : Dict Prefix DestId) :
    LocRib :=
  s.fileNexthop nexthop (dests.filter fun pfx d =>
    s.dests.get? pfx == some d && usesNexthop (s.cell d) nexthop)

/-- The body of `revalidate` for one destination behind a changed next hop. -/
def revalidateDest (nexthop : Bytes) (answer : Bool × Nat) (s : LocRib)
    (entry : Prefix × DestId) : LocRib :=
  if s.dests.get? entry.1 ≠ some entry.2 then s
  else if answerMoves nexthop answer (s.cell entry.2) then
    (s.setDest entry.2 (setAnswers nexthop answer (s.cell entry.2))).enqueue entry.2
  else s

/-- The body of `revalidate` for one next hop. -/
def revalidateNexthop (check : Check) (s : LocRib) (nexthop : Bytes) : LocRib :=
  match s.nhDests.get? nexthop with
  | none => s
  | some dests =>
    let answer := check s.afi nexthop
    if s.nhState.get? nexthop = some answer then s.pruneNexthop nexthop dests
    else
      let s := { s with nhState := s.nhState.set nexthop answer }
      let s := dests.entries.foldl (revalidateDest nexthop answer) s
      s.pruneNexthop nexthop dests

/-- `revalidate`. -/
def revalidate (s : LocRib) (check : Check) : LocRib :=
  s.nhDests.keys.foldl (revalidateNexthop check) s

def retract (s : LocRib) (pfx : Prefix) : LocRib :=
  if pfx ∉ s.offered then s
  else { s with
    offered := s.offered.filter (· ≠ pfx)
    published := s.published ++ [.retract pfx] }

/-- `_offer`: the winner as a route of the core.  A path not learned from a peer,
or whose next hop no route can carry, takes the prefix out instead. -/
def offer (s : LocRib) (pfx : Prefix) (path : BgpPath) : LocRib :=
  if path.source ≠ .peer then s.retract pfx
  else if path.attrs.nexthop.length ≠ 0 ∧ path.attrs.nexthop.length ≠ 4 ∧
      path.attrs.nexthop.length ≠ 16 then s.retract pfx
  else
    let route : Route := {
      pfx := pfx
      adminDistance := if path.peer.isEbgp then s.adminDistanceEbgp else s.adminDistanceIbgp
      metric := match path.attrs.med with
        | some med => med.toNat
        | none => 0
      nexthop := path.attrs.nexthop
      recvTime := if path.recvTime > 0 then some path.recvTime else none }
    { s with
      offered := if pfx ∈ s.offered then s.offered else s.offered ++ [pfx]
      published := s.published ++ [.offer route] }

/-- The body of `reselect` for one destination taken off the queue. -/
def reselectDest (s : LocRib) (d : DestId) : LocRib :=
  let previous := (s.cell d).best
  let dest := ({ s.cell d with queued := false }).reselect s.config
  let s := s.setDest d dest
  let s :=
    if dest.best.map BgpPath.oid = previous.map BgpPath.oid then s
    else
      match dest.best with
      | none => s.retract dest.pfx
      | some winner =>
        if !winner.resolved then s.retract dest.pfx
        else s.offer dest.pfx winner
  if dest.best.isNone then s.dropEmpty d else s

/-- `reselect`: run the decision process for up to `limit` dirty destinations,
all of them when `limit` is 0 or less. -/
def reselect (s : LocRib) (limit : Int) : LocRib :=
  let count := if limit ≤ 0 then s.queue.length else min limit.toNat s.queue.length
  (s.queue.take count).foldl reselectDest { s with queue := s.queue.drop count }

/-- `set_config`: adopt new knobs, requeueing every destination when they
differ. -/
def setConfig (s : LocRib) (config : BestpathConfig) : LocRib :=
  if config = s.config then s
  else s.dests.values.foldl enqueue { s with config := config }

def clear (s : LocRib) : LocRib :=
  let held := s.dests.values
  let s := { s with
    attrTable := (held.flatMap fun d => (s.cell d).paths).foldl
      (fun t (p : BgpPath) => t.release p.attrs p.interned) s.attrTable }
  let s := held.foldl (fun s d => s.setDest d { s.cell d with queued := false }) s
  let s := s.offered.foldl retract s
  { s with
    dests := Dict.empty
    byPeer := Dict.empty
    nhDests := Dict.empty
    nhState := Dict.empty
    offered := []
    queue := []
    pathCount := 0 }

end LocRib

end Packets
