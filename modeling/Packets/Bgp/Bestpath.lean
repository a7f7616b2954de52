/-
The BGP decision process (`plugins/bgp/bestpath.pyx`).

Peers and paths are objects the source compares with `is`; each carries the
address of its object in `oid`.
-/
import Packets.Bgp.Attrs

namespace Packets

inductive PathSource where
  | local
  | aggregate
  | redist
  | peer
deriving DecidableEq, Repr

/-- The `PATH_SRC_*` codes: the lower one wins. -/
def PathSource.code : PathSource → Nat
  | .local => 0
  | .aggregate => 1
  | .redist => 2
  | .peer => 3

/-- What the decision process needs to know of one session. -/
structure PeerRef where
  oid : Nat
  /-- The owning session, none for paths we originate. -/
  peer : Option Nat
  peerAs : Nat
  localAs : Nat
  routerId : Nat
  addr : Bytes
  isEbgp : Bool
deriving DecidableEq

/-- The ref a locally originated path carries. -/
def LOCAL_PEER : PeerRef := ⟨0, none, 0, 0, 0, [], false⟩

structure BgpPath where
  oid : Nat
  attrs : AttrSet
  /-- The instance of `attrs` the interning table handed out. -/
  interned : Nat
  peer : PeerRef
  pathId : Nat
  weight : Nat
  source : PathSource
  igpMetric : Nat
  recvTime : Int
  resolved : Bool
deriving DecidableEq

structure BestpathConfig where
  localAs : Nat
  routerId : Nat
  alwaysCompareMed : Bool
  deterministicMed : Bool
  medMissingAsWorst : Bool
  compareRouterId : Bool
  asPathIgnore : Bool
  asPathMultipathRelax : Bool
  maximumPaths : Nat
  maximumPathsIbgp : Nat
  defaultLocalPref : Nat
deriving DecidableEq

inductive Step where
  | none
  | resolved
  | weight
  | localPref
  | originated
  | asPath
  | origin
  | med
  | external
  | igpMetric
  | age
  | routerId
  | clusterList
  | peerAddr
deriving DecidableEq, Repr

/-- The `STEP_*` codes, in the order the criteria are tried. -/
def Step.code : Step → Nat
  | .none => 0
  | .resolved => 1
  | .weight => 2
  | .localPref => 3
  | .originated => 4
  | .asPath => 5
  | .origin => 6
  | .med => 7
  | .external => 8
  | .igpMetric => 9
  | .age => 10
  | .routerId => 11
  | .clusterList => 12
  | .peerAddr => 13

def MULTIPATH_BOUNDARY : Nat := Step.igpMetric.code

def MED_WORST : Nat := 0xffffffff

def medOf (a : AttrSet) (cfg : BestpathConfig) : Nat :=
  match a.med with
  | some med => med.toNat
  | none => if cfg.medMissingAsWorst then MED_WORST else 0

def localPrefOf (a : AttrSet) (cfg : BestpathConfig) : Nat :=
  match a.localPref with
  | some pref => pref.toNat
  | none => cfg.defaultLocalPref

/-- ORIGINATOR_ID when a reflector set one, else the peer's identifier. -/
def routerIdOf (p : BgpPath) : Nat :=
  match p.attrs.originatorId with
  | some id => id.toNat
  | none => p.peer.routerId

/-- Shorter address first, then bytewise. -/
def cmpAddr (x y : Bytes) : Int :=
  if x.length ≠ y.length then (if x.length < y.length then -1 else 1)
  else if BigEndian.toNat x < BigEndian.toNat y then -1
  else if BigEndian.toNat y < BigEndian.toNat x then 1
  else 0

/-- `path_cmp`: negative if `a` wins, with the criterion that decided. -/
def pathCmp (a b : BgpPath) (cfg : BestpathConfig) : Int × Step :=
  if a.resolved ≠ b.resolved then (if a.resolved then -1 else 1, .resolved)
  else if a.weight ≠ b.weight then
    (if a.weight > b.weight then -1 else 1, .weight)
  else if localPrefOf a.attrs cfg ≠ localPrefOf b.attrs cfg then
    (if localPrefOf a.attrs cfg > localPrefOf b.attrs cfg then -1 else 1, .localPref)
  else if a.source.code ≠ b.source.code then
    (if a.source.code < b.source.code then -1 else 1, .originated)
  else if !cfg.asPathIgnore && a.attrs.asPathLen != b.attrs.asPathLen then
    (if a.attrs.asPathLen < b.attrs.asPathLen then -1 else 1, .asPath)
  else if a.attrs.origin ≠ b.attrs.origin then
    (if a.attrs.origin < b.attrs.origin then -1 else 1, .origin)
  -- MEDs of two neighbouring ASes are comparable only when configured so.
  else if (cfg.alwaysCompareMed || a.attrs.neighborAs == b.attrs.neighborAs) &&
      medOf a.attrs cfg != medOf b.attrs cfg then
    (if medOf a.attrs cfg < medOf b.attrs cfg then -1 else 1, .med)
  else if a.peer.isEbgp ≠ b.peer.isEbgp then
    (if a.peer.isEbgp then -1 else 1, .external)
  else if a.igpMetric ≠ b.igpMetric then
    (if a.igpMetric < b.igpMetric then -1 else 1, .igpMetric)
  else if !cfg.compareRouterId && a.peer.isEbgp && b.peer.isEbgp && a.recvTime != b.recvTime then
    (if a.recvTime < b.recvTime then -1 else 1, .age)
  else if routerIdOf a ≠ routerIdOf b then
    (if routerIdOf a < routerIdOf b then -1 else 1, .routerId)
  else if a.attrs.clusterLen ≠ b.attrs.clusterLen then
    (if a.attrs.clusterLen < b.attrs.clusterLen then -1 else 1, .clusterList)
  else if cmpAddr a.peer.addr b.peer.addr ≠ 0 then
    (cmpAddr a.peer.addr b.peer.addr, .peerAddr)
  else (0, .none)

structure BestpathResult where
  best : Option BgpPath
  multipath : List BgpPath
  reason : Step

/-- The linear scan: a later path replaces the winner only by beating it. -/
def scanBest (cfg : BestpathConfig) (best : BgpPath) (rest : List BgpPath) :
    BgpPath :=
  rest.foldl (fun best p => if (pathCmp best p cfg).1 > 0 then p else best) best

/-- `_med_group_winners`: the best path of each neighbouring AS, in ascending
order of the AS. -/
def medGroupWinners (eligible : List BgpPath) (cfg : BestpathConfig) : List BgpPath :=
  let groups : Dict Nat BgpPath := eligible.foldl
    (fun groups p =>
      match groups.get? p.attrs.neighborAs with
      | none => groups.set p.attrs.neighborAs p
      | some cur =>
        if (pathCmp cur p cfg).1 > 0 then groups.set p.attrs.neighborAs p
        else groups) Dict.empty
  (groups.keys.insertionSort (· ≤ ·)).filterMap groups.get?

/-- `_decisive_reason`: the latest step that separates the winner from a rival. -/
def decisiveReason (eligible : List BgpPath) (best : BgpPath) (cfg : BestpathConfig) : Step :=
  eligible.foldl
    (fun latest p =>
      if p.oid = best.oid then latest
      else
        let step := (pathCmp best p cfg).2
        if step.code > latest.code then step else latest) .none

/-- `_fill_multipath`: the paths no real preference separates from the winner. -/
def fillMultipath (eligible : List BgpPath) (best : BgpPath)
    (cfg : BestpathConfig) : List BgpPath :=
  let limit := if best.peer.isEbgp then cfg.maximumPaths else cfg.maximumPathsIbgp
  if limit ≤ 1 then []
  else
    let out := eligible.foldl
      (fun out p =>
        if p.oid = best.oid then out
        else if out.length ≥ limit then out
        else if p.peer.isEbgp ≠ best.peer.isEbgp then out
        else if !cfg.asPathMultipathRelax && p.attrs.asPath != best.attrs.asPath then
          out
        else
          let step := (pathCmp best p cfg).2
          if step.code > MULTIPATH_BOUNDARY ∨ step = .none then out ++ [p]
          else out) [best]
    if out.length > 1 then out else []

/-- `_select`. -/
def select (paths : List BgpPath) (cfg : BestpathConfig) : BestpathResult :=
  match paths.filter BgpPath.resolved with
  | [] => ⟨none, [], .none⟩
  | [p] => ⟨some p, [], if paths.length > 1 then .resolved else .none⟩
  | eligible =>
    let winners := if cfg.deterministicMed then medGroupWinners eligible cfg else eligible
    match winners with
    | [] => ⟨none, [], .none⟩
    | first :: rest =>
      let best := scanBest cfg first rest
      ⟨some best, fillMultipath eligible best cfg, decisiveReason eligible best cfg⟩

/-- Every path held for one prefix, and the winner of the last selection. -/
structure BgpDest where
  pfx : Prefix
  paths : List BgpPath
  best : Option BgpPath
  queued : Bool

def BgpDest.new (pfx : Prefix) : BgpDest := ⟨pfx, [], none, false⟩

/-- A path is named by the session it came through and its path identifier. -/
def BgpPath.isFrom (p : BgpPath) (peer : PeerRef) (pathId : Nat) : Bool :=
  p.peer.oid == peer.oid && p.pathId == pathId

def BgpDest.find (d : BgpDest) (peer : PeerRef) (pathId : Nat) : Option BgpPath :=
  d.paths.find? fun p => p.isFrom peer pathId

/-- `add`: replace the path of the same name in place, or append. -/
def putPath (path : BgpPath) : List BgpPath → List BgpPath
  | [] => [path]
  | old :: rest =>
    if old.isFrom path.peer path.pathId then path :: rest
    else old :: putPath path rest

def BgpDest.add (d : BgpDest) (path : BgpPath) : BgpDest :=
  { d with paths := putPath path d.paths }

/-- `remove`: drop the first path of this name. -/
def BgpDest.remove (d : BgpDest) (peer : PeerRef) (pathId : Nat) : BgpDest :=
  { d with paths := d.paths.eraseP fun p => p.isFrom peer pathId }

def BgpDest.removePeer (d : BgpDest) (peer : PeerRef) : BgpDest :=
  { d with paths := d.paths.filter fun p => p.peer.oid ≠ peer.oid }

def BgpDest.reselect (d : BgpDest) (cfg : BestpathConfig) : BgpDest :=
  { d with best := (select d.paths cfg).best }

end Packets
