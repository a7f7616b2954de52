/-
The tables of the BGP plugin (`plugins/bgp/plugin.py`): its Loc-RIBs with their knobs, the
networks it originates, the next hops it validates.

What reaches them from a session is an arrival, a withdrawal or its end.
-/
import Packets.Bgp.CoreOffersRuns
import Packets.Bgp.Peer
import Packets.Rib.ResolverRuns

namespace Packets

/-- One `network` statement. -/
structure NetworkEntry where
  importCheck : Bool
  routeMap : Option String
deriving DecidableEq

structure DistanceBody where
  external : Option Nat
  internal : Option Nat
deriving DecidableEq

/-- An `address-family` block. -/
structure FamilyBody where
  network : Dict String NetworkEntry
  maximumPaths : Option Nat
  maximumPathsIbgp : Option Nat
  distance : DistanceBody

/-- A `bestpath` block. -/
structure BestpathKnobs where
  alwaysCompareMed : Option Bool
  deterministicMed : Option Bool
  medMissingAsWorst : Option Bool
  compareRouterid : Option Bool
  asPathIgnore : Option Bool
  asPathMultipathRelax : Option Bool

/-- The body of an accepted `router bgp` section, as far as the tables read it.  `routerId` is
the number the identifier stands for. -/
structure BgpBody where
  routerId : Option Nat
  addressFamily : Dict Family FamilyBody
  bestpath : BestpathKnobs
  defaultLocalPreference : Option Nat
  nextHopValidation : Option Bool

/-- A `router bgp` section: its AS and its body, or nothing. -/
abbrev BgpTablesSection := Option (Nat × BgpBody)

def DEFAULT_LOCAL_PREF : Nat := 100

namespace BgpBody

/-- `_af`: the families of the section, IPv4 unicast when it names none. -/
def families (body : BgpBody) : List Family :=
  if body.addressFamily.isEmpty then [IPV4_UNICAST] else body.addressFamily.keys

/-- The distances a Loc-RIB of a family is created with. -/
def distances (body : BgpBody) (af : Family) : Nat × Nat :=
  match body.addressFamily.get? af with
  | none => (LocRib.DEFAULT_DISTANCE_EBGP, LocRib.DEFAULT_DISTANCE_IBGP)
  | some family =>
    (family.distance.external.getD LocRib.DEFAULT_DISTANCE_EBGP,
      family.distance.internal.getD LocRib.DEFAULT_DISTANCE_IBGP)

/-- A multipath limit: 1 when it is absent or 0. -/
def limit (value : Option Nat) : Nat := if value.getD 1 = 0 then 1 else value.getD 1

/-- What `_rebuild_bestpath_config` builds for a family. -/
def bestpathConfig (body : BgpBody) (localAs routerId : Nat) (af : Family) : BestpathConfig where
  localAs := localAs
  routerId := routerId
  alwaysCompareMed := body.bestpath.alwaysCompareMed.getD false
  deterministicMed := body.bestpath.deterministicMed.getD true
  medMissingAsWorst := body.bestpath.medMissingAsWorst.getD false
  compareRouterId := body.bestpath.compareRouterid.getD false
  asPathIgnore := body.bestpath.asPathIgnore.getD false
  asPathMultipathRelax := body.bestpath.asPathMultipathRelax.getD false
  maximumPaths := limit ((body.addressFamily.get? af).bind FamilyBody.maximumPaths)
  maximumPathsIbgp := limit ((body.addressFamily.get? af).bind FamilyBody.maximumPathsIbgp)
  defaultLocalPref := body.defaultLocalPreference.getD DEFAULT_LOCAL_PREF

/-- The `network` statements, keyed by family and text. -/
def networkConfig (body : BgpBody) : Dict (Family × String) NetworkEntry :=
  body.addressFamily.entries.foldl
    (fun config family =>
      family.2.network.entries.foldl
        (fun config statement => config.set (family.1, statement.1) statement.2) config)
    Dict.empty

end BgpBody

/-- What the tables read of the engine: the policy store, and the resolver with the
cross-protocol RIB behind it. -/
structure BgpEngine where
  rx : RegexEngine
  store : PolicyStore
  resolver : Rib.Resolver

/-- The plugin without its sessions.  `engine` is none until the plugin is started, and
`checking` is whether the sessions were last handed `_check_nexthop`. -/
structure BgpTables where
  engine : Option BgpEngine
  localAs : Nat
  routerId : Nat
  nextHopValidation : Bool
  checking : Bool
  locribs : Dict Family LocRib
  networkConfig : Dict (Family × String) NetworkEntry
  networks : Dict (Family × String) AttrSet
  nhMarker : Option (Nat × Nat)

namespace BgpTables

def new : BgpTables where
  engine := none
  localAs := 0
  routerId := 0
  nextHopValidation := false
  checking := false
  locribs := Dict.empty
  networkConfig := Dict.empty
  networks := Dict.empty
  nhMarker := none

/-- `_check_nexthop`.  The resolver raises for a next hop of another width than the
family's, and such a path is never asked about. -/
def checkNexthop (t : BgpTables) : LocRib.Check := fun afi nexthop =>
  match t.engine with
  | none => (true, 0)
  | some engine =>
    if nexthop = [] then (true, 0)
    else
      match engine.resolver.resolve afi nexthop (some PROTO_BGP) with
      | some (some found) => (true, found.metric)
      | _ => (false, 0)

/-- The answer an arrival brings: that of the check its session was handed, if any. -/
def sessionAnswer (t : BgpTables) (afi : Nat) (nexthop : Bytes) : Bool × Nat :=
  if t.checking then t.checkNexthop afi nexthop else (true, 0)

/-- The selection counter of the core and the generation of the resolver.  The core
counts one selection for each call it makes to the sink. -/
def marker (t : BgpTables) : Nat × Nat :=
  match t.engine with
  | none => (0, 0)
  | some engine =>
    ((engine.resolver.globalRib.map fun g => g.calls.length).getD 0, engine.resolver.generation)

/-- `_revalidate`. -/
def revalidate (t : BgpTables) : BgpTables :=
  if t.nhMarker = some t.marker then t
  else
    { t with
      nhMarker := some t.marker
      locribs := t.locribs.mapValues fun _ l => l.revalidate t.checkNexthop }

/-- `_backed`: whether something outside BGP reaches this prefix. -/
def backed (t : BgpTables) (af : Family) (pfx : Prefix) : Bool :=
  match t.engine.bind fun engine => engine.resolver.globalRib with
  | none => false
  | some g => (g.bestAt af pfx).any fun r => r.protocol ≠ PROTO_BGP

/-- `_network_attrs`: the attributes to originate, `none` when a route-map denied
them. -/
def networkAttrs (t : BgpTables) (af : Family) (pfx : Prefix) (entry : NetworkEntry) :
    Option AttrSet :=
  let attrs : AttrSet := {
    nexthop := List.replicate (if af.1 = AFI_IP then 4 else 16) 0
    localPref := some 100 }
  match configured entry.routeMap, t.engine with
  | some name, some engine =>
    (chainOutcome engine.rx engine.store { routeMap := some name } af.1 pfx attrs).map
      PolicyOutcome.attrs
  | _, _ => some attrs

/-- What a statement originates now, if anything. -/
def wantedBy (t : BgpTables) (key : Family × String) (entry : NetworkEntry) :
    Option (Prefix × AttrSet) :=
  if !t.locribs.contains key.1 then none
  else
    match parsePrefix key.2 with
    | none => none
    | some pfx =>
      if entry.importCheck && !t.backed key.1 pfx then none
      else (t.networkAttrs key.1 pfx entry).map fun attrs => (pfx, attrs)

def wanted (t : BgpTables) : List ((Family × String) × Prefix × AttrSet) :=
  t.networkConfig.entries.filterMap fun e => (t.wantedBy e.1 e.2).map fun found => (e.1, found)

/-- The body of `_sync_networks` for a network that is not wanted. -/
def withdrawNetwork (t : BgpTables) (key : Family × String) : BgpTables :=
  let locribs :=
    match t.locribs.get? key.1, parsePrefix key.2 with
    | some l, some pfx => t.locribs.set key.1 (l.removePath LOCAL_PEER pfx 0)
    | _, _ => t.locribs
  { t with locribs := locribs, networks := t.networks.erase key }

/-- The path of an originated network. -/
def localArrival (now : Int) (attrs : AttrSet) : LocRib.Arrival where
  attrs := attrs
  pathId := 0
  weight := 0
  source := .local
  igpMetric := 0
  recvTime := now
  resolved := true
  keepAge := false

/-- The body of `_sync_networks` for a network that is wanted.  The flag is off when
`add_path` raised. -/
def originate (now : Int) (t : BgpTables) (item : (Family × String) × Prefix × AttrSet) :
    BgpTables × Bool :=
  if t.networks.get? item.1 = some item.2.2 then (t, true)
  else
    match t.locribs.get? item.1.1 with
    | none => (t, true)
    | some l =>
      match l.addPath LOCAL_PEER item.2.1 (localArrival now item.2.2) with
      | none => (t, false)
      | some l =>
        ({ t with
          locribs := t.locribs.set item.1.1 l
          networks := t.networks.set item.1 item.2.2 }, true)

/-- `_sync_networks`.  The flag says whether it returned. -/
def syncNetworks (t : BgpTables) (now : Int) : BgpTables × Bool :=
  let wanted := t.wanted
  let gone := t.networks.keys.filter fun key => !(wanted.map Prod.fst).contains key
  runEach (originate now) wanted (gone.foldl withdrawNetwork t)

/-- A new Loc-RIB.  The attribute table is shared by all, and what unused memory holds
is arbitrary. -/
def newLocrib (attrTable : AttrTable) (unused : BgpDest) (af : Family)
    (config : BestpathConfig) (distances : Nat × Nat) : LocRib :=
  { LocRib.new af.1 af.2 attrTable config unused with
    adminDistanceEbgp := distances.1
    adminDistanceIbgp := distances.2 }

/-- The memory a commit creates tables in. -/
structure Fresh where
  attrTable : AttrTable
  unused : BgpDest

/-- The body of `_rebuild_locribs` for a configured family. -/
def rebuildLocrib (fresh : Fresh) (config : Family → BestpathConfig)
    (distances : Family → Nat × Nat) (locribs : Dict Family LocRib) (af : Family) :
    Dict Family LocRib :=
  match locribs.get? af with
  | some l => locribs.set af (l.setConfig (config af))
  | none => locribs.set af (newLocrib fresh.attrTable fresh.unused af (config af) (distances af))

/-- `_rebuild_locribs`: a Loc-RIB for each configured family, dropping removed ones. -/
def rebuildLocribs (fresh : Fresh) (t : BgpTables) (body : BgpBody) : BgpTables :=
  { t with
    locribs := (body.families.foldl
      (rebuildLocrib fresh (body.bestpathConfig t.localAs t.routerId) body.distances)
      t.locribs).filter fun af _ => body.families.contains af }

/-- `_shutdown_all`, once the sessions have gone. -/
def shutdownAll (t : BgpTables) : BgpTables :=
  { t with
    locribs := t.locribs.mapValues fun _ l => l.clear
    networks := Dict.empty }

/-- A section adopted, before its networks are originated. -/
def adopt (fresh : Fresh) (t : BgpTables) (asn : Nat) (body : BgpBody) : BgpTables :=
  let adopted := { t with
    localAs := asn
    routerId := body.routerId.getD t.routerId
    nextHopValidation := body.nextHopValidation.getD false }
  { adopted.rebuildLocribs fresh body with networkConfig := body.networkConfig }

/-- `commit_config`.  The flag says whether it came to its end. -/
def commitConfig (fresh : Fresh) (now : Int) (t : BgpTables) : BgpTablesSection → BgpTables × Bool
  | none => (t.shutdownAll, true)
  | some (asn, body) =>
    match (t.adopt fresh asn body).syncNetworks now with
    | (synced, false) => (synced, false)
    | (synced, true) =>
      let reset := if t.localAs ≠ 0 ∧ t.localAs ≠ asn then synced.shutdownAll else synced
      ({ reset with checking := reset.nextHopValidation }, true)

/-- What a pass does before it looks at the networks. -/
def selectAndCheck (t : BgpTables) (limit : Int) : BgpTables :=
  let selected := { t with locribs := t.locribs.mapValues fun _ l => l.reselect limit }
  if t.nextHopValidation then selected.revalidate else selected

/-- `if self.network_config: self._sync_networks()`. -/
def resync (t : BgpTables) (now : Int) : BgpTables × Bool :=
  if t.networkConfig.isEmpty then (t, true) else t.syncNetworks now

/-- The part of `run_pass` that works on the tables.  The flag says whether it came to
its end. -/
def runPass (limit : Int) (now : Int) (t : BgpTables) : BgpTables × Bool :=
  (t.selectAndCheck limit).resync now

/-- The engine's store after a document was loaded into it. -/
def setStore (t : BgpTables) (store : PolicyStore) : BgpTables :=
  { t with engine := t.engine.map fun engine => { engine with store := store } }

/-- The part of `policy_changed` that works on the tables, for the store it is called
with.  What it replays for a session comes from that session. -/
def policyChanged (now : Int) (t : BgpTables) (store : PolicyStore) : BgpTables × Bool :=
  (t.setStore store).resync now

/-- One call of a session into the Loc-RIB of a family. -/
inductive SessionCall where
  | arrive (peer : PeerRef) (pfx : Prefix) (arrival : LocRib.Arrival)
  | withdraw (peer : PeerRef) (pfx : Prefix) (pathId : Nat)
  | release (peer : PeerRef)

def SessionCall.peer : SessionCall → PeerRef
  | .arrive peer _ _ => peer
  | .withdraw peer _ _ => peer
  | .release peer => peer

/-- What can happen to the tables and to the engine they read. -/
inductive Op where
  | start (engine : BgpEngine)
  | commit (fresh : Fresh) (now : Int) (bgp : BgpTablesSection)
  | pass (limit now : Int)
  | session (af : Family) (call : SessionCall)
  | policy (now : Int) (store : PolicyStore)
  | core (op : Rib.Resolver.Op)
  | stop

/-- A session's call on one Loc-RIB.  One that raises changes nothing. -/
def callLocrib (answer : Bytes → Bool × Nat) (l : LocRib) : SessionCall → LocRib
  | .arrive peer pfx arrival =>
    (l.addPath peer pfx { arrival with
      source := .peer
      resolved := (answer arrival.attrs.nexthop).1
      igpMetric := (answer arrival.attrs.nexthop).2 }).getD l
  | .withdraw peer pfx pathId => l.removePath peer pfx pathId
  | .release peer => l.removePeer peer

def callSession (t : BgpTables) (af : Family) (call : SessionCall) : BgpTables :=
  match t.locribs.get? af with
  | none => t
  | some l => { t with locribs := t.locribs.set af (callLocrib (t.sessionAnswer af.1) l call) }

/-- One step. -/
def step (t : BgpTables) : Op → BgpTables
  | .start engine => { t with engine := some engine }
  | .commit fresh now bgp => (t.commitConfig fresh now bgp).1
  | .pass limit now => (t.runPass limit now).1
  | .session af call => t.callSession af call
  | .policy now store => (t.policyChanged now store).1
  | .core op =>
    { t with engine := t.engine.map fun engine =>
        { engine with resolver := engine.resolver.act op } }
  | .stop => { t.shutdownAll with engine := none }

def run (t : BgpTables) (ops : List Op) : BgpTables := ops.foldl step t

end BgpTables

end Packets
