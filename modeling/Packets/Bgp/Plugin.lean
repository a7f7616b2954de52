/-
The BGP plugin among its neighbours (`plugins/bgp/plugin.py`), how a commit of the engine
reaches them (`engine.py`), and the plugin as far as its listeners go.

A commit goes to the plugin first, and one that fails gives it the section in force.  For the
listeners a session is its configuration and authentication.
-/
import Packets.Bgp.Peer
import Packets.Transport.Listener

namespace Packets

/-- Whether two frozen sets of families are the same. -/
def sameFamilies (old new : List Family) : Bool := old.all new.contains && new.all old.contains

/-- `_needs_reset`: whether a configuration change requires bouncing the session. -/
def needsReset (old new : PeerConfig) : Bool :=
  old.remoteAs ≠ new.remoteAs || old.localAs ≠ new.localAs ||
    old.password ≠ new.password || old.ao ≠ new.ao ||
    old.updateSource ≠ new.updateSource || old.ttlSecurity ≠ new.ttlSecurity ||
    old.ebgpMultihop ≠ new.ebgpMultihop || old.passive ≠ new.passive ||
    old.shutdown ≠ new.shutdown || old.port ≠ new.port ||
    (old.holdTime, old.keepalive, old.connectRetry, old.delayOpen) ≠
      (new.holdTime, new.keepalive, new.connectRetry, new.delayOpen) ||
    (old.routeRefresh, old.extendedMessage, old.addPathReceive, old.gracefulRestart) ≠
      (new.routeRefresh, new.extendedMessage, new.addPathReceive, new.gracefulRestart) ||
    !sameFamilies old.afiSafi new.afiSafi

/-- What the kernel supports. -/
structure Platform where
  ao : Bool
  md5 : Bool
  gtsmInbound : AddrFamily → Bool

/-- `resolve_auth`; `none` is a peer that stays Idle.  The key chain of an AO peer is
handed over by its name. -/
def resolveAuth (platform : Platform) (cfg : PeerConfig) : Option Auth :=
  let password := cfg.password.filter (· ≠ "")
  match cfg.ao with
  | none =>
    match password with
    | none => some .noAuth
    | some password => if platform.md5 then some (.md5 (some password)) else none
  | some (_, fallback) =>
    if platform.ao then some (.ao none)
    else if fallback then password.map fun password => .md5AoFallback (some password)
    else none

/-- What a session is built with. -/
def authOf (platform : Platform) (cfg : PeerConfig) : Auth :=
  (resolveAuth platform cfg).getD .noAuth

/-- A `listen` block with an address. -/
structure ListenBlock where
  address : String
  port : Nat := 179

/-- A `router bgp` section, as far as listeners go. -/
structure RouterBgp where
  localAs : Nat
  listen : Option ListenBlock
  neighbors : Dict String PeerConfig

/-- `_family_of` -/
def familyOf (address : String) : AddrFamily := if ':' ∈ address.toList then .inet6 else .inet

/-- The `addr` type of the schema: an address, or a prefix as long as one. -/
def isSchemaAddr (text : String) : Bool :=
  match parsePrefix text with
  | none => false
  | some p => p.plen = pfxAddrBits p.afi

namespace RouterBgp

/-- `_prepare_neighbor` -/
def preparedNeighbor (platform : Platform) (addr : String) (cfg : PeerConfig) : Bool :=
  (resolveAuth platform cfg).isSome &&
    (cfg.ttlSecurity.isNone ||
      (cfg.ebgpMultihop.isNone && platform.gtsmInbound (familyOf addr)))

/-- `_prepare_listener_gtsm` -/
def preparedListener (body : RouterBgp) : Bool :=
  match body.listen with
  | none => true
  | some listen =>
    let served := body.neighbors.entries.filter fun e => familyOf e.1 = familyOf listen.address
    !(served.any (fun e => e.2.ttlSecurity.isSome) && served.any fun e => e.2.ttlSecurity.isNone)

/-- What the schema and `prepare_config` accept. -/
def prepared (platform : Platform) (body : RouterBgp) : Bool :=
  body.neighbors.entries.all (fun e => isSchemaAddr e.1 && preparedNeighbor platform e.1 e.2) &&
    (body.listen.all fun listen => isSchemaAddr listen.address) && body.preparedListener

end RouterBgp

structure Neighbor where
  config : PeerConfig
  auth : Auth

/-- What a listener is told about a neighbour. -/
def Neighbor.entry (n : Neighbor) : PeerEntry := ⟨n.auth, n.config.ttlSecurity⟩

structure Listening where
  platform : Platform
  started : Bool
  config : Option RouterBgp
  localAs : Nat
  peers : Dict String Neighbor
  listeners : List Listener

namespace Listening

def new (platform : Platform) : Listening := ⟨platform, false, none, 0, Dict.empty, []⟩

/-- Every listener is told about a neighbour, until one raises. -/
def permitAll (addr : String) (entry : PeerEntry) : List Listener → List Listener × Bool
  | [] => ([], true)
  | l :: rest =>
    match l.addPeer addr entry false [] with
    | (l, .error _) => (l :: rest, false)
    | (l, .ok _) =>
      let told := permitAll addr entry rest
      (l :: told.1, told.2)

/-- `_add_peer`.  The flag says whether it returned. -/
def addPeer (s : Listening) (addr : String) (cfg : PeerConfig) : Listening × Bool :=
  let n : Neighbor := ⟨cfg, authOf s.platform cfg⟩
  let told := permitAll addr n.entry s.listeners
  ({ s with peers := s.peers.set addr n, listeners := told.1 }, told.2)

/-- `_remove_peer` -/
def removePeer (s : Listening) (addr : String) : Listening :=
  match s.peers.get? addr with
  | none => s
  | some _ =>
    { s with
      peers := s.peers.erase addr
      listeners := s.listeners.map fun l => (l.removePeer addr).1 }

/-- The body of `_reconcile_neighbors` for a configured neighbour. -/
def reconcileNeighbor (s : Listening) (neighbor : String × PeerConfig) : Listening × Bool :=
  match s.peers.get? neighbor.1 with
  | none => s.addPeer neighbor.1 neighbor.2
  | some n =>
    if needsReset n.config neighbor.2 then
      (s.removePeer neighbor.1).addPeer neighbor.1 neighbor.2
    else ({ s with peers := s.peers.set neighbor.1 { n with config := neighbor.2 } }, true)

/-- The neighbours that are configured no more. -/
def dropped (s : Listening) (neighbors : Dict String PeerConfig) : List String :=
  s.peers.keys.filter fun addr => !neighbors.contains addr

/-- `_reconcile_neighbors` -/
def reconcileNeighbors (s : Listening) (neighbors : Dict String PeerConfig) : Listening × Bool :=
  runEach reconcileNeighbor neighbors.entries ((s.dropped neighbors).foldl removePeer s)

/-- `_shutdown_all` -/
def shutdownAll (s : Listening) : Listening := s.peers.keys.foldl removePeer s

def listen (s : Listening) : Option ListenBlock := s.config.bind RouterBgp.listen

/-- A session a new listener is told about. -/
def permitSession (l : Listener) (e : String × Neighbor) : Listener × Bool :=
  let added := l.addPeer e.1 e.2.entry false []
  (added.1, added.2.toBool)

/-- `_start_listener`.  Its socket is opened by the task it schedules. -/
def startListener (s : Listening) : Listening × Bool :=
  match s.listen with
  | none => (s, true)
  | some listen =>
    match Listener.new listen.address listen.port with
    | none => (s, false)
    | some l =>
      let told := runEach permitSession s.peers.entries l
      if told.2 then ({ s with listeners := s.listeners ++ [told.1] }, true) else (s, false)

/-- `commit_config` -/
def commitConfig (s : Listening) : Option RouterBgp → Listening × Bool
  | none => ({ s.shutdownAll with config := none }, true)
  | some body =>
    let previous := s.localAs
    let s := { s with config := some body, localAs := body.localAs }
    let s := if previous ≠ 0 ∧ previous ≠ body.localAs then s.shutdownAll else s
    let reconciled := s.reconcileNeighbors body.neighbors
    if reconciled.2 then
      if reconciled.1.started && reconciled.1.listeners.isEmpty then
        reconciled.1.startListener
      else (reconciled.1, true)
    else (reconciled.1, false)

/-- `start` -/
def start (s : Listening) : Listening × Bool := { s with started := true }.startListener

/-- The loop runs the tasks that open the sockets. -/
def turn (s : Listening) : Listening :=
  { s with listeners := s.listeners.map fun l => l.start true (fun _ => []) fun _ => false }

/-- `_on_accept` for a connection one of the listeners accepted from `source`: the
neighbour whose session adopts it. -/
def adopter (s : Listening) (l : Listener) (source : String) : Option String :=
  match splitAddr source with
  | none => none
  | some (_, text) => if l.peers.contains text && s.peers.contains text then some text else none

inductive Event where
  | commit (body : Option RouterBgp)
  | start
  | turn

def Event.prepared (platform : Platform) : Event → Bool
  | .commit (some body) => body.prepared platform
  | _ => true

def step (s : Listening) : Event → Listening × Bool
  | .commit body => s.commitConfig body
  | .start => s.start
  | .turn => (s.turn, true)

/-- The flag says whether nothing raised. -/
def run (s : Listening) : List Event → Listening × Bool
  | [] => (s, true)
  | event :: rest =>
    let after := (s.step event).1.run rest
    (after.1, (s.step event).2 && after.2)

end Listening

end Packets
