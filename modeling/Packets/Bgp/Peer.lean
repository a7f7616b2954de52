/-
What each decode fault costs (`plugins/bgp/errors.py`, RFC 7606), and one BGP session
(`plugins/bgp/peer.py`) with the Loc-RIBs it shares.

What it writes to the peer is not part of the state.  Every entry point runs to its end.
-/
import Packets.Bgp.LocRib
import Packets.Bgp.Messages

namespace Packets

/-- What an UPDATE's faults cost, least to most damaging. -/
inductive Outcome where
  | ok
  | discard
  | withdraw
  | reset
deriving DecidableEq, Repr

/-- `_SEVERITY`. -/
def Outcome.severity : Outcome → Nat
  | .ok => 0
  | .discard => 1
  | .withdraw => 2
  | .reset => 3

/-- `ATTRIBUTE_MATRIX`: the outcome of a malformed attribute, by type. -/
def attributeMatrix (atype : UInt8) : Option Outcome :=
  if atype ∈ [ATTR_ORIGIN, ATTR_AS_PATH, ATTR_NEXT_HOP, ATTR_MED, ATTR_LOCAL_PREF,
      ATTR_COMMUNITIES, ATTR_ORIGINATOR_ID, ATTR_CLUSTER_LIST, ATTR_EXT_COMMUNITIES,
      ATTR_LARGE_COMMUNITY] then some .withdraw
  else if atype ∈ [ATTR_ATOMIC_AGGREGATE, ATTR_AGGREGATOR, ATTR_AS4_PATH,
      ATTR_AS4_AGGREGATOR] then some .discard
  else if atype ∈ [ATTR_MP_REACH, ATTR_MP_UNREACH] then some .reset
  else none

/-- `attribute_outcome`: what one malformed attribute costs.  The rules are applied
in this order. -/
def attributeOutcome (attr : Option UInt8) (reason : Reason) (fromEbgp : Bool)
    (optional : Bool := false) : Outcome :=
  match attr with
  | none => .reset
  | some atype =>
    if reason = .unnegotiated then .discard
    else if fromEbgp ∧ atype ∈ [ATTR_ORIGINATOR_ID, ATTR_CLUSTER_LIST] then .discard
    else if reason = .duplicate then
      if atype ∈ [ATTR_MP_REACH, ATTR_MP_UNREACH] then .reset else .withdraw
    else if reason = .missing then
      if atype ∈ [ATTR_ORIGIN, ATTR_AS_PATH, ATTR_NEXT_HOP] then .withdraw else .ok
    else
      match attributeMatrix atype with
      | some outcome => outcome
      | none => if optional then .discard else .reset

/-- `worst_outcome`: the most severe of a list, the first of equals. -/
def worstOutcome (outcomes : List Outcome) : Outcome :=
  outcomes.foldl (fun worst o => if o.severity > worst.severity then o else worst) .ok

theorem foldl_worst_spec (outcomes : List Outcome) (start : Outcome) :
    let worst := outcomes.foldl
      (fun worst o => if o.severity > worst.severity then o else worst) start
    start.severity ≤ worst.severity ∧ (∀ o ∈ outcomes, o.severity ≤ worst.severity) ∧
      (worst = start ∨ worst ∈ outcomes) := by
  induction outcomes generalizing start with
  | nil => simp
  | cons o rest ih =>
    simp only [List.foldl_cons, List.mem_cons, forall_eq_or_imp]
    obtain ⟨hstart, hrest, hmem⟩ := ih (if o.severity > start.severity then o else start)
    by_cases hlt : o.severity > start.severity
    · simp only [hlt, ↓reduceIte] at hstart hrest hmem ⊢
      refine ⟨by omega, ⟨hstart, hrest⟩, ?_⟩
      rcases hmem with heq | hin
      · exact Or.inr (Or.inl heq)
      · exact Or.inr (Or.inr hin)
    · simp only [hlt, ↓reduceIte] at hstart hrest hmem ⊢
      refine ⟨hstart, ⟨by omega, hrest⟩, ?_⟩
      rcases hmem with heq | hin
      · exact Or.inl heq
      · exact Or.inr (Or.inr hin)

theorem severity_le_worstOutcome {outcomes : List Outcome} {o : Outcome}
    (h : o ∈ outcomes) : o.severity ≤ (worstOutcome outcomes).severity :=
  (foldl_worst_spec outcomes .ok).2.1 o h

theorem worstOutcome_ge_iff {outcomes : List Outcome} {n : Nat} (hn : 0 < n) :
    n ≤ (worstOutcome outcomes).severity ↔ ∃ o ∈ outcomes, n ≤ o.severity := by
  constructor
  · intro h
    rcases (foldl_worst_spec outcomes .ok).2.2 with heq | hmem
    · rw [worstOutcome, heq] at h
      simp only [Outcome.severity] at h
      omega
    · exact ⟨_, hmem, h⟩
  · rintro ⟨o, ho, hle⟩
    exact Nat.le_trans hle (severity_le_worstOutcome ho)

/-- A TCP connection.  The transport may close it at any time. -/
structure Connection where
  id : Nat
  isOpen : Bool := true
deriving DecidableEq

/-- `_Held`: a second connection waiting for collision resolution, with everything
read from it so far. -/
structure Held where
  conn : Connection
  initiated : Bool
  raw : Bytes := []
deriving DecidableEq

structure Peer where
  /-- The address of the session object, which its paths refer to. -/
  oid : Nat
  config : PeerConfig
  fsm : Fsm
  authBlocked : Bool
  conn : Option Connection
  framer : Framer
  ctx : DecodeCtx
  negotiated : Option Negotiated
  peerRef : Option PeerRef
  /-- The Adj-RIB-In of each family: what came off the wire, before policy. -/
  adjIn : Dict Family (Dict Nlri AttrSet)
  inPolicy : Dict Family PolicyChain
  peerRouterId : Nat
  peerHoldTime : Nat
  peerAs : Nat
  eorReceived : List Family
  running : Bool
  /-- An outbound connect is in flight. -/
  connecting : Bool
  weInitiated : Bool
  pending : Option Held

/-- A session and the Loc-RIBs its routes belong in.  `nextRef` is the address of the
next `PeerRef` object. -/
structure Session where
  peer : Peer
  locribs : Dict Family LocRib
  nextRef : Nat

/-- What a session reads of the engine at the moment of a call: the policy store's
lists, the next-hop check when there is one, and the clock. -/
structure SessionEnv where
  rx : RegexEngine
  lists : Resolver
  check : Option LocRib.Check
  now : Nat

/-- An empty table for every family configured. -/
def emptyTables (families : List Family) : Dict Family (Dict Nlri AttrSet) :=
  families.foldl (fun tables af => tables.set af Dict.empty) Dict.empty

/-- A session as its constructor leaves it. -/
def Peer.new (oid : Nat) (config : PeerConfig) (fsm : FsmConfig) (authBlocked : Bool)
    (inPolicy : Dict Family PolicyChain) : Peer where
  oid := oid
  config := config
  fsm := Fsm.new fsm
  authBlocked := authBlocked
  conn := none
  framer := {}
  ctx := { isEbgp := config.isEbgp }
  negotiated := none
  peerRef := none
  adjIn := emptyTables config.afiSafi
  inPolicy := inPolicy
  peerRouterId := 0
  peerHoldTime := 0
  peerAs := config.remoteAs
  eorReceived := []
  running := false
  connecting := false
  weInitiated := false
  pending := none

/-- Run a loop body over a list until it raises; the flag says whether it never did. -/
def runEach {σ α : Type} (step : σ → α → σ × Bool) : List α → σ → σ × Bool
  | [], s => (s, true)
  | a :: rest, s =>
    match step s a with
    | (s, false) => (s, false)
    | (s, true) => runEach step rest s

namespace Session

/-- A session nothing has happened to, in an engine without tables. -/
def new (oid : Nat) (config : PeerConfig) (fsm : FsmConfig) (authBlocked : Bool)
    (inPolicy : Dict Family PolicyChain) : Session :=
  ⟨Peer.new oid config fsm authBlocked inPolicy, Dict.empty, 1⟩

/-- Feed one event to the session's machine. -/
def event (env : SessionEnv) (s : Session) (ev : FsmEvent) : Session :=
  { s with peer.fsm := s.peer.fsm.event env.now ev }

def setLocrib (s : Session) (af : Family) (locrib : LocRib) : Session :=
  { s with locribs := s.locribs.set af locrib }

def setTable (s : Session) (af : Family) (table : Dict Nlri AttrSet) : Session :=
  { s with peer.adjIn := s.peer.adjIn.set af table }

/-- What inbound policy makes of a path: the attributes and the weight it enters the
Loc-RIB with, `none` when it is filtered. -/
def inbound (env : SessionEnv) (p : Peer) (af : Family) (pfx : Prefix)
    (attrs : AttrSet) : Option (AttrSet × Nat) :=
  match p.inPolicy.get? af with
  | none => some (attrs, p.config.weight)
  | some chain =>
    if chain.empty then some (attrs, p.config.weight)
    else
      (chain.apply env.rx env.lists pfx attrs).map fun outcome =>
        (outcome.attrs, outcome.weight.getD p.config.weight)

/-- The answer a path arrives with: no check is a next hop that resolves. -/
def nexthopAnswer (env : SessionEnv) (afi : Nat) (nexthop : Bytes) : Bool × Nat :=
  match env.check with
  | none => (true, 0)
  | some check => check afi nexthop

/-- What `_to_locrib` gives `add_path`. -/
def arrival (env : SessionEnv) (af : Family) (pathId : Nat) (attrs : AttrSet)
    (weight : Nat) (replay : Bool) : LocRib.Arrival :=
  let answer := nexthopAnswer env af.1 attrs.nexthop
  { attrs := attrs
    pathId := pathId
    weight := weight
    source := .peer
    igpMetric := answer.2
    recvTime := env.now
    resolved := answer.1
    keepAge := replay }

/-- Take this session's path for an entry out of a Loc-RIB. -/
def dropPath (s : Session) (af : Family) (locrib : LocRib) (entry : Nlri) : Session :=
  match s.peer.peerRef with
  | none => s
  | some ref => s.setLocrib af (locrib.removePath ref entry.1 entry.2)

/-- `_to_locrib`: take one raw path through inbound policy into the Loc-RIB.  A path
the policy denies is removed.  `none` is the `ValueError` of `add_path`. -/
def toLocrib (env : SessionEnv) (s : Session) (af : Family) (entry : Nlri)
    (attrs : AttrSet) (replay : Bool := false) : Option Session :=
  match s.locribs.get? af with
  | none => some s
  | some locrib =>
    match inbound env s.peer af entry.1 attrs with
    | none => some (s.dropPath af locrib entry)
    | some (attrs, weight) =>
      match s.peer.peerRef with
      | none => none
      | some ref =>
        (locrib.addPath ref entry.1 (arrival env af entry.2 attrs weight replay)).map
          (s.setLocrib af)

/-- `_loops`: whether a path came back to its own AS. -/
def loops (config : PeerConfig) (attrs : AttrSet) : Bool :=
  attrs.hasAs config.localAs &&
    (config.allowasIn = 0 ||
      config.allowasIn < (attrs.asPathList.map fun seg => seg.2.count config.localAs).sum)

/-- The segment lengths `_too_long` walks over, as they stand in the headers. -/
def nextCount : Records.Reader Nat UInt8
  | _ :: count :: rest => some (count.toNat, rest.drop (4 * count.toNat))
  | _ => none

/-- `_too_long`: whether an AS_PATH has more ASNs than `maxas-limit`. -/
def tooLong (config : PeerConfig) (attrs : AttrSet) : Bool :=
  let raw := attrs.asPath
  config.maxasLimit ≠ 0 && 4 * config.maxasLimit < raw.length &&
    config.maxasLimit < (Records.readAll nextCount raw.length raw).1.sum

/-- The entries the Adj-RIB-In holds. -/
def heldCount (p : Peer) : Nat := (p.adjIn.values.map Dict.size).sum

/-- The condition of `_over_limit`: whether so many more entries exceed
`maximum-prefix`. -/
def exceeds (p : Peer) (incoming : Nat) : Bool :=
  p.config.maximumPrefix ≠ 0 && p.config.maximumPrefix < heldCount p + incoming

/-- The body of `_withdraw_many` for one entry. -/
def withdrawEntry (af : Family) (s : Session) (entry : Nlri) : Session :=
  match s.peer.adjIn.get? af with
  | none => s
  | some table =>
    if !table.contains entry then s
    else
      let s := s.setTable af (table.erase entry)
      match s.locribs.get? af with
      | none => s
      | some locrib => s.dropPath af locrib entry

/-- `_withdraw_many`. -/
def withdrawMany (s : Session) (af : Family) (entries : List Nlri) : Session :=
  entries.foldl (withdrawEntry af) s

/-- `_to_locrib` with what is left when it raises. -/
def tryLocrib (env : SessionEnv) (s : Session) (af : Family) (entry : Nlri)
    (attrs : AttrSet) (replay : Bool := false) : Session × Bool :=
  match s.toLocrib env af entry attrs replay with
  | none => (s, false)
  | some s => (s, true)

/-- The body of `_announce_many` for one entry: the Adj-RIB-In has it before anything
can raise. -/
def announceEntry (env : SessionEnv) (af : Family) (attrs : AttrSet) (s : Session)
    (entry : Nlri) : Session × Bool :=
  match s.peer.adjIn.get? af with
  | none => (s, true)
  | some table => tryLocrib env (s.setTable af (table.set entry attrs)) af entry attrs

/-- `_release_routes`: forget everything this peer told us. -/
def releaseRoutes (s : Session) : Session :=
  let locribs := match s.peer.peerRef with
    | none => s.locribs
    | some ref =>
      s.locribs.mapValues fun af locrib =>
        if s.peer.adjIn.contains af then locrib.removePeer ref else locrib
  { s with
    locribs := locribs
    peer.adjIn := s.peer.adjIn.mapValues fun _ _ => Dict.empty
    peer.eorReceived := [] }

/-- The body of `soft_reset_in` for one family. -/
def replayTable (env : SessionEnv) (s : Session) (af : Family) : Session × Bool :=
  match s.peer.adjIn.get? af with
  | none => (s, true)
  | some table =>
    runEach (fun s (e : Nlri × AttrSet) => tryLocrib env s af e.1 e.2 true) table.entries s

/-- `soft_reset_in`: run inbound policy again over everything the peer has told us, in
one family or in all of them. -/
def softResetIn (env : SessionEnv) (s : Session) (af : Option Family) : Session × Bool :=
  let families := match af with
    | some af => [af]
    | none => s.peer.adjIn.keys
  runEach (replayTable env) families s

/-- `_close`: drop the transport. -/
def close (s : Session) : Session :=
  { s with
    peer.conn := none
    peer.framer := s.peer.framer.reset
    peer.negotiated := none
    peer.connecting := false }

/-- `_perform`.  Sending changes nothing here. -/
def perform (s : Session) : FsmAction → Session
  | .connect => { s with peer.connecting := true }
  | .drop => s.close
  | .release => s.releaseRoutes
  | .established => { s with peer.eorReceived := [] }
  | .listenOnly => { s with peer.connecting := false }
  | .sendOpen | .sendKeepalive | .sendNotify _ _ _ | .refuse => s

/-- The queued actions, performed in order. -/
def performQueued (s : Session) : Session :=
  let taken := s.peer.fsm.takeActions
  taken.1.foldl perform { s with peer.fsm := taken.2 }

/-- `_attach`: make a connection the session's and tell the machine.  What was read from a held
one is replayed in a later turn. -/
def attachVia (drain : Session → Session) (env : SessionEnv) (s : Session)
    (conn : Connection) (initiated : Bool) (raw : Bytes) : Session :=
  let s := { s with
    peer.conn := some conn
    peer.weInitiated := initiated
    peer.framer := s.peer.framer.reset }
  let s := drain (s.event env (if initiated then .tcpCrAcked else .tcpConnectionValid))
  if s.peer.conn = some conn then { s with peer.framer := s.peer.framer.feed raw }
  else s

/-- `resolve_collision`: which of two simultaneous connections survives. -/
def resolveCollision (localRouterId peerRouterId localAs peerAs : Nat)
    (weInitiated : Bool) : Bool :=
  if localRouterId = peerRouterId then
    if localAs = peerAs then false
    else if localAs > peerAs then weInitiated else !weInitiated
  else if localRouterId > peerRouterId then weInitiated
  else !weInitiated

/-- `_keep_new`: whether a connection should replace the session's current one. -/
def keepNew (p : Peer) (peerRouterId : Nat) (initiated : Bool) : Bool :=
  if initiated = p.weInitiated then false
  else
    let keeps := resolveCollision p.config.routerId peerRouterId p.config.localAs p.peerAs
    keeps initiated && !keeps p.weInitiated

/-- `_switch_to`: move the session onto another connection; the current one lost. -/
def switchVia (drain : Session → Session) (env : SessionEnv) (s : Session)
    (conn : Connection) (initiated : Bool) (raw : Bytes) : Session :=
  let s := s.close
  let s := { s with peer.fsm := s.peer.fsm.abandonConnection env.now }
  attachVia drain env s conn initiated raw

/-- The session's connection, while it is open. -/
def openConn (p : Peer) : Option Connection := p.conn.filter fun c => c.isOpen

/-- `_settle_pending`: decide a held connection's fate once the session can.  None is held any
more when the actions of the new one are performed. -/
def settlePending (env : SessionEnv) (s : Session) (held : Held) : Session :=
  let dropped := { s with peer.pending := none }
  if !held.conn.isOpen then dropped
  else if (openConn s.peer).isSome then
    if s.peer.fsm.state = .openConfirm then
      if keepNew s.peer s.peer.peerRouterId held.initiated then
        switchVia performQueued env dropped held.conn held.initiated held.raw
      else dropped
    else if s.peer.fsm.state = .established then dropped
    else s
  else if s.peer.running ∧ (s.peer.fsm.state = .connect ∨ s.peer.fsm.state = .active) then
    attachVia performQueued env dropped held.conn held.initiated held.raw
  else dropped

/-- `_drain_actions`. -/
def drainActions (env : SessionEnv) (s : Session) : Session :=
  let s := s.performQueued
  match s.peer.pending with
  | none => s
  | some held => s.settlePending env held

/-- Feed an event and perform what the machine asks for. -/
def eventDrained (env : SessionEnv) (s : Session) (ev : FsmEvent) : Session :=
  (s.event env ev).drainActions env

/-- `_attach`. -/
def attach (env : SessionEnv) (s : Session) (conn : Connection) (initiated : Bool) :
    Session :=
  attachVia (drainActions env) env s conn initiated []

/-- `_switch_to`, for a connection that is not held. -/
def switchTo (env : SessionEnv) (s : Session) (conn : Connection) (initiated : Bool) :
    Session :=
  switchVia (drainActions env) env s conn initiated []

/-- `_second_connection`.  `sent` says whether our OPEN went out on it whole. -/
def secondConnection (env : SessionEnv) (s : Session) (conn : Connection)
    (initiated sent : Bool) : Session :=
  if s.peer.fsm.state = .established then s
  else if s.peer.fsm.state = .openConfirm then
    if keepNew s.peer s.peer.peerRouterId initiated then switchTo env s conn initiated
    else s
  else { s with peer.pending := if sent then some ⟨conn, initiated, []⟩ else none }

/-- `adopt`: take ownership of an established TCP connection. -/
def adopt (env : SessionEnv) (s : Session) (conn : Connection) (initiated sent : Bool) :
    Session :=
  if (openConn s.peer).isSome then s.secondConnection env conn initiated sent
  else s.attach env conn initiated

/-- `_over_limit`: enforce `maximum-prefix`, tearing the session down if needed. -/
def overLimit (env : SessionEnv) (s : Session) (incoming : Nat) : Session × Bool :=
  if exceeds s.peer incoming then (s.eventDrained env .automaticStop, true) else (s, false)

/-- `_announce_many`: install prefixes sharing one attribute set. -/
def announceMany (env : SessionEnv) (s : Session) (af : Family) (entries : List Nlri)
    (attrs : AttrSet) : Session × Bool :=
  match s.peer.adjIn.get? af with
  | none => (s, true)
  | some _ =>
    if loops s.peer.config attrs || tooLong s.peer.config attrs then
      (s.withdrawMany af entries, true)
    else
      let (s, stopped) := s.overLimit env entries.length
      if stopped then (s, true) else runEach (announceEntry env af attrs) entries s

/-- The withdrawals an UPDATE asks for itself. -/
def applyWithdrawals (s : Session) (msg : UpdateMsg) : Session :=
  let s := if msg.withdrawn ≠ [] then s.withdrawMany IPV4_UNICAST msg.withdrawn else s
  match msg.mpUnreach with
  | some mp => s.withdrawMany mp.family mp.prefixes
  | none => s

/-- The announced prefixes of an UPDATE whose attributes were not usable. -/
def treatAsWithdraw (s : Session) (msg : UpdateMsg) : Session :=
  let s := if msg.nlri ≠ [] then s.withdrawMany IPV4_UNICAST msg.nlri else s
  match msg.mpReach with
  | some mp => s.withdrawMany mp.family mp.prefixes
  | none => s

/-- The announcements of an UPDATE: the classic field, then the multiprotocol one.
The flag says whether neither raised. -/
def applyAnnouncements (env : SessionEnv) (s : Session) (msg : UpdateMsg) : Session × Bool :=
  let attrs := msg.attrs.getD {}
  let (s, finished) :=
    if msg.nlri ≠ [] then s.announceMany env IPV4_UNICAST msg.nlri attrs else (s, true)
  if !finished then (s, false)
  else
    match msg.mpReach with
    | some mp => s.announceMany env mp.family mp.prefixes attrs
    | none => (s, true)

/-- `_apply`: modify the Adj-RIB-In and the Loc-RIB from a judged UPDATE, withdrawals
first. -/
def applyUpdate (env : SessionEnv) (s : Session) (msg : UpdateMsg)
    (withdrawOnly : Bool) : Session :=
  let s := s.applyWithdrawals msg
  if withdrawOnly then s.treatAsWithdraw msg else (s.applyAnnouncements env msg).1

/-- `_judge`: the worst outcome of the faults the decoder recorded. -/
def judge (config : PeerConfig) (msg : UpdateMsg) : Outcome :=
  worstOutcome (msg.errors.map fun fault => attributeOutcome fault.attr fault.reason config.isEbgp)

/-- `_note_eor`. -/
def noteEor (s : Session) (msg : UpdateMsg) : Session :=
  let af := match msg.mpUnreach with
    | some mp => mp.family
    | none => IPV4_UNICAST
  { s with peer.eorReceived := s.peer.eorReceived.insert af }

/-- `_handle_update`: decode the whole message, judge its faults, and apply it if the
judgement allows. -/
def handleUpdate (env : SessionEnv) (s : Session) (raw : Bytes) : Session :=
  let msg := decodeUpdate raw s.peer.ctx
  let s := s.event env .updateMsg
  let outcome := judge s.peer.config msg
  if outcome = .reset then
    s.event env (.updateMsgErr { subcode := some UPD_MALFORMED_ATTR_LIST })
  else if msg.endOfRib then s.noteEor msg
  else s.applyUpdate env msg (outcome = .withdraw)

/-- Refuse an OPEN. -/
def openError (env : SessionEnv) (s : Session) (subcode : Nat) (data : Bytes := []) :
    Session :=
  s.event env (.openMsgErr { subcode := some subcode, data := data })

/-- The peer's AS: that of its capability when it has one that is not 0. -/
def claimedAs (msg : OpenMsg) (caps : Capabilities) : Nat :=
  match caps.asn with
  | some asn => if asn ≠ 0 then asn else msg.myAs
  | none => msg.myAs

/-- The subcode of the first thing wrong with an OPEN. -/
def openFault (config : PeerConfig) (msg : OpenMsg) : Option (Nat × Bytes) :=
  let caps := Capabilities.fromTlvs msg.capabilities msg.myAs
  if msg.errors ≠ [] then some (OPEN_UNSPECIFIC, [])
  else if msg.version ≠ 4 then some (OPEN_UNSUPPORTED_VERSION, [0, 4])
  else if msg.unsupportedParams ≠ [] then some (OPEN_UNSUPPORTED_OPT_PARAM, [])
  else if claimedAs msg caps ≠ config.remoteAs then some (OPEN_BAD_PEER_AS, [])
  else if msg.bgpId = 0 ∨ msg.bgpId = 0xffffffff then some (OPEN_BAD_BGP_ID, [])
  else if !config.isEbgp ∧ msg.bgpId = config.routerId then some (OPEN_BAD_BGP_ID, [])
  else if msg.holdTime ≠ 0 ∧ msg.holdTime < MIN_HOLD_TIME then
    some (OPEN_UNACCEPTABLE_HOLD_TIME, [])
  else none

/-- Adopt what an acceptable OPEN says.  The session gets a new `PeerRef`. -/
def acceptOpen (s : Session) (msg : OpenMsg) (caps : Capabilities)
    (negotiated : Negotiated) : Session :=
  let config := s.peer.config
  let peerAs := claimedAs msg caps
  { s with
    nextRef := s.nextRef + 1
    peer.negotiated := some negotiated
    peer.peerRouterId := msg.bgpId
    peer.peerHoldTime := msg.holdTime
    peer.ctx := {
      as4 := negotiated.as4
      isEbgp := config.isEbgp
      addPath := negotiated.addPathRecv
      families := negotiated.afiSafi }
    peer.framer := s.peer.framer.setMaxMsg negotiated.maxMessageSize
    peer.peerRef := some {
      oid := s.nextRef
      peer := some s.peer.oid
      peerAs := peerAs
      localAs := config.localAs
      routerId := msg.bgpId
      addr := (packAddr config.address).getD []
      isEbgp := config.isEbgp }
    peer.peerAs := peerAs }

/-- `_handle_open`: validate the peer's OPEN and negotiate capabilities. -/
def handleOpen (env : SessionEnv) (s : Session) (raw : Bytes) : Session :=
  let msg := decodeOpen raw
  match openFault s.peer.config msg with
  | some (subcode, data) => s.openError env subcode data
  | none =>
    if s.peer.fsm.state = .openConfirm ∨ s.peer.fsm.state = .established then
      s.event env (.bgpOpen msg.holdTime)
    else
      let caps := Capabilities.fromTlvs msg.capabilities msg.myAs
      let negotiated := negotiate s.peer.config.localCapabilities caps
      if negotiated.afiSafi = [] then s.openError env OPEN_UNSUPPORTED_CAPABILITY
      else
        let s := (s.acceptOpen msg caps negotiated).event env (.bgpOpen msg.holdTime)
        if s.peer.pending.isSome then s.drainActions env else s

/-- `_handle_notification`. -/
def handleNotification (env : SessionEnv) (s : Session) (raw : Bytes) : Session :=
  let (code, subcode) := decodeNotification raw
  match s.peer.pending with
  | some held =>
    if code = NOTIFY_CEASE ∧ subcode = CEASE_COLLISION_RESOLUTION ∧
        s.peer.fsm.state ≠ .established then
      -- the peer resolved the collision first; the held connection carries on
      switchVia performQueued env { s with peer.pending := none } held.conn held.initiated held.raw
    else if code = NOTIFY_OPEN ∧ subcode = OPEN_UNSUPPORTED_VERSION then
      s.event env .notifyVersionErr
    else s.event env .notifyMsg
  | none =>
    if code = NOTIFY_OPEN ∧ subcode = OPEN_UNSUPPORTED_VERSION then
      s.event env .notifyVersionErr
    else s.event env .notifyMsg

/-- `_on_message`.  A ROUTE-REFRESH concerns what we send. -/
def onMessage (env : SessionEnv) (s : Session) (mtype : UInt8) (raw : Bytes) : Session :=
  if mtype = MSG_UPDATE then s.handleUpdate env raw
  else if mtype = MSG_KEEPALIVE then s.event env .keepaliveMsg
  else if mtype = MSG_OPEN then s.handleOpen env raw
  else if mtype = MSG_NOTIFICATION then s.handleNotification env raw
  else s

/-- Take one message out of the framer. -/
def takeMessage (s : Session) : Option (UInt8 × Bytes) × Session :=
  let (item, framer) := s.peer.framer.nextMessage
  (item, { s with peer.framer := framer })

/-- The messages of one slice, handled one by one. -/
def handleSlice (env : SessionEnv) : Nat → Session → Session
  | 0, s => s
  | slice + 1, s =>
    match s.takeMessage with
    | (none, s) => s
    | (some (mtype, raw), s) => handleSlice env slice (s.onMessage env mtype raw)

/-- `_dispatch_framed`: drain whole messages from the framer in a slice, bounded by count and
time, so of any length. -/
def dispatchFramed (env : SessionEnv) (slice : Nat) (s : Session) : Session :=
  let s := handleSlice env slice s
  let s := match s.peer.framer.fault with
    | some fault => s.event env (.headerErr { subcode := some fault.subcode, data := fault.data })
    | none => s
  s.drainActions env

/-- One turn of `_read_loop`.  No data is the end of the connection. -/
def readLoop (env : SessionEnv) (slice : Nat) (s : Session) (data : Bytes) : Session :=
  if !s.peer.running ∨ s.peer.conn.isNone then s
  else if data = [] then s.eventDrained env .tcpFails
  else dispatchFramed env slice { s with peer.framer := s.peer.framer.feed data }

/-- One turn of `_held_read`, before the held connection is settled.  What stands in
front of its bytes decides its fate. -/
def heldRead (env : SessionEnv) (s : Session) (data : Bytes) : Session :=
  match s.peer.pending with
  | none => s
  | some held =>
    let dropped := { s with peer.pending := none }
    if data = [] then dropped
    else
      let raw := held.raw ++ data
      match ({ buf := raw } : Framer).nextMessage with
      | (none, framer) =>
        if framer.failed then dropped
        else { s with peer.pending := some { held with raw := raw } }
      | (some (mtype, body), _) =>
        let msg := decodeOpen body
        if mtype ≠ MSG_OPEN ∨ msg.errors ≠ [] ∨ msg.bgpId = 0 then dropped
        else if keepNew s.peer msg.bgpId held.initiated then
          switchVia performQueued env dropped held.conn held.initiated raw
        else dropped

/-- `start`. -/
def start (env : SessionEnv) (s : Session) : Session :=
  if s.peer.config.shutdown ∨ s.peer.authBlocked then s
  else eventDrained env { s with peer.running := true } .manualStart

/-- `stop`. -/
def stop (env : SessionEnv) (s : Session) (subcode : Option Nat) : Session :=
  let s := { s with peer.running := false, peer.pending := none }
  let s := s.eventDrained env (.manualStop subcode)
  { s with peer.connecting := false }

/-- A turn of `_timer_loop`. -/
def timerLoop (env : SessionEnv) (s : Session) : Session :=
  if !s.peer.running then s
  else
    { s with peer.fsm := s.peer.fsm.tick env.now }.drainActions env

/-- The end of `_connect`: an outbound connection, or none when it failed. -/
def connectDone (env : SessionEnv) (s : Session) (sent : Bool) : Option Connection → Session
  | none =>
    if !s.peer.connecting then s
    else
      let s := { s with peer.connecting := false }
      if s.peer.conn.isNone then s.eventDrained env .tcpFails else s
  | some conn =>
    if !s.peer.connecting ∨ !s.peer.running then s
    else adopt env { s with peer.connecting := false } conn true sent

end Session

/-- An external neighbour of AS 65001, with every setting at its default. -/
def externalConfig : PeerConfig where
  address := "192.0.2.1"
  remoteAs := 65001
  localAs := 65000
  routerId := 1

/-- Its session at the start. -/
def externalSession : Session := .new 1 externalConfig .usual false Dict.empty

/-- No lists, no next-hop check, and a clock that stands still. -/
def plainEnv : SessionEnv :=
  ⟨⟨fun _ => false, fun _ _ => false⟩, ⟨fun _ _ => none, fun _ => none⟩, none, 0⟩

end Packets
