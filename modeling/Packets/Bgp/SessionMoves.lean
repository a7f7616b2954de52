/-
Every entry point of a session as a succession of moves.

Two things the session does not check: that an announcement is stored only while it is ready,
and that an OPEN is accepted only with no path under the former `PeerRef`.
-/
import Packets.Bgp.PeerRoutes
import Packets.Bgp.WireFields

namespace Packets

namespace Session

variable {env : SessionEnv} {ready : Readiness}

theorem Moves.one {s s' : Session} (h : Move env ready s s') : Moves env ready s s' :=
  Relation.ReflTransGen.single h

theorem Moves.refl {s : Session} : Moves env ready s s := Relation.ReflTransGen.refl

theorem Moves.of_machine {s s' : Session} (same : SameRoutes s s')
    (follows : s.peer.fsm.Follows s'.peer.fsm) : Moves env ready s s' :=
  Moves.one (.machine same follows)

theorem Moves.of_idle {s s' : Session} (same : SameRoutes s s')
    (hfsm : s'.peer.fsm = s.peer.fsm) : Moves env ready s s' :=
  Moves.of_machine same (by rw [hfsm]; exact Fsm.Follows.refl _)

theorem event_moves (s : Session) (ev : FsmEvent) : Moves env ready s (s.event env ev) :=
  Moves.of_machine (event_sameRoutes env s ev) (Fsm.event_follows _ _ _)

theorem performQueued_moves (s : Session) : Moves env ready s s.performQueued := Moves.one .drained

theorem close_moves (s : Session) : Moves env ready s s.close :=
  Moves.of_idle ⟨rfl, rfl, rfl, rfl, rfl, rfl, rfl⟩ rfl

section Drain

variable {drain : Session → Session} (hdrain : ∀ s, Moves env ready s (drain s))

include hdrain

theorem attachVia_moves (s : Session) (conn : Connection) (initiated : Bool)
    (raw : Bytes) : Moves env ready s (attachVia drain env s conn initiated raw) := by
  let taken : Session := { s with
    peer.conn := some conn
    peer.weInitiated := initiated
    peer.framer := s.peer.framer.reset }
  have htaken : Moves env ready s taken := Moves.of_idle ⟨rfl, rfl, rfl, rfl, rfl, rfl, rfl⟩ rfl
  have hall : ∀ ev, Moves env ready s (drain (taken.event env ev)) := fun ev =>
    (htaken.trans (event_moves taken ev)).trans (hdrain _)
  unfold attachVia
  dsimp only
  generalize (if initiated then FsmEvent.tcpCrAcked else .tcpConnectionValid) = ev
  split
  · exact (hall ev).trans (Moves.of_idle ⟨rfl, rfl, rfl, rfl, rfl, rfl, rfl⟩ rfl)
  · exact hall ev

theorem switchVia_moves (s : Session) (conn : Connection) (initiated : Bool)
    (raw : Bytes) : Moves env ready s (switchVia drain env s conn initiated raw) := by
  have habandon : Moves env ready s.close
      { s.close with peer.fsm := s.close.peer.fsm.abandonConnection env.now } :=
    Moves.of_machine ⟨rfl, rfl, rfl, rfl, rfl, rfl, rfl⟩ (Fsm.abandonConnection_follows _ _)
  exact ((close_moves s).trans habandon).trans (attachVia_moves hdrain _ conn initiated raw)

end Drain

theorem settlePending_moves (s : Session) (held : Held) :
    Moves env ready s (s.settlePending env held) := by
  have hdropped : Moves env ready s { s with peer.pending := none } :=
    Moves.of_idle ⟨rfl, rfl, rfl, rfl, rfl, rfl, rfl⟩ rfl
  unfold settlePending
  dsimp only
  split
  · exact hdropped
  split
  · split
    · split
      · exact hdropped.trans (switchVia_moves performQueued_moves ..)
      · exact hdropped
    · split
      · exact hdropped
      · exact .refl
  · split
    · exact hdropped.trans (attachVia_moves performQueued_moves ..)
    · exact hdropped

theorem drainActions_moves (s : Session) : Moves env ready s (s.drainActions env) := by
  unfold drainActions
  dsimp only
  split
  · exact performQueued_moves s
  · exact (performQueued_moves s).trans (settlePending_moves _ _)

theorem eventDrained_moves (s : Session) (ev : FsmEvent) :
    Moves env ready s (s.eventDrained env ev) :=
  (event_moves s ev).trans (drainActions_moves _)

theorem secondConnection_moves (s : Session) (conn : Connection) (initiated sent : Bool) :
    Moves env ready s (s.secondConnection env conn initiated sent) := by
  unfold secondConnection
  split
  · exact .refl
  split
  · split
    · exact switchVia_moves drainActions_moves ..
    · exact .refl
  · exact Moves.of_idle ⟨rfl, rfl, rfl, rfl, rfl, rfl, rfl⟩ rfl

theorem adopt_moves (s : Session) (conn : Connection) (initiated sent : Bool) :
    Moves env ready s (s.adopt env conn initiated sent) := by
  unfold adopt
  split
  · exact secondConnection_moves ..
  · exact attachVia_moves drainActions_moves ..

theorem withdrawMany_moves (s : Session) (af : Family) (entries : List Nlri) :
    Moves env ready s (s.withdrawMany af entries) := by
  induction entries generalizing s with
  | nil => exact .refl
  | cons entry rest ih => exact (Moves.one (.forgot af entry)).trans (ih _)

theorem applyWithdrawals_moves (s : Session) (msg : UpdateMsg) :
    Moves env ready s (s.applyWithdrawals msg) := by
  have hclassic : Moves env ready s
      (if msg.withdrawn ≠ [] then s.withdrawMany IPV4_UNICAST msg.withdrawn else s) := by
    split
    · exact withdrawMany_moves ..
    · exact .refl
  unfold applyWithdrawals
  dsimp only
  split
  · exact hclassic.trans (withdrawMany_moves ..)
  · exact hclassic

theorem treatAsWithdraw_moves (s : Session) (msg : UpdateMsg) :
    Moves env ready s (s.treatAsWithdraw msg) := by
  have hclassic : Moves env ready s
      (if msg.nlri ≠ [] then s.withdrawMany IPV4_UNICAST msg.nlri else s) := by
    split
    · exact withdrawMany_moves ..
    · exact .refl
  unfold treatAsWithdraw
  dsimp only
  split
  · exact hclassic.trans (withdrawMany_moves ..)
  · exact hclassic

theorem toLocrib_peer {s s' : Session} {af : Family} {entry : Nlri} {attrs : AttrSet}
    {replay : Bool} (h : s.toLocrib env af entry attrs replay = some s') : s'.peer = s.peer := by
  unfold toLocrib at h
  split at h
  · cases h
    rfl
  · split at h
    · cases h
      unfold dropPath
      split <;> rfl
    · split at h
      · exact absurd h (by simp)
      · obtain ⟨l', -, rfl⟩ := Option.map_eq_some_iff.mp h
        rfl

theorem announceEntry_fsm (s : Session) (af : Family) (entry : Nlri) (attrs : AttrSet) :
    (announceEntry env af attrs s entry).1.peer.fsm = s.peer.fsm ∧
      (announceEntry env af attrs s entry).1.peer.peerRef = s.peer.peerRef := by
  unfold announceEntry
  split
  · exact ⟨rfl, rfl⟩
  · unfold tryLocrib
    split
    · exact ⟨rfl, rfl⟩
    · next h => rw [toLocrib_peer h]; exact ⟨rfl, rfl⟩

/-- A call of `_announce_many`: the state it finds, and what it is asked to install. -/
structure Announcement where
  state : Session
  family : Family
  entries : List Nlri
  attrs : AttrSet

/-- Whether an announcement gets as far as storing something. -/
def Announcement.Stores (a : Announcement) : Prop :=
  a.entries ≠ [] ∧ a.state.peer.adjIn.contains a.family = true ∧
    loops a.state.peer.config a.attrs = false ∧
    tooLong a.state.peer.config a.attrs = false ∧
    exceeds a.state.peer a.entries.length = false

/-- An announcement stores only into a session that is ready for it. -/
def Announcement.Orderly (ready : Readiness) (a : Announcement) : Prop :=
  a.Stores → ready a.state.peer.fsm a.state.peer.peerRef

theorem announceMany_moves {s : Session} {af : Family} {entries : List Nlri}
    {attrs : AttrSet} (horderly : Announcement.Orderly ready ⟨s, af, entries, attrs⟩)
    (hafi : ∀ e ∈ entries, e.1.afi = af.1) :
    Moves env ready s (s.announceMany env af entries attrs).1 := by
  unfold announceMany
  split
  · exact .refl
  next table htable =>
  split
  · exact withdrawMany_moves ..
  next hloops =>
  unfold overLimit
  split
  next s₁ stopped heq =>
  split at heq
  · cases heq
    exact eventDrained_moves ..
  next hfits =>
  cases heq
  by_cases hempty : entries = []
  · subst hempty
    exact .refl
  simp only [Bool.or_eq_true, not_or, Bool.not_eq_true] at hloops
  have hready : ready s.peer.fsm s.peer.peerRef := horderly
    ⟨hempty, Dict.contains_iff.mpr ⟨table, htable⟩, hloops.1, hloops.2, by simpa using hfits⟩
  have hrun : Moves env ready s (runEach (announceEntry env af attrs) entries s).1 ∧
      (runEach (announceEntry env af attrs) entries s).1.peer.fsm = s.peer.fsm ∧
      (runEach (announceEntry env af attrs) entries s).1.peer.peerRef = s.peer.peerRef := by
    refine runEach_induction (motive := fun t => Moves env ready s t ∧
        t.peer.fsm = s.peer.fsm ∧ t.peer.peerRef = s.peer.peerRef)
      (fun t e he ht => ⟨ht.1.trans (Moves.one ?_), ?_, ?_⟩) ⟨.refl, rfl, rfl⟩
    · refine .learned af e attrs (hafi e he) ?_
      rw [ht.2.1, ht.2.2]
      exact hready
    · exact (announceEntry_fsm t af e attrs).1.trans ht.2.1
    · exact (announceEntry_fsm t af e attrs).2.trans ht.2.2
  exact hrun.1

/-- The calls of `_announce_many` that an UPDATE leads to, with the state each finds. -/
def announcementsOf (env : SessionEnv) (s : Session) (msg : UpdateMsg) : List Announcement :=
  let attrs := msg.attrs.getD {}
  let classic : List Announcement :=
    if msg.nlri ≠ [] then [⟨s, IPV4_UNICAST, msg.nlri, attrs⟩] else []
  let after := if msg.nlri ≠ [] then (s.announceMany env IPV4_UNICAST msg.nlri attrs).1 else s
  match msg.mpReach with
  | some mp => classic ++ [⟨after, mp.family, mp.prefixes, attrs⟩]
  | none => classic

theorem applyAnnouncements_moves {s : Session} {msg : UpdateMsg}
    (horderly : ∀ a ∈ announcementsOf env s msg, a.Orderly ready)
    (hnlri : ∀ e ∈ msg.nlri, e.1.afi = AFI_IP) (hmp : ∀ mp, msg.mpReach = some mp → mp.Sorted) :
    Moves env ready s (s.applyAnnouncements env msg).1 := by
  have hclassic : Moves env ready s (if msg.nlri ≠ [] then
      (s.announceMany env IPV4_UNICAST msg.nlri (msg.attrs.getD {})) else (s, true)).1 := by
    by_cases hany : msg.nlri ≠ []
    · rw [if_pos hany]
      refine announceMany_moves (horderly _ ?_) hnlri
      unfold announcementsOf
      dsimp only
      rw [if_pos hany]
      split
      · exact List.mem_append_left _ List.mem_cons_self
      · exact List.mem_cons_self
    · rw [if_neg hany]
  have hafter : (if msg.nlri ≠ [] then
      (s.announceMany env IPV4_UNICAST msg.nlri (msg.attrs.getD {})) else (s, true)).1 =
      if msg.nlri ≠ [] then
        (s.announceMany env IPV4_UNICAST msg.nlri (msg.attrs.getD {})).1 else s := by
    split <;> rfl
  unfold applyAnnouncements
  dsimp only
  generalize hfirst : (if msg.nlri ≠ [] then
      (s.announceMany env IPV4_UNICAST msg.nlri (msg.attrs.getD {})) else (s, true)) = first
    at hclassic hafter
  obtain ⟨s₁, finished⟩ := first
  dsimp only at hclassic hafter ⊢
  cases finished with
  | false => exact hclassic
  | true =>
    simp only [Bool.not_true, Bool.false_eq_true, ↓reduceIte]
    cases hreach : msg.mpReach with
    | none => exact hclassic
    | some mp =>
      refine hclassic.trans (announceMany_moves (horderly _ ?_) (hmp mp hreach))
      unfold announcementsOf
      dsimp only
      rw [hreach, ← hafter]
      simp

/-- What an UPDATE announces is stored only into a session that is ready for it. -/
def UpdateOrderly (ready : Readiness) (env : SessionEnv) (s : Session) (raw : Bytes) : Prop :=
  let msg := decodeUpdate raw s.peer.ctx
  judge s.peer.config msg ∈ [.ok, .discard] → msg.endOfRib = false →
    ∀ a ∈ announcementsOf env ((s.event env .updateMsg).applyWithdrawals msg) msg, a.Orderly ready

theorem handleUpdate_moves {s : Session} {raw : Bytes} (h : UpdateOrderly ready env s raw) :
    Moves env ready s (s.handleUpdate env raw) := by
  unfold handleUpdate
  unfold UpdateOrderly at h
  dsimp only at h ⊢
  have hafi := decodeUpdate_afi raw s.peer.ctx
  have hconfig : (s.event env .updateMsg).peer.config = s.peer.config := rfl
  rw [hconfig]
  generalize decodeUpdate raw s.peer.ctx = msg at h hafi ⊢
  have hevent : Moves env ready s (s.event env .updateMsg) := event_moves _ _
  split
  · exact hevent.trans (event_moves _ _)
  next hreset =>
  split
  · exact hevent.trans (Moves.of_idle ⟨rfl, rfl, rfl, rfl, rfl, rfl, rfl⟩ rfl)
  next heor =>
  unfold applyUpdate
  refine (hevent.trans (applyWithdrawals_moves _ msg)).trans ?_
  split
  · exact treatAsWithdraw_moves ..
  next hwithdraw =>
  refine applyAnnouncements_moves (h ?_ (by simpa using heor)) hafi.1 hafi.2
  generalize judge s.peer.config msg = outcome at hreset hwithdraw
  cases outcome <;> simp_all

/-- An OPEN the session takes up. -/
structure Accepts (s : Session) (msg : OpenMsg) : Prop where
  sound : openFault s.peer.config msg = none
  waiting : s.peer.fsm.state ≠ .openConfirm ∧ s.peer.fsm.state ≠ .established
  common : (negotiate s.peer.config.localCapabilities
    (Capabilities.fromTlvs msg.capabilities msg.myAs)).afiSafi ≠ []

/-- An OPEN is taken up only with no path left under the former `PeerRef`. -/
def OpenOrderly (s : Session) (raw : Bytes) : Prop := s.Accepts (decodeOpen raw) → s.Pathless

theorem handleOpen_moves {s : Session} {raw : Bytes} (h : OpenOrderly s raw) :
    Moves env ready s (s.handleOpen env raw) := by
  unfold handleOpen
  unfold OpenOrderly at h
  dsimp only
  generalize decodeOpen raw = msg at h ⊢
  split
  · exact event_moves _ _
  next hsound =>
  split
  · exact event_moves _ _
  next hwaiting =>
  split
  · exact event_moves _ _
  next hcommon =>
  rw [not_or] at hwaiting
  have hpathless := h ⟨hsound, hwaiting, hcommon⟩
  have hmet : Moves env ready s ((s.acceptOpen msg (Capabilities.fromTlvs msg.capabilities msg.myAs)
      (negotiate s.peer.config.localCapabilities
        (Capabilities.fromTlvs msg.capabilities msg.myAs))).event env (.bgpOpen msg.holdTime)) :=
    Moves.one (.met hpathless rfl rfl ⟨rfl, rfl, rfl, rfl, rfl, rfl, rfl⟩
      (Fsm.event_follows s.peer.fsm env.now (.bgpOpen msg.holdTime)))
  split
  · exact hmet.trans (drainActions_moves _)
  · exact hmet

theorem handleNotification_moves (s : Session) (raw : Bytes) :
    Moves env ready s (s.handleNotification env raw) := by
  have hdropped : Moves env ready s { s with peer.pending := none } :=
    Moves.of_idle ⟨rfl, rfl, rfl, rfl, rfl, rfl, rfl⟩ rfl
  unfold handleNotification
  dsimp only
  split
  · split
    · exact hdropped.trans (switchVia_moves performQueued_moves ..)
    · split
      · exact event_moves _ _
      · exact event_moves _ _
  · split
    · exact event_moves _ _
    · exact event_moves _ _

def MessageOrderly (ready : Readiness) (env : SessionEnv) (s : Session) (mtype : UInt8) (raw : Bytes) : Prop :=
  (mtype = MSG_UPDATE → UpdateOrderly ready env s raw) ∧ (mtype = MSG_OPEN → OpenOrderly s raw)

theorem onMessage_moves {s : Session} {mtype : UInt8} {raw : Bytes}
    (h : MessageOrderly ready env s mtype raw) : Moves env ready s (s.onMessage env mtype raw) := by
  unfold onMessage
  split
  · next hupdate => exact handleUpdate_moves (h.1 hupdate)
  split
  · exact event_moves _ _
  split
  · next hopen => exact handleOpen_moves (h.2 hopen)
  split
  · exact handleNotification_moves ..
  · exact .refl

theorem takeMessage_moves (s : Session) : Moves env ready s s.takeMessage.2 :=
  Moves.of_idle ⟨rfl, rfl, rfl, rfl, rfl, rfl, rfl⟩ rfl

/-- Every message of a slice is orderly in the state it finds. -/
def SliceOrderly (ready : Readiness) (env : SessionEnv) : Nat → Session → Prop
  | 0, _ => True
  | slice + 1, s =>
    match s.takeMessage with
    | (none, _) => True
    | (some (mtype, raw), s) =>
      MessageOrderly ready env s mtype raw ∧ SliceOrderly ready env slice (s.onMessage env mtype raw)

theorem handleSlice_moves {slice : Nat} {s : Session} (h : SliceOrderly ready env slice s) :
    Moves env ready s (handleSlice env slice s) := by
  induction slice generalizing s with
  | zero => exact .refl
  | succ slice ih =>
    have htaken : Moves env ready s s.takeMessage.2 := takeMessage_moves s
    rw [handleSlice]
    rw [SliceOrderly] at h
    rcases htake : s.takeMessage with ⟨_ | ⟨mtype, raw⟩, s'⟩
    · rwa [htake] at htaken
    · rw [htake] at h htaken
      exact (htaken.trans (onMessage_moves h.1)).trans (ih h.2)

theorem dispatchFramed_moves {slice : Nat} {s : Session} (h : SliceOrderly ready env slice s) :
    Moves env ready s (dispatchFramed env slice s) := by
  unfold dispatchFramed
  dsimp only
  refine (handleSlice_moves h).trans ?_
  split
  · exact (event_moves _ _).trans (drainActions_moves _)
  · exact drainActions_moves _

theorem readLoop_moves {slice : Nat} {s : Session} {data : Bytes}
    (h : s.peer.running = true → s.peer.conn.isSome = true → data ≠ [] →
      SliceOrderly ready env slice { s with peer.framer := s.peer.framer.feed data }) :
    Moves env ready s (s.readLoop env slice data) := by
  unfold readLoop
  split
  · exact .refl
  next hserving =>
  simp only [Bool.not_eq_eq_eq_not, Bool.not_true, not_or, Bool.not_eq_false,
    Option.isNone_iff_eq_none, ← Option.isSome_iff_ne_none] at hserving
  split
  · exact eventDrained_moves ..
  next hdata =>
  · have hfed : Moves env ready s { s with peer.framer := s.peer.framer.feed data } :=
      Moves.of_idle ⟨rfl, rfl, rfl, rfl, rfl, rfl, rfl⟩ rfl
    exact hfed.trans (dispatchFramed_moves (h hserving.1 hserving.2 hdata))

theorem heldRead_moves (s : Session) (data : Bytes) : Moves env ready s (s.heldRead env data) := by
  have hidle : ∀ pending, Moves env ready s { s with peer.pending := pending } := fun _ =>
    Moves.of_idle ⟨rfl, rfl, rfl, rfl, rfl, rfl, rfl⟩ rfl
  unfold heldRead
  split
  · exact .refl
  dsimp only
  split
  · exact hidle none
  split
  · split
    · exact hidle none
    · exact hidle _
  split
  · exact hidle none
  split
  · exact (hidle none).trans (switchVia_moves performQueued_moves ..)
  · exact hidle none

theorem start_moves (s : Session) : Moves env ready s (s.start env) := by
  have hrunning : Moves env ready s { s with peer.running := true } :=
    Moves.of_idle ⟨rfl, rfl, rfl, rfl, rfl, rfl, rfl⟩ rfl
  unfold start
  split
  · exact .refl
  · exact hrunning.trans (eventDrained_moves ..)

theorem stop_moves (s : Session) (subcode : Option Nat) : Moves env ready s (s.stop env subcode) := by
  have hstopped : Moves env ready s { s with peer.running := false, peer.pending := none } :=
    Moves.of_idle ⟨rfl, rfl, rfl, rfl, rfl, rfl, rfl⟩ rfl
  unfold stop
  exact (hstopped.trans (eventDrained_moves ..)).trans
    (Moves.of_idle ⟨rfl, rfl, rfl, rfl, rfl, rfl, rfl⟩ rfl)

theorem timerLoop_moves (s : Session) : Moves env ready s (s.timerLoop env) := by
  have htick : Moves env ready s { s with peer.fsm := s.peer.fsm.tick env.now } :=
    Moves.of_machine ⟨rfl, rfl, rfl, rfl, rfl, rfl, rfl⟩ (Fsm.tick_follows _ _)
  unfold timerLoop
  split
  · exact .refl
  · exact htick.trans (drainActions_moves _)

theorem connectDone_moves (s : Session) (sent : Bool) (conn : Option Connection) :
    Moves env ready s (s.connectDone env sent conn) := by
  have hended : Moves env ready s { s with peer.connecting := false } :=
    Moves.of_idle ⟨rfl, rfl, rfl, rfl, rfl, rfl, rfl⟩ rfl
  cases conn with
  | none =>
    rw [connectDone]
    by_cases hidle : (!s.peer.connecting) = true
    · rw [if_pos hidle]
    rw [if_neg hidle]
    dsimp only
    split
    · exact hended.trans (eventDrained_moves ..)
    · exact hended
  | some conn =>
    rw [connectDone]
    split
    · exact .refl
    · exact hended.trans (adopt_moves ..)

theorem tryLocrib_peer (env : SessionEnv) (s : Session) (af : Family) (entry : Nlri)
    (attrs : AttrSet) (replay : Bool) :
    (tryLocrib env s af entry attrs replay).1.peer = s.peer := by
  unfold tryLocrib
  split
  · rfl
  · next h => exact toLocrib_peer h

theorem replayTable_moves (s : Session) (af : Family) :
    Moves env ready s (replayTable env s af).1 := by
  unfold replayTable
  split
  · exact .refl
  next table htable =>
  have hrun : Moves env ready s (runEach (fun s (e : Nlri × AttrSet) =>
        tryLocrib env s af e.1 e.2 true) table.entries s).1 ∧
      (runEach (fun s (e : Nlri × AttrSet) =>
        tryLocrib env s af e.1 e.2 true) table.entries s).1.peer = s.peer := by
    refine runEach_induction (motive := fun t => Moves env ready s t ∧ t.peer = s.peer)
      (fun t e he ht => ⟨ht.1.trans (Moves.one (.replayed af e.1 e.2 ?_)), ?_⟩) ⟨.refl, rfl⟩
    · have hmem : table.get? e.1 = some e.2 := Dict.mem_entries_iff.mp he
      simp [told, ht.2, htable, hmem]
    · exact (tryLocrib_peer ..).trans ht.2
  exact hrun.1

theorem softResetIn_moves (s : Session) (af : Option Family) :
    Moves env ready s (s.softResetIn env af).1 := by
  unfold softResetIn
  dsimp only
  exact runEach_induction (motive := fun t => Moves env ready s t)
    (fun t af _ ht => ht.trans (replayTable_moves t af)) .refl

end Session

/-- What can happen to a session, apart from what the plugin does to it. -/
inductive SessionEvent where
  | start
  | stop (subcode : Option Nat)
  | timer
  /-- An outbound connect ends. -/
  | connectDone (sent : Bool) (conn : Option Connection)
  /-- The listener hands over a connection. -/
  | accept (sent : Bool) (conn : Connection)
  /-- A read on the session's connection, with the first slice of its messages. -/
  | read (slice : Nat) (data : Bytes)
  /-- A further slice. -/
  | dispatch (slice : Nat)
  | heldRead (data : Bytes)
  /-- A write on the session's connection fails. -/
  | sendFails
  /-- The transport closes the current connection, the held one, or both. -/
  | closes (current held : Bool)
  | softReset (af : Option Family)

namespace Session

/-- A connection after the transport closed it. -/
def closed (now : Bool) (conn : Connection) : Connection :=
  { conn with isOpen := conn.isOpen && !now }

def act (env : SessionEnv) (s : Session) : SessionEvent → Session
  | .start => s.start env
  | .stop subcode => s.stop env subcode
  | .timer => s.timerLoop env
  | .connectDone sent conn => s.connectDone env sent conn
  | .accept sent conn => s.adopt env conn false sent
  | .read slice data => s.readLoop env slice data
  | .dispatch slice => dispatchFramed env slice s
  | .heldRead data => s.heldRead env data
  | .sendFails => if s.peer.conn.isSome then s.eventDrained env .tcpFails else s
  | .closes current held =>
    { s with
      peer.conn := s.peer.conn.map (closed current)
      peer.pending := s.peer.pending.map fun h => { h with conn := closed held h.conn } }
  | .softReset af => (s.softResetIn env af).1

/-- What an event may not bring: an announcement or an OPEN out of order. -/
def EventOrderly (ready : Readiness) (env : SessionEnv) (s : Session) : SessionEvent → Prop
  | .read slice data =>
    s.peer.running = true → s.peer.conn.isSome = true → data ≠ [] →
      SliceOrderly ready env slice { s with peer.framer := s.peer.framer.feed data }
  | .dispatch slice => SliceOrderly ready env slice s
  | _ => True

/-- Every event is a succession of moves. -/
theorem act_moves {s : Session} {ev : SessionEvent} (h : EventOrderly ready env s ev) :
    Moves env ready s (s.act env ev) := by
  cases ev with
  | start => exact start_moves s
  | stop subcode => exact stop_moves s subcode
  | timer => exact timerLoop_moves s
  | connectDone sent conn => exact connectDone_moves s sent conn
  | accept sent conn => exact adopt_moves s conn false sent
  | read slice data => exact readLoop_moves h
  | dispatch slice => exact dispatchFramed_moves h
  | heldRead data => exact heldRead_moves s data
  | sendFails =>
    rw [act]
    split
    · exact eventDrained_moves s _
    · exact .refl
  | closes current held => exact Moves.of_idle ⟨rfl, rfl, rfl, rfl, rfl, rfl, rfl⟩ rfl
  | softReset af => exact softResetIn_moves s af

end Session

end Packets
