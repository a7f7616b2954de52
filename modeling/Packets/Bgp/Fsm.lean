/-
The finite state machine of one session (`plugins/bgp/fsm.py`).

Events come in and actions are queued for the caller.  Timers are absolute deadlines in
nanoseconds, so every entry point takes the time of the call.
-/
import Packets.Rib.Prefix
import Packets.Lib.Dict

namespace Packets

inductive FsmState where
  | idle
  | connect
  | active
  | openSent
  | openConfirm
  | established
deriving DecidableEq, Repr

/-- What an error event carries; what is absent takes the default of the state it
arrives in. -/
structure ErrorArgs where
  code : Option Nat := none
  subcode : Option Nat := none
  data : Bytes := []
deriving DecidableEq

/-- The `EV_*` events with the data they carry. -/
inductive FsmEvent where
  | manualStart
  | manualStop (subcode : Option Nat)
  | automaticStart
  | automaticStop
  | connectRetryExpired
  | holdExpired
  | keepaliveExpired
  | delayOpenExpired
  | idleHoldExpired
  | tcpConnectionValid
  | tcpCrInvalid
  | tcpCrAcked
  | tcpConfirmed
  | tcpFails
  | bgpOpen (holdTime : Nat)
  | bgpOpenDelayOpen (holdTime : Nat)
  | headerErr (args : ErrorArgs)
  | openMsgErr (args : ErrorArgs)
  | openCollisionDump
  | notifyVersionErr
  | notifyMsg
  | keepaliveMsg
  | updateMsg
  | updateMsgErr (args : ErrorArgs)
deriving DecidableEq

/-- The `ACT_*` actions the machine asks its caller to perform. -/
inductive FsmAction where
  | connect
  | drop
  | sendOpen
  | sendKeepalive
  | sendNotify (code subcode : Nat) (data : Bytes)
  | established
  | release
  | listenOnly
  | refuse
deriving DecidableEq

inductive FsmTimer where
  | connectRetry
  | hold
  | keepalive
  | delayOpen
  | idleHold
deriving DecidableEq, Repr

/-- `TIMER_EVENTS`. -/
def FsmTimer.event : FsmTimer → FsmEvent
  | .connectRetry => .connectRetryExpired
  | .hold => .holdExpired
  | .keepalive => .keepaliveExpired
  | .delayOpen => .delayOpenExpired
  | .idleHold => .idleHoldExpired

def NOTIFY_HEADER : Nat := 1
def NOTIFY_OPEN : Nat := 2
def NOTIFY_UPDATE : Nat := 3
def NOTIFY_HOLD_TIMER : Nat := 4
def NOTIFY_FSM : Nat := 5
def NOTIFY_CEASE : Nat := 6

def HDR_CONN_NOT_SYNC : Nat := 1
def HDR_BAD_LENGTH : Nat := 2
def HDR_BAD_TYPE : Nat := 3

def OPEN_UNSPECIFIC : Nat := 0
def OPEN_UNSUPPORTED_VERSION : Nat := 1
def OPEN_BAD_PEER_AS : Nat := 2
def OPEN_BAD_BGP_ID : Nat := 3
def OPEN_UNSUPPORTED_OPT_PARAM : Nat := 4
def OPEN_UNACCEPTABLE_HOLD_TIME : Nat := 6
def OPEN_UNSUPPORTED_CAPABILITY : Nat := 7

def UPD_MALFORMED_ATTR_LIST : Nat := 1

def CEASE_ADMIN_SHUTDOWN : Nat := 2
def CEASE_OTHER_CONFIG_CHANGE : Nat := 6
def CEASE_COLLISION_RESOLUTION : Nat := 7

def MIN_HOLD_TIME : Nat := 3

/-- One second of the clock. -/
def SECOND : Nat := 1000000000

/-- How long a session must have been up before its backoff is forgiven. -/
def IDLE_HOLD_RESET_AFTER : Nat := 90

/-- How long to wait for the peer's OPEN. -/
def OPEN_HOLD : Nat := 240

/-- The settings of one session, in seconds.  The constructor refuses a hold time of 1 or 2, and
a keepalive not less than the hold time. -/
structure FsmConfig where
  holdTime : Nat
  keepalive : Nat
  connectRetry : Nat
  delayOpen : Nat
  passive : Bool
  idleHoldStart : Nat := 1
  idleHoldMax : Nat := 3600
  allowAutomaticStart : Bool
  hold_legal : holdTime = 0 ∨ MIN_HOLD_TIME ≤ holdTime
  keepalive_less : holdTime = 0 ∨ keepalive < holdTime

/-- `FsmConfig()`. -/
def FsmConfig.usual : FsmConfig := ⟨90, 30, 120, 0, false, 1, 3600, true, by decide, by decide⟩

structure Fsm where
  config : FsmConfig
  state : FsmState
  deadlines : Dict FsmTimer Nat
  actions : List FsmAction
  /-- The hold time in force: the configured one until OPENs were exchanged. -/
  holdTime : Nat
  keepalive : Nat
  idleHold : Nat
  establishedAt : Option Nat

namespace Fsm

/-- A machine as its constructor leaves it. -/
def new (config : FsmConfig) : Fsm where
  config := config
  state := .idle
  deadlines := Dict.empty
  actions := []
  holdTime := config.holdTime
  keepalive := config.keepalive
  idleHold := 0
  establishedAt := none

/-- `_act`. -/
def act (m : Fsm) (action : FsmAction) : Fsm := { m with actions := m.actions ++ [action] }

/-- `_arm`: start or restart a timer.  No interval stops it. -/
def arm (m : Fsm) (now : Nat) (timer : FsmTimer) (seconds : Nat) : Fsm :=
  { m with deadlines :=
      if seconds > 0 then m.deadlines.set timer (now + seconds * SECOND)
      else m.deadlines.erase timer }

/-- `_stop`. -/
def stop (m : Fsm) (timers : List FsmTimer) : Fsm :=
  { m with deadlines := timers.foldl Dict.erase m.deadlines }

/-- `_stop_all`. -/
def stopAll (m : Fsm) : Fsm := { m with deadlines := Dict.empty }

/-- `_goto`. -/
def goto (m : Fsm) (now : Nat) (state : FsmState) : Fsm :=
  if state = m.state then m
  else { m with
    state := state
    establishedAt :=
      if state = .established then some now
      else if m.state = .established then none
      else m.establishedAt }

/-- `_bump_idle_hold`: grow the backoff after a failure, to its ceiling. -/
def bumpIdleHold (m : Fsm) : Fsm :=
  { m with idleHold :=
      if m.idleHold = 0 then m.config.idleHoldStart
      else min (m.idleHold * 2) m.config.idleHoldMax }

/-- `_maybe_forgive_idle_hold`. -/
def maybeForgiveIdleHold (m : Fsm) (now : Nat) : Fsm :=
  match m.establishedAt with
  | some since =>
    if since + IDLE_HOLD_RESET_AFTER * SECOND ≤ now then { m with idleHold := 0 } else m
  | none => m

/-- Back to the timers of the configuration. -/
def resetTimes (m : Fsm) : Fsm :=
  { m with holdTime := m.config.holdTime, keepalive := m.config.keepalive }

/-- The backoff of a failure, and the timer that ends it. -/
def backOff (m : Fsm) (now : Nat) : Fsm :=
  let m := m.bumpIdleHold
  if m.config.allowAutomaticStart ∧ m.idleHold > 0 then m.arm now .idleHold m.idleHold
  else m

/-- `_to_idle`: shut the session down.  The routes it gave are always released. -/
def toIdle (m : Fsm) (now : Nat) (growBackoff : Bool := true) : Fsm :=
  let m := (m.maybeForgiveIdleHold now).stopAll.resetTimes
  let m := (m.act .drop).act .release
  let m := if growBackoff then m.backOff now else m
  m.goto now .idle

/-- `_notify_and_idle`: the NOTIFICATION is queued before the drop. -/
def notifyAndIdle (m : Fsm) (now code subcode : Nat) (data : Bytes := [])
    (growBackoff : Bool := true) : Fsm :=
  (m.act (.sendNotify code subcode data)).toIdle now growBackoff

/-- `_start_connecting`: a passive session waits in Active. -/
def startConnecting (m : Fsm) (now : Nat) : Fsm :=
  let m := (m.stop [.idleHold]).arm now .connectRetry m.config.connectRetry
  if m.config.passive then (m.act .listenOnly).goto now .active
  else (m.act .connect).goto now .connect

/-- `_send_open_and_wait`. -/
def sendOpenAndWait (m : Fsm) (now : Nat) : Fsm :=
  (((m.stop [.delayOpen]).act .sendOpen).arm now .hold OPEN_HOLD).goto now .openSent

/-- `_connection_up`: send OPEN, or wait when delay-open is on. -/
def connectionUp (m : Fsm) (now : Nat) : Fsm :=
  let m := m.stop [.connectRetry]
  if m.config.delayOpen > 0 then m.arm now .delayOpen m.config.delayOpen
  else m.sendOpenAndWait now

/-- `_restart_hold`. -/
def restartHold (m : Fsm) (now : Nat) : Fsm :=
  if m.holdTime ≠ 0 then m.arm now .hold m.holdTime else m

/-- The keepalive interval for a negotiated hold time: the configured ratio. -/
def scaledKeepalive (m : Fsm) (hold : Nat) : Nat :=
  if m.config.holdTime ≠ 0 then max 1 (hold * m.config.keepalive / m.config.holdTime)
  else max 1 (hold / 3)

/-- `_negotiate`: apply the peer's OPEN.  The smaller hold time is in force, and 0
turns both timers off. -/
def negotiateHold (m : Fsm) (now peerHold : Nat) : Fsm :=
  let hold := min m.config.holdTime peerHold
  let m :=
    if hold ≠ 0 then
      let keepalive := m.scaledKeepalive hold
      (({ m with holdTime := hold, keepalive := keepalive }).arm now .hold hold).arm now
        .keepalive keepalive
    else ({ m with holdTime := 0, keepalive := 0 }).stop [.hold, .keepalive]
  (m.act .sendKeepalive).goto now .openConfirm

/-- `_open_during_delay`: the peer's OPEN came before ours; answer it. -/
def openDuringDelay (m : Fsm) (now peerHold : Nat) : Fsm :=
  ((m.stop [.delayOpen]).act .sendOpen).negotiateHold now peerHold

/-- `_in_idle`. -/
def inIdle (m : Fsm) (now : Nat) : FsmEvent → Fsm
  | .manualStart => (({ m with idleHold := 0 }).stop [.idleHold]).startConnecting now
  | .automaticStart => m.startConnecting now
  | .idleHoldExpired => if m.config.allowAutomaticStart then m.startConnecting now else m
  | .tcpConnectionValid | .tcpConfirmed | .tcpCrAcked => m.act .drop
  | _ => m

/-- `_in_connect`. -/
def inConnect (m : Fsm) (now : Nat) : FsmEvent → Fsm
  | .connectRetryExpired => ((m.act .drop).arm now .connectRetry m.config.connectRetry).act .connect
  | .tcpCrAcked | .tcpConfirmed | .tcpConnectionValid => m.connectionUp now
  | .tcpFails =>
    ((m.stop [.connectRetry]).arm now .connectRetry m.config.connectRetry).goto now .active
  | .delayOpenExpired => m.sendOpenAndWait now
  | .bgpOpen hold | .bgpOpenDelayOpen hold => m.openDuringDelay now hold
  | .headerErr e | .openMsgErr e =>
    m.notifyAndIdle now (e.code.getD NOTIFY_OPEN) (e.subcode.getD 0) e.data
  | .notifyVersionErr => m.toIdle now
  | _ => m

/-- `_in_active`. -/
def inActive (m : Fsm) (now : Nat) : FsmEvent → Fsm
  | .connectRetryExpired =>
    let m := m.arm now .connectRetry m.config.connectRetry
    if m.config.passive then m else (m.act .connect).goto now .connect
  | .tcpCrAcked | .tcpConfirmed | .tcpConnectionValid => m.connectionUp now
  | .tcpFails => m.arm now .connectRetry m.config.connectRetry
  | .delayOpenExpired => m.sendOpenAndWait now
  | .bgpOpen hold | .bgpOpenDelayOpen hold => m.openDuringDelay now hold
  | .headerErr e | .openMsgErr e =>
    m.notifyAndIdle now (e.code.getD NOTIFY_OPEN) (e.subcode.getD 0) e.data
  | .notifyVersionErr => m.toIdle now
  | _ => m

/-- `_in_open_sent`.  A connection that fails here releases nothing. -/
def inOpenSent (m : Fsm) (now : Nat) : FsmEvent → Fsm
  | .bgpOpen hold => m.negotiateHold now hold
  | .holdExpired => m.notifyAndIdle now NOTIFY_HOLD_TIMER 0
  | .tcpFails =>
    ((m.stopAll.arm now .connectRetry m.config.connectRetry).act .drop).goto now .active
  | .headerErr e => m.notifyAndIdle now NOTIFY_HEADER (e.subcode.getD HDR_CONN_NOT_SYNC) e.data
  | .openMsgErr e => m.notifyAndIdle now NOTIFY_OPEN (e.subcode.getD 0) e.data
  | .openCollisionDump => m.notifyAndIdle now NOTIFY_CEASE CEASE_COLLISION_RESOLUTION
  | .notifyVersionErr => m.toIdle now
  | .notifyMsg => m.toIdle now
  | _ => m

/-- `_in_open_confirm`. -/
def inOpenConfirm (m : Fsm) (now : Nat) : FsmEvent → Fsm
  | .keepaliveMsg => ((m.restartHold now).act .established).goto now .established
  | .keepaliveExpired => (m.act .sendKeepalive).arm now .keepalive m.keepalive
  | .holdExpired => m.notifyAndIdle now NOTIFY_HOLD_TIMER 0
  | .tcpFails => m.toIdle now
  | .notifyMsg => m.toIdle now
  | .notifyVersionErr => m.toIdle now
  | .openCollisionDump => m.notifyAndIdle now NOTIFY_CEASE CEASE_COLLISION_RESOLUTION
  | .headerErr e | .openMsgErr e =>
    m.notifyAndIdle now (e.code.getD NOTIFY_OPEN) (e.subcode.getD 0) e.data
  | _ => m

/-- `_in_established`.  A second connection is refused, never dropped: a drop would
close the session's own. -/
def inEstablished (m : Fsm) (now : Nat) : FsmEvent → Fsm
  | .keepaliveMsg | .updateMsg => m.restartHold now
  | .keepaliveExpired => (m.act .sendKeepalive).arm now .keepalive m.keepalive
  | .holdExpired => m.notifyAndIdle now NOTIFY_HOLD_TIMER 0
  | .tcpFails => m.toIdle now
  | .notifyMsg => m.toIdle now
  | .updateMsgErr e => m.notifyAndIdle now NOTIFY_UPDATE (e.subcode.getD 0) e.data
  | .headerErr e => m.notifyAndIdle now NOTIFY_HEADER (e.subcode.getD HDR_CONN_NOT_SYNC) e.data
  | .bgpOpen _ | .openMsgErr _ => m.notifyAndIdle now NOTIFY_FSM 0
  | .openCollisionDump => m.notifyAndIdle now NOTIFY_CEASE CEASE_COLLISION_RESOLUTION
  | .tcpCrAcked | .tcpConfirmed | .tcpConnectionValid => m.act .refuse
  | _ => m

/-- `_HANDLERS`. -/
def handle (m : Fsm) (now : Nat) (ev : FsmEvent) : Fsm :=
  match m.state with
  | .idle => m.inIdle now ev
  | .connect => m.inConnect now ev
  | .active => m.inActive now ev
  | .openSent => m.inOpenSent now ev
  | .openConfirm => m.inOpenConfirm now ev
  | .established => m.inEstablished now ev

/-- `event`: feed one event to the machine.  The stops apply in every state. -/
def event (m : Fsm) (now : Nat) (ev : FsmEvent) : Fsm :=
  match ev with
  | .manualStop subcode =>
    let m :=
      if m.state ≠ .idle then
        m.notifyAndIdle now NOTIFY_CEASE (subcode.getD CEASE_ADMIN_SHUTDOWN) [] false
      else m
    ((({ m with idleHold := 0 }).stopAll).act .listenOnly).goto now .idle
  | .automaticStop =>
    if m.state ≠ .idle then
      m.notifyAndIdle now NOTIFY_CEASE CEASE_OTHER_CONFIG_CHANGE [] false
    else m
  | ev => m.handle now ev

/-- `abandon_connection`: give up the current connection without ending the session.
No routes are released. -/
def abandonConnection (m : Fsm) (now : Nat) : Fsm :=
  if m.state = .idle ∨ m.state = .established then m
  else
    (((m.stop [.hold, .keepalive, .delayOpen]).resetTimes).arm now .connectRetry
      m.config.connectRetry).goto now .active

/-- `take_actions`. -/
def takeActions (m : Fsm) : List FsmAction × Fsm := (m.actions, { m with actions := [] })

/-- The timer that is due first; of two due together, the one armed first. -/
def nextDue (m : Fsm) (now : Nat) : Option FsmTimer :=
  (m.deadlines.entries.foldl
    (fun due (e : FsmTimer × Nat) =>
      if e.2 > now then due
      else
        match due with
        | none => some e
        | some held => if e.2 < held.2 then some e else due) none).map Prod.fst

/-- Fire due timers, at most `fuel` of them. -/
def fireDue (now : Nat) : Nat → Fsm → Fsm
  | 0, m => m
  | fuel + 1, m =>
    match m.nextDue now with
    | none => m
    | some timer => fireDue now fuel ((m.stop [timer]).event now timer.event)

/-- `tick`: fire every timer that is due, earliest first.  A timer armed by a firing is not due
yet, so no more fire than were armed. -/
def tick (m : Fsm) (now : Nat) : Fsm := fireDue now m.deadlines.size m

section Simp

variable (m : Fsm) (now : Nat)

@[simp] theorem state_act (action : FsmAction) : (m.act action).state = m.state := rfl

@[simp] theorem actions_act (action : FsmAction) :
    (m.act action).actions = m.actions ++ [action] := rfl

@[simp] theorem state_arm (timer : FsmTimer) (seconds : Nat) :
    (m.arm now timer seconds).state = m.state := rfl

@[simp] theorem actions_arm (timer : FsmTimer) (seconds : Nat) :
    (m.arm now timer seconds).actions = m.actions := rfl

@[simp] theorem state_stop (timers : List FsmTimer) : (m.stop timers).state = m.state := rfl

@[simp] theorem actions_stop (timers : List FsmTimer) : (m.stop timers).actions = m.actions := rfl

@[simp] theorem state_stopAll : m.stopAll.state = m.state := rfl

@[simp] theorem actions_stopAll : m.stopAll.actions = m.actions := rfl

@[simp] theorem state_resetTimes : m.resetTimes.state = m.state := rfl

@[simp] theorem actions_resetTimes : m.resetTimes.actions = m.actions := rfl

@[simp] theorem state_goto (state : FsmState) : (m.goto now state).state = state := by
  unfold goto
  split
  · next h => exact h.symm
  · rfl

@[simp] theorem actions_goto (state : FsmState) : (m.goto now state).actions = m.actions := by
  unfold goto
  split <;> rfl

@[simp] theorem actions_maybeForgiveIdleHold :
    (m.maybeForgiveIdleHold now).actions = m.actions := by
  unfold maybeForgiveIdleHold
  split
  · split <;> rfl
  · rfl

@[simp] theorem actions_backOff : (m.backOff now).actions = m.actions := by
  unfold backOff
  dsimp only
  split <;> rfl

@[simp] theorem state_restartHold : (m.restartHold now).state = m.state := by
  unfold restartHold
  split <;> rfl

@[simp] theorem actions_restartHold : (m.restartHold now).actions = m.actions := by
  unfold restartHold
  split <;> rfl

@[simp] theorem state_toIdle (grow : Bool) : (m.toIdle now grow).state = .idle := by simp [toIdle]

@[simp] theorem actions_toIdle (grow : Bool) :
    (m.toIdle now grow).actions = m.actions ++ [.drop, .release] := by
  cases grow <;> simp [toIdle]

@[simp] theorem state_notifyAndIdle (code subcode : Nat) (data : Bytes) (grow : Bool) :
    (m.notifyAndIdle now code subcode data grow).state = .idle := by
  simp [notifyAndIdle]

@[simp] theorem actions_notifyAndIdle (code subcode : Nat) (data : Bytes) (grow : Bool) :
    (m.notifyAndIdle now code subcode data grow).actions =
      m.actions ++ [.sendNotify code subcode data, .drop, .release] := by
  simp [notifyAndIdle]

end Simp

/-- A machine that has only queued actions, and has not left Established without
asking for the routes to be released. -/
structure Follows (m m' : Fsm) : Prop where
  queued : ∀ action ∈ m.actions, action ∈ m'.actions
  released : m.state = .established → m'.state ≠ .established → .release ∈ m'.actions

theorem Follows.refl (m : Fsm) : Follows m m := ⟨fun _ h => h, fun h hne => absurd h hne⟩

theorem Follows.trans {m m' m'' : Fsm} (h : Follows m m') (h' : Follows m' m'') :
    Follows m m'' where
  queued action ha := h'.queued action (h.queued action ha)
  released hup hdown := by
    by_cases hstill : m'.state = .established
    · exact h'.released hstill hdown
    · exact h'.queued _ (h.released hup hstill)

theorem Follows.of_down {m m' : Fsm} (hdown : m.state ≠ .established)
    (h : ∀ action ∈ m.actions, action ∈ m'.actions) : Follows m m' :=
  ⟨h, fun hup => absurd hup hdown⟩

theorem mem_startConnecting {m : Fsm} {now : Nat} {action : FsmAction}
    (h : action ∈ m.actions) : action ∈ (m.startConnecting now).actions := by
  unfold startConnecting
  dsimp only
  split <;> simp [h]

theorem mem_connectionUp {m : Fsm} {now : Nat} {action : FsmAction}
    (h : action ∈ m.actions) : action ∈ (m.connectionUp now).actions := by
  unfold connectionUp
  dsimp only
  split <;> simp [sendOpenAndWait, h]

theorem mem_negotiateHold {m : Fsm} {now hold : Nat} {action : FsmAction}
    (h : action ∈ m.actions) : action ∈ (m.negotiateHold now hold).actions := by
  unfold negotiateHold
  dsimp only
  split <;> simp [h]

theorem mem_openDuringDelay {m : Fsm} {now hold : Nat} {action : FsmAction}
    (h : action ∈ m.actions) : action ∈ (m.openDuringDelay now hold).actions :=
  mem_negotiateHold (by simp [h])

theorem inEstablished_follows {m : Fsm} (now : Nat) (ev : FsmEvent) :
    Follows m (m.inEstablished now ev) := by
  cases ev <;> constructor <;> simp +contextual [inEstablished]

theorem mem_inIdle {m : Fsm} {now : Nat} {ev : FsmEvent} {action : FsmAction}
    (h : action ∈ m.actions) : action ∈ (m.inIdle now ev).actions := by
  cases ev
  case manualStart => exact mem_startConnecting h
  case automaticStart => exact mem_startConnecting h
  case idleHoldExpired =>
    rw [inIdle]
    split
    · exact mem_startConnecting h
    · exact h
  all_goals simp [inIdle, h]

theorem mem_inActive {m : Fsm} {now : Nat} {ev : FsmEvent} {action : FsmAction}
    (h : action ∈ m.actions) : action ∈ (m.inActive now ev).actions := by
  cases ev
  case connectRetryExpired =>
    rw [inActive]
    split <;> simp [h]
  all_goals simp [inActive, h, mem_connectionUp, mem_openDuringDelay, sendOpenAndWait]

theorem mem_handle {m : Fsm} {now : Nat} {ev : FsmEvent} {action : FsmAction}
    (h : action ∈ m.actions) : action ∈ (m.handle now ev).actions := by
  unfold handle
  split
  · exact mem_inIdle h
  · cases ev <;>
      simp [inConnect, h, mem_connectionUp, mem_openDuringDelay, sendOpenAndWait]
  · exact mem_inActive h
  · cases ev <;> simp [inOpenSent, h, mem_negotiateHold]
  · cases ev <;> simp [inOpenConfirm, h]
  · exact (inEstablished_follows now ev).queued action h

theorem handle_follows (m : Fsm) (now : Nat) (ev : FsmEvent) : Follows m (m.handle now ev) where
  queued _ h := mem_handle h
  released hup hdown := by
    rw [handle, hup] at hdown ⊢
    exact (inEstablished_follows now ev).released hup hdown

theorem event_follows (m : Fsm) (now : Nat) (ev : FsmEvent) : Follows m (m.event now ev) := by
  by_cases hmanual : ∃ subcode, ev = .manualStop subcode
  · obtain ⟨subcode, rfl⟩ := hmanual
    by_cases hidle : m.state = .idle <;> constructor <;> simp +contextual [event, hidle]
  by_cases hautomatic : ev = .automaticStop
  · subst hautomatic
    by_cases hidle : m.state = .idle <;> constructor <;> simp +contextual [event, hidle]
  have hhandle : m.event now ev = m.handle now ev := by cases ev <;> simp_all [event]
  rw [hhandle]
  exact handle_follows m now ev

theorem abandonConnection_follows (m : Fsm) (now : Nat) : Follows m (m.abandonConnection now) := by
  unfold abandonConnection
  split
  · exact Follows.refl m
  · next hwait => exact Follows.of_down (fun hup => hwait (Or.inr hup)) (by simp)

theorem fireDue_follows (now fuel : Nat) (m : Fsm) : Follows m (fireDue now fuel m) := by
  induction fuel generalizing m with
  | zero => exact Follows.refl m
  | succ fuel ih =>
    unfold fireDue
    split
    · exact Follows.refl m
    · next timer _ =>
        have hstop : Follows m (m.stop [timer]) := ⟨fun _ h => h, fun hup hdown => absurd hup hdown⟩
        exact (hstop.trans (event_follows _ now _)).trans (ih _)

theorem tick_follows (m : Fsm) (now : Nat) : Follows m (m.tick now) := fireDue_follows now _ m

end Fsm

end Packets
