/-
The timers of a session (`plugins/bgp/fsm.py`): what each operation of the machine leaves
armed, and which timers run in which state throughout a history.
-/
import Packets.Bgp.Fsm

namespace Packets

namespace Fsm

section Simp

variable (m : Fsm) (now : Nat)

@[simp] theorem deadlines_act (action : FsmAction) : (m.act action).deadlines = m.deadlines := rfl

@[simp] theorem config_act (action : FsmAction) : (m.act action).config = m.config := rfl

@[simp] theorem holdTime_act (action : FsmAction) : (m.act action).holdTime = m.holdTime := rfl

@[simp] theorem keepalive_act (action : FsmAction) : (m.act action).keepalive = m.keepalive := rfl

@[simp] theorem deadlines_arm (timer other : FsmTimer) (seconds : Nat) :
    (m.arm now timer seconds).deadlines.get? other =
      if other = timer then if seconds > 0 then some (now + seconds * SECOND) else none
      else m.deadlines.get? other := by
  rw [arm]
  by_cases hpos : seconds > 0 <;> by_cases hsame : other = timer <;>
    simp [hpos, hsame]

@[simp] theorem config_arm (timer : FsmTimer) (seconds : Nat) :
    (m.arm now timer seconds).config = m.config := rfl

@[simp] theorem holdTime_arm (timer : FsmTimer) (seconds : Nat) :
    (m.arm now timer seconds).holdTime = m.holdTime := rfl

@[simp] theorem keepalive_arm (timer : FsmTimer) (seconds : Nat) :
    (m.arm now timer seconds).keepalive = m.keepalive := rfl

@[simp] theorem deadlines_stop (timers : List FsmTimer) (other : FsmTimer) :
    (m.stop timers).deadlines.get? other =
      if other ∈ timers then none else m.deadlines.get? other := by
  rw [stop]
  induction timers generalizing m with
  | nil => rfl
  | cons timer rest ih =>
    have hrest := ih { m with deadlines := m.deadlines.erase timer }
    dsimp only [List.foldl_cons] at hrest ⊢
    rw [hrest]
    by_cases hsame : timer = other <;> by_cases hin : other ∈ rest <;>
      simp [hsame, hin]

@[simp] theorem config_stop (timers : List FsmTimer) : (m.stop timers).config = m.config := rfl

@[simp] theorem holdTime_stop (timers : List FsmTimer) :
    (m.stop timers).holdTime = m.holdTime := rfl

@[simp] theorem keepalive_stop (timers : List FsmTimer) :
    (m.stop timers).keepalive = m.keepalive := rfl

@[simp] theorem deadlines_stopAll : m.stopAll.deadlines = Dict.empty := rfl

@[simp] theorem config_stopAll : m.stopAll.config = m.config := rfl

@[simp] theorem deadlines_goto (state : FsmState) : (m.goto now state).deadlines = m.deadlines := by
  rw [goto]
  split <;> rfl

@[simp] theorem config_goto (state : FsmState) : (m.goto now state).config = m.config := by
  rw [goto]
  split <;> rfl

@[simp] theorem holdTime_goto (state : FsmState) : (m.goto now state).holdTime = m.holdTime := by
  rw [goto]
  split <;> rfl

@[simp] theorem keepalive_goto (state : FsmState) : (m.goto now state).keepalive = m.keepalive := by
  rw [goto]
  split <;> rfl

@[simp] theorem config_maybeForgiveIdleHold : (m.maybeForgiveIdleHold now).config = m.config := by
  rw [maybeForgiveIdleHold]
  split
  · split <;> rfl
  · rfl

@[simp] theorem config_backOff : (m.backOff now).config = m.config := by
  rw [backOff]
  split <;> rfl

theorem deadlines_backOff {timer : FsmTimer} (h : timer ≠ .idleHold) :
    (m.backOff now).deadlines.get? timer = m.deadlines.get? timer := by
  rw [backOff]
  split
  · rw [deadlines_arm, if_neg h]
    rfl
  · rfl

theorem deadlines_toIdle (grow : Bool) {timer : FsmTimer} (h : timer ≠ .idleHold) :
    (m.toIdle now grow).deadlines.get? timer = none := by
  cases grow <;> simp [toIdle, resetTimes, deadlines_backOff, h]

@[simp] theorem config_toIdle (grow : Bool) : (m.toIdle now grow).config = m.config := by
  cases grow <;> simp [toIdle, resetTimes]

theorem deadlines_notifyAndIdle (code subcode : Nat) (data : Bytes) (grow : Bool)
    {timer : FsmTimer} (h : timer ≠ .idleHold) :
    (m.notifyAndIdle now code subcode data grow).deadlines.get? timer = none :=
  deadlines_toIdle _ now grow h

@[simp] theorem config_notifyAndIdle (code subcode : Nat) (data : Bytes) (grow : Bool) :
    (m.notifyAndIdle now code subcode data grow).config = m.config := by
  simp [notifyAndIdle]

theorem deadlines_restartHold {timer : FsmTimer} (h : timer ≠ .hold) :
    (m.restartHold now).deadlines.get? timer = m.deadlines.get? timer := by
  rw [restartHold]
  split
  · rw [deadlines_arm, if_neg h]
  · rfl

@[simp] theorem config_restartHold : (m.restartHold now).config = m.config := by
  rw [restartHold]
  split <;> rfl

@[simp] theorem holdTime_restartHold : (m.restartHold now).holdTime = m.holdTime := by
  rw [restartHold]
  split <;> rfl

@[simp] theorem keepalive_restartHold : (m.restartHold now).keepalive = m.keepalive := by
  rw [restartHold]
  split <;> rfl

@[simp] theorem config_startConnecting : (m.startConnecting now).config = m.config := by
  rw [startConnecting]
  split <;> simp

@[simp] theorem config_connectionUp : (m.connectionUp now).config = m.config := by
  rw [connectionUp]
  split <;> simp [sendOpenAndWait]

@[simp] theorem config_negotiateHold (hold : Nat) :
    (m.negotiateHold now hold).config = m.config := by
  rw [negotiateHold]
  split <;> simp

@[simp] theorem config_abandonConnection : (m.abandonConnection now).config = m.config := by
  rw [abandonConnection]
  split
  · rfl
  · simp [resetTimes]

theorem config_handle (ev : FsmEvent) : (m.handle now ev).config = m.config := by
  rw [handle]
  split
  · cases ev <;> simp [inIdle, apply_ite config]
  · cases ev <;> simp [inConnect, sendOpenAndWait, openDuringDelay]
  · cases ev
    case connectRetryExpired =>
      rw [inActive]
      split <;> simp
    all_goals simp [inActive, sendOpenAndWait, openDuringDelay]
  · cases ev <;> simp [inOpenSent]
  · cases ev <;> simp [inOpenConfirm]
  · cases ev <;> simp [inEstablished]

@[simp] theorem config_event (ev : FsmEvent) : (m.event now ev).config = m.config := by
  cases ev
  case manualStop subcode => simp [event, apply_ite config]
  case automaticStop => simp [event, apply_ite config]
  all_goals exact config_handle m now _

end Simp

/-- Two ends of the handshake are past it: the session's timers are in force. -/
def InSession (m : Fsm) : Prop := m.state = .openConfirm ∨ m.state = .established

/-- Waiting for a connection, or for the peer on one. -/
def Waiting (m : Fsm) : Prop := m.state = .connect ∨ m.state = .active

/-- An OPEN was sent. -/
def PastHandshake (m : Fsm) : Prop := m.state = .openSent ∨ m.InSession

/-- Whether an event of this state restarts the hold timer. -/
def restarts (m : Fsm) (ev : FsmEvent) : Bool :=
  match m.state, ev with
  | .connect, .bgpOpen _ | .connect, .bgpOpenDelayOpen _ => true
  | .active, .bgpOpen _ | .active, .bgpOpenDelayOpen _ => true
  | .openSent, .bgpOpen _ => true
  | .openConfirm, .keepaliveMsg => true
  | .established, .keepaliveMsg | .established, .updateMsg => true
  | _, _ => false

end Fsm

/-- A TCP connection. -/
def FsmEvent.isConnection : FsmEvent → Bool
  | .tcpConnectionValid | .tcpCrAcked | .tcpConfirmed => true
  | _ => false

def FsmEvent.isStop : FsmEvent → Bool
  | .manualStop _ | .automaticStop => true
  | _ => false

/-- The hold time an OPEN proposes. -/
def FsmEvent.proposal? : FsmEvent → Option Nat
  | .bgpOpen hold | .bgpOpenDelayOpen hold => some hold
  | _ => none

namespace Fsm

/-- When the hold timer was last restarted, after an event. -/
def restartedBy (m : Fsm) (ev : FsmEvent) (now restarted : Nat) : Nat :=
  if m.restarts ev then now else restarted

/-- The hold time of the last OPEN taken up, after an event. -/
def proposedBy (m : Fsm) (ev : FsmEvent) (proposed : Nat) : Nat :=
  if m.restarts ev then ev.proposal?.getD proposed else proposed

end Fsm

/-- What is done to a machine. -/
inductive FsmInput where
  | event (ev : FsmEvent)
  | tick
  | abandon
  | takeActions

/-- A machine with what its history says of it. -/
structure FsmTrace where
  fsm : Fsm
  /-- A connection came after the last TCP failure, drop and stop. -/
  connected : Bool
  /-- When the hold timer was last restarted. -/
  restarted : Nat
  /-- The hold time of the last OPEN taken up. -/
  proposed : Nat

namespace FsmTrace

def new (config : FsmConfig) : FsmTrace := ⟨Fsm.new config, false, 0, 0⟩

/-- The actions an event asked for. -/
def asked (t : FsmTrace) (now : Nat) (ev : FsmEvent) : List FsmAction :=
  (t.fsm.event now ev).actions.drop t.fsm.actions.length

def event (t : FsmTrace) (now : Nat) (ev : FsmEvent) : FsmTrace where
  fsm := t.fsm.event now ev
  connected := (t.connected || ev.isConnection) &&
    !(ev.isStop || ev == .tcpFails || (t.asked now ev).contains .drop)
  restarted := t.fsm.restartedBy ev now t.restarted
  proposed := t.fsm.proposedBy ev t.proposed

/-- A timer that is due goes off. -/
def fire (t : FsmTrace) (now : Nat) (timer : FsmTimer) : FsmTrace :=
  ({ t with fsm := t.fsm.stop [timer] }).event now timer.event

def fireDue (now : Nat) : Nat → FsmTrace → FsmTrace
  | 0, t => t
  | fuel + 1, t =>
    match t.fsm.nextDue now with
    | none => t
    | some timer => fireDue now fuel (t.fire now timer)

def apply (t : FsmTrace) (now : Nat) : FsmInput → FsmTrace
  | .event ev => t.event now ev
  | .tick => fireDue now t.fsm.deadlines.size t
  | .abandon => { t with fsm := t.fsm.abandonConnection now }
  | .takeActions => { t with fsm := t.fsm.takeActions.2 }

/-- A history: each input with the time it comes at. -/
def run (config : FsmConfig) (inputs : List (Nat × FsmInput)) : FsmTrace :=
  inputs.foldl (fun t input => t.apply input.1 input.2) (new config)

end FsmTrace

namespace Fsm

/-- The timers of a session past the exchange of OPENs. -/
structure InForce (m : Fsm) (restarted proposed : Nat) : Prop where
  agreed : m.holdTime = min m.config.holdTime proposed
  timed : m.holdTime ≠ 0 →
    m.deadlines.get? .hold = some (restarted + m.holdTime * SECOND) ∧
      (m.deadlines.get? .keepalive).isSome ∧ 1 ≤ m.keepalive ∧ m.keepalive < m.holdTime
  untimed : m.holdTime = 0 →
    m.deadlines.get? .hold = none ∧ m.deadlines.get? .keepalive = none ∧ m.keepalive = 0

/-- The timers each state runs. -/
inductive Armed (restarted proposed : Nat) (m : Fsm) : Prop where
  | idle (hstate : m.state = .idle)
      (rests : ∀ timer, timer ≠ .idleHold → m.deadlines.get? timer = none)
  | waiting (hstate : m.Waiting)
      (awake : (m.deadlines.get? .connectRetry).isSome ∨ (m.deadlines.get? .delayOpen).isSome)
  | openSent (hstate : m.state = .openSent) (hold : (m.deadlines.get? .hold).isSome)
  | session (hstate : m.InSession) (inForce : m.InForce restarted proposed)

/-- A machine as an event finds it: as it was, but for the timer whose event it is. -/
structure Fed (ev : FsmEvent) (before m : Fsm) : Prop where
  state : m.state = before.state
  config : m.config = before.config
  holdTime : m.holdTime = before.holdTime
  keepalive : m.keepalive = before.keepalive
  same : ∀ timer, ev ≠ timer.event → m.deadlines.get? timer = before.deadlines.get? timer
  fewer : ∀ timer, before.deadlines.get? timer = none → m.deadlines.get? timer = none

theorem Fed.refl (ev : FsmEvent) (m : Fsm) : Fed ev m m :=
  ⟨rfl, rfl, rfl, rfl, fun _ _ => rfl, fun _ h => h⟩

theorem fed_stop (m : Fsm) (timer : FsmTimer) : Fed timer.event m (m.stop [timer]) where
  state := rfl
  config := rfl
  holdTime := rfl
  keepalive := rfl
  same other hother := by
    have hne : other ≠ timer := fun h => hother (h ▸ rfl)
    simp [hne]
  fewer other hother := by simp [hother]

section Fed

variable {ev : FsmEvent} {before m : Fsm} {restarted proposed : Nat}

theorem Fed.idle (hfed : Fed ev before m) (hstate : before.state = .idle)
    (rests : ∀ timer, timer ≠ .idleHold → before.deadlines.get? timer = none) :
    Armed restarted proposed m :=
  .idle (hfed.state.trans hstate) fun timer hne => hfed.fewer timer (rests timer hne)

theorem Fed.waiting (hfed : Fed ev before m) (hstate : before.Waiting)
    (awake : (before.deadlines.get? .connectRetry).isSome ∨
      (before.deadlines.get? .delayOpen).isSome)
    (hretry : ev ≠ .connectRetryExpired) (hdelay : ev ≠ .delayOpenExpired) :
    Armed restarted proposed m := by
  apply Armed.waiting
  · simpa only [Waiting, hfed.state] using hstate
  · rwa [hfed.same .connectRetry hretry, hfed.same .delayOpen hdelay]

theorem Fed.openSent (hfed : Fed ev before m) (hstate : before.state = .openSent)
    (hold : (before.deadlines.get? .hold).isSome) (hne : ev ≠ .holdExpired) :
    Armed restarted proposed m := by
  apply Armed.openSent (hfed.state.trans hstate)
  rwa [hfed.same .hold hne]

theorem Fed.inForce (hfed : Fed ev before m) (h : before.InForce restarted proposed)
    (hhold : ev ≠ .holdExpired) (hkeepalive : ev ≠ .keepaliveExpired) :
    m.InForce restarted proposed := by
  obtain ⟨agreed, timed, untimed⟩ := h
  have hholdSame := hfed.same .hold hhold
  have hkeepaliveSame := hfed.same .keepalive hkeepalive
  constructor <;>
    simpa only [hfed.holdTime, hfed.config, hfed.keepalive, hholdSame, hkeepaliveSame]

end Fed

section Operations

variable {restarted proposed : Nat}

theorem armed_toIdle (m : Fsm) (now : Nat) (grow : Bool) :
    Armed restarted proposed (m.toIdle now grow) :=
  .idle (state_toIdle m now grow) fun _ hne => deadlines_toIdle m now grow hne

theorem armed_notifyAndIdle (m : Fsm) (now code subcode : Nat) (data : Bytes)
    (grow : Bool) : Armed restarted proposed (m.notifyAndIdle now code subcode data grow) :=
  armed_toIdle _ now grow

theorem armed_startConnecting {m : Fsm} (now : Nat) (hretry : 0 < m.config.connectRetry) :
    Armed restarted proposed (m.startConnecting now) := by
  rw [startConnecting]
  split
  · exact .waiting (Or.inr (by simp)) (Or.inl (by simp [hretry]))
  · exact .waiting (Or.inl (by simp)) (Or.inl (by simp [hretry]))

theorem armed_sendOpenAndWait (m : Fsm) (now : Nat) :
    Armed restarted proposed (m.sendOpenAndWait now) :=
  .openSent (by simp [sendOpenAndWait]) (by simp [sendOpenAndWait, OPEN_HOLD])

theorem armed_connectionUp {m : Fsm} (now : Nat) (hwaiting : m.Waiting) :
    Armed restarted proposed (m.connectionUp now) := by
  rw [connectionUp]
  split
  · next hdelay => exact .waiting hwaiting (Or.inr (by simp_all))
  · exact armed_sendOpenAndWait _ now

/-- The interval keeps its ratio to a hold time that is smaller. -/
theorem scaledKeepalive_lt {m : Fsm} {hold : Nat} (htwo : 2 ≤ hold)
    (hle : hold ≤ m.config.holdTime) : m.scaledKeepalive hold < hold := by
  have hpos : 0 < m.config.holdTime := by omega
  have hratio : m.config.keepalive < m.config.holdTime := by
    rcases m.config.keepalive_less with hzero | hless
    · omega
    · exact hless
  have hscaled : hold * m.config.keepalive / m.config.holdTime < hold := by
    apply Nat.div_lt_of_lt_mul
    rw [Nat.mul_comm m.config.holdTime]
    exact Nat.mul_lt_mul_of_pos_left hratio (by omega)
  rw [scaledKeepalive, if_pos (by omega)]
  omega

theorem one_le_scaledKeepalive (m : Fsm) (hold : Nat) : 1 ≤ m.scaledKeepalive hold := by
  rw [scaledKeepalive]
  split <;> exact Nat.le_max_left _ _

theorem inForce_negotiateHold (m : Fsm) (now : Nat) {hold : Nat} (hlegal : hold ≠ 1) :
    (m.negotiateHold now hold).InForce now hold := by
  have hmin : min m.config.holdTime hold ≠ 0 → 2 ≤ min m.config.holdTime hold := by
    intro hne
    rcases m.config.hold_legal with hzero | hthree
    · omega
    · rw [MIN_HOLD_TIME] at hthree
      omega
  by_cases hnone : min m.config.holdTime hold = 0
  · constructor <;> simp [negotiateHold, hnone]
  · have hlt := scaledKeepalive_lt (m := m) (hmin hnone) (Nat.min_le_left _ _)
    have hone := one_le_scaledKeepalive m (min m.config.holdTime hold)
    constructor
    · simp [negotiateHold, hnone]
    · intro _
      simp only [negotiateHold, hnone, ne_eq, not_false_eq_true, if_true]
      simp
      omega
    · intro hzero
      simp [negotiateHold, hnone] at hzero

theorem armed_negotiateHold (m : Fsm) (now : Nat) {hold : Nat} (hlegal : hold ≠ 1) :
    Armed now hold (m.negotiateHold now hold) :=
  .session (Or.inl (by simp [negotiateHold])) (inForce_negotiateHold m now hlegal)

end Operations

section Events

variable {before m : Fsm} {ev : FsmEvent} {restarted proposed : Nat} (now : Nat)

theorem armed_inIdle (hfed : Fed ev before m) (hretry : 0 < m.config.connectRetry)
    (hstate : before.state = .idle)
    (rests : ∀ timer, timer ≠ .idleHold → before.deadlines.get? timer = none) :
    Armed restarted proposed (m.inIdle now ev) := by
  have hrests : Armed restarted proposed m := hfed.idle hstate rests
  have hdrop : Armed restarted proposed (m.act .drop) :=
    .idle (hfed.state.trans hstate) fun timer hne => hfed.fewer timer (rests timer hne)
  cases ev
  case manualStart => exact armed_startConnecting now hretry
  case automaticStart => exact armed_startConnecting now hretry
  case idleHoldExpired =>
    rw [inIdle]
    split
    · exact armed_startConnecting now hretry
    · exact hrests
  case tcpConnectionValid => exact hdrop
  case tcpCrAcked => exact hdrop
  case tcpConfirmed => exact hdrop
  all_goals exact hrests

theorem armed_open {hold : Nat} {m' : Fsm} (htaken : m.restarts ev = true)
    (hproposal : ev.proposal? = some hold)
    (h : hold ≠ 1 → Armed now hold m') (hlegal : ev.proposal? ≠ some 1) :
    Armed (m.restartedBy ev now restarted) (m.proposedBy ev proposed) m' := by
  rw [restartedBy, proposedBy, if_pos htaken, if_pos htaken, hproposal]
  exact h fun hone => hlegal (hproposal.trans (congrArg some hone))

theorem armed_restart {m' : Fsm} (htaken : m.restarts ev = true)
    (hnone : ev.proposal? = none) (h : Armed now proposed m') :
    Armed (m.restartedBy ev now restarted) (m.proposedBy ev proposed) m' := by
  rwa [restartedBy, proposedBy, if_pos htaken, if_pos htaken, hnone]

theorem armed_quiet {m' : Fsm} (hquiet : m.restarts ev = false) (h : Armed restarted proposed m') :
    Armed (m.restartedBy ev now restarted) (m.proposedBy ev proposed) m' := by
  rwa [restartedBy, proposedBy, hquiet, if_neg Bool.false_ne_true, if_neg Bool.false_ne_true]

theorem armed_inConnect (hfed : Fed ev before m) (hretry : 0 < m.config.connectRetry)
    (hlegal : ev.proposal? ≠ some 1) (hstate : before.state = .connect)
    (awake : (before.deadlines.get? .connectRetry).isSome ∨
      (before.deadlines.get? .delayOpen).isSome) :
    Armed (m.restartedBy ev now restarted) (m.proposedBy ev proposed) (m.inConnect now ev) := by
  have hconnect : m.state = .connect := hfed.state.trans hstate
  have hwaiting : m.Waiting := Or.inl hconnect
  cases ev
  case connectRetryExpired => exact .waiting hwaiting (Or.inl (by simp [inConnect, hretry]))
  case tcpConnectionValid => exact armed_connectionUp now hwaiting
  case tcpCrAcked => exact armed_connectionUp now hwaiting
  case tcpConfirmed => exact armed_connectionUp now hwaiting
  case tcpFails =>
    exact .waiting (Or.inr (by simp [inConnect])) (Or.inl (by simp [inConnect, hretry]))
  case delayOpenExpired => exact armed_sendOpenAndWait m now
  case bgpOpen hold =>
    exact armed_open now (by simp [restarts, hconnect]) rfl (armed_negotiateHold _ now) hlegal
  case bgpOpenDelayOpen hold =>
    exact armed_open now (by simp [restarts, hconnect]) rfl (armed_negotiateHold _ now) hlegal
  case headerErr args => exact armed_notifyAndIdle m now _ _ _ _
  case openMsgErr args => exact armed_notifyAndIdle m now _ _ _ _
  case notifyVersionErr => exact armed_toIdle m now _
  all_goals exact hfed.waiting (Or.inl hstate) awake (by simp) (by simp)

theorem armed_inActive (hfed : Fed ev before m) (hretry : 0 < m.config.connectRetry)
    (hlegal : ev.proposal? ≠ some 1) (hstate : before.state = .active)
    (awake : (before.deadlines.get? .connectRetry).isSome ∨
      (before.deadlines.get? .delayOpen).isSome) :
    Armed (m.restartedBy ev now restarted) (m.proposedBy ev proposed) (m.inActive now ev) := by
  have hactive : m.state = .active := hfed.state.trans hstate
  have hwaiting : m.Waiting := Or.inr hactive
  cases ev
  case connectRetryExpired =>
    rw [inActive]
    split
    · exact .waiting hwaiting (Or.inl (by simp [hretry]))
    · exact .waiting (Or.inl (by simp)) (Or.inl (by simp [hretry]))
  case tcpConnectionValid => exact armed_connectionUp now hwaiting
  case tcpCrAcked => exact armed_connectionUp now hwaiting
  case tcpConfirmed => exact armed_connectionUp now hwaiting
  case tcpFails => exact .waiting hwaiting (Or.inl (by simp [inActive, hretry]))
  case delayOpenExpired => exact armed_sendOpenAndWait m now
  case bgpOpen hold =>
    exact armed_open now (by simp [restarts, hactive]) rfl (armed_negotiateHold _ now) hlegal
  case bgpOpenDelayOpen hold =>
    exact armed_open now (by simp [restarts, hactive]) rfl (armed_negotiateHold _ now) hlegal
  case headerErr args => exact armed_notifyAndIdle m now _ _ _ _
  case openMsgErr args => exact armed_notifyAndIdle m now _ _ _ _
  case notifyVersionErr => exact armed_toIdle m now _
  all_goals exact hfed.waiting (Or.inr hstate) awake (by simp) (by simp)

theorem armed_inOpenSent (hfed : Fed ev before m) (hretry : 0 < m.config.connectRetry)
    (hlegal : ev.proposal? ≠ some 1) (hstate : before.state = .openSent)
    (hold : (before.deadlines.get? .hold).isSome) :
    Armed (m.restartedBy ev now restarted) (m.proposedBy ev proposed) (m.inOpenSent now ev) := by
  have hsent : m.state = .openSent := hfed.state.trans hstate
  cases ev
  case bgpOpen hold =>
    exact armed_open now (by simp [restarts, hsent]) rfl (armed_negotiateHold _ now) hlegal
  case holdExpired => exact armed_notifyAndIdle m now _ _ _ _
  case tcpFails =>
    exact .waiting (Or.inr (by simp [inOpenSent])) (Or.inl (by simp [inOpenSent, hretry]))
  case headerErr args => exact armed_notifyAndIdle m now _ _ _ _
  case openMsgErr args => exact armed_notifyAndIdle m now _ _ _ _
  case openCollisionDump => exact armed_notifyAndIdle m now _ _ _ _
  case notifyVersionErr => exact armed_toIdle m now _
  case notifyMsg => exact armed_toIdle m now _
  all_goals exact hfed.openSent hstate hold (by simp)

theorem InForce.act (h : m.InForce restarted proposed) (action : FsmAction) :
    (m.act action).InForce restarted proposed := ⟨h.agreed, h.timed, h.untimed⟩

theorem InForce.goto (h : m.InForce restarted proposed) (state : FsmState) :
    (m.goto now state).InForce restarted proposed := by
  obtain ⟨agreed, timed, untimed⟩ := h
  constructor <;> simpa

/-- Restarting the hold timer moves its deadline with the restart. -/
theorem InForce.restartHold (h : m.InForce restarted proposed) :
    (m.restartHold now).InForce now proposed := by
  by_cases hzero : m.holdTime = 0
  · have hsame : m.restartHold now = m := by rw [Fsm.restartHold, if_neg (by simp [hzero])]
    rw [hsame]
    exact ⟨h.agreed, fun hne => absurd hzero hne, h.untimed⟩
  · obtain ⟨-, hkeepalive, hinterval⟩ := h.timed hzero
    constructor
    · simp [h.agreed]
    · intro _
      have hpos : 0 < m.holdTime := Nat.pos_of_ne_zero hzero
      simp [Fsm.restartHold, hzero, hpos, hkeepalive, hinterval]
    · intro hnone
      simp [hzero] at hnone

/-- The keepalive timer goes off and is armed again. -/
theorem Fed.rearmed (hfed : Fed .keepaliveExpired before m)
    (h : before.InForce restarted proposed) :
    ((m.act .sendKeepalive).arm now .keepalive m.keepalive).InForce restarted proposed := by
  have hhold := hfed.same .hold (by simp [FsmTimer.event])
  constructor
  · simp [hfed.holdTime, hfed.config, h.agreed]
  · intro hne
    obtain ⟨hdeadline, -, hinterval⟩ := h.timed (by simpa [hfed.holdTime] using hne)
    have hpos : 0 < before.keepalive := hinterval.1
    simp [hfed.holdTime, hfed.keepalive, hhold, hdeadline, hinterval.1, hinterval.2, hpos]
  · intro hzero
    obtain ⟨hnone, -, hinterval⟩ := h.untimed (by simpa [hfed.holdTime] using hzero)
    simp [hfed.keepalive, hhold, hnone, hinterval]

theorem armed_inOpenConfirm (hfed : Fed ev before m) (hstate : before.state = .openConfirm)
    (inForce : before.InForce restarted proposed) :
    Armed (m.restartedBy ev now restarted) (m.proposedBy ev proposed) (m.inOpenConfirm now ev) := by
  have hconfirm : m.state = .openConfirm := hfed.state.trans hstate
  have hsame : ev ≠ .keepaliveMsg → m.restarts ev = false := by
    cases ev <;> simp [restarts, hconfirm]
  cases ev
  case keepaliveMsg =>
    apply armed_restart now (by simp [restarts, hconfirm]) rfl
    apply Armed.session (Or.inr (by simp [inOpenConfirm]))
    exact (((hfed.inForce inForce (by simp) (by simp)).restartHold now).act _).goto now _
  case keepaliveExpired =>
    apply armed_quiet now (hsame (by simp))
    exact .session (Or.inl hconfirm) (hfed.rearmed now inForce)
  case holdExpired => exact armed_notifyAndIdle m now _ _ _ _
  case tcpFails => exact armed_toIdle m now _
  case notifyMsg => exact armed_toIdle m now _
  case notifyVersionErr => exact armed_toIdle m now _
  case openCollisionDump => exact armed_notifyAndIdle m now _ _ _ _
  case headerErr args => exact armed_notifyAndIdle m now _ _ _ _
  case openMsgErr args => exact armed_notifyAndIdle m now _ _ _ _
  all_goals
    apply armed_quiet now (hsame (by simp))
    exact .session (Or.inl hconfirm) (hfed.inForce inForce (by simp) (by simp))

theorem armed_inEstablished (hfed : Fed ev before m) (hstate : before.state = .established)
    (inForce : before.InForce restarted proposed) :
    Armed (m.restartedBy ev now restarted) (m.proposedBy ev proposed) (m.inEstablished now ev) := by
  have hup : m.state = .established := hfed.state.trans hstate
  have hrestart : ∀ hev : ev ≠ .holdExpired ∧ ev ≠ .keepaliveExpired,
      Armed now proposed (m.restartHold now) := fun hev =>
    .session (Or.inr (by simp [hup])) ((hfed.inForce inForce hev.1 hev.2).restartHold now)
  have hrefuse : ev ≠ .holdExpired → ev ≠ .keepaliveExpired →
      Armed restarted proposed (m.act .refuse) := fun hhold hkeepalive =>
    .session (Or.inr hup) ((hfed.inForce inForce hhold hkeepalive).act .refuse)
  cases ev
  case keepaliveMsg => exact armed_restart now (by simp [restarts, hup]) rfl (hrestart (by simp))
  case updateMsg => exact armed_restart now (by simp [restarts, hup]) rfl (hrestart (by simp))
  case keepaliveExpired =>
    apply armed_quiet now (by simp [restarts, hup])
    exact .session (Or.inr hup) (hfed.rearmed now inForce)
  case holdExpired => exact armed_notifyAndIdle m now _ _ _ _
  case tcpFails => exact armed_toIdle m now _
  case notifyMsg => exact armed_toIdle m now _
  case updateMsgErr args => exact armed_notifyAndIdle m now _ _ _ _
  case headerErr args => exact armed_notifyAndIdle m now _ _ _ _
  case bgpOpen hold => exact armed_notifyAndIdle m now _ _ _ _
  case openMsgErr args => exact armed_notifyAndIdle m now _ _ _ _
  case openCollisionDump => exact armed_notifyAndIdle m now _ _ _ _
  all_goals
    apply armed_quiet now (by simp [restarts, hup])
    first
      | exact hrefuse (by simp) (by simp)
      | exact .session (Or.inr hup) (hfed.inForce inForce (by simp) (by simp))

theorem armed_handle (hfed : Fed ev before m) (hretry : 0 < m.config.connectRetry)
    (hlegal : ev.proposal? ≠ some 1) (h : Armed restarted proposed before) :
    Armed (m.restartedBy ev now restarted) (m.proposedBy ev proposed) (m.handle now ev) := by
  rw [handle, hfed.state]
  cases h with
  | idle hstate rests =>
    rw [hstate]
    exact armed_inIdle now hfed hretry hstate rests
  | waiting hstate awake =>
    rcases hstate with hstate | hstate
    · rw [hstate]
      exact armed_inConnect now hfed hretry hlegal hstate awake
    · rw [hstate]
      exact armed_inActive now hfed hretry hlegal hstate awake
  | openSent hstate hold =>
    rw [hstate]
    exact armed_inOpenSent now hfed hretry hlegal hstate hold
  | session hstate inForce =>
    rcases hstate with hstate | hstate
    · rw [hstate]
      exact armed_inOpenConfirm now hfed hstate inForce
    · rw [hstate]
      exact armed_inEstablished now hfed hstate inForce

/-- Every event leaves the timers of the state it leads to. -/
theorem armed_event (hfed : Fed ev before m) (hretry : 0 < m.config.connectRetry)
    (hlegal : ev.proposal? ≠ some 1) (h : Armed restarted proposed before) :
    Armed (m.restartedBy ev now restarted) (m.proposedBy ev proposed) (m.event now ev) := by
  have hhandle := armed_handle now hfed hretry hlegal h
  cases ev
  case manualStop subcode => exact .idle (by simp [event]) (by simp [event])
  case automaticStop =>
    rw [event]
    split
    · exact armed_notifyAndIdle m now _ _ _ _
    · next hidle =>
        rw [handle, not_not.mp hidle] at hhandle
        exact hhandle
  all_goals exact hhandle

end Events

theorem armed_abandonConnection {m : Fsm} {restarted proposed : Nat} (now : Nat)
    (hretry : 0 < m.config.connectRetry) (h : Armed restarted proposed m) :
    Armed restarted proposed (m.abandonConnection now) := by
  rw [abandonConnection]
  split
  · exact h
  · exact .waiting (Or.inr (by simp)) (Or.inl (by simp [resetTimes, hretry]))

end Fsm

/-- No OPEN with a hold time of one second. -/
def FsmInput.Timed : FsmInput → Prop
  | .event ev => ev.proposal? ≠ some 1
  | _ => True

instance : DecidablePred FsmInput.Timed
  | .event ev => inferInstanceAs (Decidable (ev.proposal? ≠ some 1))
  | .tick | .abandon | .takeActions => inferInstanceAs (Decidable True)

namespace FsmTrace

/-- The timers of a history's machine are those of its state. -/
structure TimersMatch (t : FsmTrace) : Prop where
  timed : t.fsm.InSession → t.fsm.holdTime ≠ 0 →
    t.fsm.deadlines.get? .hold = some (t.restarted + t.fsm.holdTime * SECOND) ∧
      (t.fsm.deadlines.get? .keepalive).isSome ∧
      1 ≤ t.fsm.keepalive ∧ t.fsm.keepalive < t.fsm.holdTime ∧
      t.fsm.holdTime ≤ t.fsm.config.holdTime ∧ t.fsm.holdTime ≤ t.proposed
  untimed : t.fsm.InSession → t.fsm.holdTime = 0 →
    t.fsm.deadlines.get? .hold = none ∧ t.fsm.deadlines.get? .keepalive = none
  openSent : t.fsm.state = .openSent → (t.fsm.deadlines.get? .hold).isSome
  waiting : t.fsm.Waiting →
    (t.fsm.deadlines.get? .connectRetry).isSome ∨ (t.fsm.deadlines.get? .delayOpen).isSome
  idle : t.fsm.state = .idle → ∀ timer, timer ≠ .idleHold → t.fsm.deadlines.get? timer = none

/-- The invariant every input keeps. -/
structure Kept (config : FsmConfig) (t : FsmTrace) : Prop where
  config : t.fsm.config = config
  armed : t.fsm.Armed t.restarted t.proposed

variable {config : FsmConfig} {t : FsmTrace}

theorem kept_new (config : FsmConfig) : Kept config (new config) := ⟨rfl, .idle rfl fun _ _ => rfl⟩

theorem Kept.event (h : Kept config t) (hretry : 0 < config.connectRetry) (now : Nat)
    {ev : FsmEvent} (hlegal : ev.proposal? ≠ some 1) : Kept config (t.event now ev) where
  config := (Fsm.config_event _ now ev).trans h.config
  armed := Fsm.armed_event now (.refl ev t.fsm) (h.config ▸ hretry) hlegal h.armed

theorem Kept.fire (h : Kept config t) (hretry : 0 < config.connectRetry) (now : Nat)
    (timer : FsmTimer) : Kept config (t.fire now timer) where
  config := (Fsm.config_event _ now _).trans h.config
  armed := Fsm.armed_event now (Fsm.fed_stop t.fsm timer) (h.config ▸ hretry)
    (by cases timer <;> simp [FsmTimer.event, FsmEvent.proposal?]) h.armed

theorem Kept.fireDue (h : Kept config t) (hretry : 0 < config.connectRetry) (now fuel : Nat) :
    Kept config (fireDue now fuel t) := by
  induction fuel generalizing t with
  | zero => exact h
  | succ fuel ih =>
    rw [FsmTrace.fireDue]
    split
    · exact h
    · next timer _ => exact ih (h.fire hretry now timer)

theorem Kept.apply (h : Kept config t) (hretry : 0 < config.connectRetry) (now : Nat)
    {input : FsmInput} (hlegal : input.Timed) : Kept config (t.apply now input) := by
  cases input with
  | event ev => exact h.event hretry now hlegal
  | tick => exact h.fireDue hretry now _
  | abandon =>
    exact ⟨(Fsm.config_abandonConnection _ now).trans h.config,
      Fsm.armed_abandonConnection now (h.config ▸ hretry) h.armed⟩
  | takeActions =>
    refine ⟨h.config, ?_⟩
    cases h.armed with
    | idle hstate rests => exact .idle hstate rests
    | waiting hstate awake => exact .waiting hstate awake
    | openSent hstate hold => exact .openSent hstate hold
    | session hstate inForce =>
      exact .session hstate ⟨inForce.agreed, inForce.timed, inForce.untimed⟩

theorem kept_run (hretry : 0 < config.connectRetry) {inputs : List (Nat × FsmInput)}
    (hlegal : ∀ input ∈ inputs, input.2.Timed) : Kept config (run config inputs) := by
  have hfrom : ∀ t, Kept config t →
      Kept config (inputs.foldl (fun t input => t.apply input.1 input.2) t) := by
    induction inputs with
    | nil => exact fun _ h => h
    | cons input rest ih =>
      intro t h
      exact ih (fun other hother => hlegal other (List.mem_cons_of_mem input hother)) _
        (h.apply hretry input.1 (hlegal input List.mem_cons_self))
  exact hfrom _ (kept_new config)

theorem Kept.timersMatch (h : Kept config t) : TimersMatch t := by
  cases h.armed with
  | idle hstate rests => constructor <;> simp_all [Fsm.InSession, Fsm.Waiting]
  | waiting hstate awake =>
    rcases hstate with hstate | hstate <;> constructor <;>
      simp_all [Fsm.InSession, Fsm.Waiting]
  | openSent hstate hold => constructor <;> simp_all [Fsm.InSession, Fsm.Waiting]
  | session hstate inForce =>
    obtain ⟨agreed, timed, untimed⟩ := inForce
    have hours : t.fsm.holdTime ≤ t.fsm.config.holdTime := agreed ▸ Nat.min_le_left _ _
    have htheirs : t.fsm.holdTime ≤ t.proposed := agreed ▸ Nat.min_le_right _ _
    constructor
    · intro _ hne
      obtain ⟨hhold, hkeepalive, hone, hlt⟩ := timed hne
      exact ⟨hhold, hkeepalive, hone, hlt, hours, htheirs⟩
    · intro _ hzero
      exact ⟨(untimed hzero).1, (untimed hzero).2.1⟩
    all_goals rcases hstate with hstate | hstate <;> simp [hstate, Fsm.Waiting]

/-- Settings as a neighbour without timers of its own has them. -/
def plainConfig : FsmConfig := .usual

/-- Whatever happens to a machine, its timers are those of its state. -/
theorem timersMatch_run (config : FsmConfig) (inputs : List (Nat × FsmInput))
    (hretry : 0 < config.connectRetry) (hlegal : ∀ input ∈ inputs, input.2.Timed) :
    TimersMatch (run config inputs) :=
  (kept_run hretry hlegal).timersMatch

/-- A session comes up, and an UPDATE comes in a second later. -/
def comingUp : List (Nat × FsmInput) :=
  [(0, .event .manualStart), (1, .event .tcpCrAcked), (2, .event (.bgpOpen 30)),
    (3, .event .keepaliveMsg), (SECOND, .event .updateMsg)]

theorem timersMatch_run_comingUp :
    (run plainConfig comingUp).fsm.state = .established ∧ TimersMatch (run plainConfig comingUp) :=
  ⟨rfl, timersMatch_run plainConfig comingUp (by decide) (by decide +kernel)⟩

/-- A hold time of one second leaves no room for a keepalive, and without a retry
interval nothing wakes a machine that waits. -/
theorem not_timersMatch_run :
    (∃ config inputs, 0 < config.connectRetry ∧ ¬ TimersMatch (run config inputs)) ∧
      ∃ config inputs, (∀ input ∈ inputs, input.2.Timed) ∧ ¬ TimersMatch (run config inputs) := by
  constructor
  · refine ⟨plainConfig, [(0, .event .manualStart), (1, .event .tcpCrAcked),
      (2, .event (.bgpOpen 1))], by decide, ?_⟩
    intro h
    have htimed := h.timed (Or.inl rfl) (by decide)
    exact absurd htimed.2.2.2.1 (by decide)
  · refine ⟨{ plainConfig with connectRetry := 0 }, [(0, .event .manualStart)],
      by decide +kernel, ?_⟩
    intro h
    have hawake := h.waiting (Or.inl rfl)
    exact absurd hawake (by decide)

end FsmTrace

end Packets
