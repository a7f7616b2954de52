/-
What the machine of a session tells its caller over a run: a session that comes up is
released before the next one comes up.
-/
import Packets.Bgp.FsmConnection

namespace Packets

namespace Fsm

/-- Whether a session is up for a caller that carries out an action; none where it is told
of a session that is up already. -/
def heed (up : Option Bool) : FsmAction → Option Bool
  | .established => if up = some false then some true else none
  | .release => up.map fun _ => false
  | _ => up

/-- The machine has queued actions after which a caller that knew its state knows it again. -/
def Reports (m m' : Fsm) : Prop :=
  ∃ more, m'.actions = m.actions ++ more ∧
    more.foldl heed (some (decide (m.state = .established))) =
      some (decide (m'.state = .established))

theorem Reports.of_quiet {m m' : Fsm} {more : List FsmAction}
    (hactions : m'.actions = m.actions ++ more)
    (hstate : m'.state = .established ↔ m.state = .established)
    (hquiet : ∀ up, more.foldl heed up = up) : Reports m m' :=
  ⟨more, hactions, by rw [hquiet]; simp [hstate]⟩

theorem Reports.of_same {m m' : Fsm} (hactions : m'.actions = m.actions)
    (hstate : m'.state = .established ↔ m.state = .established) : Reports m m' :=
  ⟨[], by simp [hactions], by simp [hstate]⟩

theorem reports_refl (m : Fsm) : Reports m m := Reports.of_same rfl Iff.rfl

theorem Reports.trans {m m' m'' : Fsm} (h : Reports m m') (h' : Reports m' m'') :
    Reports m m'' := by
  obtain ⟨more, hactions, hup⟩ := h
  obtain ⟨more', hactions', hup'⟩ := h'
  exact ⟨more ++ more', by simp [hactions, hactions'], by rw [List.foldl_append, hup, hup']⟩

section Events

variable {m : Fsm} (now : Nat) {ev : FsmEvent}

theorem reports_toIdle (grow : Bool) : Reports m (m.toIdle now grow) :=
  ⟨[.drop, .release], by simp, by simp [heed]⟩

theorem reports_notifyAndIdle (code subcode : Nat) (data : Bytes) (grow : Bool) :
    Reports m (m.notifyAndIdle now code subcode data grow) :=
  ⟨[.sendNotify code subcode data, .drop, .release], by simp, by simp [heed]⟩

theorem reports_startConnecting (hdown : m.state ≠ .established) :
    Reports m (m.startConnecting now) := by
  rw [startConnecting]
  split
  · exact ⟨[.listenOnly], by simp, by simp [heed, hdown]⟩
  · exact ⟨[.connect], by simp, by simp [heed, hdown]⟩

theorem reports_sendOpenAndWait (hdown : m.state ≠ .established) :
    Reports m (m.sendOpenAndWait now) :=
  ⟨[.sendOpen], by simp [sendOpenAndWait], by simp [sendOpenAndWait, heed, hdown]⟩

theorem reports_connectionUp (hdown : m.state ≠ .established) : Reports m (m.connectionUp now) := by
  rw [connectionUp]
  split
  · exact Reports.of_same (by simp) (by simp)
  · exact ⟨[.sendOpen], by simp [sendOpenAndWait], by simp [sendOpenAndWait, heed, hdown]⟩

theorem reports_negotiateHold (hold : Nat) (hdown : m.state ≠ .established) :
    Reports m (m.negotiateHold now hold) := by
  refine ⟨[.sendKeepalive], actions_negotiateHold m now hold, ?_⟩
  rw [negotiateHold]
  split <;> simp [heed, hdown]

theorem reports_openDuringDelay (hold : Nat) (hdown : m.state ≠ .established) :
    Reports m (m.openDuringDelay now hold) := by
  have hopen : Reports m ((m.stop [.delayOpen]).act .sendOpen) :=
    Reports.of_quiet (actions_act _ _) Iff.rfl fun _ => rfl
  exact hopen.trans (reports_negotiateHold now hold (by simpa using hdown))

theorem reports_inIdle (hdown : m.state ≠ .established) : Reports m (m.inIdle now ev) := by
  have hdrop : Reports m (m.act .drop) := Reports.of_quiet (actions_act _ _) Iff.rfl fun _ => rfl
  cases ev
  case manualStart =>
    have hreset : Reports m ({ m with idleHold := 0 }.stop [.idleHold]) :=
      Reports.of_same rfl Iff.rfl
    exact hreset.trans (reports_startConnecting now hdown)
  case automaticStart => exact reports_startConnecting now hdown
  case idleHoldExpired =>
    rw [inIdle]
    split
    · exact reports_startConnecting now hdown
    · exact reports_refl m
  case tcpConnectionValid | tcpCrAcked | tcpConfirmed => exact hdrop
  all_goals exact reports_refl m

theorem reports_inConnect (hdown : m.state ≠ .established) : Reports m (m.inConnect now ev) := by
  cases ev
  case connectRetryExpired =>
    have hactions : (m.inConnect now .connectRetryExpired).actions =
        m.actions ++ [.drop, .connect] := by simp [inConnect]
    exact Reports.of_quiet hactions (by simp [inConnect]) fun _ => rfl
  case tcpConnectionValid | tcpCrAcked | tcpConfirmed => exact reports_connectionUp now hdown
  case tcpFails => exact Reports.of_same (by simp [inConnect]) (by simp [inConnect, hdown])
  case delayOpenExpired => exact reports_sendOpenAndWait now hdown
  case bgpOpen hold | bgpOpenDelayOpen hold => exact reports_openDuringDelay now hold hdown
  case headerErr | openMsgErr => exact reports_notifyAndIdle now _ _ _ _
  case notifyVersionErr => exact reports_toIdle now _
  all_goals exact reports_refl m

theorem reports_inActive (hdown : m.state ≠ .established) : Reports m (m.inActive now ev) := by
  cases ev
  case connectRetryExpired =>
    rw [inActive]
    split
    · exact Reports.of_same (by simp) (by simp)
    · exact ⟨[.connect], by simp, by simp [heed, hdown]⟩
  case tcpConnectionValid | tcpCrAcked | tcpConfirmed => exact reports_connectionUp now hdown
  case tcpFails => exact Reports.of_same (by simp [inActive]) (by simp [inActive])
  case delayOpenExpired => exact reports_sendOpenAndWait now hdown
  case bgpOpen hold | bgpOpenDelayOpen hold => exact reports_openDuringDelay now hold hdown
  case headerErr | openMsgErr => exact reports_notifyAndIdle now _ _ _ _
  case notifyVersionErr => exact reports_toIdle now _
  all_goals exact reports_refl m

theorem reports_inOpenSent (hdown : m.state ≠ .established) : Reports m (m.inOpenSent now ev) := by
  cases ev
  case bgpOpen hold => exact reports_negotiateHold now hold hdown
  case holdExpired => exact reports_notifyAndIdle now _ _ _ _
  case tcpFails => exact ⟨[.drop], by simp [inOpenSent], by simp [inOpenSent, heed, hdown]⟩
  case headerErr | openMsgErr | openCollisionDump => exact reports_notifyAndIdle now _ _ _ _
  case notifyVersionErr | notifyMsg => exact reports_toIdle now _
  all_goals exact reports_refl m

/-- Only a KEEPALIVE in OpenConfirm brings a session up. -/
theorem reports_inOpenConfirm (hdown : m.state ≠ .established) :
    Reports m (m.inOpenConfirm now ev) := by
  cases ev
  case keepaliveMsg =>
    exact ⟨[.established], by simp [inOpenConfirm], by simp [inOpenConfirm, heed, hdown]⟩
  case keepaliveExpired => exact Reports.of_quiet (actions_act _ _) Iff.rfl fun _ => rfl
  case holdExpired => exact reports_notifyAndIdle now _ _ _ _
  case tcpFails | notifyMsg | notifyVersionErr => exact reports_toIdle now _
  case openCollisionDump | headerErr | openMsgErr => exact reports_notifyAndIdle now _ _ _ _
  all_goals exact reports_refl m

theorem reports_inEstablished : Reports m (m.inEstablished now ev) := by
  have hrefuse : Reports m (m.act .refuse) :=
    Reports.of_quiet (actions_act _ _) Iff.rfl fun _ => rfl
  have hrestart : Reports m (m.restartHold now) := Reports.of_same (by simp) (by simp)
  cases ev
  case keepaliveMsg | updateMsg => exact hrestart
  case keepaliveExpired => exact Reports.of_quiet (actions_act _ _) Iff.rfl fun _ => rfl
  case holdExpired => exact reports_notifyAndIdle now _ _ _ _
  case tcpFails | notifyMsg => exact reports_toIdle now _
  case updateMsgErr | headerErr | bgpOpen | openMsgErr | openCollisionDump =>
    exact reports_notifyAndIdle now _ _ _ _
  case tcpConnectionValid | tcpCrAcked | tcpConfirmed => exact hrefuse
  all_goals exact reports_refl m

theorem handle_reports (ev : FsmEvent) : Reports m (m.handle now ev) := by
  rw [handle]
  cases hstate : m.state with
  | idle => exact reports_inIdle now (by simp [hstate])
  | connect => exact reports_inConnect now (by simp [hstate])
  | active => exact reports_inActive now (by simp [hstate])
  | openSent => exact reports_inOpenSent now (by simp [hstate])
  | openConfirm => exact reports_inOpenConfirm now (by simp [hstate])
  | established => exact reports_inEstablished now

theorem event_reports (ev : FsmEvent) : Reports m (m.event now ev) := by
  cases ev
  case manualStop subcode =>
    rw [event]
    split
    · refine (reports_notifyAndIdle now NOTIFY_CEASE (subcode.getD CEASE_ADMIN_SHUTDOWN) []
        false).trans ⟨[.listenOnly], by simp, ?_⟩
      simp [heed]
    · rename_i hidle
      rw [not_not] at hidle
      exact ⟨[.listenOnly], by simp, by simp [hidle, heed]⟩
  case automaticStop =>
    rw [event]
    split
    · exact reports_notifyAndIdle now _ _ _ _
    · exact Reports.of_same rfl Iff.rfl
  all_goals exact handle_reports now _

theorem abandonConnection_reports : Reports m (m.abandonConnection now) := by
  rw [abandonConnection]
  split
  · exact Reports.of_same rfl Iff.rfl
  · rename_i hwait
    rw [not_or] at hwait
    exact Reports.of_same (by simp) (by simp [hwait.2])

end Events

theorem fireDue_reports (now fuel : Nat) : ∀ m : Fsm, Reports m (fireDue now fuel m) := by
  induction fuel with
  | zero => exact fun m => Reports.of_same rfl Iff.rfl
  | succ fuel ih =>
    intro m
    rw [fireDue]
    split
    · exact Reports.of_same rfl Iff.rfl
    · rename_i timer _
      have hstop : Reports m (m.stop [timer]) := Reports.of_same rfl Iff.rfl
      exact (hstop.trans (event_reports now _)).trans (ih _)

end Fsm

/-- A machine with the actions its caller has taken. -/
structure Served where
  fsm : Fsm
  taken : List FsmAction

namespace Served

def new (config : FsmConfig) : Served := ⟨Fsm.new config, []⟩

def apply (s : Served) (now : Nat) : FsmInput → Served
  | .event ev => { s with fsm := s.fsm.event now ev }
  | .tick => { s with fsm := s.fsm.tick now }
  | .abandon => { s with fsm := s.fsm.abandonConnection now }
  | .takeActions => ⟨s.fsm.takeActions.2, s.taken ++ s.fsm.takeActions.1⟩

def run (config : FsmConfig) (inputs : List (Nat × FsmInput)) : Served :=
  inputs.foldl (fun s input => s.apply input.1 input.2) (new config)

/-- Taken or still queued. -/
def actions (s : Served) : List FsmAction := s.taken ++ s.fsm.actions

/-- The actions tell what the machine's state is. -/
def Told (s : Served) : Prop :=
  s.actions.foldl Fsm.heed (some false) = some (decide (s.fsm.state = .established))

theorem Told.reports {s : Served} (h : s.Told) {m : Fsm} (hreports : Fsm.Reports s.fsm m) :
    Told { s with fsm := m } := by
  obtain ⟨more, hactions, hup⟩ := hreports
  rw [Told, actions] at h ⊢
  rw [hactions, ← List.append_assoc, List.foldl_append, h, hup]

theorem Told.apply {s : Served} (h : s.Told) (now : Nat) (input : FsmInput) :
    (s.apply now input).Told := by
  cases input with
  | event ev => exact h.reports (Fsm.event_reports now ev)
  | tick => exact h.reports (Fsm.fireDue_reports now _ _)
  | abandon => exact h.reports (Fsm.abandonConnection_reports now)
  | takeActions =>
    have hsame : ((s.apply now .takeActions).actions) = s.actions := by
      simp [Served.apply, actions, Fsm.takeActions]
    rw [Told, hsame]
    exact h

/-- Sessions come up and are released in turn.  In every run of a machine (any events, ticks
and abandoned connections at any times, with any settings, and actions taken at any point) a
caller that carries the actions out in order is told of no session that is already up, and
after each input the last it is told, or is yet to take, says whether the machine is in
Established. -/
theorem actions_tell_state (config : FsmConfig) (inputs : List (Nat × FsmInput)) :
    ((run config inputs).taken ++ (run config inputs).fsm.actions).foldl Fsm.heed (some false) =
      some (decide ((run config inputs).fsm.state = .established)) := by
  have htold : (run config inputs).Told := by
    refine List.foldlRecOn inputs _ (motive := Told) ?_ fun s hs input _ => hs.apply _ _
    rfl
  exact htold

end Served

end Packets
