/-
Whether a connection stands behind a session's handshake.

The delay-open timer survives a TCP failure, so it can go off when the connection it was armed
for is gone.
-/
import Packets.Bgp.FsmRuns

namespace Packets

/-- The events that can take a waiting machine past the handshake by themselves. -/
def FsmEvent.opensSession : FsmEvent → Bool
  | .bgpOpen _ | .bgpOpenDelayOpen _ | .delayOpenExpired => true
  | _ => false

namespace Fsm

/-- Nothing of a connection is left: no OPEN was sent, and no timer will send one. -/
structure Parted (m : Fsm) : Prop where
  down : m.state = .idle ∨ m.Waiting
  still : m.deadlines.get? .delayOpen = none

/-- The delay-open timer only runs while the machine waits. -/
def DelayWaits (m : Fsm) : Prop := m.deadlines.get? .delayOpen ≠ none → m.Waiting

theorem Parted.delayWaits {m : Fsm} (h : m.Parted) : m.DelayWaits :=
  fun hruns => absurd h.still hruns

theorem delayWaits_of_none {m : Fsm} (h : m.deadlines.get? .delayOpen = none) :
    m.DelayWaits := fun hruns => absurd h hruns

theorem Parted.not_pastHandshake {m : Fsm} (h : m.Parted) : ¬ m.PastHandshake := by
  rcases h.down with hidle | hconnect | hactive <;>
    simp_all [PastHandshake, InSession]

theorem parted_toIdle (m : Fsm) (now : Nat) (grow : Bool) : (m.toIdle now grow).Parted :=
  ⟨Or.inl (state_toIdle m now grow), deadlines_toIdle m now grow (by decide)⟩

theorem parted_notifyAndIdle (m : Fsm) (now code subcode : Nat) (data : Bytes)
    (grow : Bool) : (m.notifyAndIdle now code subcode data grow).Parted :=
  parted_toIdle _ now grow

theorem parted_startConnecting {m : Fsm} (now : Nat)
    (hstill : m.deadlines.get? .delayOpen = none) : (m.startConnecting now).Parted := by
  rw [startConnecting]
  split
  · exact ⟨Or.inr (Or.inr (by simp)), by simp [hstill]⟩
  · exact ⟨Or.inr (Or.inl (by simp)), by simp [hstill]⟩

theorem delayWaits_sendOpenAndWait (m : Fsm) (now : Nat) : (m.sendOpenAndWait now).DelayWaits :=
  delayWaits_of_none (by simp [sendOpenAndWait])

theorem delayWaits_connectionUp {m : Fsm} (now : Nat) (hwaiting : m.Waiting) :
    (m.connectionUp now).DelayWaits := by
  rw [connectionUp]
  split
  · exact fun _ => hwaiting
  · exact delayWaits_sendOpenAndWait _ now

theorem delayWaits_negotiateHold {m : Fsm} (now hold : Nat)
    (hstill : m.deadlines.get? .delayOpen = none) : (m.negotiateHold now hold).DelayWaits := by
  apply delayWaits_of_none
  rw [negotiateHold]
  split <;> simp [hstill]

section Events

variable {m : Fsm} {ev : FsmEvent} (now : Nat)

theorem DelayWaits.still (h : m.DelayWaits) (hdown : ¬ m.Waiting) :
    m.deadlines.get? .delayOpen = none := by
  by_contra hruns
  exact hdown (h hruns)

theorem DelayWaits.inIdle (h : m.DelayWaits) (hstate : m.state = .idle) :
    (m.inIdle now ev).Parted := by
  have hstill := h.still (by simp [Waiting, hstate])
  have hparted : m.Parted := ⟨Or.inl hstate, hstill⟩
  cases ev
  case manualStart => exact parted_startConnecting now (by simp [hstill])
  case automaticStart => exact parted_startConnecting now hstill
  case idleHoldExpired =>
    rw [Fsm.inIdle]
    split
    · exact parted_startConnecting now hstill
    · exact hparted
  all_goals exact ⟨Or.inl hstate, hstill⟩

theorem delayWaits_inConnect (hstate : m.state = .connect) : (m.inConnect now ev).DelayWaits := by
  have hwaiting : m.Waiting := Or.inl hstate
  cases ev
  case tcpConnectionValid => exact delayWaits_connectionUp now hwaiting
  case tcpCrAcked => exact delayWaits_connectionUp now hwaiting
  case tcpConfirmed => exact delayWaits_connectionUp now hwaiting
  case tcpFails => exact fun _ => Or.inr (by simp [inConnect])
  case delayOpenExpired => exact delayWaits_sendOpenAndWait m now
  case bgpOpen hold => exact delayWaits_negotiateHold now hold (by simp)
  case bgpOpenDelayOpen hold => exact delayWaits_negotiateHold now hold (by simp)
  case headerErr args => exact (parted_notifyAndIdle m now _ _ _ _).delayWaits
  case openMsgErr args => exact (parted_notifyAndIdle m now _ _ _ _).delayWaits
  case notifyVersionErr => exact (parted_toIdle m now _).delayWaits
  all_goals exact fun _ => hwaiting

theorem delayWaits_inActive (hstate : m.state = .active) : (m.inActive now ev).DelayWaits := by
  have hwaiting : m.Waiting := Or.inr hstate
  cases ev
  case connectRetryExpired =>
    rw [inActive]
    split
    · exact fun _ => hwaiting
    · exact fun _ => Or.inl (by simp)
  case tcpConnectionValid => exact delayWaits_connectionUp now hwaiting
  case tcpCrAcked => exact delayWaits_connectionUp now hwaiting
  case tcpConfirmed => exact delayWaits_connectionUp now hwaiting
  case delayOpenExpired => exact delayWaits_sendOpenAndWait m now
  case bgpOpen hold => exact delayWaits_negotiateHold now hold (by simp)
  case bgpOpenDelayOpen hold => exact delayWaits_negotiateHold now hold (by simp)
  case headerErr args => exact (parted_notifyAndIdle m now _ _ _ _).delayWaits
  case openMsgErr args => exact (parted_notifyAndIdle m now _ _ _ _).delayWaits
  case notifyVersionErr => exact (parted_toIdle m now _).delayWaits
  all_goals exact fun _ => hwaiting

/-- Past the handshake nothing arms the delay-open timer. -/
theorem still_pastHandshake (hpast : m.PastHandshake)
    (hstill : m.deadlines.get? .delayOpen = none) :
    (m.handle now ev).deadlines.get? .delayOpen = none := by
  rw [handle]
  rcases hpast with hstate | hstate | hstate <;> rw [hstate] <;> dsimp only
  · cases ev
    case bgpOpen hold =>
      rw [inOpenSent, negotiateHold]
      split <;> simp [hstill]
    all_goals simp [inOpenSent, deadlines_toIdle, deadlines_notifyAndIdle, hstill]
  · cases ev <;>
      simp [inOpenConfirm, deadlines_toIdle, deadlines_notifyAndIdle, deadlines_restartHold, hstill]
  · cases ev <;>
      simp [inEstablished, deadlines_toIdle, deadlines_notifyAndIdle, deadlines_restartHold, hstill]

theorem DelayWaits.handle (h : m.DelayWaits) : (m.handle now ev).DelayWaits := by
  have hpast : m.PastHandshake → (m.handle now ev).DelayWaits := fun hpast =>
    delayWaits_of_none (still_pastHandshake now hpast (h.still (by
      rcases hpast with hstate | hstate | hstate <;> simp [Waiting, hstate])))
  cases hstate : m.state with
  | idle =>
    rw [Fsm.handle, hstate]
    exact (h.inIdle now hstate).delayWaits
  | connect =>
    rw [Fsm.handle, hstate]
    exact delayWaits_inConnect now hstate
  | active =>
    rw [Fsm.handle, hstate]
    exact delayWaits_inActive now hstate
  | openSent => exact hpast (Or.inl hstate)
  | openConfirm => exact hpast (Or.inr (Or.inl hstate))
  | established => exact hpast (Or.inr (Or.inr hstate))

theorem DelayWaits.automaticStop (h : m.DelayWaits) : (m.event now .automaticStop).Parted := by
  rw [event]
  split
  · exact parted_notifyAndIdle m now _ _ _ _
  · next hidle =>
      have hstate := not_not.mp hidle
      exact ⟨Or.inl hstate, h.still (by simp [Waiting, hstate])⟩

theorem parted_manualStop (m : Fsm) (now : Nat) (subcode : Option Nat) :
    (m.event now (.manualStop subcode)).Parted :=
  ⟨Or.inl (by simp [event]), by simp [event]⟩

theorem DelayWaits.event (h : m.DelayWaits) : (m.event now ev).DelayWaits := by
  cases ev
  case manualStop subcode => exact (parted_manualStop m now subcode).delayWaits
  case automaticStop => exact (h.automaticStop now).delayWaits
  all_goals exact h.handle now

theorem Parted.inConnect (h : m.Parted) (hstate : m.state = .connect)
    (hconn : ev.isConnection = false) (hopens : ev.opensSession = false) :
    (m.inConnect now ev).Parted := by
  have hstill := h.still
  cases ev
  case tcpFails =>
    exact ⟨Or.inr (Or.inr (by simp [Fsm.inConnect])), by simp [Fsm.inConnect, hstill]⟩
  case connectRetryExpired => exact ⟨Or.inr (Or.inl hstate), by simp [Fsm.inConnect, hstill]⟩
  case headerErr args => exact parted_notifyAndIdle m now _ _ _ _
  case openMsgErr args => exact parted_notifyAndIdle m now _ _ _ _
  case notifyVersionErr => exact parted_toIdle m now _
  all_goals
    first
      | exact h
      | exact absurd (show true = false from hconn) (by decide)
      | exact absurd (show true = false from hopens) (by decide)

theorem Parted.inActive (h : m.Parted) (hstate : m.state = .active)
    (hconn : ev.isConnection = false) (hopens : ev.opensSession = false) :
    (m.inActive now ev).Parted := by
  have hstill := h.still
  cases ev
  case connectRetryExpired =>
    rw [Fsm.inActive]
    split
    · exact ⟨Or.inr (Or.inr hstate), by simp [hstill]⟩
    · exact ⟨Or.inr (Or.inl (by simp)), by simp [hstill]⟩
  case tcpFails => exact ⟨Or.inr (Or.inr hstate), by simp [Fsm.inActive, hstill]⟩
  case headerErr args => exact parted_notifyAndIdle m now _ _ _ _
  case openMsgErr args => exact parted_notifyAndIdle m now _ _ _ _
  case notifyVersionErr => exact parted_toIdle m now _
  all_goals
    first
      | exact h
      | exact absurd (show true = false from hconn) (by decide)
      | exact absurd (show true = false from hopens) (by decide)

/-- A machine without a connection stays without one. -/
theorem Parted.event (h : m.Parted)
    (hev : m.Waiting → ev.isConnection = false ∧ ev.opensSession = false) :
    (m.event now ev).Parted := by
  have hhandle : (m.handle now ev).Parted := by
    rcases h.down with hstate | hstate | hstate
    · rw [handle, hstate]
      exact h.delayWaits.inIdle now hstate
    · obtain ⟨hconn, hopens⟩ := hev (Or.inl hstate)
      rw [handle, hstate]
      exact h.inConnect now hstate hconn hopens
    · obtain ⟨hconn, hopens⟩ := hev (Or.inr hstate)
      rw [handle, hstate]
      exact h.inActive now hstate hconn hopens
  cases ev
  case manualStop subcode => exact parted_manualStop m now subcode
  case automaticStop => exact h.delayWaits.automaticStop now
  all_goals exact hhandle

/-- A TCP failure takes the connection away, unless the delay-open timer runs on. -/
theorem DelayWaits.tcpFails (h : m.DelayWaits)
    (hstill : m.Waiting → m.deadlines.get? .delayOpen = none) : (m.event now .tcpFails).Parted := by
  change (m.handle now .tcpFails).Parted
  rw [Fsm.handle]
  cases hstate : m.state with
  | idle => exact h.inIdle now hstate
  | connect =>
    exact Parted.inConnect now ⟨Or.inr (Or.inl hstate), hstill (Or.inl hstate)⟩ hstate rfl rfl
  | active =>
    exact Parted.inActive now ⟨Or.inr (Or.inr hstate), hstill (Or.inr hstate)⟩ hstate rfl rfl
  | openSent => exact ⟨Or.inr (Or.inr (by simp [inOpenSent])), by simp [inOpenSent]⟩
  | openConfirm => exact parted_toIdle m now _
  | established => exact parted_toIdle m now _

/-- An operation that does not ask for a drop. -/
def NoDrop (m m' : Fsm) : Prop := .drop ∉ m'.actions.drop m.actions.length

theorem noDrop_of_append {m' : Fsm} (more : List FsmAction)
    (hactions : m'.actions = m.actions ++ more) (hmore : .drop ∉ more) : NoDrop m m' := by
  rw [NoDrop, hactions, List.drop_left]
  exact hmore

theorem noDrop_of_eq {m' : Fsm} (h : m'.actions = m.actions) : NoDrop m m' :=
  noDrop_of_append [] (by simp [h]) List.not_mem_nil

theorem noDrop_connectionUp (m : Fsm) (now : Nat) : NoDrop m (m.connectionUp now) := by
  rw [connectionUp]
  split
  · exact noDrop_of_eq rfl
  · exact noDrop_of_append [.sendOpen] (by simp [sendOpenAndWait]) (by simp)

theorem actions_negotiateHold (m : Fsm) (now hold : Nat) :
    (m.negotiateHold now hold).actions = m.actions ++ [.sendKeepalive] := by
  rw [negotiateHold]
  split <;> simp

theorem noDrop_openDuringDelay (m : Fsm) (now hold : Nat) : NoDrop m (m.openDuringDelay now hold) :=
  noDrop_of_append [.sendOpen, .sendKeepalive]
    (by simp [openDuringDelay, actions_negotiateHold]) (by simp)

/-- Nothing is left of the connection, or it is not dropped. -/
def Settles (m m' : Fsm) : Prop := m'.Parted ∨ NoDrop m m'

theorem settles_refl (m : Fsm) : Settles m m := Or.inr (noDrop_of_eq rfl)

/-- A retry drops the connection, under a delay-open timer that still runs. -/
theorem settles_inConnect (hstate : m.state = .connect)
    (hretry : ev = .connectRetryExpired → m.deadlines.get? .delayOpen = none) :
    Settles m (m.inConnect now ev) := by
  cases ev
  case connectRetryExpired =>
    exact Or.inl (Parted.inConnect now ⟨Or.inr (Or.inl hstate), hretry rfl⟩ hstate rfl rfl)
  case tcpConnectionValid => exact Or.inr (noDrop_connectionUp m now)
  case tcpCrAcked => exact Or.inr (noDrop_connectionUp m now)
  case tcpConfirmed => exact Or.inr (noDrop_connectionUp m now)
  case tcpFails => exact Or.inr (noDrop_of_eq (by simp [inConnect]))
  case delayOpenExpired =>
    exact Or.inr (noDrop_of_append [.sendOpen] (by simp [inConnect, sendOpenAndWait]) (by simp))
  case bgpOpen hold => exact Or.inr (noDrop_openDuringDelay m now hold)
  case bgpOpenDelayOpen hold => exact Or.inr (noDrop_openDuringDelay m now hold)
  case headerErr args => exact Or.inl (parted_notifyAndIdle m now _ _ _ _)
  case openMsgErr args => exact Or.inl (parted_notifyAndIdle m now _ _ _ _)
  case notifyVersionErr => exact Or.inl (parted_toIdle m now _)
  all_goals exact settles_refl m

theorem settles_inActive : Settles m (m.inActive now ev) := by
  cases ev
  case connectRetryExpired =>
    rw [Fsm.inActive]
    split
    · exact Or.inr (noDrop_of_eq (by simp))
    · exact Or.inr (noDrop_of_append [.connect] (by simp) (by simp))
  case tcpConnectionValid => exact Or.inr (noDrop_connectionUp m now)
  case tcpCrAcked => exact Or.inr (noDrop_connectionUp m now)
  case tcpConfirmed => exact Or.inr (noDrop_connectionUp m now)
  case tcpFails => exact Or.inr (noDrop_of_eq rfl)
  case delayOpenExpired =>
    exact Or.inr (noDrop_of_append [.sendOpen] (by simp [inActive, sendOpenAndWait]) (by simp))
  case bgpOpen hold => exact Or.inr (noDrop_openDuringDelay m now hold)
  case bgpOpenDelayOpen hold => exact Or.inr (noDrop_openDuringDelay m now hold)
  case headerErr args => exact Or.inl (parted_notifyAndIdle m now _ _ _ _)
  case openMsgErr args => exact Or.inl (parted_notifyAndIdle m now _ _ _ _)
  case notifyVersionErr => exact Or.inl (parted_toIdle m now _)
  all_goals exact settles_refl m

theorem settles_inOpenSent : Settles m (m.inOpenSent now ev) := by
  cases ev
  case bgpOpen hold =>
    exact Or.inr (noDrop_of_append _ (actions_negotiateHold m now hold) (by simp))
  case holdExpired => exact Or.inl (parted_notifyAndIdle m now _ _ _ _)
  case tcpFails => exact Or.inl ⟨Or.inr (Or.inr (by simp [inOpenSent])), by simp [inOpenSent]⟩
  case headerErr args => exact Or.inl (parted_notifyAndIdle m now _ _ _ _)
  case openMsgErr args => exact Or.inl (parted_notifyAndIdle m now _ _ _ _)
  case openCollisionDump => exact Or.inl (parted_notifyAndIdle m now _ _ _ _)
  case notifyVersionErr => exact Or.inl (parted_toIdle m now _)
  case notifyMsg => exact Or.inl (parted_toIdle m now _)
  all_goals exact settles_refl m

theorem settles_inOpenConfirm : Settles m (m.inOpenConfirm now ev) := by
  cases ev
  case keepaliveMsg =>
    exact Or.inr (noDrop_of_append [.established] (by simp [inOpenConfirm]) (by simp))
  case keepaliveExpired =>
    exact Or.inr (noDrop_of_append [.sendKeepalive] (by simp [inOpenConfirm]) (by simp))
  case holdExpired => exact Or.inl (parted_notifyAndIdle m now _ _ _ _)
  case tcpFails => exact Or.inl (parted_toIdle m now _)
  case notifyMsg => exact Or.inl (parted_toIdle m now _)
  case notifyVersionErr => exact Or.inl (parted_toIdle m now _)
  case openCollisionDump => exact Or.inl (parted_notifyAndIdle m now _ _ _ _)
  case headerErr args => exact Or.inl (parted_notifyAndIdle m now _ _ _ _)
  case openMsgErr args => exact Or.inl (parted_notifyAndIdle m now _ _ _ _)
  all_goals exact settles_refl m

theorem settles_inEstablished : Settles m (m.inEstablished now ev) := by
  cases ev
  case keepaliveMsg => exact Or.inr (noDrop_of_eq (by simp [inEstablished]))
  case updateMsg => exact Or.inr (noDrop_of_eq (by simp [inEstablished]))
  case keepaliveExpired =>
    exact Or.inr (noDrop_of_append [.sendKeepalive] (by simp [inEstablished]) (by simp))
  case holdExpired => exact Or.inl (parted_notifyAndIdle m now _ _ _ _)
  case tcpFails => exact Or.inl (parted_toIdle m now _)
  case notifyMsg => exact Or.inl (parted_toIdle m now _)
  case updateMsgErr args => exact Or.inl (parted_notifyAndIdle m now _ _ _ _)
  case headerErr args => exact Or.inl (parted_notifyAndIdle m now _ _ _ _)
  case bgpOpen hold => exact Or.inl (parted_notifyAndIdle m now _ _ _ _)
  case openMsgErr args => exact Or.inl (parted_notifyAndIdle m now _ _ _ _)
  case openCollisionDump => exact Or.inl (parted_notifyAndIdle m now _ _ _ _)
  all_goals
    first
      | exact settles_refl m
      | exact Or.inr (noDrop_of_append [.refuse] rfl (by simp))

theorem DelayWaits.settles (h : m.DelayWaits)
    (hretry : ev = .connectRetryExpired → m.state = .connect → m.deadlines.get? .delayOpen = none) :
    Settles m (m.handle now ev) := by
  rw [Fsm.handle]
  cases hstate : m.state with
  | idle => exact Or.inl (h.inIdle now hstate)
  | connect => exact settles_inConnect now hstate fun hev => hretry hev hstate
  | active => exact settles_inActive now
  | openSent => exact settles_inOpenSent now
  | openConfirm => exact settles_inOpenConfirm now
  | established => exact settles_inEstablished now

end Events

/-- A timer that is due runs. -/
theorem nextDue_runs {m : Fsm} {now : Nat} {timer : FsmTimer}
    (h : m.nextDue now = some timer) : m.deadlines.get? timer ≠ none := by
  obtain ⟨entry, hentry, rfl⟩ := Option.map_eq_some_iff.mp h
  have hin : entry ∈ m.deadlines.entries := by
    refine List.foldlRecOn (motive := fun held => held = some entry → entry ∈ m.deadlines.entries)
      _ _ (by simp) ?_ hentry
    intro held ih e hmem hstep
    split at hstep
    · exact ih hstep
    · split at hstep
      · cases hstep
        exact hmem
      · split at hstep
        · cases hstep
          exact hmem
        · exact ih hstep
  have hget := Dict.mem_entries_iff.mp (show (entry.1, entry.2) ∈ m.deadlines.entries from hin)
  simp [hget]

end Fsm

namespace FsmTrace

/-- An event that leaves no delay-open timer behind when it takes the connection away,
and that opens a session on a connection. -/
def Orderly (t : FsmTrace) : FsmEvent → Prop
  | .tcpFails => t.fsm.Waiting → t.fsm.deadlines.get? .delayOpen = none
  | .connectRetryExpired => t.fsm.state = .connect → t.fsm.deadlines.get? .delayOpen = none
  | .bgpOpen _ | .bgpOpenDelayOpen _ | .delayOpenExpired => t.fsm.Waiting → t.connected = true
  | _ => True

/-- No firing of a tick is a retry under a running delay-open timer. -/
def FiringsOrderly (now : Nat) : Nat → FsmTrace → Prop
  | 0, _ => True
  | fuel + 1, t =>
    match t.fsm.nextDue now with
    | none => True
    | some timer =>
      (timer = .connectRetry → t.fsm.state = .connect → t.fsm.deadlines.get? .delayOpen = none) ∧
      FiringsOrderly now fuel (t.fire now timer)

def InputOrderly (t : FsmTrace) (now : Nat) : FsmInput → Prop
  | .event ev => t.Orderly ev
  | .tick => FiringsOrderly now t.fsm.deadlines.size t
  | .abandon | .takeActions => True

/-- Every input of a history is orderly when it comes. -/
def OrderlyFrom : FsmTrace → List (Nat × FsmInput) → Prop
  | _, [] => True
  | t, (now, input) :: rest => t.InputOrderly now input ∧ OrderlyFrom (t.apply now input) rest

/-- The invariant orderly inputs keep: without a connection nothing is left of one. -/
structure Linked (t : FsmTrace) : Prop where
  waits : t.fsm.DelayWaits
  parted : t.connected = false → t.fsm.Parted

theorem linked_new (config : FsmConfig) : Linked (new config) :=
  ⟨fun hruns => absurd rfl hruns, fun _ => ⟨Or.inl rfl, rfl⟩⟩

theorem Linked.event {t : FsmTrace} (h : Linked t) (now : Nat) {ev : FsmEvent}
    (horderly : t.Orderly ev) : Linked (t.event now ev) where
  waits := h.waits.event now
  parted hlost := by
    have hopens : ev.opensSession = true → t.fsm.Waiting → t.connected = true := by
      cases ev <;> simp_all [FsmEvent.opensSession, Orderly]
    simp only [FsmTrace.event, Bool.and_eq_false_iff, Bool.or_eq_false_iff,
      Bool.not_eq_eq_eq_not, Bool.not_false, Bool.or_eq_true] at hlost
    rcases hlost with ⟨hdown, hconn⟩ | (hstop | hfails) | hdrop
    · -- no connection before, and none now
      apply (h.parted hdown).event now
      intro hwaiting
      refine ⟨hconn, ?_⟩
      by_contra hev
      rw [Bool.not_eq_false] at hev
      rw [hopens hev hwaiting] at hdown
      exact absurd hdown (by decide)
    · cases ev
      case manualStop subcode => exact Fsm.parted_manualStop t.fsm now subcode
      case automaticStop => exact h.waits.automaticStop now
      all_goals exact absurd (show false = true from hstop) (by decide)
    · cases eq_of_beq hfails
      exact h.waits.tcpFails now horderly
    · have hretry : ev = .connectRetryExpired → t.fsm.state = .connect →
          t.fsm.deadlines.get? .delayOpen = none := by
        rintro rfl
        exact horderly
      have hhandle : .drop ∈ (t.fsm.handle now ev).actions.drop t.fsm.actions.length →
          (t.fsm.handle now ev).Parted := fun hasked =>
        (h.waits.settles now hretry).resolve_right fun hkept => hkept hasked
      rw [List.contains_iff_mem] at hdrop
      cases ev
      case manualStop subcode => exact Fsm.parted_manualStop t.fsm now subcode
      case automaticStop => exact h.waits.automaticStop now
      all_goals exact hhandle hdrop

theorem Linked.fire {t : FsmTrace} (h : Linked t) (now : Nat) {timer : FsmTimer}
    (hruns : t.fsm.deadlines.get? timer ≠ none)
    (hretry : timer = .connectRetry → t.fsm.state = .connect →
      t.fsm.deadlines.get? .delayOpen = none) : Linked (t.fire now timer) := by
  have hfed := Fsm.fed_stop t.fsm timer
  have hstopped : Linked { t with fsm := t.fsm.stop [timer] } := by
    constructor
    · intro hruns
      exact h.waits fun hnone => hruns (hfed.fewer .delayOpen hnone)
    · intro hdown
      exact ⟨(h.parted hdown).down, hfed.fewer .delayOpen (h.parted hdown).still⟩
  apply hstopped.event now
  cases timer
  case connectRetry => exact fun hstate => hfed.fewer .delayOpen (hretry rfl hstate)
  case delayOpen =>
    intro _
    by_contra hdown
    exact hruns (h.parted (Bool.eq_false_iff.mpr hdown)).still
  all_goals trivial

theorem Linked.fireDue {t : FsmTrace} (h : Linked t) {now fuel : Nat}
    (horderly : FiringsOrderly now fuel t) : Linked (fireDue now fuel t) := by
  induction fuel generalizing t with
  | zero => exact h
  | succ fuel ih =>
    rw [FiringsOrderly] at horderly
    rw [FsmTrace.fireDue]
    cases hdue : t.fsm.nextDue now with
    | none => exact h
    | some timer =>
      rw [hdue] at horderly
      exact ih (h.fire now (Fsm.nextDue_runs hdue) horderly.1) horderly.2

theorem Linked.apply {t : FsmTrace} (h : Linked t) {now : Nat} {input : FsmInput}
    (horderly : t.InputOrderly now input) : Linked (t.apply now input) := by
  cases input with
  | event ev => exact h.event now horderly
  | tick => exact h.fireDue horderly
  | takeActions => exact ⟨h.waits, fun hdown => ⟨(h.parted hdown).down, (h.parted hdown).still⟩⟩
  | abandon =>
    rw [FsmTrace.apply, Fsm.abandonConnection]
    split
    · exact h
    · exact ⟨fun _ => Or.inr (by simp), fun _ => ⟨Or.inr (Or.inr (by simp)), by
        simp [Fsm.resetTimes]⟩⟩

theorem Linked.run {t : FsmTrace} (h : Linked t) {inputs : List (Nat × FsmInput)}
    (horderly : OrderlyFrom t inputs) :
    Linked (inputs.foldl (fun t input => t.apply input.1 input.2) t) := by
  induction inputs generalizing t with
  | nil => exact h
  | cons input rest ih => exact ih (h.apply horderly.1) horderly.2

/-- In an orderly history no machine is past the handshake without a connection. -/
theorem connected_of_pastHandshake (config : FsmConfig) (inputs : List (Nat × FsmInput))
    (horderly : OrderlyFrom (new config) inputs) (hpast : (run config inputs).fsm.PastHandshake) :
    (run config inputs).connected = true := by
  have hlinked : Linked (run config inputs) := (linked_new config).run horderly
  by_contra hdown
  exact (hlinked.parted (Bool.eq_false_iff.mpr hdown)).not_pastHandshake hpast

/-- Settings that wait five seconds before sending an OPEN. -/
def delayConfig : FsmConfig := { plainConfig with delayOpen := 5 }

/-- A session comes up after the delay. -/
def delayedOpen : List (Nat × FsmInput) :=
  [(0, .event .manualStart), (1, .event .tcpCrAcked), (6 * SECOND, .tick),
    (7 * SECOND, .event (.bgpOpen 90)), (8 * SECOND, .event .keepaliveMsg)]

theorem connected_of_pastHandshake_delayedOpen :
    (run delayConfig delayedOpen).fsm.state = .established ∧
      (run delayConfig delayedOpen).connected = true := by
  have hup : (run delayConfig delayedOpen).fsm.state = .established := rfl
  have hwaits : ∀ {state : FsmState}, state = .openSent →
      ¬ (state = .connect ∨ state = .active) := by
    rintro _ rfl
    decide
  have horderly : OrderlyFrom (new delayConfig) delayedOpen :=
    ⟨trivial, trivial, ⟨fun hretry => absurd hretry (by decide), trivial⟩,
      fun hwaiting => absurd hwaiting (hwaits rfl), trivial, trivial⟩
  exact ⟨hup, connected_of_pastHandshake delayConfig delayedOpen horderly (Or.inr (Or.inr hup))⟩

/-- The connection fails while the delay-open timer runs; the timer sends an OPEN. -/
theorem not_connected_of_pastHandshake :
    ¬ ∀ config inputs, (run config inputs).fsm.PastHandshake →
      (run config inputs).connected = true := by
  intro h
  have hconnected := h delayConfig
    [(0, .event .manualStart), (1, .event .tcpCrAcked), (2, .event .tcpFails),
      (6 * SECOND, .tick)] (Or.inl rfl)
  exact absurd hconnected (by decide)

end FsmTrace

end Packets
