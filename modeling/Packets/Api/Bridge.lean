/-
The command bridge (`CommandBridge.call_timeout` in `api/bridge.py`, `Engine.submit` and
`_submit_to_loop` in `engine.py`): request threads, the loop that runs what they submit,
and the future between them, in any order of steps.
-/
import Mathlib.Data.List.Basic

namespace Packets.CommandBridge

/-- The states a `BridgeTimeout` reports. -/
inductive TimeoutState
  | CANCELLED
  | UNKNOWN
deriving DecidableEq

/-- What can be raised: by the bridge, by a future, and by a callable, which may raise
anything. -/
inductive Raised (E : Type)
  | bridgeTimeout (state : TimeoutState) (revision : Nat)
  | bridgeBusy
  | unavailable
  | timeoutError
  | cancelledError
  | typeError
  | other (e : E)
deriving DecidableEq

inductive Result (V E : Type)
  | returned (v : V)
  | raised (x : Raised E)
deriving DecidableEq

/-- A `concurrent.futures.Future`. -/
inductive Future (V E : Type)
  | pending
  | running
  | finished (r : Result V E)
  | cancelled
deriving DecidableEq

/-- How a call ends: with one of the bridge's own answers, `unformatted` where the detail of
a timeout cannot be made, or with the callable's. -/
inductive Answer (V E : Type)
  | busy
  | unavailable
  | cancelled
  | unknown
  | unformatted
  | own (r : Result V E)
deriving DecidableEq

/-- Where a request thread is in `call_timeout`. -/
inductive Caller (V E : Type)
  | entered
  | inline
  | admitting
  | admitted
  | gated
  | handing
  | failed
  | submitted
  | late
  | waiting
  | timedOut
  | cancelling
  | revoked
  | gaveUp
  | answered (a : Answer V E)
deriving DecidableEq

/-- Where the loop is with `runner`. -/
inductive Runner
  | absent
  | queued
  | taken
  | started
  | settling
  | done
  | dropped
deriving DecidableEq

/-- One call: `timed` unless its timeout is None, `callback` once `_settled` is on the
future's list, and what became of the callable. -/
structure Command (V E : Type) where
  timed : Bool
  caller : Caller V E := .entered
  runner : Runner := .absent
  future : Future V E := .pending
  callback : Bool := false
  before : Nat := 0
  runs : Nat := 0
  gave : Option (Result V E) := none
deriving DecidableEq

/-- What `submit` reads of the engine; `loop` is whether the loop it has takes work. -/
structure Engine where
  running : Bool
  stopping : Bool
  loop : Option Bool
  revision : Nat := 0
deriving DecidableEq

structure Bridge (V E : Type) where
  maxInFlight : Int
  engine : Engine
  inFlight : Int := 0
  queued : Int := 0
  commands : List (Command V E) := []
deriving DecidableEq

section

variable {V E : Type} [DecidableEq V] [DecidableEq E]

/-- What the caller of `call_timeout` gets, given the revision before. -/
def Answer.result (before : Nat) : Answer V E → Result V E
  | .busy => .raised .bridgeBusy
  | .unavailable => .raised .unavailable
  | .cancelled => .raised (.bridgeTimeout .CANCELLED before)
  | .unknown => .raised (.bridgeTimeout .UNKNOWN before)
  | .unformatted => .raised .typeError
  | .own r => r

@[simp] def Future.done : Future V E → Bool
  | .finished _ | .cancelled => true
  | _ => false

/-- `is_running` -/
def Engine.isRunning (e : Engine) : Bool := e.running && !e.stopping

namespace Command

/-- A step, with what it adds to `in_flight` and to the loop's `_queued`. -/
abbrev Moved (V E : Type) := Option (Command V E × Int × Int)

/-- The next step of the request thread. -/
def stepCaller (b : Bridge V E) (c : Command V E) : Moved V E :=
  match c.caller with
  | .entered => some ({ c with caller := .admitting }, 0, 0)
  | .admitting =>
    if b.maxInFlight ≠ 0 ∧ b.inFlight ≥ b.maxInFlight then
      some ({ c with caller := .answered .busy }, 0, 0)
    else some ({ c with caller := .admitted }, 1, 0)
  | .admitted =>
    let c := { c with before := b.engine.revision }
    if b.engine.isRunning ∧ b.engine.loop.isSome then some ({ c with caller := .gated }, 0, 0)
    else some ({ c with caller := .failed }, 0, 0)
  | .gated =>
    match b.engine.loop with
    | none => some ({ c with caller := .failed }, 0, 0)
    | some _ => some ({ c with caller := .handing }, 0, 1)
  | .handing =>
    -- The loop may be another by now, or closed: `call_soon_threadsafe` then raises.
    if b.engine.loop = some true then
      some ({ c with caller := .submitted, runner := .queued }, 0, 0)
    else some ({ c with caller := .failed }, 0, -1)
  | .failed => some ({ c with caller := .answered .unavailable }, -1, 0)
  | .submitted =>
    if c.future.done then some ({ c with caller := .late }, 0, 0)
    else some ({ c with caller := .waiting, callback := true }, 0, 0)
  | .late => some ({ c with caller := .waiting }, -1, 0)
  | .waiting =>
    match c.future with
    | .finished r =>
      if r = .raised .timeoutError then some ({ c with caller := .timedOut }, 0, 0)
      else some ({ c with caller := .answered (.own r) }, 0, 0)
    | .cancelled => some ({ c with caller := .answered (.own (.raised .cancelledError)) }, 0, 0)
    | _ => none
  | .timedOut =>
    match c.future with
    | .pending => some ({ c with caller := .cancelling, future := .cancelled }, 0, 0)
    | .cancelled => some ({ c with caller := .revoked }, 0, 0)
    | _ => some ({ c with caller := .gaveUp }, 0, 0)
  | .cancelling => some ({ c with caller := .revoked }, if c.callback then -1 else 0, 0)
  -- The detail of either is formatted from the timeout, which None is no number for.
  | .revoked =>
    some ({ c with caller := .answered (if c.timed then .cancelled else .unformatted) }, 0, 0)
  | .gaveUp =>
    some ({ c with caller := .answered (if c.timed then .unknown else .unformatted) }, 0, 0)
  | .inline | .answered _ => none

/-- The next step of `runner` on the loop. -/
def stepRunner (c : Command V E) : Moved V E :=
  match c.runner with
  | .queued => some ({ c with runner := .taken }, 0, -1)
  | .taken =>
    match c.future with
    | .pending => some ({ c with runner := .started, future := .running, runs := c.runs + 1 }, 0, 0)
    | .cancelled => some ({ c with runner := .done }, 0, 0)
    | _ => none
  | .settling => some ({ c with runner := .done }, if c.callback then -1 else 0, 0)
  | _ => none

/-- The callable returns or raises, on the loop or in the caller's own thread. -/
def finish (c : Command V E) (r : Result V E) : Moved V E :=
  if c.runner = .started then
    some ({ c with runner := .settling, future := .finished r, gave := some r }, 0, 0)
  else if c.caller = .inline then
    some ({ c with caller := .answered (.own r), gave := some r }, 0, 0)
  else none

end Command

/-- Who takes the next step: `inLoop` is a caller on the loop itself, `timeout` a wait that runs
out, `drop` a loop that closes with the runner still queued. -/
inductive Move (V E : Type)
  | caller
  | inLoop
  | timeout
  | runner
  | finish (r : Result V E)
  | drop

inductive Event (V E : Type)
  | call (timed : Bool)
  | move (i : Nat) (m : Move V E)
  | engine (e : Engine)

def Command.move (b : Bridge V E) (c : Command V E) : Move V E → Command.Moved V E
  | .caller => c.stepCaller b
  | .inLoop =>
    if c.caller = .entered then some ({ c with caller := .inline, runs := c.runs + 1 }, 0, 0)
    else none
  | .timeout =>
    if c.caller = .waiting ∧ c.timed ∧ ¬c.future.done then
      some ({ c with caller := .timedOut }, 0, 0)
    else none
  | .runner => c.stepRunner
  | .finish r => c.finish r
  | .drop => if c.runner = .queued then some ({ c with runner := .dropped }, 0, 0) else none

def Bridge.step (b : Bridge V E) : Event V E → Option (Bridge V E)
  | .call timed => some { b with commands := b.commands ++ [{ timed := timed }] }
  | .move i m => do
    let c ← b.commands[i]?
    let (c', inFlight, queued) ← c.move b m
    pure { b with
      commands := b.commands.set i c'
      inFlight := b.inFlight + inFlight
      queued := b.queued + queued }
  | .engine e => some { b with engine := e }

def Bridge.run (b : Bridge V E) (events : List (Event V E)) : Option (Bridge V E) :=
  events.foldlM Bridge.step b

namespace Command

/-- Submitted, and neither finished nor cancelled. -/
@[simp] def live (c : Command V E) : Bool := c.runner ≠ .absent && !c.future.done

/-- Between being admitted and submitted, or between being finished or cancelled and
`_settled`. -/
@[simp] def passing (c : Command V E) : Bool :=
  c.caller = .admitted || c.caller = .gated || c.caller = .handing || c.caller = .failed ||
    c.future.done && (c.caller = .submitted || c.caller = .late || c.caller = .cancelling ||
      c.callback && c.runner = .settling)

@[simp] def inFlight (c : Command V E) : Bool := c.live || c.passing

@[simp] def queuedUp (c : Command V E) : Bool :=
  c.caller = .handing || c.runner = .queued || c.runner = .dropped

/-- A call whose callable is not with the loop: none of it has run, unless in place. -/
def Apart (c : Command V E) : Prop :=
  c.future = .pending ∧ c.callback = false ∧
    match c.caller with
    | .entered | .admitting | .admitted | .gated | .handing | .failed
    | .answered .busy | .answered .unavailable => c.runs = 0
    | .inline => c.runs = 1
    | .answered (.own r) => c.runs = 1 ∧ c.gave = some r
    | _ => False

/-- The future as the loop left it. -/
def LoopKept (c : Command V E) : Prop :=
  match c.future with
  | .pending => (c.runner = .queued ∨ c.runner = .taken ∨ c.runner = .dropped) ∧ c.runs = 0
  | .running => c.runner = .started ∧ c.runs = 1
  | .finished r => (c.runner = .settling ∨ c.runner = .done) ∧ c.runs = 1 ∧ c.gave = some r
  | .cancelled =>
    (c.runner = .queued ∨ c.runner = .taken ∨ c.runner = .dropped ∨ c.runner = .done) ∧ c.runs = 0

/-- The caller as the future lets it be. -/
def CallerKept (c : Command V E) : Prop :=
  match c.caller with
  | .submitted => c.callback = false ∧ c.future ≠ .cancelled
  | .late => c.callback = false ∧ ∃ r, c.future = .finished r
  | .waiting => (c.callback = true ∨ c.future.done) ∧ c.future ≠ .cancelled
  | .timedOut =>
    (c.callback = true ∨ c.future.done) ∧ c.future ≠ .cancelled ∧
      (c.timed ∨ c.future = .finished (.raised .timeoutError))
  | .cancelling => c.callback = true ∧ c.future = .cancelled ∧ c.timed
  | .revoked => c.future = .cancelled ∧ c.timed
  | .gaveUp =>
    (c.callback = true ∨ c.future.done) ∧ c.future ≠ .pending ∧ c.future ≠ .cancelled ∧
      (c.timed ∨ c.future = .finished (.raised .timeoutError))
  | .answered .cancelled => c.future = .cancelled
  | .answered .unknown =>
    (c.callback = true ∨ c.future.done) ∧ c.future ≠ .pending ∧ c.future ≠ .cancelled
  | .answered .unformatted => c.timed = false ∧ c.future = .finished (.raised .timeoutError)
  | .answered (.own r) => c.future = .finished r
  | _ => False

def Kept (c : Command V E) : Prop :=
  (c.runner = .absent ∧ c.Apart) ∨ (c.runner ≠ .absent ∧ c.LoopKept ∧ c.CallerKept)

/-- What every step keeps, and what it counts. -/
structure Steps (c c' : Command V E) (inFlight queued : Int) : Prop where
  kept : c'.Kept
  inFlight : (c'.inFlight.toNat : Int) = c.inFlight.toNat + inFlight
  queued : (c'.queuedUp.toNat : Int) = c.queuedUp.toNat + queued
  answered : ∀ a, c.caller = .answered a → c'.caller = .answered a

variable {b : Bridge V E} {c c' : Command V E} {inFlight queued : Int}

theorem stepRunner_steps (h : c.Kept) (hm : c.stepRunner = some (c', inFlight, queued)) :
    Steps c c' inFlight queued := by
  obtain ⟨timed, caller, runner, future, callback, before, runs, gave⟩ := c
  rcases h with ⟨habsent, -⟩ | ⟨-, hloop, hcaller⟩
  · rw [stepRunner, habsent] at hm
    cases hm
  · cases runner with
    | absent | started | done | dropped => cases hm
    | queued =>
      cases hm
      constructor
      · refine .inr ⟨by simp, ?_, hcaller⟩
        cases future <;> simp_all [LoopKept]
      · simp
      · cases caller <;> simp_all [CallerKept]
      · exact fun a ha => ha
    | taken =>
      cases future with
      | pending =>
        cases hm
        constructor
        · refine .inr ⟨by simp, ⟨rfl, by simpa [LoopKept] using hloop⟩, ?_⟩
          cases caller with
          | answered a => cases a <;> simp_all [CallerKept]
          | _ => simp_all [CallerKept]
        · cases caller <;> simp_all
        · simp
        · exact fun a ha => ha
      | cancelled =>
        cases hm
        constructor
        · exact .inr ⟨by simp, ⟨by simp, by simpa [LoopKept] using hloop⟩, hcaller⟩
        · simp
        · simp
        · exact fun a ha => ha
      | running | finished r => cases hm
    | settling =>
      cases hm
      obtain ⟨r, rfl⟩ : ∃ r, future = .finished r := by cases future <;> simp_all [LoopKept]
      constructor
      · exact .inr ⟨by simp, ⟨by simp, hloop.2⟩, hcaller⟩
      · cases callback <;> cases caller <;>
          simp_all [CallerKept]
      · simp
      · exact fun a ha => ha

theorem finish_steps {r : Result V E} (h : c.Kept)
    (hm : c.finish r = some (c', inFlight, queued)) : Steps c c' inFlight queued := by
  obtain ⟨timed, caller, runner, future, callback, before, runs, gave⟩ := c
  rw [finish] at hm
  split at hm
  · rename_i hstarted
    cases hstarted
    cases hm
    rcases h with ⟨habsent, -⟩ | ⟨-, hloop, hcaller⟩
    · cases habsent
    · obtain ⟨rfl⟩ : future = .running := by cases future <;> simp_all [LoopKept]
      constructor
      · refine .inr ⟨by simp, ⟨by simp, hloop.2, rfl⟩, ?_⟩
        cases caller with
        | answered a => cases a <;> simp_all [CallerKept]
        | _ => simp_all [CallerKept]
      · cases caller with
        | answered a => cases a <;> simp_all [CallerKept]
        | _ => simp_all [CallerKept]
      · simp
      · exact fun a ha => ha
  · split at hm
    · rename_i hinline
      cases hinline
      cases hm
      rcases h with ⟨rfl, rfl, rfl, hruns⟩ | ⟨-, -, hcaller⟩
      · exact ⟨.inl ⟨rfl, rfl, rfl, hruns, rfl⟩, by simp, by simp, fun a ha => by cases ha⟩
      · exact absurd hcaller id
    · cases hm

theorem stepCaller_steps (h : c.Kept) (hm : c.stepCaller b = some (c', inFlight, queued)) :
    Steps c c' inFlight queued := by
  obtain ⟨timed, caller, runner, future, callback, before, runs, gave⟩ := c
  cases caller with
  | inline | answered a => cases hm
  | entered =>
    rcases h with ⟨rfl, rfl, rfl, hruns⟩ | ⟨-, -, hcaller⟩
    · simp only [stepCaller] at hm
      cases hm
      exact ⟨.inl ⟨rfl, rfl, rfl, hruns⟩, by simp, by simp, fun a ha => by cases ha⟩
    · exact absurd hcaller id
  | admitting =>
    rcases h with ⟨rfl, rfl, rfl, hruns⟩ | ⟨-, -, hcaller⟩
    · simp only [stepCaller] at hm
      split at hm
      · cases hm
        exact ⟨.inl ⟨rfl, rfl, rfl, hruns⟩, by simp, by simp, fun a ha => by cases ha⟩
      · cases hm
        exact ⟨.inl ⟨rfl, rfl, rfl, hruns⟩, by simp, by simp, fun a ha => by cases ha⟩
    · exact absurd hcaller id
  | admitted =>
    rcases h with ⟨rfl, rfl, rfl, hruns⟩ | ⟨-, -, hcaller⟩
    · simp only [stepCaller] at hm
      split at hm
      · cases hm
        exact ⟨.inl ⟨rfl, rfl, rfl, hruns⟩, by simp, by simp, fun a ha => by cases ha⟩
      · cases hm
        exact ⟨.inl ⟨rfl, rfl, rfl, hruns⟩, by simp, by simp, fun a ha => by cases ha⟩
    · exact absurd hcaller id
  | gated =>
    rcases h with ⟨rfl, rfl, rfl, hruns⟩ | ⟨-, -, hcaller⟩
    · simp only [stepCaller] at hm
      split at hm
      · cases hm
        exact ⟨.inl ⟨rfl, rfl, rfl, hruns⟩, by simp, by simp, fun a ha => by cases ha⟩
      · cases hm
        exact ⟨.inl ⟨rfl, rfl, rfl, hruns⟩, by simp, by simp, fun a ha => by cases ha⟩
    · exact absurd hcaller id
  | handing =>
    rcases h with ⟨rfl, rfl, rfl, hruns⟩ | ⟨-, -, hcaller⟩
    · simp only [stepCaller] at hm
      split at hm
      · cases hm
        exact ⟨.inr ⟨by simp, ⟨.inl rfl, hruns⟩, rfl, by simp⟩, by simp, by simp,
          fun a ha => by cases ha⟩
      · cases hm
        exact ⟨.inl ⟨rfl, rfl, rfl, hruns⟩, by simp, by simp, fun a ha => by cases ha⟩
    · exact absurd hcaller id
  | failed =>
    rcases h with ⟨rfl, rfl, rfl, hruns⟩ | ⟨-, -, hcaller⟩
    · simp only [stepCaller] at hm
      cases hm
      exact ⟨.inl ⟨rfl, rfl, rfl, hruns⟩, by simp, by simp, fun a ha => by cases ha⟩
    · exact absurd hcaller id
  | submitted =>
    rcases h with ⟨-, -, -, hno⟩ | ⟨hne, hloop, rfl, hfuture⟩
    · exact absurd hno id
    · simp only [stepCaller] at hm
      split at hm
      · rename_i hdone
        cases hm
        obtain ⟨r, rfl⟩ : ∃ r, future = .finished r := by cases future <;> simp_all
        exact ⟨.inr ⟨hne, hloop, rfl, r, rfl⟩, by simp, by simp, fun a ha => by cases ha⟩
      · cases hm
        exact ⟨.inr ⟨hne, hloop, .inl rfl, hfuture⟩, by simp_all, by simp, fun a ha => by cases ha⟩
  | late =>
    rcases h with ⟨-, -, -, hno⟩ | ⟨hne, hloop, rfl, r, rfl⟩
    · exact absurd hno id
    · cases hm
      exact ⟨.inr ⟨hne, hloop, .inr rfl, by simp⟩, by simp, by simp, fun a ha => by cases ha⟩
  | waiting =>
    rcases h with ⟨-, -, -, hno⟩ | ⟨hne, hloop, hcallback, hfuture⟩
    · exact absurd hno id
    · simp only [stepCaller] at hm
      cases future with
      | pending | running => cases hm
      | cancelled => exact absurd rfl hfuture
      | finished r =>
        simp only at hm
        split at hm
        · rename_i hr
          cases hm
          exact ⟨.inr ⟨hne, hloop, hcallback, hfuture, .inr (by rw [hr])⟩, by simp, by simp,
            fun a ha => by cases ha⟩
        · cases hm
          exact ⟨.inr ⟨hne, hloop, rfl⟩, by simp, by simp, fun a ha => by cases ha⟩
  | timedOut =>
    rcases h with ⟨-, -, -, hno⟩ | ⟨hne, hloop, hcallback, hfuture, htimed⟩
    · exact absurd hno id
    · simp only [stepCaller] at hm
      cases future with
      | pending =>
        cases hm
        simp only [Future.done, or_false, Bool.false_eq_true, reduceCtorEq] at hcallback htimed
        cases hcallback
        refine ⟨.inr ⟨hne, ⟨?_, hloop.2⟩, rfl, rfl, htimed⟩, ?_, by simp, fun a ha => by cases ha⟩
        · rcases hloop.1 with h | h | h
          · exact .inl h
          · exact .inr (.inl h)
          · exact .inr (.inr (.inl h))
        · simp_all
      | cancelled => exact absurd rfl hfuture
      | running | finished r =>
        cases hm
        exact ⟨.inr ⟨hne, hloop, hcallback, by simp, by simp, htimed⟩, by simp, by simp,
          fun a ha => by cases ha⟩
  | cancelling =>
    rcases h with ⟨-, -, -, hno⟩ | ⟨hne, hloop, rfl, rfl, htimed⟩
    · exact absurd hno id
    · cases hm
      have hrunner : runner ≠ .settling := by rintro rfl; simp [LoopKept] at hloop
      exact ⟨.inr ⟨hne, hloop, rfl, htimed⟩, by simp [hrunner], by simp, fun a ha => by cases ha⟩
  | revoked =>
    rcases h with ⟨-, -, -, hno⟩ | ⟨hne, hloop, rfl, htimed⟩
    · exact absurd hno id
    · cases hm
      cases htimed
      exact ⟨.inr ⟨hne, hloop, rfl⟩, by simp, by simp, fun a ha => by cases ha⟩
  | gaveUp =>
    rcases h with ⟨-, -, -, hno⟩ | ⟨hne, hloop, hcallback, hpending, hcancelled, htimed⟩
    · exact absurd hno id
    · cases hm
      cases timed
      · obtain rfl : future = .finished (.raised .timeoutError) := by simpa using htimed
        exact ⟨.inr ⟨hne, hloop, rfl, rfl⟩, by simp, by simp, fun a ha => by cases ha⟩
      · exact ⟨.inr ⟨hne, hloop, hcallback, hpending, hcancelled⟩, by simp, by simp,
          fun a ha => by cases ha⟩

theorem move_steps {m : Move V E} (h : c.Kept) (hm : c.move b m = some (c', inFlight, queued)) :
    Steps c c' inFlight queued := by
  cases m with
  | caller => exact stepCaller_steps h hm
  | runner => exact stepRunner_steps h hm
  | finish r => exact finish_steps h hm
  | inLoop =>
    obtain ⟨hentered, hm⟩ := Option.ite_none_right_eq_some.mp hm
    obtain ⟨timed, caller, runner, future, callback, before, runs, gave⟩ := c
    cases hentered
    cases hm
    rcases h with ⟨rfl, rfl, rfl, hruns⟩ | ⟨-, -, hcaller⟩
    · exact ⟨.inl ⟨rfl, rfl, rfl, congrArg (· + 1) hruns⟩, by simp, by simp,
        fun a ha => by cases ha⟩
    · exact absurd hcaller id
  | timeout =>
    obtain ⟨⟨hwaiting, htimed, hnone⟩, hm⟩ := Option.ite_none_right_eq_some.mp hm
    obtain ⟨timed, caller, runner, future, callback, before, runs, gave⟩ := c
    cases hwaiting
    cases hm
    rcases h with ⟨-, -, -, hno⟩ | ⟨hne, hloop, hcallback, hfuture⟩
    · exact absurd hno id
    · exact ⟨.inr ⟨hne, hloop, hcallback, hfuture, .inl htimed⟩, by simp, by simp,
        fun a ha => by cases ha⟩
  | drop =>
    obtain ⟨hqueued, hm⟩ := Option.ite_none_right_eq_some.mp hm
    obtain ⟨timed, caller, runner, future, callback, before, runs, gave⟩ := c
    cases hqueued
    cases hm
    rcases h with ⟨habsent, -⟩ | ⟨-, hloop, hcaller⟩
    · cases habsent
    · refine ⟨.inr ⟨by simp, ?_, hcaller⟩, by simp, by simp, fun a ha => ha⟩
      cases future <;> simp_all [LoopKept]

theorem move_inFlight {m : Move V E} (hm : c.move b m = some (c', inFlight, queued)) :
    inFlight ≤ 0 ∨ inFlight = 1 ∧ (b.maxInFlight = 0 ∨ b.inFlight < b.maxInFlight) := by
  cases m <;> grind [Command.move, stepCaller, stepRunner, finish]

/-- What an answer says about the callable. -/
def Honest (c : Command V E) : Answer V E → Prop
  | .busy | .unavailable | .cancelled => c.runs = 0
  | .unknown => c.runs = 1 ∧ (c.future = .running ∨ ∃ r, c.future = .finished r ∧ c.gave = some r)
  | .unformatted => c.timed = false ∧ c.runs = 1 ∧ c.gave = some (.raised .timeoutError)
  | .own r => c.runs = 1 ∧ c.gave = some r

omit [DecidableEq V] [DecidableEq E] in
theorem Kept.honest (h : c.Kept) {a : Answer V E} (ha : c.caller = .answered a) : c.Honest a := by
  obtain ⟨timed, caller, runner, future, callback, before, runs, gave⟩ := c
  cases ha
  rcases h with ⟨-, -, -, hapart⟩ | ⟨-, hloop, hcaller⟩
  · cases a with
    | busy | unavailable | own r => exact hapart
    | cancelled | unknown | unformatted => exact absurd hapart id
  · cases a with
    | busy | unavailable => exact absurd hcaller id
    | cancelled =>
      cases hcaller
      exact hloop.2
    | unknown =>
      obtain ⟨-, hpending, hcancelled⟩ := hcaller
      cases future with
      | pending => exact absurd rfl hpending
      | cancelled => exact absurd rfl hcancelled
      | running => exact ⟨hloop.2, .inl rfl⟩
      | finished r => exact ⟨hloop.2.1, .inr ⟨r, rfl, hloop.2.2⟩⟩
    | unformatted =>
      obtain ⟨htimed, hfuture⟩ := hcaller
      cases hfuture
      exact ⟨htimed, hloop.2⟩
    | own r =>
      cases hcaller
      exact hloop.2

theorem Kept.inFlight_eq (h : c.Kept) : c.inFlight.toNat = c.live.toNat + c.passing.toNat := by
  rcases h with ⟨habsent, -⟩ | ⟨-, -, hcaller⟩
  · simp [habsent]
  · cases hdone : c.future.done
    · cases hc : c.caller <;> simp_all [CallerKept]
    · have hlive : c.live = false := by rw [live, hdone, Bool.not_true, Bool.and_false]
      rw [Command.inFlight, hlive, Bool.false_or, Bool.toNat_false, Nat.zero_add]

end Command

namespace Bridge

/-- What holds between any two steps. -/
structure Accounted (b : Bridge V E) : Prop where
  kept : ∀ c ∈ b.commands, c.Kept
  inFlight : b.inFlight = b.commands.countP Command.inFlight
  queued : b.queued = b.commands.countP Command.queuedUp
  bounded : 0 < b.maxInFlight → b.inFlight ≤ b.maxInFlight

/-- Every command goes on from where it was, and an answer stands. -/
structure Continues (b b' : Bridge V E) : Prop where
  maxInFlight : b'.maxInFlight = b.maxInFlight
  answered : ∀ (i : Nat) c a, b.commands[i]? = some c → c.caller = .answered a →
    ∃ c', b'.commands[i]? = some c' ∧ c'.caller = .answered a

variable {b b' : Bridge V E} {e : Event V E}

omit [DecidableEq V] [DecidableEq E] in
theorem countP_set_eq {p : Command V E → Bool} {l : List (Command V E)} {i : Nat}
    {c c' : Command V E} {d : Int} (hc : l[i]? = some c)
    (hd : ((p c').toNat : Int) = (p c).toNat + d) :
    ((l.set i c').countP p : Int) = l.countP p + d := by
  obtain ⟨hi, rfl⟩ := List.getElem?_eq_some_iff.mp hc
  rw [List.countP_set hi]
  have hpos : p l[i] = true → 0 < l.countP p := fun hp =>
    List.countP_pos_iff.mpr ⟨l[i], List.getElem_mem hi, hp⟩
  cases hold : p l[i]
  · rw [hold] at hd
    cases hnew : p c' <;> simp only [hnew, Bool.toNat_true, Bool.toNat_false] at hd <;>
      simp only [if_true, Bool.false_eq_true, if_false] <;> omega
  · have hpos := hpos hold
    rw [hold] at hd
    cases hnew : p c' <;> simp only [hnew, Bool.toNat_true, Bool.toNat_false] at hd <;>
      simp only [if_true, Bool.false_eq_true, if_false] <;> omega

theorem step_accounted (h : b.Accounted) (hs : b.step e = some b') :
    b'.Accounted ∧ b.Continues b' := by
  cases e with
  | engine e =>
    cases hs
    exact ⟨⟨h.kept, h.inFlight, h.queued, h.bounded⟩, rfl, fun i c a hc ha => ⟨c, hc, ha⟩⟩
  | call timed =>
    cases hs
    refine ⟨⟨?_, ?_, ?_, h.bounded⟩, rfl, ?_⟩
    · intro c hc
      rcases List.mem_append.mp hc with hc | hc
      · exact h.kept c hc
      · obtain rfl := List.mem_singleton.mp hc
        exact .inl ⟨rfl, rfl, rfl, rfl⟩
    · simp [List.countP_append, h.inFlight]
    · simp [List.countP_append, h.queued]
    · intro i c a hc ha
      obtain ⟨hi, -⟩ := List.getElem?_eq_some_iff.mp hc
      exact ⟨c, by rw [List.getElem?_append_left hi, hc], ha⟩
  | move i m =>
    simp only [step, Option.bind_eq_bind, Option.bind_eq_some_iff] at hs
    obtain ⟨c, hc, ⟨c', inFlight, queued⟩, hm, hs⟩ := hs
    cases hs
    have hsteps := Command.move_steps (h.kept c (List.mem_of_getElem? hc)) hm
    refine ⟨⟨?_, ?_, ?_, ?_⟩, rfl, ?_⟩
    · intro x hx
      rcases List.mem_or_eq_of_mem_set hx with hx | rfl
      · exact h.kept x hx
      · exact hsteps.kept
    · rw [countP_set_eq hc hsteps.inFlight, h.inFlight]
    · rw [countP_set_eq hc hsteps.queued, h.queued]
    · intro hmax
      have hold := h.bounded hmax
      have hadds := Command.move_inFlight hm
      show b.inFlight + inFlight ≤ b.maxInFlight
      have hcap : 0 < b.maxInFlight := hmax
      omega
    · intro j x a hx ha
      by_cases hij : i = j
      · cases hij
        cases hc.symm.trans hx
        obtain ⟨hi, -⟩ := List.getElem?_eq_some_iff.mp hc
        exact ⟨c', List.getElem?_set_self hi, hsteps.answered a ha⟩
      · exact ⟨x, by rw [List.getElem?_set_ne hij, hx], ha⟩

theorem run_accounted {events : List (Event V E)} (h : b.Accounted)
    (hs : b.run events = some b') : b'.Accounted ∧ b.Continues b' := by
  induction events generalizing b with
  | nil =>
    cases hs
    exact ⟨h, rfl, fun i c a hc ha => ⟨c, hc, ha⟩⟩
  | cons e events ih =>
    obtain ⟨b₁, hstep, hrest⟩ := Option.bind_eq_some_iff.mp hs
    obtain ⟨h₁, hmax₁, hanswered₁⟩ := step_accounted h hstep
    obtain ⟨h', hmax, hanswered⟩ := ih h₁ hrest
    refine ⟨h', hmax.trans hmax₁, fun i c a hc ha => ?_⟩
    obtain ⟨c₁, hc₁, ha₁⟩ := hanswered₁ i c a hc ha
    exact hanswered i c₁ a hc₁ ha₁

theorem accounted_init (max : Int) (engine : Engine) :
    (Bridge.mk max engine 0 0 [] : Bridge V E).Accounted :=
  ⟨fun _ hc => absurd hc List.not_mem_nil, rfl, rfl, fun h => Int.le_of_lt h⟩

/-- In flight are the commands that are neither finished nor cancelled, and those passing. -/
theorem Accounted.inFlight_eq (h : b.Accounted) :
    b.inFlight = b.commands.countP Command.live + b.commands.countP Command.passing := by
  have hcount : ∀ {l : List (Command V E)}, (∀ c ∈ l, c.Kept) →
      l.countP Command.inFlight = l.countP Command.live + l.countP Command.passing := by
    intro l hkept
    induction l with
    | nil => rfl
    | cons c l ih =>
      obtain ⟨hc, hkept⟩ := List.forall_mem_cons.mp hkept
      have heq := hc.inFlight_eq
      simp only [List.countP_cons, ih hkept]
      cases hl : c.live <;> cases hp : c.passing <;> cases hi : c.inFlight <;>
        simp only [hl, hp, hi, Bool.toNat_true, Bool.toNat_false] at heq <;> simp <;> omega
  rw [h.inFlight, hcount h.kept, Int.natCast_add]

end Bridge

/-- Whatever the order of steps, the bridge's answers are so for good: what it answers busy,
unavailable or cancelled never runs, what it answers unknown has started once and is not
stopped, and else the answer is what the callable gave, after one run.  In flight are the
commands neither finished nor cancelled, and those on the way in or out. -/
theorem bridge_never_lies {max : Int} {engine : Engine} {events later : List (Event V E)}
    {b b' : Bridge V E} (hb : (Bridge.mk max engine 0 0 []).run events = some b)
    (hb' : b.run later = some b') :
    (∀ (i : Nat) c a, b.commands[i]? = some c → c.caller = .answered a →
      c.Honest a ∧ ∃ c', b'.commands[i]? = some c' ∧ c'.caller = .answered a ∧ c'.Honest a) ∧
    b.inFlight = b.commands.countP Command.live + b.commands.countP Command.passing ∧
    (0 < max → b.inFlight ≤ max) := by
  obtain ⟨hacc, hmax, -⟩ := Bridge.run_accounted (Bridge.accounted_init max engine) hb
  obtain ⟨hacc', -, hanswered⟩ := Bridge.run_accounted hacc hb'
  refine ⟨fun i c a hc ha => ?_, hacc.inFlight_eq, fun hpos => ?_⟩
  · obtain ⟨c', hc', ha'⟩ := hanswered i c a hc ha
    exact ⟨(hacc.kept c (List.mem_of_getElem? hc)).honest ha, c', hc', ha',
      (hacc'.kept c' (List.mem_of_getElem? hc')).honest ha'⟩
  · have hbound := hacc.bounded
    rw [hmax] at hbound
    exact hbound hpos

end

/-- A command that times out before it starts; the loop comes to it later. -/
theorem bridge_never_lies_cancelled :
    (⟨64, ⟨true, false, some true, 7⟩, 0, 1,
      [⟨true, .answered .cancelled, .queued, .cancelled, true, 7, 0, none⟩]⟩ :
        Bridge Nat Nat).inFlight = 0 ∧
      ∃ c : Command Nat Nat, c.caller = .answered .cancelled ∧ c.runner = .done ∧ c.runs = 0 := by
  have hrun : (Bridge.mk 64 ⟨true, false, some true, 7⟩ 0 0 []).run
      (.call true :: List.replicate 6 (.move 0 .caller) ++
        [.move 0 .timeout, .move 0 .caller, .move 0 .caller, .move 0 .caller]) =
      some (⟨64, ⟨true, false, some true, 7⟩, 0, 1,
        [⟨true, .answered .cancelled, .queued, .cancelled, true, 7, 0, none⟩]⟩ :
          Bridge Nat Nat) := by decide
  have hlater : (⟨64, ⟨true, false, some true, 7⟩, 0, 1,
      [⟨true, .answered .cancelled, .queued, .cancelled, true, 7, 0, none⟩]⟩ :
        Bridge Nat Nat).run [.move 0 .runner, .move 0 .runner] =
      some ⟨64, ⟨true, false, some true, 7⟩, 0, 0,
        [⟨true, .answered .cancelled, .done, .cancelled, true, 7, 0, none⟩]⟩ := by decide
  obtain ⟨hanswers, hflight, -⟩ := bridge_never_lies hrun hlater
  obtain ⟨-, c, hc, hcaller, hruns⟩ := hanswers 0 _ .cancelled rfl rfl
  cases hc
  exact ⟨hflight, _, hcaller, rfl, hruns⟩

/-- A callable may raise what the bridge answers with, and a slot is taken before there is a
command. -/
theorem not_bridge_never_lies :
    (¬∀ (max : Int) (engine : Engine) (events : List (Event Nat Nat)) (b : Bridge Nat Nat),
      (Bridge.mk max engine 0 0 []).run events = some b →
        ∀ c ∈ b.commands, ∀ a, c.caller = .answered a →
          a.result c.before = .raised .unavailable → c.runs = 0) ∧
    ¬∀ (max : Int) (engine : Engine) (events : List (Event Nat Nat)) (b : Bridge Nat Nat),
      (Bridge.mk max engine 0 0 []).run events = some b →
        b.inFlight = b.commands.countP Command.live := by
  constructor
  · intro h
    have hruns := h 64 ⟨true, false, some true, 7⟩
      (.call true :: List.replicate 6 (.move 0 .caller) ++ [.move 0 .runner, .move 0 .runner,
        .move 0 (.finish (.raised .unavailable)), .move 0 .caller])
      ⟨64, ⟨true, false, some true, 7⟩, 1, 0,
        [⟨true, .answered (.own (.raised .unavailable)), .settling,
          .finished (.raised .unavailable), true, 7, 1, some (.raised .unavailable)⟩]⟩
      (by decide) _ List.mem_cons_self _ rfl rfl
    exact absurd hruns (by decide)
  · intro h
    have hflight := h 64 ⟨true, false, some true, 7⟩ [.call true, .move 0 .caller, .move 0 .caller]
      ⟨64, ⟨true, false, some true, 7⟩, 1, 0, [{ timed := true, caller := .admitted }]⟩ (by decide)
    exact absurd hflight (by decide)

end Packets.CommandBridge
