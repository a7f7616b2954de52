/-
The selection task of the engine (`engine.py`), and its runs.

A pass drains the change queue in slices; a wanted flag makes it go round again.  `calls`,
`served` and `began` only count requests: made, followed by a pass that found the queue empty,
made when a pass started.  Starts that fail are left out.
-/
import Mathlib.Data.List.Basic

namespace Packets

namespace Engine

/-- How far a task on the loop has got. -/
inductive Progress where
  | created
  | draining (began : Nat)
deriving DecidableEq, Repr

/-- A task that is not done. -/
structure SelectTask where
  id : Nat
  progress : Progress
  cancelled : Bool
deriving DecidableEq, Repr

/-- How a slice of `drain` ends: out of budget, with nothing left, or raising. -/
inductive SliceEnd where
  | more
  | done
  | raised
deriving DecidableEq, Repr

/-- A slice of `drain`, with the requests made on the loop while it runs. -/
structure DrainSlice where
  requests : Nat
  outcome : SliceEnd
deriving DecidableEq, Repr

structure Selection where
  /-- Running, or starting. -/
  up : Bool := false
  stopping : Bool := false
  wanted : Bool := false
  task : Option Nat := none
  retry : Option Nat := none
  /-- The `_kick_select` calls other threads have handed to the loop. -/
  queued : Nat := 0
  tasks : List SelectTask := []
  timers : List Nat := []
  next : Nat := 0
  calls : Nat := 0
  served : Nat := 0
  /-- The engine was stopped with a request not served yet. -/
  interrupted : Bool := false
deriving Repr

namespace Selection

/-- `_accepting_work` -/
def accepting (s : Selection) : Bool := s.up && !s.stopping

/-- The task of the handle is not done. -/
def live (s : Selection) : Bool :=
  match s.task with
  | none => false
  | some id => s.tasks.any fun t => t.id = id

/-- `_kick_select` -/
def kick (s : Selection) : Selection :=
  let s := { s with
    wanted := true
    timers := s.timers.filter fun timer => s.retry ≠ some timer
    retry := none }
  if s.live then s
  else { s with
    task := some s.next
    tasks := s.tasks ++ [⟨s.next, .created, false⟩]
    next := s.next + 1 }

/-- `schedule_select` on the loop. -/
def request (s : Selection) : Selection :=
  if s.accepting then { s.kick with calls := s.calls + 1 } else s

/-- `schedule_select` on another thread. -/
def requestSoon (s : Selection) : Selection :=
  if s.accepting then { s with queued := s.queued + 1, calls := s.calls + 1 } else s

def requests : Nat → Selection → Selection
  | 0, s => s
  | n + 1, s => requests n s.request

def setTask (s : Selection) (id : Nat) (progress : Progress) : Selection :=
  { s with tasks := s.tasks.map fun t => if t.id = id then { t with progress } else t }

def dropTask (s : Selection) (id : Nat) : Selection :=
  { s with tasks := s.tasks.filter fun t => t.id ≠ id }

/-- The `finally` of `_drain_select`, after which the task is done. -/
def cleanUp (s : Selection) (id : Nat) (failed : Bool) : Selection :=
  let s := { s with task := none }
  let s :=
    if failed && s.accepting then
      { s with wanted := true, retry := some s.next, timers := s.timers ++ [s.next],
               next := s.next + 1 }
    else s
  s.dropTask id

/-- A round of the loop of `_drain_select` starts. -/
def begin (s : Selection) (id : Nat) : Selection :=
  { s.setTask id (.draining s.calls) with wanted := false }

/-- The slices of one turn of the task, the last of which may leave the pass unfinished. -/
def runSlices (id : Nat) (began : Nat) : List DrainSlice → Selection → Selection
  | [], s => s
  | slice :: rest, s =>
    let s := requests slice.requests s
    match slice.outcome with
    | .more => s
    | .raised => s.cleanUp id true
    | .done =>
      let s := { s with served := max s.served began }
      if s.wanted then runSlices id s.calls rest (s.begin id) else s.cleanUp id false

/-- A turn of a task: it goes on, or learns that it was cancelled.  A task cancelled before
its first turn never reaches its `finally`. -/
def resume (s : Selection) (id : Nat) (slices : List DrainSlice) : Selection :=
  match s.tasks.find? fun t => t.id = id with
  | none => s
  | some t =>
    match t.progress with
    | .created =>
      if t.cancelled then s.dropTask id
      else if s.wanted then runSlices id s.calls slices (s.begin id)
      else s.cleanUp id false
    | .draining began => if t.cancelled then s.cleanUp id false else runSlices id began slices s

/-- No pass is active, no retry armed and no request waiting to be taken by the loop. -/
def Idle (s : Selection) : Prop := s.tasks = [] ∧ s.timers = [] ∧ s.queued = 0

instance (s : Selection) : Decidable s.Idle :=
  inferInstanceAs (Decidable (s.tasks = [] ∧ s.timers = [] ∧ s.queued = 0))

/-- `stop`, as far as it refuses further work. -/
def beginStop (s : Selection) : Selection :=
  if s.accepting then { s with stopping := true, interrupted := s.interrupted || !decide s.Idle }
  else s

/-- `_on_loop_stop` and the end of `stop`. -/
def onLoopStop (s : Selection) : Selection :=
  if s.up && s.stopping then
    { s with
      up := false
      stopping := false
      tasks := s.tasks.map fun t => if s.task = some t.id then { t with cancelled := true } else t
      task := none
      timers := s.timers.filter fun timer => s.retry ≠ some timer
      retry := none }
  else s

/-- `start`, with the requests of the plugins it starts. -/
def start (s : Selection) (n : Nat) : Selection :=
  if s.up then s else requests n { s with up := true }

end Selection

/-- What can happen next. -/
inductive SelectAction where
  | request
  | requestSoon
  /-- The loop runs a `_kick_select` from another thread. -/
  | takeRequest
  | resume (id : Nat) (slices : List DrainSlice)
  | fire (timer : Nat)
  | beginStop
  | onLoopStop
  | start (requests : Nat)
deriving DecidableEq, Repr

namespace Selection

def act (s : Selection) : SelectAction → Selection
  | .request => s.request
  | .requestSoon => s.requestSoon
  | .takeRequest => if s.queued = 0 then s else { s with queued := s.queued - 1 }.kick
  | .resume id slices => s.resume id slices
  | .fire timer =>
    if timer ∈ s.timers then { s with timers := s.timers.filter fun t => t ≠ timer }.kick else s
  | .beginStop => s.beginStop
  | .onLoopStop => s.onLoopStop
  | .start n => s.start n

def run (actions : List SelectAction) (s : Selection) : Selection := actions.foldl act s

end Selection

namespace Selection

/-- Nothing asked for is forgotten: the task on the loop will go round again, or its pass
started after all requests but those still queued. -/
def Owed (s : Selection) : Prop :=
  (s.tasks = [] → s.timers = [] → s.calls ≤ s.served + s.queued) ∧
    ∀ t ∈ s.tasks, s.wanted = true ∨
      ∃ began, t.progress = .draining began ∧ s.calls ≤ began + s.queued

structure Inv (s : Selection) : Prop where
  one : s.tasks.length ≤ 1
  handle : s.up = true → ∀ t ∈ s.tasks, s.task = some t.id ∧ t.cancelled = false
  armed : s.timers = s.retry.toList
  quiet : s.tasks ≠ [] → s.timers = []
  down : s.up = false → s.timers = [] ∧ s.stopping = false
  bounded : s.served ≤ s.calls
  began : ∀ t ∈ s.tasks, ∀ began, t.progress = .draining began → began ≤ s.calls
  free : s.interrupted = true → s.accepting = false
  halted : s.accepting = false → s.interrupted = true ∨ s.Idle ∧ s.calls ≤ s.served
  owed : s.accepting = true → s.Owed

theorem inv_fresh : Inv {} where
  one := by simp
  handle := by simp
  armed := rfl
  quiet := by simp
  down := by simp
  bounded := Nat.le_refl 0
  began := by simp
  free := by simp
  halted := fun _ => Or.inr ⟨⟨rfl, rfl, rfl⟩, Nat.le_refl 0⟩
  owed := by simp [accepting]

variable {s : Selection}

theorem accepting_iff : s.accepting = true ↔ s.up = true ∧ s.stopping = false := by simp [accepting]

theorem Inv.tasks_cases (h : s.Inv) : s.tasks = [] ∨ ∃ t, s.tasks = [t] := by
  have hone := h.one
  rcases htasks : s.tasks with _ | ⟨t, _ | ⟨u, rest⟩⟩
  · exact Or.inl rfl
  · exact Or.inr ⟨t, rfl⟩
  · rw [htasks] at hone
    simp at hone

theorem Inv.retry_eq_none (h : s.Inv) {t : SelectTask} (htasks : s.tasks = [t]) :
    s.timers = [] ∧ s.retry = none := by
  have hquiet := h.quiet (by simp [htasks])
  have harmed := h.armed
  rw [hquiet, eq_comm, Option.toList_eq_nil_iff] at harmed
  exact ⟨hquiet, harmed⟩

theorem Inv.interrupted (h : s.Inv) {t : SelectTask} (htasks : s.tasks = [t])
    (hnot : s.accepting = false) : s.interrupted = true := by
  rcases h.halted hnot with hint | ⟨⟨hnil, -⟩, -⟩
  · exact hint
  · rw [htasks] at hnil
    cases hnil

theorem kick_of_task (h : s.Inv) (hup : s.up = true) {t : SelectTask} (htasks : s.tasks = [t]) :
    s.kick = { s with wanted := true } := by
  obtain ⟨htimers, hretry⟩ := h.retry_eq_none htasks
  have htask := (h.handle hup t (by simp [htasks])).1
  simp [kick, live, htasks, htask, htimers, hretry]

theorem kick_of_nil (htasks : s.tasks = []) :
    s.kick = { s with
      wanted := true
      timers := s.timers.filter fun timer => s.retry ≠ some timer
      retry := none
      task := some s.next
      tasks := [⟨s.next, .created, false⟩]
      next := s.next + 1 } := by
  have hlive : s.live = false := by
    rw [live, htasks]
    cases s.task <;> rfl
  change (if s.live = true then _ else _) = _
  rw [hlive, htasks]
  rfl

theorem Inv.kick (h : s.Inv) (hup : s.up = true)
    (hhalted : s.accepting = false → s.interrupted = true) : s.kick.Inv := by
  rcases h.tasks_cases with htasks | ⟨t, htasks⟩
  · have htimers : (s.timers.filter fun timer => s.retry ≠ some timer) = [] := by
      rw [List.filter_eq_nil_iff]
      intro timer htimer
      rw [h.armed, Option.mem_toList] at htimer
      simp [Option.mem_def.mp htimer]
    rw [kick_of_nil htasks, htimers]
    exact {
      one := Nat.le_refl 1
      handle := by simp
      armed := rfl
      quiet := fun _ => rfl
      down := fun hdown => absurd (hup.symm.trans hdown) nofun
      bounded := h.bounded
      began := by simp
      free := h.free
      halted := fun hnot => Or.inl (hhalted hnot)
      owed := fun _ => ⟨by simp, fun _ _ => Or.inl rfl⟩ }
  · rw [kick_of_task h hup htasks]
    exact {
      one := h.one
      handle := h.handle
      armed := h.armed
      quiet := h.quiet
      down := h.down
      bounded := h.bounded
      began := h.began
      free := h.free
      halted := fun hnot => Or.inl (hhalted hnot)
      owed := fun _ => ⟨by simp [htasks], fun _ _ => Or.inl rfl⟩ }

/-- Other counts of what was requested and what is queued, as long as all of it is owed. -/
theorem Inv.recount (h : s.Inv) {calls queued : Nat}
    (hint : s.accepting = false → s.interrupted = true)
    (howed : s.accepting = true → { s with calls := calls, queued := queued }.Owed)
    (hle : s.calls ≤ calls) : { s with calls := calls, queued := queued }.Inv where
  one := h.one
  handle := h.handle
  armed := h.armed
  quiet := h.quiet
  down := h.down
  bounded := Nat.le_trans h.bounded hle
  began := fun t ht began hbegan => Nat.le_trans (h.began t ht began hbegan) hle
  free := h.free
  halted := fun hnot => Or.inl (hint hnot)
  owed := howed

theorem kick_counts (s : Selection) :
    s.kick.accepting = s.accepting ∧ s.kick.interrupted = s.interrupted ∧
      s.kick.calls = s.calls := by
  have hlive : s.kick = if s.live = true then _ else _ := rfl
  rw [hlive]
  cases s.live <;> exact ⟨rfl, rfl, rfl⟩

theorem kick_queued (s : Selection) (n : Nat) :
    { s with queued := n }.kick = { s.kick with queued := n } := by
  have hlive : s.kick = if s.live = true then _ else _ := rfl
  have hlive' : { s with queued := n }.kick = if s.live = true then _ else _ := rfl
  rw [hlive, hlive']
  cases s.live <;> rfl

theorem kick_owes (h : s.Inv) (hup : s.up = true) (calls queued : Nat) :
    { s.kick with calls := calls, queued := queued }.Owed := by
  rcases h.tasks_cases with htasks | ⟨t, htasks⟩
  · rw [kick_of_nil htasks]
    exact ⟨by simp, fun _ _ => Or.inl rfl⟩
  · rw [kick_of_task h hup htasks]
    exact ⟨by simp [htasks], fun _ _ => Or.inl rfl⟩

theorem Inv.request (h : s.Inv) : s.request.Inv := by
  rw [Selection.request]
  split
  · rename_i haccept
    have hup := (accepting_iff.mp haccept).1
    obtain ⟨hkick, -, hcalls⟩ := kick_counts s
    have hopen : s.accepting = false → s.interrupted = true :=
      fun hnot => absurd (haccept.symm.trans hnot) nofun
    exact (h.kick hup hopen).recount
      (fun hnot => absurd ((hkick.trans haccept).symm.trans hnot) nofun)
      (fun _ => kick_owes h hup _ _) (hcalls ▸ Nat.le_succ s.calls)
  · exact h

theorem Inv.requestSoon (h : s.Inv) : s.requestSoon.Inv := by
  rw [Selection.requestSoon]
  split
  · rename_i haccept
    apply h.recount
    · exact fun hnot => absurd (haccept.symm.trans hnot) nofun
    · intro _
      obtain ⟨hnone, htask⟩ := h.owed haccept
      constructor
      · intro htasks htimers
        have hserved := hnone htasks htimers
        change s.calls + 1 ≤ s.served + (s.queued + 1)
        omega
      · intro t ht
        rcases htask t ht with hwanted | ⟨began, hbegan, hle⟩
        · exact Or.inl hwanted
        · refine Or.inr ⟨began, hbegan, ?_⟩
          change s.calls + 1 ≤ began + (s.queued + 1)
          omega
    · exact Nat.le_succ s.calls
  · exact h

theorem Inv.requests (h : s.Inv) (n : Nat) : (requests n s).Inv := by
  induction n generalizing s with
  | zero => exact h
  | succ n ih => exact ih h.request

/-- Requests made in a slice leave the task that runs it the only one. -/
theorem tasks_requests (h : s.Inv) {t : SelectTask} (htasks : s.tasks = [t]) (n : Nat) :
    (Selection.requests n s).tasks = [t] := by
  induction n generalizing s with
  | zero => exact htasks
  | succ n ih =>
    refine ih h.request ?_
    rw [Selection.request]
    split
    · rename_i haccept
      rw [kick_of_task h (accepting_iff.mp haccept).1 htasks]
      exact htasks
    · exact htasks

/-- The last task is done, and what was asked for is either done or owed to a retry. -/
theorem Inv.cleanUp (h : s.Inv) {t : SelectTask} (htasks : s.tasks = [t]) {failed : Bool}
    (hserved : s.accepting = true → failed = false → s.calls ≤ s.served + s.queued) :
    (s.cleanUp t.id failed).Inv := by
  obtain ⟨htimers, hretry⟩ := h.retry_eq_none htasks
  have hdrop : (s.tasks.filter fun u => u.id ≠ t.id) = [] := by simp [htasks]
  simp only [Selection.cleanUp, dropTask]
  split
  · rename_i hretried
    obtain ⟨-, haccept⟩ := (Bool.and_eq_true _ _).mp hretried
    have hup := (accepting_iff.mp haccept).1
    rw [hdrop, htimers]
    exact {
      one := Nat.zero_le 1
      handle := by simp
      armed := rfl
      quiet := by simp
      down := fun hdown => absurd (hup.symm.trans hdown) nofun
      bounded := h.bounded
      began := by simp
      free := h.free
      halted := fun hnot => absurd (haccept.symm.trans hnot) nofun
      owed := fun _ => ⟨by simp, by simp⟩ }
  · rename_i hnot
    rw [Bool.and_eq_true, not_and] at hnot
    rw [hdrop]
    exact {
      one := Nat.zero_le 1
      handle := by simp
      armed := h.armed
      quiet := by simp
      down := h.down
      bounded := h.bounded
      began := by simp
      free := h.free
      halted := fun hnot => Or.inl (h.interrupted htasks hnot)
      owed := fun haccept => by
        have hfailed : failed = false := by
          by_contra hne
          exact hnot (by simpa using hne) haccept
        exact ⟨fun _ _ => hserved haccept hfailed, by simp⟩ }

/-- A round starts after every request there is. -/
theorem Inv.begin (h : s.Inv) {t : SelectTask} (htasks : s.tasks = [t]) :
    (s.begin t.id).Inv ∧ (s.begin t.id).tasks = [{ t with progress := .draining s.calls }] := by
  have hset : (s.tasks.map fun u =>
      if u.id = t.id then { u with progress := .draining s.calls } else u) =
      [{ t with progress := .draining s.calls }] := by simp [htasks]
  refine ⟨?_, hset⟩
  simp only [Selection.begin, setTask, hset]
  exact {
    one := Nat.le_refl 1
    handle := fun hup u hu => by
      obtain rfl := List.mem_singleton.mp hu
      exact h.handle hup t (by simp [htasks])
    armed := h.armed
    quiet := fun _ => h.quiet (by simp [htasks])
    down := h.down
    bounded := h.bounded
    began := fun u hu began hbegan => by
      obtain rfl := List.mem_singleton.mp hu
      cases hbegan
      exact Nat.le_refl s.calls
    free := h.free
    halted := fun hnot => Or.inl (h.interrupted htasks hnot)
    owed := fun _ => by
      refine ⟨by simp, fun u hu => ?_⟩
      obtain rfl := List.mem_singleton.mp hu
      exact Or.inr ⟨s.calls, rfl, Nat.le_add_right _ _⟩ }

/-- A pass that found the queue empty serves every request made before it began. -/
theorem Inv.serve (h : s.Inv) {t : SelectTask} (htasks : s.tasks = [t]) {began : Nat}
    (hle : began ≤ s.calls) : { s with served := max s.served began }.Inv where
  one := h.one
  handle := h.handle
  armed := h.armed
  quiet := h.quiet
  down := h.down
  bounded := Nat.max_le.mpr ⟨h.bounded, hle⟩
  began := h.began
  free := h.free
  halted := fun hnot => Or.inl (h.interrupted htasks hnot)
  owed := fun haccept => ⟨fun hnil => absurd (htasks.symm.trans hnil) (by simp), (h.owed haccept).2⟩

theorem Inv.runSlices (h : s.Inv) {t : SelectTask} (htasks : s.tasks = [t]) {began : Nat}
    (hbegan : t.progress = .draining began) (slices : List DrainSlice) :
    (runSlices t.id began slices s).Inv := by
  induction slices generalizing s t began with
  | nil => exact h
  | cons slice rest ih =>
    have hinv := h.requests slice.requests
    have htask := tasks_requests h htasks slice.requests
    rw [Selection.runSlices]
    dsimp only
    split
    · exact hinv
    · exact hinv.cleanUp htask fun _ hfailed => nomatch hfailed
    · have hserve := hinv.serve htask (hinv.began t (by simp [htask]) began hbegan)
      split
      · obtain ⟨hbegin, htasks'⟩ := hserve.begin htask
        exact ih hbegin htasks' rfl
      · rename_i hwanted
        apply hserve.cleanUp htask
        intro haccept _
        rcases (hinv.owed haccept).2 t (by simp [htask]) with hw | ⟨b, hb, hle⟩
        · exact absurd hw hwanted
        · rw [hbegan] at hb
          cases hb
          exact Nat.le_trans hle (Nat.add_le_add_right (Nat.le_max_right _ _) _)

/-- The engine is down, and has forgotten the task. -/
theorem Inv.dropTask (h : s.Inv) {t : SelectTask} (htasks : s.tasks = [t])
    (hup : s.up = false) : (s.dropTask t.id).Inv := by
  have hdrop : (s.tasks.filter fun u => u.id ≠ t.id) = [] := by simp [htasks]
  have hnot : s.accepting = false := by simp [accepting, hup]
  simp only [Selection.dropTask, hdrop]
  exact {
    one := Nat.zero_le 1
    handle := by simp
    armed := h.armed
    quiet := by simp
    down := h.down
    bounded := h.bounded
    began := by simp
    free := h.free
    halted := fun _ => Or.inl (h.interrupted htasks hnot)
    owed := fun haccept => absurd (haccept.symm.trans hnot) nofun }

theorem Inv.resume (h : s.Inv) (id : Nat) (slices : List DrainSlice) :
    (s.resume id slices).Inv := by
  rw [Selection.resume]
  rcases h.tasks_cases with hnil | ⟨t, htasks⟩
  · simp only [hnil, List.find?_nil]
    exact h
  · rw [htasks, List.find?_singleton]
    by_cases hid : t.id = id
    · subst hid
      have hcancelled : t.cancelled = true → s.up = false := by
        intro hcancel
        by_contra hup
        have huncancelled := (h.handle (by simpa using hup) t (by simp [htasks])).2
        exact absurd (hcancel.symm.trans huncancelled) nofun
      have hdown : t.cancelled = true → s.accepting = true → False := by
        intro hcancel haccept
        exact absurd ((hcancelled hcancel).symm.trans (accepting_iff.mp haccept).1) nofun
      simp only [decide_true, if_true]
      cases hprogress : t.progress with
      | created =>
        dsimp only
        split
        · exact h.dropTask htasks (hcancelled ‹_›)
        · split
          · obtain ⟨hbegin, htasks'⟩ := h.begin htasks
            exact hbegin.runSlices htasks' rfl slices
          · rename_i hwanted
            apply h.cleanUp htasks
            intro haccept _
            rcases (h.owed haccept).2 t (by simp [htasks]) with hw | ⟨b, hb, -⟩
            · exact absurd hw hwanted
            · rw [hprogress] at hb
              cases hb
      | draining began =>
        dsimp only
        split
        · exact h.cleanUp htasks fun haccept _ => absurd haccept (hdown ‹_›)
        · exact h.runSlices htasks hprogress slices
    · simp only [hid, decide_false, Bool.false_eq_true, if_false]
      exact h

theorem Inv.takeRequest (h : s.Inv) (horderly : s.up = true ∨ s.interrupted = false) :
    (s.act .takeRequest).Inv := by
  rw [act]
  split
  · exact h
  · rename_i hqueued
    have hup : s.up = true := by
      rcases horderly with hup | hint
      · exact hup
      · by_contra hdown
        have hnot : s.accepting = false := by simp [accepting, hdown]
        rcases h.halted hnot with hint' | ⟨⟨-, -, hnone⟩, -⟩
        · exact absurd (hint.symm.trans hint') nofun
        · exact hqueued hnone
    have hint : s.accepting = false → s.interrupted = true := by
      intro hnot
      rcases h.halted hnot with hint | ⟨⟨-, -, hnone⟩, -⟩
      · exact hint
      · exact absurd hnone hqueued
    obtain ⟨hkick, hkept, hcalls⟩ := kick_counts s
    rw [kick_queued]
    apply (h.kick hup hint).recount
    · rw [hkick, hkept]
      exact hint
    · exact fun _ => kick_owes h hup _ _
    · exact Nat.le_refl _

theorem Inv.fire (h : s.Inv) (timer : Nat) : (s.act (.fire timer)).Inv := by
  rw [act]
  split
  · rename_i hmem
    have hne : s.timers ≠ [] := List.ne_nil_of_mem hmem
    have hup : s.up = true := by
      by_contra hdown
      exact hne (h.down (by simpa using hdown)).1
    have htasks : s.tasks = [] := by
      by_contra hsome
      exact hne (h.quiet hsome)
    have hint : s.accepting = false → s.interrupted = true := by
      intro hnot
      rcases h.halted hnot with hint | ⟨⟨-, hnone, -⟩, -⟩
      · exact hint
      · exact absurd hnone hne
    -- The timer of the handle is the only one, so none is left.
    have hsame : { s with timers := s.timers.filter fun t => t ≠ timer }.kick = s.kick := by
      rw [h.armed, Option.mem_toList] at hmem
      have hfired := kick_of_nil
        (s := { s with timers := s.timers.filter fun t => t ≠ timer }) htasks
      rw [hfired, kick_of_nil htasks]
      simp [h.armed, hmem]
    rw [hsame]
    exact h.kick hup hint
  · exact h

theorem Inv.beginStop (h : s.Inv) : s.beginStop.Inv := by
  rw [Selection.beginStop]
  split
  · rename_i haccept
    have hup := (accepting_iff.mp haccept).1
    have hnot : { s with
        stopping := true, interrupted := s.interrupted || !decide s.Idle }.accepting = false := by
      simp [accepting]
    exact {
      one := h.one
      handle := h.handle
      armed := h.armed
      quiet := h.quiet
      down := fun hdown => absurd (hup.symm.trans hdown) nofun
      bounded := h.bounded
      began := h.began
      free := fun _ => hnot
      halted := fun _ => by
        by_cases hidle : s.Idle
        · have hserved := (h.owed haccept).1 hidle.1 hidle.2.1
          rw [hidle.2.2] at hserved
          exact Or.inr ⟨hidle, hserved⟩
        · exact Or.inl (by simp [hidle])
      owed := fun haccept => absurd (haccept.symm.trans hnot) nofun }
  · exact h

theorem Inv.onLoopStop (h : s.Inv) : s.onLoopStop.Inv := by
  rw [Selection.onLoopStop]
  split
  · rename_i hstop
    have hnot : s.accepting = false := by
      rw [Bool.and_eq_true] at hstop
      simp [accepting, hstop.2]
    have htimers : (s.timers.filter fun timer => s.retry ≠ some timer) = [] := by
      rw [List.filter_eq_nil_iff]
      intro timer htimer
      rw [h.armed, Option.mem_toList] at htimer
      simp [Option.mem_def.mp htimer]
    rw [htimers]
    exact {
      one := by simpa using h.one
      handle := nofun
      armed := rfl
      quiet := fun _ => rfl
      down := fun _ => ⟨rfl, rfl⟩
      bounded := h.bounded
      began := fun t ht began hbegan => by
        obtain ⟨u, hu, rfl⟩ := List.mem_map.mp ht
        apply h.began u hu began
        split at hbegan
        · exact hbegan
        · exact hbegan
      free := fun _ => rfl
      halted := fun _ => by
        rcases h.halted hnot with hint | ⟨⟨hnil, -, hqueued⟩, hserved⟩
        · exact Or.inl hint
        · exact Or.inr ⟨⟨by simp [hnil], rfl, hqueued⟩, hserved⟩
      owed := nofun }
  · exact h

theorem Inv.start (h : s.Inv) (n : Nat) (horderly : s.up = true ∨ s.interrupted = false) :
    (s.start n).Inv := by
  rw [Selection.start]
  split
  · exact h
  · rename_i hdown
    have hint : s.interrupted = false := horderly.resolve_left hdown
    rw [Bool.not_eq_true] at hdown
    have hnot : s.accepting = false := by simp [accepting, hdown]
    obtain ⟨hidle, hserved⟩ := (h.halted hnot).resolve_left (by simp [hint])
    have hopen : { s with up := true }.accepting = true := by simp [accepting, (h.down hdown).2]
    apply Inv.requests
    exact {
      one := h.one
      handle := fun _ t ht => by simp [hidle.1] at ht
      armed := h.armed
      quiet := h.quiet
      down := nofun
      bounded := h.bounded
      began := h.began
      free := fun hyes => absurd (hint.symm.trans hyes) nofun
      halted := fun hnot => absurd (hopen.symm.trans hnot) nofun
      owed := fun _ => by
        refine ⟨fun _ _ => Nat.le_trans hserved (Nat.le_add_right _ _), fun t ht => ?_⟩
        simp [hidle.1] at ht }

/-- An engine stopped in the middle of its work neither starts again nor takes a request
from another thread. -/
def Orderly (s : Selection) : SelectAction → Prop
  | .start _ | .takeRequest => s.up = true ∨ s.interrupted = false
  | _ => True

/-- Every step of the run is orderly. -/
def OrderlyRun : List SelectAction → Selection → Prop
  | [], _ => True
  | a :: rest, s => s.Orderly a ∧ OrderlyRun rest (s.act a)

/-- At most one pass is running, and an idle engine that is up has served every request. -/
structure Sound (s : Selection) : Prop where
  single : (s.tasks.filter fun t => t.progress ≠ .created).length ≤ 1
  served : s.accepting = true → s.Idle → s.served = s.calls

theorem Inv.act (h : s.Inv) {a : SelectAction} (horderly : s.Orderly a) : (s.act a).Inv := by
  cases a with
  | request => exact h.request
  | requestSoon => exact h.requestSoon
  | takeRequest => exact h.takeRequest horderly
  | resume id slices => exact h.resume id slices
  | fire timer => exact h.fire timer
  | beginStop => exact h.beginStop
  | onLoopStop => exact h.onLoopStop
  | start n => exact h.start n horderly

theorem Inv.run (h : s.Inv) {actions : List SelectAction} (horderly : OrderlyRun actions s) :
    (run actions s).Inv := by
  induction actions generalizing s with
  | nil => exact h
  | cons a rest ih => exact ih (h.act horderly.1) horderly.2

theorem Inv.sound (h : s.Inv) : s.Sound where
  single := Nat.le_trans (List.length_filter_le _ _) h.one
  served := by
    rintro haccept ⟨htasks, htimers, hqueued⟩
    have hserved := (h.owed haccept).1 htasks htimers
    rw [hqueued] at hserved
    exact Nat.le_antisymm h.bounded hserved

/-- In an orderly run passes do not overlap and no request is lost. -/
theorem orderlyRun_sound {actions : List SelectAction} (horderly : OrderlyRun actions {}) :
    (run actions {}).Sound := (inv_fresh.run horderly).sound

/-- A start, a pass in two slices and one that raises, a stop when all is done and a start
again. -/
def orderlyActions : List SelectAction :=
  [.start 0, .requestSoon, .takeRequest, .resume 0 [⟨1, .more⟩],
    .resume 0 [⟨0, .done⟩, ⟨0, .raised⟩], .fire 1, .resume 2 [⟨0, .done⟩], .beginStop, .onLoopStop,
    .start 1]

theorem orderlyRun_sound_orderlyActions : (run orderlyActions {}).Sound := by
  apply orderlyRun_sound
  simp only [orderlyActions, OrderlyRun, Orderly]
  decide

/-- A pass is under way when the engine is stopped and started again: the first request starts a
second task, whose handle the cancelled one takes with it, the next a third. -/
def overlapping : List SelectAction :=
  [.start 1, .resume 0 [⟨0, .more⟩], .beginStop, .onLoopStop, .start 1, .resume 0 [],
    .resume 1 [⟨0, .more⟩], .request, .resume 1 [⟨0, .more⟩], .resume 2 [⟨0, .more⟩]]

theorem not_forall_run_sound : ¬∀ actions : List SelectAction, (run actions {}).Sound := by
  intro h
  have hsingle := (h overlapping).single
  revert hsingle
  decide

end Selection

end Engine

end Packets
