import Kirakira.Lib.Transition
import Mathlib.Data.List.Induction
import Mathlib.Logic.Function.Basic

/-!
# The Disposal of an Effect

An `Effect` of `agent/plugin_composition/effect.py` owns what a setup produced until its
cleanup has succeeded. The tasks of one event loop take turns at their `await`s: the task that
runs `start`, every task that calls `aclose`, and the close tasks that `aclose` creates. A
step of the model is one turn of one of them, so a run is any interleaving.

* The callbacks may do anything: the setup returns a cleanup, returns `None`, or fails, and the
  cleanup fails or succeeds, each after any number of turns of the others.
* A call is cancelled any number of times. A close task is not cancelled by its callers, which
  shield it; `refuse` is the close task that ends before it has come to the cleanup, because
  it is cancelled from outside or because the boundary around the cleanup is not entered. The
  boundary does nothing on the way out that a caller could see.
* The trace holds what happens to the resource, in the order in which it happens.

`Life` says what an effect is for: the lives that a resource may have. `Inv.lives` is the
refinement, the trace of every run is the beginning of such a life.

## Main results

* `disposal` — the cleanup is invoked after the setup settled, one invocation at a time, and
  not again once one succeeded; the owner is told once, when the setup failed or the cleanup
  succeeded; a cleanup that failed is retried; and `aclose` returns only when the effect is closed.
-/

namespace Kirakira.Effects

/-! ### The life of a resource -/

/-- How the setup of an effect settles: it fails, or it returns a cleanup or `None`. -/
inductive Setup
  | failed
  | owned
  | bare
deriving DecidableEq

/-- What happens to the resource of an effect. -/
inductive Mark
  /-- The setup has settled. -/
  | settled (setup : Setup)
  /-- The cleanup is invoked. -/
  | invoked
  /-- The invocation has ended. -/
  | finished (ok : Bool)
  /-- `remove_from_owner` is called. -/
  | removed
deriving DecidableEq

/-- Where a resource is in its life. -/
inductive Life
  | setup
  | failed
  | owned
  | cleaning
  | cleaned
  | bare
  | gone
deriving DecidableEq

/-- The only ways on: a cleanup that failed leaves the resource owned. -/
def Life.next : Life → Mark → Option Life
  | .setup, .settled .failed => some .failed
  | .setup, .settled .owned => some .owned
  | .setup, .settled .bare => some .bare
  | .owned, .invoked => some .cleaning
  | .cleaning, .finished false => some .owned
  | .cleaning, .finished true => some .cleaned
  | .failed, .removed | .cleaned, .removed | .bare, .removed => some .gone
  | _, _ => none

/-- The life that a trace leads to, from a setup that has not settled. -/
def Life.of (trace : List Mark) : Option Life :=
  trace.foldlM Life.next .setup

/-- The trace of a resource whose cleanup was invoked `k` times and failed each time. -/
def attempts (k : ℕ) : List Mark :=
  .settled .owned :: (List.replicate k [.invoked, .finished false]).flatten

/-- What has happened to a resource, by where it is in its life. -/
def Life.Past (trace : List Mark) : Life → Prop
  | .setup => trace = []
  | .failed => trace = [.settled .failed]
  | .owned => ∃ k, trace = attempts k
  | .cleaning => ∃ k, trace = attempts k ++ [.invoked]
  | .cleaned => ∃ k, trace = attempts k ++ [.invoked, .finished true]
  | .bare => trace = [.settled .bare]
  | .gone =>
      trace = [.settled .failed, .removed] ∨ trace = [.settled .bare, .removed] ∨
        ∃ k, trace = attempts k ++ [.invoked, .finished true, .removed]

theorem attempts_succ (k : ℕ) :
    attempts (k + 1) = attempts k ++ [.invoked, .finished false] := by
  rw [attempts, attempts, List.replicate_succ', List.flatten_append]
  simp

variable {trace before rest : List Mark}

/-- A mark adds to the past what the life it leads to asks for. -/
theorem Life.Past.next {life next : Life} {mark : Mark} (h : life.Past trace)
    (hnext : life.next mark = some next) : next.Past (trace ++ [mark]) := by
  unfold Life.next at hnext
  split at hnext
  case h_10 => exact absurd hnext (by simp)
  all_goals obtain rfl := Option.some.inj hnext
  -- The setup settles.
  case h_1 | h_2 | h_3 =>
    obtain rfl : trace = [] := h
    first | rfl | exact ⟨0, rfl⟩
  -- An invocation begins and ends.
  case h_4 =>
    obtain ⟨k, rfl⟩ := h
    exact ⟨k, rfl⟩
  case h_5 =>
    obtain ⟨k, rfl⟩ := h
    exact ⟨k + 1, by rw [attempts_succ, List.append_assoc]; rfl⟩
  case h_6 =>
    obtain ⟨k, rfl⟩ := h
    exact ⟨k, by rw [List.append_assoc]; rfl⟩
  -- The owner lets go.
  case h_7 =>
    obtain rfl : trace = [.settled .failed] := h
    exact .inl rfl
  case h_8 =>
    obtain ⟨k, rfl⟩ := h
    exact .inr (.inr ⟨k, by rw [List.append_assoc]; rfl⟩)
  case h_9 =>
    obtain rfl : trace = [.settled .bare] := h
    exact .inr (.inl rfl)

theorem Life.of_append (trace : List Mark) (mark : Mark) :
    Life.of (trace ++ [mark]) = (Life.of trace).bind fun life => life.next mark := by
  simp [Life.of, List.foldlM_append]

/-- **The past of a life**: only what leads to it can have happened. -/
theorem Life.past {life : Life} (h : Life.of trace = some life) : life.Past trace := by
  induction trace using List.reverseRecOn generalizing life with
  | nil =>
      obtain rfl := Option.some.inj h
      rfl
  | append_singleton trace mark ih =>
      rw [Life.of_append, Option.bind_eq_some_iff] at h
      obtain ⟨before, hbefore, hnext⟩ := h
      exact (ih hbefore).next hnext

theorem Life.of_split {mark : Mark} {life : Life}
    (h : Life.of (before ++ mark :: rest) = some life) :
    ∃ start next, Life.of before = some start ∧ start.next mark = some next := by
  rw [List.append_cons, Life.of, List.foldlM_append, Option.bind_eq_bind,
    Option.bind_eq_some_iff] at h
  obtain ⟨next, hnext, -⟩ := h
  rw [← Life.of, Life.of_append, Option.bind_eq_some_iff] at hnext
  obtain ⟨start, hstart, hnext⟩ := hnext
  exact ⟨start, next, hstart, hnext⟩

theorem Life.before_invoked {life : Life} (h : Life.of (before ++ .invoked :: rest) = some life) :
    ∃ k, before = attempts k := by
  obtain ⟨start, next, hstart, hnext⟩ := Life.of_split h
  cases start with
  | owned => exact Life.past hstart
  | setup | failed | cleaning | cleaned | bare | gone => simp [Life.next] at hnext

/-- The owner lets go after the setup failed, after the cleanup succeeded, or where there is no
cleanup. -/
theorem Life.before_removed {life : Life} (h : Life.of (before ++ .removed :: rest) = some life) :
    before = [.settled .failed] ∨ before = [.settled .bare] ∨
      ∃ k, before = attempts k ++ [.invoked, .finished true] := by
  obtain ⟨start, next, hstart, hnext⟩ := Life.of_split h
  cases start with
  | failed => exact .inl (Life.past hstart)
  | bare => exact .inr (.inl (Life.past hstart))
  | cleaned => exact .inr (.inr (Life.past hstart))
  | setup | owned | cleaning | gone => simp [Life.next] at hnext

theorem mem_attempts {k : ℕ} {mark : Mark} (h : mark ∈ attempts k) :
    mark = .settled .owned ∨ mark = .invoked ∨ mark = .finished false := by
  induction k with
  | zero => exact .inl (List.mem_singleton.mp h)
  | succ k ih =>
      rw [attempts_succ, List.mem_append] at h
      rcases h with h | h
      · exact ih h
      · exact .inr (by simpa using h)

/-! ### The tasks -/

/-- A close task: `waiting` until it has the turn after `_ready` was set, `cleaning` while an
invocation of the cleanup is running in it. -/
inductive CloseTask
  | waiting
  | cleaning
  | done (ok : Bool)
deriving DecidableEq

/-- `Task.done`. -/
def CloseTask.isDone : CloseTask → Bool
  | .done _ => true
  | _ => false

/-- A call that waits for a close task in `_join_cleanup`, and how it ends. -/
inductive Call
  | joining (task : ℕ) (cancelled : Bool)
  | returned
  | raised
deriving DecidableEq

/-- The call of `start`. -/
inductive Starter
  | fresh
  | settingUp
  | settled (call : Call)
deriving DecidableEq

/-- The task that calls `aclose`: the one `start` runs in, the close task in which the cleanup is
running, or another one. -/
inductive Who
  | setup
  | cleanup
  | other
deriving DecidableEq

/-- An effect and the calls of its methods. -/
structure State where
  /-- The call of `start`; `_setup_task` is set with it. -/
  starter : Starter
  /-- `_ready` -/
  ready : Bool
  /-- `_cleanup` is not `None`. -/
  cleanup : Bool
  /-- The close tasks in the order of their creation; `_close_task` is the last one. -/
  tasks : List CloseTask
  /-- `_closed` -/
  closed : Bool
  /-- The calls of `aclose`. -/
  callers : ℕ → Option Call
  /-- What happened to the resource so far. -/
  trace : List Mark

/-- `_join_cleanup` once the task it waits for is done: it raises the failure, or a cancellation. -/
def Call.woken (tasks : List CloseTask) : Call → Option Call
  | .joining task cancelled =>
      match tasks[task]? with
      | some (.done ok) => some (if ok = true ∧ cancelled = false then .returned else .raised)
      | _ => none
  | _ => none

/-- `_join_cleanup` when its task is cancelled: it keeps that in mind and waits again. -/
def Call.cancelled : Call → Option Call
  | .joining task _ => some (.joining task true)
  | _ => none

/-- `Effect.aclose` up to the first `await`. -/
def State.aclose (s : State) (who : Who) (refused : Bool) : State × Call :=
  if s.closed then (s, .returned)
  else if who = .setup ∧ s.starter ≠ .fresh ∧ s.ready = false then (s, .raised)
  else if refused then (s, .raised)
  else
    let tasks :=
      if s.tasks.getLast?.all CloseTask.isDone then s.tasks ++ [.waiting] else s.tasks
    ({ s with tasks },
      if who = .cleanup then .raised else .joining (tasks.length - 1) false)

/-- The end of `Effect._close`. -/
def State.retire (s : State) (t : ℕ) (marks : List Mark) : State :=
  { s with
    cleanup := false
    closed := true
    tasks := s.tasks.set t (.done true)
    trace := s.trace ++ marks ++ [.removed] }

/-- `Effect._close` once `_ready` is set, up to the cleanup's own code. -/
def State.close (s : State) (t : ℕ) : State :=
  if s.closed then { s with tasks := s.tasks.set t (.done true) }
  else if s.cleanup then
    { s with tasks := s.tasks.set t .cleaning, trace := s.trace ++ [.invoked] }
  else s.retire t []

/-- `Effect._close` when the invocation of the cleanup ends. -/
def State.finish (s : State) (t : ℕ) (ok : Bool) : State :=
  if ok then s.retire t [.finished true]
  else { s with tasks := s.tasks.set t (.done false), trace := s.trace ++ [.finished false] }

/-- `Effect.start` when the setup has returned. -/
def State.setupReturns (s : State) (hasCleanup : Bool) : State :=
  { s with
    cleanup := hasCleanup
    ready := true
    -- A disposer may already be waiting for the setup to settle.
    starter := .settled
      (if s.tasks = [] then .returned else .joining (s.tasks.length - 1) false)
    trace := s.trace ++ [.settled (if hasCleanup then .owned else .bare)] }

/-- `Effect.start` when the setup has failed. -/
def State.setupFails (s : State) : State :=
  { s with
    closed := true
    ready := true
    starter := .settled .raised
    trace := s.trace ++ [.settled .failed, .removed] }

/-- A turn of one of the tasks. -/
inductive Event
  | start
  | setupReturns (hasCleanup : Bool)
  | setupFails
  | cancelStart
  | wakeStart
  /-- A call of `aclose`, and whether `_close_guard` refuses it. -/
  | aclose (n : ℕ) (who : Who) (refused : Bool)
  | cancel (n : ℕ)
  | wake (n : ℕ)
  | close (t : ℕ)
  | refuse (t : ℕ)
  | finish (t : ℕ) (ok : Bool)

/-- The call of `start` goes on. -/
def State.stepStarter (s : State) (step : Call → Option Call) : Option State :=
  match s.starter with
  | .settled call => (step call).map fun next => { s with starter := .settled next }
  | _ => none

/-- The `n`-th call of `aclose` has come this far. -/
def State.called (s : State) (n : ℕ) (call : Call) : State :=
  { s with callers := Function.update s.callers n (some call) }

/-- A call of `aclose` goes on. -/
def State.stepCaller (s : State) (n : ℕ) (step : Call → Option Call) : Option State :=
  ((s.callers n).bind step).map (s.called n)

/-- The state after a turn, for the turns that can be taken. -/
def after (s : State) : Event → Option State
  | .start => if s.starter = .fresh then some { s with starter := .settingUp } else none
  | .setupReturns hasCleanup =>
      if s.starter = .settingUp then some (s.setupReturns hasCleanup) else none
  | .setupFails => if s.starter = .settingUp then some s.setupFails else none
  | .cancelStart => s.stepStarter Call.cancelled
  | .wakeStart => s.stepStarter (Call.woken s.tasks)
  | .aclose n who refused =>
      if s.callers n = none ∧ (who = .cleanup → s.tasks.getLast? = some .cleaning) then
        some ((s.aclose who refused).1.called n (s.aclose who refused).2)
      else none
  | .cancel n => s.stepCaller n Call.cancelled
  | .wake n => s.stepCaller n (Call.woken s.tasks)
  | .close t =>
      if s.tasks[t]? = some .waiting ∧ s.ready = true then some (s.close t) else none
  | .refuse t =>
      if s.tasks[t]? = some .waiting then
        some { s with tasks := s.tasks.set t (.done false) }
      else none
  | .finish t ok => if s.tasks[t]? = some .cleaning then some (s.finish t ok) else none

/-- An effect that has been constructed. -/
def State.initial : State :=
  ⟨.fresh, false, false, [], false, fun _ => none, []⟩

/-- An effect under any interleaving of its tasks. -/
def system : Transition.System State Event where
  init s := s = State.initial
  step s e t := after s e = some t

/-! ### The invariant -/

/-- Where the resource of an effect is in its life. -/
def State.life (s : State) : Life :=
  if s.ready = false then .setup
  else if s.closed then .gone
  else if s.cleanup = false then .bare
  else if .cleaning ∈ s.tasks then .cleaning
  else .owned

/-- What holds of an effect between two turns. -/
structure Inv (s : State) : Prop where
  lives : Life.of s.trace = some s.life
  /-- Setup decides everything that follows. -/
  unsettled : s.ready = false → s.closed = false ∧ .cleaning ∉ s.tasks
  settled : s.ready = true ↔ ∃ call, s.starter = .settled call
  /-- Only the last close task goes on. -/
  older : ∀ x ∈ s.tasks.dropLast, x.isDone = true
  cleaning : .cleaning ∈ s.tasks → s.closed = false ∧ s.cleanup = true
  succeeded : .done true ∈ s.tasks → s.closed = true
  returned : ∀ n, s.callers n = some .returned → s.closed = true

variable {t : ℕ} {s : State}

theorem last_of_live {tasks : List CloseTask} (h : ∀ x ∈ tasks.dropLast, x.isDone = true)
    {x : CloseTask} (hx : tasks[t]? = some x) (hlive : x.isDone = false) :
    ∃ past, (∀ y ∈ past, y.isDone = true) ∧ tasks = past ++ [x] ∧
      ∀ y, tasks.set t y = past ++ [y] := by
  induction tasks using List.reverseRecOn with
  | nil => simp at hx
  | append_singleton past last =>
      rw [List.dropLast_concat] at h
      rcases Nat.lt_trichotomy t past.length with ht | rfl | ht
      · rw [List.getElem?_append_left ht] at hx
        have := h x (List.mem_of_getElem? hx)
        rw [hlive] at this
        contradiction
      · obtain rfl : last = x := by simpa using hx
        exact ⟨past, h, rfl, fun y => by simp⟩
      · rw [List.getElem?_eq_none (by simp; omega)] at hx
        contradiction

theorem mem_live {past : List CloseTask} (h : ∀ y ∈ past, y.isDone = true) {x y : CloseTask}
    (hlive : x.isDone = false) : x ∈ past ++ [y] ↔ x = y := by
  rw [List.mem_append, List.mem_singleton, or_iff_right]
  intro hx
  rw [h x hx] at hlive
  contradiction

theorem Inv.initial : Inv State.initial where
  lives := rfl
  unsettled _ := ⟨rfl, List.not_mem_nil⟩
  settled := by simp [State.initial]
  older _ hx := absurd hx List.not_mem_nil
  cleaning h := absurd h List.not_mem_nil
  succeeded h := absurd h List.not_mem_nil
  returned _ h := absurd h (by simp [State.initial])

theorem Inv.settingUp (h : Inv s) (hs : s.starter = .settingUp) : s.ready = false := by
  rw [← Bool.not_eq_true, h.settled, hs]
  simp

theorem Inv.setupReturns (h : Inv s) (hs : s.starter = .settingUp) (hasCleanup : Bool) :
    Inv (s.setupReturns hasCleanup) := by
  have hready := h.settingUp hs
  obtain ⟨hclosed, hcleaning⟩ := h.unsettled hready
  exact {
    lives := by
      have hsetup : s.life = .setup := by simp [State.life, hready]
      rw [State.setupReturns, Life.of_append, h.lives, hsetup]
      cases hasCleanup <;> simp [State.life, Life.next, hclosed, hcleaning]
    unsettled := fun hr => absurd hr (by simp [State.setupReturns])
    settled := by simp [State.setupReturns]
    older := h.older
    cleaning := fun hc => absurd hc hcleaning
    succeeded := h.succeeded
    returned := h.returned }

theorem Inv.setupFails (h : Inv s) (hs : s.starter = .settingUp) : Inv s.setupFails := by
  have hready := h.settingUp hs
  obtain ⟨-, hcleaning⟩ := h.unsettled hready
  exact {
    lives := by
      have hsetup : s.life = .setup := by simp [State.life, hready]
      rw [State.setupFails, List.append_cons, Life.of_append, Life.of_append, h.lives, hsetup]
      simp [State.life, Life.next]
    unsettled := fun hr => absurd hr (by simp [State.setupFails])
    settled := by simp [State.setupFails]
    older := h.older
    cleaning := fun hc => absurd hc hcleaning
    succeeded := fun _ => rfl
    returned := fun _ _ => rfl }

/-! ### Calls -/

theorem Call.woken_returned {tasks : List CloseTask} {call : Call}
    (h : call.woken tasks = some .returned) : .done true ∈ tasks := by
  unfold Call.woken at h
  split at h
  case h_2 => contradiction
  split at h
  case h_2 => contradiction
  rename_i ok htask
  have hok : ok = true := by
    by_contra hok
    simp [hok] at h
  exact hok ▸ List.mem_of_getElem? htask

theorem Call.cancelled_ne {call : Call} : call.cancelled ≠ some .returned := by
  cases call <;> simp [Call.cancelled]

theorem Inv.stepStarter {t : State} (h : Inv s) {step : Call → Option Call}
    (hst : s.stepStarter step = some t) : Inv t := by
  unfold State.stepStarter at hst
  split at hst
  case h_2 => contradiction
  rename_i call hcall
  obtain ⟨next, -, rfl⟩ := Option.map_eq_some_iff.mp hst
  exact {
    lives := h.lives
    unsettled := h.unsettled
    settled := iff_of_true (h.settled.mpr ⟨call, hcall⟩) ⟨next, rfl⟩
    older := h.older
    cleaning := h.cleaning
    succeeded := h.succeeded
    returned := h.returned }

theorem Inv.caller (h : Inv s) (n : ℕ) {call : Call} (hcall : call = .returned → s.closed = true) :
    Inv (s.called n call) where
  lives := h.lives
  unsettled := h.unsettled
  settled := h.settled
  older := h.older
  cleaning := h.cleaning
  succeeded := h.succeeded
  returned m hm := by
    change Function.update s.callers n (some call) m = some .returned at hm
    rcases eq_or_ne m n with rfl | hne
    · rw [Function.update_self] at hm
      exact hcall (Option.some.inj hm)
    · rw [Function.update_of_ne hne] at hm
      exact h.returned m hm

theorem Inv.stepCaller {t : State} (h : Inv s) {n : ℕ} {step : Call → Option Call}
    (hstep : ∀ call, step call = some .returned → s.closed = true)
    (hst : s.stepCaller n step = some t) : Inv t := by
  obtain ⟨next, hnext, rfl⟩ := Option.map_eq_some_iff.mp hst
  obtain ⟨call, -, hnext⟩ := Option.bind_eq_some_iff.mp hnext
  exact h.caller n fun hreturned => hstep call (hreturned ▸ hnext)

/-- What `aclose` does: it returns from a closed effect, is refused, or comes to the last close
task, which is a new one where the last one is done. -/
theorem State.aclose_cases (s : State) (who : Who) (refused : Bool) :
    (s.closed = true ∧ s.aclose who refused = (s, .returned)) ∨
    s.aclose who refused = (s, .raised) ∨
    ∃ tasks call, s.aclose who refused = ({ s with tasks }, call) ∧ call ≠ .returned ∧
      (tasks = s.tasks ∨
        s.tasks.getLast?.all CloseTask.isDone = true ∧ tasks = s.tasks ++ [.waiting]) := by
  unfold State.aclose
  split_ifs with hclosed hsetup hrefused hdone hwho hwho
  · exact .inl ⟨hclosed, rfl⟩
  · exact .inr (.inl rfl)
  · exact .inr (.inl rfl)
  all_goals refine .inr (.inr ⟨_, _, rfl, by simp, ?_⟩)
  · exact .inr ⟨hdone, rfl⟩
  · exact .inr ⟨hdone, rfl⟩
  · exact .inl rfl
  · exact .inl rfl

theorem Inv.all_done (h : Inv s) (hdone : s.tasks.getLast?.all CloseTask.isDone = true) :
    ∀ x ∈ s.tasks, x.isDone = true := by
  intro x hx
  have hne : s.tasks ≠ [] := List.ne_nil_of_mem hx
  rw [← List.dropLast_concat_getLast hne, List.mem_append, List.mem_singleton] at hx
  rcases hx with hx | rfl
  · exact h.older x hx
  · rw [List.getLast?_eq_some_getLast hne] at hdone
    simpa using hdone

theorem Inv.create (h : Inv s) (hdone : s.tasks.getLast?.all CloseTask.isDone = true) :
    Inv { s with tasks := s.tasks ++ [.waiting] } where
  lives := by simpa [State.life] using h.lives
  unsettled hr := by simpa using h.unsettled hr
  settled := h.settled
  older x hx := by
    rw [List.dropLast_concat] at hx
    exact h.all_done hdone x hx
  cleaning hc := h.cleaning (by simpa using hc)
  succeeded hs := h.succeeded (by simpa using hs)
  returned := h.returned

theorem Inv.aclose (h : Inv s) (n : ℕ) (who : Who) (refused : Bool) :
    Inv ((s.aclose who refused).1.called n (s.aclose who refused).2) := by
  obtain ⟨hclosed, heq⟩ | heq | ⟨tasks, call, heq, hcall, rfl | ⟨hdone, rfl⟩⟩ :=
    s.aclose_cases who refused <;> rw [heq]
  · exact h.caller n fun _ => hclosed
  · exact h.caller n fun hc => by contradiction
  · exact h.caller n fun hc => absurd hc hcall
  · exact (h.create hdone).caller n fun hc => absurd hc hcall

/-! ### The close task -/

theorem Inv.retire (h : Inv s) {past : List CloseTask} {marks : List Mark} (hready : s.ready = true)
    (hpast : ∀ y ∈ past, y.isDone = true) (hset : ∀ y, s.tasks.set t y = past ++ [y])
    (hlives : Life.of (s.trace ++ marks ++ [.removed]) = some .gone) :
    Inv (s.retire t marks) where
  lives := by simpa [State.retire, State.life, hready] using hlives
  unsettled hr := by
    rw [show (s.retire t marks).ready = s.ready from rfl, hready] at hr
    contradiction
  settled := h.settled
  older x hx := by
    rw [State.retire, hset, List.dropLast_concat] at hx
    exact hpast x hx
  cleaning hc := by
    rw [State.retire, hset, mem_live hpast rfl] at hc
    contradiction
  succeeded _ := rfl
  returned _ _ := rfl

/-- A close task that fails, or ends in an effect that is closed already, changes no more than
itself. -/
theorem Inv.endTask (h : Inv s) {past : List CloseTask} {ok : Bool}
    (hpast : ∀ y ∈ past, y.isDone = true) (hset : ∀ y, s.tasks.set t y = past ++ [y])
    (hold : ∀ y ∈ past, y ∈ s.tasks) (hok : ok = true → s.closed = true) (hlives : Life.of trace =
      some { s with tasks := s.tasks.set t (.done ok), trace }.life) :
    Inv { s with tasks := s.tasks.set t (.done ok), trace } where
  lives := hlives
  unsettled hr := by
    refine ⟨(h.unsettled hr).1, ?_⟩
    rw [hset, mem_live hpast rfl]
    simp
  settled := h.settled
  older x hx := by
    rw [hset, List.dropLast_concat] at hx
    exact hpast x hx
  cleaning hc := by
    rw [hset, mem_live hpast rfl] at hc
    contradiction
  succeeded hs := by
    rw [hset, List.mem_append, List.mem_singleton] at hs
    rcases hs with hs | hs
    · exact h.succeeded (hold _ hs)
    · exact hok (CloseTask.done.inj hs).symm
  returned := h.returned

theorem Inv.waiting (h : Inv s) (ht : s.tasks[t]? = some .waiting) : .cleaning ∉ s.tasks := by
  obtain ⟨past, hpast, htasks, -⟩ := last_of_live h.older ht rfl
  rw [htasks, mem_live hpast rfl]
  simp

theorem Inv.close (h : Inv s) (ht : s.tasks[t]? = some .waiting) (hready : s.ready = true) :
    Inv (s.close t) := by
  have hcleaning := h.waiting ht
  obtain ⟨past, hpast, htasks, hset⟩ := last_of_live h.older ht rfl
  have hold : ∀ y ∈ past, y ∈ s.tasks := fun y hy => htasks ▸ List.mem_append_left _ hy
  have hlives := h.lives
  unfold State.close
  split_ifs with hclosed hcleanup
  · refine h.endTask hpast hset hold (fun _ => hclosed) ?_
    simpa [State.life, hready, hclosed] using hlives
  · have howned : s.life = .owned := by simp [State.life, hready, hclosed, hcleanup, hcleaning]
    exact {
      lives := by
        rw [Life.of_append, hlives, howned]
        simp [State.life, Life.next, hready, hclosed, hcleanup, hset]
      unsettled := fun hr => by
        rw [hready] at hr
        contradiction
      settled := h.settled
      older := fun x hx => by
        rw [hset, List.dropLast_concat] at hx
        exact hpast x hx
      cleaning := fun _ => ⟨by simpa using hclosed, hcleanup⟩
      succeeded := fun hs => by
        rw [hset, List.mem_append, List.mem_singleton] at hs
        rcases hs with hs | hs
        · exact h.succeeded (hold _ hs)
        · contradiction
      returned := h.returned }
  · refine h.retire hready hpast hset ?_
    have hbare : s.life = .bare := by simp [State.life, hready, hclosed, hcleanup]
    rw [List.append_nil, Life.of_append, hlives, hbare]
    rfl

theorem Inv.refuse (h : Inv s) (ht : s.tasks[t]? = some .waiting) :
    Inv { s with tasks := s.tasks.set t (.done false) } := by
  have hcleaning := h.waiting ht
  obtain ⟨past, hpast, htasks, hset⟩ := last_of_live h.older ht rfl
  have hold : ∀ y ∈ past, y ∈ s.tasks := fun y hy => htasks ▸ List.mem_append_left _ hy
  refine h.endTask hpast hset hold (fun hok => by contradiction) ?_
  have hafter : .cleaning ∉ s.tasks.set t (.done false) := by
    rw [hset, mem_live hpast rfl]
    simp
  simpa [State.life, hcleaning, hafter] using h.lives

theorem Inv.finish (h : Inv s) (ht : s.tasks[t]? = some .cleaning) (ok : Bool) :
    Inv (s.finish t ok) := by
  have hmem := List.mem_of_getElem? ht
  obtain ⟨hclosed, hcleanup⟩ := h.cleaning hmem
  have hready : s.ready = true := by
    by_contra hr
    exact (h.unsettled (Bool.not_eq_true _ ▸ hr)).2 hmem
  obtain ⟨past, hpast, htasks, hset⟩ := last_of_live h.older ht rfl
  have hold : ∀ y ∈ past, y ∈ s.tasks := fun y hy => htasks ▸ List.mem_append_left _ hy
  have hcleaning : s.life = .cleaning := by simp [State.life, hready, hclosed, hcleanup, hmem]
  have hlives := h.lives
  cases ok with
  | true =>
      refine h.retire hready hpast hset ?_
      rw [Life.of_append, Life.of_append, hlives, hcleaning]
      rfl
  | false =>
      refine h.endTask hpast hset hold (fun hok => by contradiction) ?_
      have hafter : .cleaning ∉ s.tasks.set t (.done false) := by
        rw [hset, mem_live hpast rfl]
        simp
      rw [Life.of_append, hlives, hcleaning]
      simp [State.life, Life.next, hready, hclosed, hcleanup, hafter]

/-! ### Runs -/

theorem Inv.turn {t : State} {e : Event} (h : Inv s) (hst : after s e = some t) : Inv t := by
  cases e with
  | start =>
      obtain ⟨hfresh, hst⟩ := Option.ite_none_right_eq_some.mp hst
      obtain rfl := Option.some.inj hst
      have hready : ¬s.ready = true := by simp [h.settled, hfresh]
      exact {
        lives := h.lives
        unsettled := h.unsettled
        settled := iff_of_false hready (by simp)
        older := h.older
        cleaning := h.cleaning
        succeeded := h.succeeded
        returned := h.returned }
  | setupReturns hasCleanup =>
      obtain ⟨hs, hst⟩ := Option.ite_none_right_eq_some.mp hst
      exact Option.some.inj hst ▸ h.setupReturns hs hasCleanup
  | setupFails =>
      obtain ⟨hs, hst⟩ := Option.ite_none_right_eq_some.mp hst
      exact Option.some.inj hst ▸ h.setupFails hs
  | cancelStart => exact h.stepStarter hst
  | wakeStart => exact h.stepStarter hst
  | aclose n who refused =>
      obtain ⟨-, hst⟩ := Option.ite_none_right_eq_some.mp hst
      exact Option.some.inj hst ▸ h.aclose n who refused
  | cancel n => exact h.stepCaller (fun _ hc => absurd hc Call.cancelled_ne) hst
  | wake n => exact h.stepCaller (fun _ hc => h.succeeded (Call.woken_returned hc)) hst
  | close t =>
      obtain ⟨⟨ht, hready⟩, hst⟩ := Option.ite_none_right_eq_some.mp hst
      exact Option.some.inj hst ▸ h.close ht hready
  | refuse t =>
      obtain ⟨ht, hst⟩ := Option.ite_none_right_eq_some.mp hst
      exact Option.some.inj hst ▸ h.refuse ht
  | finish t ok =>
      obtain ⟨ht, hst⟩ := Option.ite_none_right_eq_some.mp hst
      exact Option.some.inj hst ▸ h.finish ht ok

theorem Inv.of_reachable (h : system.Reachable s) : Inv s := by
  refine h.invariant ?_ ?_
  · rintro _ rfl
    exact Inv.initial
  · exact fun _ _ _ hs _ hstep => hs.turn hstep

/-! ### What a state says about the trace -/

/-- In an effect that is not closed the owner has not let go, and nothing has happened that would
make it. -/
theorem Inv.not_closed (h : Inv s) (hclosed : s.closed = false) :
    .removed ∉ s.trace ∧ .settled .failed ∉ s.trace ∧ .finished true ∉ s.trace := by
  have hpast := Life.past h.lives
  have hk : ∀ k, .removed ∉ attempts k ∧ .settled .failed ∉ attempts k ∧
      .finished true ∉ attempts k := fun k =>
    ⟨fun hm => by simpa using mem_attempts hm, fun hm => by simpa using mem_attempts hm,
      fun hm => by simpa using mem_attempts hm⟩
  unfold State.life at hpast
  split_ifs at hpast with hready hc hcleanup hcleaning
  · have htrace : s.trace = [] := hpast
    simp [htrace]
  · rw [hclosed] at hc
    contradiction
  · have htrace : s.trace = [.settled .bare] := hpast
    simp [htrace]
  · obtain ⟨k, htrace⟩ := hpast
    simp [htrace, hk k]
  · obtain ⟨k, htrace⟩ := hpast
    simp [htrace, hk k]

theorem count_attempts (k : ℕ) : (attempts k).count .removed = 0 :=
  List.count_eq_zero.mpr fun hm => by simpa using mem_attempts hm

theorem Inv.count_removed (h : Inv s) (hclosed : s.closed = true) : s.trace.count .removed = 1 := by
  have hready : s.ready = true := by
    by_contra hr
    have := (h.unsettled (Bool.not_eq_true _ ▸ hr)).1
    rw [hclosed] at this
    contradiction
  have hover : s.life = .gone := by simp [State.life, hready, hclosed]
  have hpast := Life.past h.lives
  rw [hover] at hpast
  obtain htrace | htrace | ⟨k, htrace⟩ := hpast
  · rw [htrace]
    rfl
  · rw [htrace]
    rfl
  · rw [htrace, List.count_append, count_attempts]
    rfl

theorem Inv.failed (h : Inv s) (hlast : s.trace.getLast? = some (.finished false)) :
    s.ready = true ∧ s.closed = false ∧ s.cleanup = true ∧ .cleaning ∉ s.tasks := by
  have hpast := Life.past h.lives
  unfold State.life at hpast
  split_ifs at hpast with hready hclosed hcleanup hcleaning
  · have htrace : s.trace = [] := hpast
    simp [htrace] at hlast
  · obtain htrace | htrace | ⟨k, htrace⟩ := hpast <;> simp [htrace] at hlast
  · have htrace : s.trace = [.settled .bare] := hpast
    simp [htrace] at hlast
  · obtain ⟨k, htrace⟩ := hpast
    simp [htrace] at hlast
  · exact ⟨by simpa using hready, by simpa using hclosed, by simpa using hcleanup, hcleaning⟩

theorem Inv.invokes (h : Inv s) (hlast : s.trace.getLast? = some (.finished false))
    (ht : s.tasks[t]? = some .waiting) :
    ∃ next, after s (.close t) = some next ∧ next.trace = s.trace ++ [.invoked] := by
  obtain ⟨hready, hclosed, hcleanup, -⟩ := h.failed hlast
  refine ⟨s.close t, by simp [after, ht, hready], ?_⟩
  simp [State.close, hclosed, hcleanup]

/-- An `aclose` that is not refused after the cleanup failed waits for a close task that waits for
its turn. -/
theorem Inv.retries {next : State} (h : Inv s) (hlast : s.trace.getLast? = some (.finished false))
    {n : ℕ} {who : Who} (hst : after s (.aclose n who false) = some next) :
    next.trace = s.trace ∧
      ∃ t, next.callers n = some (.joining t false) ∧ next.tasks[t]? = some .waiting := by
  obtain ⟨hready, hclosed, -, hcleaning⟩ := h.failed hlast
  obtain ⟨⟨-, hwho⟩, hst⟩ := Option.ite_none_right_eq_some.mp hst
  obtain rfl := Option.some.inj hst
  replace hwho : who ≠ .cleanup := fun hc => hcleaning (List.mem_of_getLast? (hwho hc))
  have haclose : s.aclose who false =
      ({ s with tasks := if s.tasks.getLast?.all CloseTask.isDone then s.tasks ++ [.waiting]
          else s.tasks },
        .joining ((if s.tasks.getLast?.all CloseTask.isDone then s.tasks ++ [.waiting]
          else s.tasks).length - 1) false) := by
    simp [State.aclose, hclosed, hready, hwho]
  rw [haclose]
  refine ⟨rfl, _, Function.update_self .., ?_⟩
  change (ite _ _ _ : List CloseTask)[_]? = _
  split_ifs with hdone
  · simp
  · -- The last task is not done, and it does not run the cleanup.
    cases hl : s.tasks.getLast? with
    | none => simp [hl] at hdone
    | some last =>
        rw [← List.getLast?_eq_getElem?, hl]
        have hmem := List.mem_of_getLast? hl
        cases last with
        | waiting => rfl
        | cleaning => contradiction
        | done ok => simp [hl, CloseTask.isDone] at hdone

/-- **Effect disposal.** Whatever the interleaving of `start`, of the calls of `aclose` and of the
close tasks, of an effect whose callbacks may suspend and fail: before each invocation of the
cleanup the setup has settled with it and all earlier invocations have ended and failed; the
owner lets go exactly once in an effect that is closed and not before, which is after a setup
that failed, a cleanup that succeeded, or a setup that left nothing to clean up; after a cleanup
that failed the effect stays owned, a call of `aclose` that no guard refuses waits for a close
task, and the turn of that close task invokes the cleanup again; and a call of `aclose` that has
returned has done so in a closed effect. -/
theorem disposal {s : State} (h : system.Reachable s) :
    (∀ before rest, s.trace = before ++ .invoked :: rest → ∃ k, before = attempts k) ∧
    (∀ before rest, s.trace = before ++ .removed :: rest →
      before = [.settled .failed] ∨ before = [.settled .bare] ∨
        ∃ k, before = attempts k ++ [.invoked, .finished true]) ∧
    s.trace.count .removed = (if s.closed then 1 else 0) ∧
    (.settled .failed ∈ s.trace ∨ .finished true ∈ s.trace → s.closed = true) ∧
    (s.trace.getLast? = some (.finished false) →
      s.closed = false ∧ .removed ∉ s.trace ∧
      (∀ n who next, after s (.aclose n who false) = some next → next.trace = s.trace ∧
        ∃ t, next.callers n = some (.joining t false) ∧ next.tasks[t]? = some .waiting) ∧
      ∀ t, s.tasks[t]? = some .waiting →
        ∃ next, after s (.close t) = some next ∧ next.trace = s.trace ++ [.invoked]) ∧
    ∀ n, s.callers n = some .returned → s.closed = true := by
  have hinv := Inv.of_reachable h
  refine ⟨?_, ?_, ?_, ?_, ?_, hinv.returned⟩
  · intro before rest hsplit
    exact Life.before_invoked (hsplit ▸ hinv.lives)
  · intro before rest hsplit
    exact Life.before_removed (hsplit ▸ hinv.lives)
  · split_ifs with hclosed
    · exact hinv.count_removed hclosed
    · exact List.count_eq_zero.mpr (hinv.not_closed (by simpa using hclosed)).1
  · intro hends
    by_contra hclosed
    obtain ⟨-, hfailed, hfinished⟩ := hinv.not_closed (by simpa using hclosed)
    exact hends.elim hfailed hfinished
  · intro hlast
    have hclosed := (hinv.failed hlast).2.1
    exact ⟨hclosed, (hinv.not_closed hclosed).1, fun _ _ _ hst => hinv.retries hlast hst,
      fun _ ht => hinv.invokes hlast ht⟩

/-- A call of `aclose` during the setup, whose close task then fails, a second one that is
cancelled while its close task succeeds, and a third one. -/
def retriedRun : List Event :=
  [.start, .aclose 0 .other false, .setupReturns true, .close 0, .finish 0 false, .wake 0,
    .wakeStart, .aclose 1 .setup false, .cancel 1, .close 1, .finish 1 true, .wake 1,
    .aclose 2 .other false]

/-- In that run the third call returns, so the effect is closed, and the owner has let go. -/
theorem disposal_retried : ∃ s, retriedRun.foldlM after State.initial = some s ∧
    s.callers 1 = some .raised ∧ s.closed = true ∧ s.trace.count .removed = 1 := by
  obtain ⟨s, hs, hraised, hreturned⟩ : ∃ s, retriedRun.foldlM after State.initial = some s ∧
      s.callers 1 = some .raised ∧ s.callers 2 = some .returned := ⟨_, rfl, rfl, rfl⟩
  have hreach : system.Reachable s :=
    ⟨_, rfl, .foldlM (fun _ _ _ h => h) (fun _ _ _ => trivial) hs⟩
  obtain ⟨-, -, hcount, -, -, hclosed⟩ := disposal hreach
  refine ⟨s, hs, hraised, hclosed 2 hreturned, ?_⟩
  rw [hcount, hclosed 2 hreturned]
  rfl

end Kirakira.Effects
