import Mathlib.Data.Finset.Card
import Mathlib.Order.Interval.Finset.Nat
import Kirakira.Lib.Transition

/-!
# Order Gates of a Tool Batch

`_settle_pending` of `plugins/react/plugin.py` settles the pending calls of a source:
an exclusive call by itself, consecutive parallel calls as a group. A group runs its calls as
tasks, at most `limit` at once, and puts a gate (`_OrderGate`) after each of them: the execution
of a call waits for the gate of the call before it and only then commits its `ToolResult`.

The machine below has a move for everything that happens between two awaits: a turn of the
react task, the first step of a task, a task that resumes, a step of an execution, and a
cancellation of the react task. The conventions are those of asyncio:

* a cancellation reaches the task when it resumes, except that the task which is awaited
  directly (`await task`) is cancelled in place of the one that waits for it;
* a task that is cancelled before its first step never enters its coroutine;
* tasks take their first steps in the order in which they were created.

An execution (`tools.execute`) may raise at any time, may ask to commit, and after the gate lets
it pass may fail to commit, or commit and lose the confirmation. It returns a result only when
the result is committed. Nobody else commits results of the calls, and a read of the log by
`_committed` does not fail.

## Main results

* `Inv.step` — what every move keeps.
* `batches_in_order` — in every run in which no call task is cancelled before its first step
  while a later call of its group follows: the bound, the exclusive calls, the order of the
  results, and that the gate somebody waits for is still going to be opened or aborted.
-/

namespace Kirakira

namespace React

/-! ### Calls -/

/-- `_OrderGate`. -/
structure OrderGate where
  ready : Bool
  aborted : Bool
  deriving DecidableEq

/-- A new gate. -/
def OrderGate.new : OrderGate := ⟨false, false⟩

/-- `_OrderGate.release`. -/
def OrderGate.release (g : OrderGate) : OrderGate :=
  if g.aborted then g else { g with ready := true }

/-- `_OrderGate.abort`. -/
def OrderGate.abort (_ : OrderGate) : OrderGate := ⟨true, true⟩

/-- How a coroutine ended: it returned, it raised an exception, or it raised
`CancelledError`. -/
inductive Ending where
  | returned
  | raised
  | cancelled
  deriving DecidableEq

/-- Where `tools.execute` is: at work, waiting for the gate, committing, or done. -/
inductive Work where
  | running
  | waiting
  | committing
  | ended (e : Ending)
  deriving DecidableEq

/-- Where the coroutine of a call is: not reached yet; a task without a first step;
`await asyncio.shield(work)`; the loop `while not work.done()`; ended; or a task that was
cancelled before its first step. -/
inductive Settle where
  | pending
  | created
  | shielded
  | draining (interrupted : Bool)
  | ended (e : Ending)
  | dropped
  deriving DecidableEq

/-- A call: its coroutine (`_run_ordered`, or `_settle` in the react task), a cancellation the
coroutine has not seen yet, its execution, and the gate after it. `gated` says that
`commit_after` is the gate of the call before. -/
structure Call where
  exclusive : Bool
  gated : Bool
  settle : Settle
  cancelling : Bool
  work : Work
  workCancelled : Bool
  gate : OrderGate
  committed : Bool
  deriving DecidableEq

/-- A call nobody has reached. -/
def Call.fresh : Call := ⟨false, false, .pending, false, .running, false, .new, false⟩

/-- `_settle` of the call runs. -/
def Call.executing (c : Call) : Bool :=
  match c.settle with
  | .shielded | .draining _ => true
  | _ => false

/-- The task of the call is not done. -/
def Call.live (c : Call) : Bool :=
  match c.settle with
  | .created | .shielded | .draining _ => true
  | _ => false

/-- `task.cancel()`; nothing happens to a task that is done. -/
def Call.cancel (c : Call) : Call :=
  if c.live then { c with cancelling := true } else c

/-- The first step of the task. -/
def Call.begin (c : Call) : Call :=
  if c.cancelling then { c with settle := .dropped, cancelling := false }
  else { c with settle := .shielded }

/-- The end of the coroutine; `_run_ordered` opens or aborts the gate. -/
def Call.finish (c : Call) (e : Ending) : Call :=
  if c.exclusive then { c with settle := .ended e }
  else if e = .returned then { c with settle := .ended e, gate := c.gate.release }
  else if c.committed then { c with settle := .ended e, gate := c.gate.release }
  else { c with settle := .ended e, gate := c.gate.abort }

/-- What a coroutine ends with when the `finally` around its end may raise. -/
def Ending.after (e close : Ending) : Ending :=
  if close = .returned then e else close

/-- `_settle` resumes: a cancellation is handed on to the execution only on an interrupt, and
only once; a done execution ends the coroutine. `close` is how `scope.close()` went. -/
def Call.resume (c : Call) (interrupt : Bool) (close : Ending) : Option Call :=
  match c.settle with
  | .shielded =>
      if c.cancelling then
        some { c with
          settle := .draining interrupt
          cancelling := false
          workCancelled := c.workCancelled || interrupt }
      else
        match c.work with
        | .ended e => some (c.finish (e.after close))
        | _ => none
  | .draining interrupted =>
      if c.cancelling then
        if !interrupted && interrupt then
          some { c with settle := .draining true, cancelling := false, workCancelled := true }
        else some { c with cancelling := false }
      else
        match c.work with
        | .ended _ => some (c.finish (Ending.cancelled.after close))
        | _ => none
  | _ => none

/-- The steps of an execution: ask to commit, pass the gate, leave the gate with an exception,
commit (`stored` says whether the result was stored), and end. -/
inductive WorkMove where
  | ask
  | pass
  | refuse
  | commit (stored : Bool)
  | leave (e : Ending)
  deriving DecidableEq

/-- A step of the execution of a call; `before` is the gate of the call before. -/
def Call.execute (c : Call) (before : OrderGate) (m : WorkMove) : Option Call :=
  match c.work, m with
  | .running, .ask => some { c with work := if c.gated then .waiting else .committing }
  | .waiting, .pass =>
      if before.ready && !before.aborted then some { c with work := .committing } else none
  | .waiting, .refuse =>
      if before.ready && before.aborted || c.workCancelled then some { c with work := .running }
      else none
  | .committing, .commit stored =>
      some { c with work := .running, committed := c.committed || stored }
  | .running, .leave .returned =>
      if c.committed then some { c with work := .ended .returned } else none
  | .running, .leave e => some { c with work := .ended e }
  | _, _ => none

/-! ### The react task -/

/-- Where the react task is: at the top of the loop of `_settle_pending`; in `_settle` of an
exclusive call; in the `for` of `_settle_group`, in its `asyncio.wait`, in its `await task`; in
`_drain_group`; in the `gather` of the `finally`, with what `_settle_group` is about to end with;
or done. -/
inductive Reacting where
  | next
  | alone
  | filling (stop : ℕ) (inFlight : Finset ℕ)
  | pool (stop : ℕ) (inFlight : Finset ℕ)
  | joining (stop j : ℕ)
  | draining
  | gathering (e : Ending)
  | ended (e : Ending)

/-- The state of a batch. The calls are numbered in the order of the list; `index` is the
variable of `_settle_pending`, and the calls from `index` up to `begun` have a task or run in the
react task. `cancelling` is a cancellation the react task has not seen yet, `interrupt` what
`interrupt_requested()` answers. -/
structure State where
  calls : ℕ → Call
  index : ℕ
  begun : ℕ
  react : Reacting
  cancelling : Bool
  interrupt : Bool

/-- The state in which `_settle_pending` is called. -/
def State.initial (interrupt : Bool) : State :=
  ⟨fun _ => .fresh, 0, 0, .next, false, interrupt⟩

/-- The state with another call in one place. -/
def State.setCall (s : State) (i : ℕ) (c : Call) : State :=
  { s with calls := Function.update s.calls i c }

/-- `for task in tasks: task.cancel()`. -/
def State.cancelTasks (s : State) : State :=
  { s with calls := fun i => if s.index ≤ i ∧ i < s.begun then (s.calls i).cancel else s.calls i }

/-- `all(task.done() for task in tasks)`. -/
def State.allDone (s : State) : Bool :=
  (List.range s.begun).all fun i => i < s.index || !(s.calls i).live

/-- The end of the group that begins with the parallel call before `stop`; `rest` calls of the
list are left. -/
def groupEnd (parallel : ℕ → Bool) : ℕ → ℕ → ℕ
  | 0, stop => stop
  | rest + 1, stop => if parallel stop then groupEnd parallel rest (stop + 1) else stop

/-- The moves of a batch. -/
inductive Move where
  /-- The top of the loop of `_settle_pending`, with the answers of `_parallel`. -/
  | turn (parallel : ℕ → Bool)
  /-- `capture_scope()` raises. -/
  | captureFails
  /-- The react task goes on, or resumes. -/
  | wake
  /-- The react task is cancelled. -/
  | cancel (interrupt : Bool)
  /-- The task of a call takes its first step. -/
  | start (i : ℕ)
  /-- The coroutine of a call resumes. -/
  | resume (i : ℕ) (close : Ending)
  /-- The execution of a call takes a step. -/
  | execute (i : ℕ) (m : WorkMove)

/-- The loop of `_settle_pending`: an exclusive call is settled in the react task, parallel calls
become a group. -/
def State.turn (count : ℕ) (s : State) (parallel : ℕ → Bool) : Option State :=
  match s.react with
  | .next =>
      if s.index < count then
        if parallel s.index then
          some { s with
            react := .filling (groupEnd parallel (count - (s.index + 1)) (s.index + 1)) ∅ }
        else
          some { s with
            calls := Function.update s.calls s.index
              { Call.fresh with exclusive := true, settle := .shielded }
            begun := s.index + 1
            react := .alone }
      else some { s with react := .ended .returned }
  | _ => none

/-- `capture_scope()` raises in front of a call. -/
def State.captureFails (limit count : ℕ) (s : State) : Option State :=
  match s.react with
  | .next => if s.index < count then some { s with react := .ended .raised } else none
  | .filling stop inFlight =>
      if s.begun < stop ∧ inFlight.card < limit then some { s with react := .gathering .raised }
      else none
  | _ => none

/-- The `except asyncio.CancelledError` of `_settle_group`. -/
def State.handle (s : State) : State :=
  { s.cancelTasks with react := .draining, cancelling := false }

/-- The react task goes on, or resumes from what it awaits. -/
def State.wake (limit : ℕ) (s : State) : Option State :=
  match s.react with
  | .alone =>
      match (s.calls s.index).settle with
      | .ended .returned => some { s with index := s.begun, react := .next }
      | .ended e => some { s with react := .ended e }
      | _ => none
  | .filling stop inFlight =>
      if s.begun < stop then
        if limit ≤ inFlight.card then some { s with react := .pool stop inFlight }
        else
          some { s with
            calls := Function.update s.calls s.begun
              { Call.fresh with gated := decide (s.begun ≠ s.index), settle := .created }
            begun := s.begun + 1
            react := .filling stop (insert s.begun inFlight) }
      else some { s with react := .joining stop s.index }
  | .pool stop inFlight =>
      if s.cancelling then some s.handle
      else if ∃ i ∈ inFlight, (s.calls i).live = false then
        if ∃ i ∈ inFlight, (s.calls i).settle = .ended .raised then
          some { s with react := .gathering .raised }
        else
          some { s with react := .filling stop (inFlight.filter fun i => (s.calls i).live = true) }
      else none
  | .joining stop j =>
      if s.cancelling then some s.handle
      else if j < stop then
        match (s.calls j).settle with
        | .ended .returned => some { s with react := .joining stop (j + 1) }
        | .ended .raised => some { s with react := .gathering .raised }
        | .ended .cancelled | .dropped => some s.handle
        | _ => none
      else some { s with react := .gathering .returned }
  | .draining =>
      if s.cancelling then
        some { (if s.interrupt then s.cancelTasks else s) with cancelling := false }
      else if s.allDone then some { s with react := .gathering .cancelled }
      else none
  | .gathering e =>
      if s.allDone then
        if s.cancelling then some { s with react := .ended .cancelled, cancelling := false }
        else if e = .returned then some { s with index := s.begun, react := .next }
        else some { s with react := .ended e }
      else none
  | .next | .ended _ => none

/-- The react task is cancelled where it waits. -/
def State.cancel (s : State) (interrupt : Bool) : Option State :=
  let s := { s with interrupt := s.interrupt || interrupt }
  match s.react with
  | .alone =>
      if (s.calls s.index).live then some (s.setCall s.index (s.calls s.index).cancel) else none
  | .pool _ _ | .draining => some { s with cancelling := true }
  | .joining stop j =>
      if j < stop then
        if (s.calls j).live then some (s.setCall j (s.calls j).cancel)
        else some { s with cancelling := true }
      else none
  | .gathering _ => some { s.cancelTasks with cancelling := true }
  | .next | .filling _ _ | .ended _ => none

/-- The task of a call takes its first step, after those that were created before it. -/
def State.start (s : State) (i : ℕ) : Option State :=
  if (s.calls i).settle = .created ∧ ∀ k ∈ List.range i, (s.calls k).settle ≠ .created then
    some (s.setCall i (s.calls i).begin)
  else none

/-- The coroutine of a call resumes. -/
def State.resume (s : State) (i : ℕ) (close : Ending) : Option State :=
  ((s.calls i).resume s.interrupt close).map (s.setCall i)

/-- The execution of a call takes a step. -/
def State.execute (s : State) (i : ℕ) (m : WorkMove) : Option State :=
  if (s.calls i).executing then
    ((s.calls i).execute (s.calls (i - 1)).gate m).map (s.setCall i)
  else none

/-- One move. -/
def State.step (limit count : ℕ) (s : State) : Move → Option State
  | .turn parallel => s.turn count parallel
  | .captureFails => s.captureFails limit count
  | .wake => s.wake limit
  | .cancel interrupt => s.cancel interrupt
  | .start i => s.start i
  | .resume i close => s.resume i close
  | .execute i m => s.execute i m

/-- The batches of `count` calls with at most `limit` at once. -/
def batches (limit count : ℕ) : Transition.System State Move where
  init s := ∃ interrupt, s = State.initial interrupt
  step s m t := s.step limit count m = some t

/-! ### What holds of one call -/

/-- The task of the call has taken its first step. -/
def Call.started (c : Call) : Bool :=
  match c.settle with
  | .shielded | .draining _ | .ended _ => true
  | _ => false

/-- The task of the call never enters its coroutine. -/
def Call.doomed (c : Call) : Bool :=
  match c.settle with
  | .created => c.cancelling
  | .dropped => true
  | _ => false

/-- The call was settled. -/
def Call.Settled (c : Call) : Prop :=
  c.settle = .ended .returned ∧ c.committed = true

/-- What holds of every call at every time: nothing happens to its gate before it ends, a gate
that lets pass stands behind a committed result, a result is returned only when it is committed,
and a coroutine ends only after its execution. -/
structure Call.Ok (c : Call) : Prop where
  idle : c.started = false → c.work = .running ∧ c.committed = false
  closed : (∀ e, c.settle ≠ .ended e) → c.gate = .new
  gate : c.gate.ready = true → c.gate.aborted = false → c.committed = true
  work : c.work = .ended .returned → c.committed = true
  returned : c.settle = .ended .returned → c.committed = true
  opened : ∀ e, c.settle = .ended e → c.exclusive = false → c.gate.ready = true
  ended : ∀ e, c.settle = .ended e → ∃ e', c.work = .ended e'
  asked : c.work = .waiting → c.gated = true

/-- What a move of a task makes of its call. -/
structure Call.Moves (c d : Call) : Prop where
  live : c.live = true
  exclusive : d.exclusive = c.exclusive
  gated : d.gated = c.gated
  ok : d.Ok
  notCreated : d.settle ≠ .created
  notPending : d.settle ≠ .pending
  doomed : d.doomed = c.doomed

variable {c d : Call}

theorem Call.live_of_executing (h : c.executing = true) : c.live = true := by
  rw [Call.executing] at h
  rw [Call.live]
  split at h
  · next hs => rw [hs]
  · next hs => rw [hs]
  · cases h

theorem Call.started_of_executing (h : c.executing = true) : c.started = true := by
  rw [Call.executing] at h
  rw [Call.started]
  split at h
  · next hs => rw [hs]
  · next hs => rw [hs]
  · cases h

theorem Call.not_ended_of_executing (h : c.executing = true) (e : Ending) : c.settle ≠ .ended e := by
  intro hs
  rw [Call.executing, hs] at h
  cases h

theorem Call.not_doomed_of_executing (h : c.executing = true) : c.doomed = false := by
  rw [Call.executing] at h
  rw [Call.doomed]
  split at h
  · next hs => rw [hs]
  · next hs => rw [hs]
  · cases h

theorem Call.Settled.not_live (h : c.Settled) : c.live = false := by
  rw [Call.live, h.1]

theorem Call.Settled.not_doomed (h : c.Settled) : c.doomed = false := by
  rw [Call.doomed, h.1]

theorem Call.fresh_ok : Call.fresh.Ok where
  idle _ := ⟨rfl, rfl⟩
  closed _ := rfl
  gate h := by cases h
  work h := by cases h
  returned h := by cases h
  opened e h := by cases h
  ended e h := by cases h
  asked h := by cases h

theorem Call.shielded_ok {exclusive gated : Bool} :
    (⟨exclusive, gated, .shielded, false, .running, false, .new, false⟩ : Call).Ok where
  idle h := by cases h
  closed _ := rfl
  gate h := by cases h
  work h := by cases h
  returned h := by cases h
  opened e h := by cases h
  ended e h := by cases h
  asked h := by cases h

theorem Call.created_ok {exclusive gated : Bool} :
    (⟨exclusive, gated, .created, false, .running, false, .new, false⟩ : Call).Ok where
  idle _ := ⟨rfl, rfl⟩
  closed _ := rfl
  gate h := by cases h
  work h := by cases h
  returned h := by cases h
  opened e h := by cases h
  ended e h := by cases h
  asked h := by cases h

/-- **A first step.** -/
theorem Call.Ok.begin (h : c.Ok) (hcreated : c.settle = .created) : c.Moves c.begin := by
  have hidle := h.idle (by rw [Call.started, hcreated])
  have hclosed := h.closed fun e he => by rw [hcreated] at he; cases he
  have hlive : c.live = true := by rw [Call.live, hcreated]
  rw [Call.begin]
  split
  · next hcancel =>
      refine ⟨hlive, rfl, rfl, ⟨fun _ => hidle, fun _ => hclosed, h.gate, h.work, ?_, ?_, ?_,
        h.asked⟩, ?_, ?_, ?_⟩
      · intro hs
        cases hs
      · intro e hs
        cases hs
      · intro e hs
        cases hs
      · intro hs
        cases hs
      · intro hs
        cases hs
      · simp [Call.doomed, hcreated, hcancel]
  · next hcancel =>
      refine ⟨hlive, rfl, rfl, ⟨?_, fun _ => hclosed, h.gate, h.work, ?_, ?_, ?_, h.asked⟩,
        ?_, ?_, ?_⟩
      · intro hs
        cases hs
      · intro hs
        cases hs
      · intro e hs
        cases hs
      · intro e hs
        cases hs
      · intro hs
        cases hs
      · intro hs
        cases hs
      · simp [Call.doomed, hcreated, hcancel]

/-- The end of a coroutine that returns only with a committed result. -/
theorem Call.Ok.finish (h : c.Ok) (hc : c.executing = true) {e e' : Ending}
    (hwork : c.work = .ended e') (he : e = .returned → c.committed = true) :
    c.Moves (c.finish e) := by
  have hclosed := h.closed (Call.not_ended_of_executing hc)
  have hdoomed := Call.not_doomed_of_executing hc
  have hrelease : c.gate.release = ⟨true, false⟩ := by rw [hclosed]; rfl
  have hlive := Call.live_of_executing hc
  have hdone (g : OrderGate) (hg : g.ready = true → g.aborted = false → c.committed = true)
      (hready : c.exclusive = false → g.ready = true) :
      c.Moves { c with settle := .ended e, gate := g } := by
    refine ⟨hlive, rfl, rfl, ⟨?_, ?_, hg, h.work, ?_, fun _ _ => hready, fun _ _ => ⟨e', hwork⟩,
      h.asked⟩, ?_, ?_, ?_⟩
    · intro hs
      cases hs
    · intro hs
      exact absurd rfl (hs e)
    · rintro hs
      cases hs
      exact he rfl
    · intro hs
      cases hs
    · intro hs
      cases hs
    · rw [hdoomed]
      rfl
  rw [Call.finish]
  split
  · next hex => exact hdone c.gate h.gate fun hne => absurd hex (by rw [hne]; decide)
  · split
    · next heq => exact hdone _ (fun _ _ => he heq) fun _ => by rw [hrelease]
    · split
      · next hcommitted => exact hdone _ (fun _ _ => hcommitted) fun _ => by rw [hrelease]
      · exact hdone _ (fun _ hab => by cases hab) fun _ => rfl

theorem Call.Ok.runs (h : c.Ok) (hc : c.executing = true) {settle : Settle} {cancelling : Bool}
    {workCancelled : Bool}
    (hd : ({ c with settle, cancelling, workCancelled } : Call).executing = true) :
    c.Moves { c with settle, cancelling, workCancelled } := by
  have hclosed := h.closed (Call.not_ended_of_executing hc)
  have hnot := Call.not_ended_of_executing hd
  refine ⟨Call.live_of_executing hc, rfl, rfl, ⟨fun hs => ?_, fun _ => hclosed, h.gate, h.work,
    fun hs => absurd hs (hnot _), fun e hs => absurd hs (hnot e), fun e hs => absurd hs (hnot e),
    h.asked⟩, ?_, ?_, ?_⟩
  · rw [Call.started_of_executing hd] at hs
    cases hs
  · rintro rfl
    cases hd
  · rintro rfl
    cases hd
  · rw [Call.not_doomed_of_executing hc, Call.not_doomed_of_executing hd]

variable {close : Ending}

/-- A coroutine that resumes keeps its result and its execution. -/
theorem Call.resume_same {interrupt : Bool} (h : c.resume interrupt close = some d) :
    d.committed = c.committed ∧ d.work = c.work ∧ c.executing = true := by
  have hfinish (e : Ending) : (c.finish e).committed = c.committed ∧ (c.finish e).work = c.work := by
    rw [Call.finish]
    split
    · exact ⟨rfl, rfl⟩
    · split
      · exact ⟨rfl, rfl⟩
      · split <;> exact ⟨rfl, rfl⟩
  rw [Call.resume] at h
  split at h
  · next hs =>
      have hc : c.executing = true := by rw [Call.executing, hs]
      split at h
      · obtain rfl := Option.some.inj h
        exact ⟨rfl, rfl, hc⟩
      · split at h
        · obtain rfl := Option.some.inj h
          exact ⟨(hfinish _).1, (hfinish _).2, hc⟩
        · cases h
  · next hs =>
      have hc : c.executing = true := by rw [Call.executing, hs]
      split at h
      · split at h
        · obtain rfl := Option.some.inj h
          exact ⟨rfl, rfl, hc⟩
        · obtain rfl := Option.some.inj h
          exact ⟨rfl, rfl, hc⟩
      · split at h
        · obtain rfl := Option.some.inj h
          exact ⟨(hfinish _).1, (hfinish _).2, hc⟩
        · cases h
  · cases h

/-- **A coroutine that resumes.** -/
theorem Call.Ok.resume (h : c.Ok) {interrupt : Bool} (hd : c.resume interrupt close = some d) :
    c.Moves d := by
  obtain ⟨-, -, hc⟩ := Call.resume_same hd
  rw [Call.resume] at hd
  split at hd
  · split at hd
    · obtain rfl := Option.some.inj hd
      exact h.runs hc rfl
    · split at hd
      · next e hwork =>
          obtain rfl := Option.some.inj hd
          refine h.finish hc hwork fun he => h.work ?_
          rw [hwork]
          rw [Ending.after] at he
          split at he
          · rw [he]
          · next hne => exact absurd he hne
      · cases hd
  · next b hs =>
      split at hd
      · split at hd
        · obtain rfl := Option.some.inj hd
          exact h.runs hc rfl
        · obtain rfl := Option.some.inj hd
          exact h.runs hc (by rw [Call.executing, hs])
      · split at hd
        · next hwork =>
          obtain rfl := Option.some.inj hd
          refine h.finish hc hwork fun he => ?_
          rw [Ending.after] at he
          split at he
          · cases he
          · next hne => exact absurd he hne
        · cases hd
  · cases hd

theorem Call.Ok.works (h : c.Ok) (hc : c.executing = true) {work : Work} {committed : Bool}
    (hmono : c.committed = true → committed = true)
    (hended : work = .ended .returned → committed = true)
    (hasked : work = .waiting → c.gated = true) :
    c.Moves { c with work, committed } := by
  have hnot := Call.not_ended_of_executing hc
  refine ⟨Call.live_of_executing hc, rfl, rfl, ⟨fun hs => ?_, h.closed,
    fun hr ha => hmono (h.gate hr ha), hended, fun hs => absurd hs (hnot _), h.opened,
    fun e hs => absurd hs (hnot e), hasked⟩, ?_, ?_, rfl⟩
  · exact absurd (Call.started_of_executing hc) (by rw [Call.started] at hs ⊢; rw [hs]; decide)
  · intro hs
    rw [Call.executing, hs] at hc
    cases hc
  · intro hs
    rw [Call.executing, hs] at hc
    cases hc

/-- **A step of an execution**: it commits only from where it was let through, and it gets there
without a gate or through an open one. -/
theorem Call.Ok.execute (h : c.Ok) (hc : c.executing = true) {before : OrderGate} {m : WorkMove}
    (hd : c.execute before m = some d) :
    c.Moves d ∧ (c.committed = true → d.committed = true) ∧
      (d.committed = true → c.committed = true ∨ c.work = .committing) ∧
      (d.work = .committing → c.gated = false ∨ before.ready = true ∧ before.aborted = false) := by
  rw [Call.execute.eq_def] at hd
  split at hd
  · obtain rfl := Option.some.inj hd
    refine ⟨h.works hc id (fun hs => ?_) fun hs => ?_, id, .inl, fun hs => ?_⟩
    · split at hs <;> cases hs
    · split at hs
      · next hgated => exact hgated
      · cases hs
    · dsimp only at hs
      split at hs
      · cases hs
      · next hgated => exact .inl (by simpa using hgated)
  · obtain ⟨hopen, hd⟩ | ⟨-, ⟨⟩⟩ := ite_eq_iff.mp hd
    obtain rfl := Option.some.inj hd
    rw [Bool.and_eq_true, Bool.not_eq_true'] at hopen
    exact ⟨h.works hc id (fun hs => (by cases hs)) fun hs => (by cases hs), id, .inl,
      fun _ => .inr hopen⟩
  · split at hd
    · obtain rfl := Option.some.inj hd
      exact ⟨h.works hc id (fun hs => (by cases hs)) fun hs => (by cases hs), id, .inl,
        fun hs => (by cases hs)⟩
    · cases hd
  · next hwork =>
      obtain rfl := Option.some.inj hd
      refine ⟨h.works hc (fun hs => ?_) (fun hs => (by cases hs)) fun hs => (by cases hs),
        fun hs => ?_, fun _ => .inr hwork, fun hs => (by cases hs)⟩
      · rw [hs, Bool.true_or]
      · dsimp only
        rw [hs, Bool.true_or]
  · obtain ⟨hcommitted, hd⟩ | ⟨-, ⟨⟩⟩ := ite_eq_iff.mp hd
    obtain rfl := Option.some.inj hd
    exact ⟨h.works hc id (fun _ => hcommitted) fun hs => (by cases hs), id, .inl,
      fun hs => (by cases hs)⟩
  · next e hne hwork =>
      obtain rfl := Option.some.inj hd
      exact ⟨h.works hc id (fun hs => (hne (Work.ended.inj hs)).elim) fun hs => (by cases hs), id,
        .inl, fun hs => (by cases hs)⟩
  · cases hd

theorem Call.cancel_same (c : Call) :
    c.cancel.settle = c.settle ∧ c.cancel.exclusive = c.exclusive ∧ c.cancel.gated = c.gated ∧
      c.cancel.work = c.work ∧ c.cancel.gate = c.gate ∧ c.cancel.committed = c.committed := by
  rw [Call.cancel]
  split <;> exact ⟨rfl, rfl, rfl, rfl, rfl, rfl⟩

theorem Call.Ok.cancel (h : c.Ok) : c.cancel.Ok := by
  rw [Call.cancel]
  split
  · exact ⟨h.idle, h.closed, h.gate, h.work, h.returned, h.opened, h.ended, h.asked⟩
  · exact h

theorem Call.live_cancel (c : Call) : c.cancel.live = c.live := by
  rw [Call.live, c.cancel_same.1, Call.live]

theorem Call.Settled.cancel (h : c.Settled) : c.cancel.Settled := by
  obtain ⟨hs, -, -, -, -, hcommitted⟩ := c.cancel_same
  exact ⟨hs.trans h.1, hcommitted.trans h.2⟩

theorem Call.doomed_cancel (h : c.doomed = true) : c.cancel.doomed = true := by
  rw [Call.cancel]
  split
  · rw [Call.doomed] at h ⊢
    split at h
    · next hs => rw [hs]
    · next hs => rw [hs]
    · cases h
  · exact h

theorem Call.doomed_cancel_of_created (h : c.settle = .created) : c.cancel.doomed = true := by
  rw [Call.cancel, if_pos (by rw [Call.live, h]), Call.doomed, h]

theorem Call.created_or_dropped (h : c.doomed = true) : c.settle = .created ∨ c.settle = .dropped := by
  rw [Call.doomed] at h
  split at h
  · next hs => exact .inl hs
  · next hs => exact .inr hs
  · cases h

/-! ### The invariant -/

/-- What holds of the calls of a batch, whatever the react task does. -/
structure Base (limit count : ℕ) (s : State) : Prop where
  index_le : s.index ≤ s.begun
  begun_le : s.begun ≤ count
  fresh : ∀ i, s.begun ≤ i → s.calls i = .fresh
  reached : ∀ i < s.begun, (s.calls i).settle ≠ .pending
  ok : ∀ i, (s.calls i).Ok
  settled : ∀ i < s.index, (s.calls i).Settled
  gated : ∀ i, s.index ≤ i → i < s.begun → (s.calls i).gated = decide (i ≠ s.index)
  grouped : ∀ i, (s.calls i).gated = true → (s.calls (i - 1)).exclusive = false
  solo : ∀ i, (s.calls i).exclusive = true → (s.calls i).live = true →
    i = s.index ∧ s.begun = s.index + 1
  order : ∀ i, (s.calls i).committed = true ∨ (s.calls i).work = .committing →
    ∀ k < i, (s.calls k).committed = true
  fifo : ∀ i k, k < i → (s.calls i).started = true → (s.calls k).settle ≠ .created
  doomed : ∀ i k, i < k → k < s.begun → (s.calls i).doomed = true → (s.calls k).doomed = true
  few : ∃ S : Finset ℕ, S.card ≤ limit ∧ ∀ i, (s.calls i).live = true → i ∈ S

/-- What holds where the react task is. -/
def State.Phase (limit count : ℕ) (s : State) : Prop :=
  match s.react with
  | .next => s.begun = s.index
  | .alone => s.begun = s.index + 1
  | .draining => True
  | .filling stop inFlight | .pool stop inFlight =>
      s.begun ≤ stop ∧ stop ≤ count ∧ inFlight.card ≤ limit ∧
        (∀ i, (s.calls i).live = true → i ∈ inFlight) ∧ (∀ i, (s.calls i).doomed = false) ∧
        ∀ i, s.index ≤ i → i < s.begun → (s.calls i).exclusive = false
  | .joining stop j => s.begun = stop ∧ ∀ k < j, (s.calls k).Settled
  | .gathering e => e = .returned → ∀ k < s.begun, (s.calls k).Settled
  | .ended e =>
      (∀ i, (s.calls i).live = false) ∧
        (e = .returned → s.begun = count ∧ ∀ k < s.begun, (s.calls k).Settled)

/-- The invariant of a batch. -/
structure Inv (limit count : ℕ) (s : State) : Prop where
  base : Base limit count s
  phase : s.Phase limit count

section Steps

variable {limit count : ℕ} {s t : State} {i : ℕ}

theorem Base.lt_begun (h : Base limit count s) (hne : (s.calls i).settle ≠ .pending) :
    i < s.begun := by
  by_contra hle
  exact hne (by rw [h.fresh i (not_lt.mp hle)]; rfl)

theorem Base.current (h : Base limit count s) (hlive : (s.calls i).live = true) :
    s.index ≤ i ∧ i < s.begun := by
  constructor
  · by_contra hlt
    have hsettled := (h.settled i (not_le.mp hlt)).not_live
    rw [hlive] at hsettled
    cases hsettled
  · refine h.lt_begun fun hs => ?_
    rw [Call.live, hs] at hlive
    cases hlive

/-- Every call before the current segment and in it was committed before a call that is
committed or let through to commit. -/
theorem Base.before_of_pass (h : Base limit count s) (hc : (s.calls i).executing = true)
    (hpass : (s.calls i).gated = false ∨
      (s.calls (i - 1)).gate.ready = true ∧ (s.calls (i - 1)).gate.aborted = false) :
    ∀ k < i, (s.calls k).committed = true := by
  obtain ⟨hle, hlt⟩ := h.current (Call.live_of_executing hc)
  intro k hk
  rcases hpass with hgated | ⟨hready, hopen⟩
  · have hi : i = s.index := by
      rw [h.gated i hle hlt] at hgated
      simpa using hgated
    exact (h.settled k (hi ▸ hk)).2
  · have hprev := (h.ok (i - 1)).gate hready hopen
    rcases Nat.lt_or_ge k (i - 1) with hlt' | hge
    · exact h.order (i - 1) (.inl hprev) k hlt'
    · rwa [show k = i - 1 by omega]

@[simp] theorem State.setCall_self (s : State) (i : ℕ) (c : Call) : (s.setCall i c).calls i = c :=
  Function.update_self _ _ _

theorem State.setCall_of_ne (s : State) {k : ℕ} (c : Call) (hne : k ≠ i) :
    (s.setCall i c).calls k = s.calls k :=
  Function.update_of_ne hne _ _

/-- **A move of one task** keeps the invariant of the calls. -/
theorem Base.setCall (h : Base limit count s) (hd : (s.calls i).Moves d)
    (hmono : (s.calls i).committed = true → d.committed = true)
    (horder : d.committed = true ∨ d.work = .committing → ∀ k < i, (s.calls k).committed = true)
    (hfifo : d.started = true → ∀ k < i, (s.calls k).settle ≠ .created) :
    Base limit count (s.setCall i d) := by
  obtain ⟨hle, hlt⟩ := h.current hd.live
  -- What every call keeps, the one that moved included.
  have hkeep (k : ℕ) : ((s.setCall i d).calls k).gated = (s.calls k).gated ∧
      ((s.setCall i d).calls k).exclusive = (s.calls k).exclusive ∧
      ((s.setCall i d).calls k).doomed = (s.calls k).doomed ∧
      (((s.setCall i d).calls k).live = true → (s.calls k).live = true) ∧
      ((s.calls k).committed = true → ((s.setCall i d).calls k).committed = true) := by
    rcases eq_or_ne k i with rfl | hne
    · rw [s.setCall_self]
      exact ⟨hd.gated, hd.exclusive, hd.doomed, fun _ => hd.live, hmono⟩
    · rw [s.setCall_of_ne d hne]
      exact ⟨rfl, rfl, rfl, id, id⟩
  refine ⟨h.index_le, h.begun_le, fun k hk => ?_, fun k hk => ?_, fun k => ?_, fun k hk => ?_,
    fun k hk hk' => (hkeep k).1.trans (h.gated k hk hk'), fun k hk => ?_, fun k hex hlive => ?_,
    fun k hk j hj => ?_, fun k j hj hstarted => ?_, fun k j hkj hj hdoomed => ?_, ?_⟩
  · have hk : s.begun ≤ k := hk
    rw [s.setCall_of_ne d (by omega)]
    exact h.fresh k hk
  · rcases eq_or_ne k i with rfl | hne
    · rw [s.setCall_self]
      exact hd.notPending
    · rw [s.setCall_of_ne d hne]
      exact h.reached k hk
  · rcases eq_or_ne k i with rfl | hne
    · rw [s.setCall_self]
      exact hd.ok
    · rw [s.setCall_of_ne d hne]
      exact h.ok k
  · have hk : k < s.index := hk
    rw [s.setCall_of_ne d (by omega)]
    exact h.settled k hk
  · rw [(hkeep k).1] at hk
    rw [(hkeep (k - 1)).2.1]
    exact h.grouped k hk
  · exact h.solo k ((hkeep k).2.1 ▸ hex) ((hkeep k).2.2.2.1 hlive)
  · refine (hkeep j).2.2.2.2 ?_
    rcases eq_or_ne k i with rfl | hne
    · rw [s.setCall_self] at hk
      exact horder hk j hj
    · rw [s.setCall_of_ne d hne] at hk
      exact h.order k hk j hj
  · rcases eq_or_ne j i with rfl | hne
    · rw [s.setCall_self]
      exact hd.notCreated
    · rw [s.setCall_of_ne d hne]
      rcases eq_or_ne k i with rfl | hne'
      · rw [s.setCall_self] at hstarted
        exact hfifo hstarted j hj
      · rw [s.setCall_of_ne d hne'] at hstarted
        exact h.fifo k j hj hstarted
  · rw [(hkeep k).2.2.1] at hdoomed
    rw [(hkeep j).2.2.1]
    exact h.doomed k j hkj hj hdoomed
  · obtain ⟨S, hS, hcover⟩ := h.few
    exact ⟨S, hS, fun k hk => hcover k ((hkeep k).2.2.2.1 hk)⟩

theorem State.Phase.setCall (h : s.Phase limit count) (hd : (s.calls i).Moves d) :
    (s.setCall i d).Phase limit count := by
  have hlive (k : ℕ) (hk : ((s.setCall i d).calls k).live = true) : (s.calls k).live = true := by
    rcases eq_or_ne k i with rfl | hne
    · exact hd.live
    · rwa [s.setCall_of_ne d hne] at hk
  have hsettled (k : ℕ) (hk : (s.calls k).Settled) : ((s.setCall i d).calls k).Settled := by
    rcases eq_or_ne k i with rfl | hne
    · exact absurd hd.live (by rw [hk.not_live]; decide)
    · rwa [s.setCall_of_ne d hne]
  have hdoomed (k : ℕ) (hk : (s.calls k).doomed = false) :
      ((s.setCall i d).calls k).doomed = false := by
    rcases eq_or_ne k i with rfl | hne
    · rwa [s.setCall_self, hd.doomed]
    · rwa [s.setCall_of_ne d hne]
  have hexclusive (k : ℕ) (hk : (s.calls k).exclusive = false) :
      ((s.setCall i d).calls k).exclusive = false := by
    rcases eq_or_ne k i with rfl | hne
    · rwa [s.setCall_self, hd.exclusive]
    · rwa [s.setCall_of_ne d hne]
  have hgroup {stop : ℕ} {inFlight : Finset ℕ} (hphase : s.begun ≤ stop ∧ stop ≤ count ∧
      inFlight.card ≤ limit ∧ (∀ i, (s.calls i).live = true → i ∈ inFlight) ∧
      (∀ i, (s.calls i).doomed = false) ∧
      ∀ i, s.index ≤ i → i < s.begun → (s.calls i).exclusive = false) :
      s.begun ≤ stop ∧ stop ≤ count ∧ inFlight.card ≤ limit ∧
        (∀ k, ((s.setCall i d).calls k).live = true → k ∈ inFlight) ∧
        (∀ k, ((s.setCall i d).calls k).doomed = false) ∧
        ∀ k, s.index ≤ k → k < s.begun → ((s.setCall i d).calls k).exclusive = false := by
    obtain ⟨hbegun, hstop, hcard, hcover, hnone, hex⟩ := hphase
    exact ⟨hbegun, hstop, hcard, fun k hk => hcover k (hlive k hk), fun k => hdoomed k (hnone k),
      fun k hk hk' => hexclusive k (hex k hk hk')⟩
  have hreact : (s.setCall i d).react = s.react := rfl
  rw [State.Phase] at h ⊢
  rw [hreact]
  split at h
  · exact h
  · exact h
  · trivial
  · exact hgroup h
  · exact hgroup h
  · exact ⟨h.1, fun k hk => hsettled k (h.2 k hk)⟩
  · exact fun he k hk => hsettled k (h he k hk)
  · refine ⟨fun k => ?_, fun he => ⟨(h.2 he).1, fun k hk => hsettled k ((h.2 he).2 k hk)⟩⟩
    rw [Bool.eq_false_iff]
    intro hk
    exact absurd (hlive k hk) (by rw [h.1 k]; decide)

/-- **Cancelled tasks** keep the invariant of the calls, when those after a doomed one are
doomed. -/
theorem Base.cancelled (h : Base limit count s) {calls : ℕ → Call}
    (hcalls : ∀ k, calls k = s.calls k ∨ calls k = (s.calls k).cancel)
    (hdoomed : ∀ j k, j < k → k < s.begun → (calls j).doomed = true → (calls k).doomed = true) :
    Base limit count { s with calls } := by
  have hkeep (k : ℕ) : (calls k).settle = (s.calls k).settle ∧
      (calls k).exclusive = (s.calls k).exclusive ∧ (calls k).gated = (s.calls k).gated ∧
      (calls k).work = (s.calls k).work ∧ (calls k).gate = (s.calls k).gate ∧
      (calls k).committed = (s.calls k).committed := by
    rcases hcalls k with hk | hk
    · rw [hk]
      exact ⟨rfl, rfl, rfl, rfl, rfl, rfl⟩
    · rw [hk]
      exact Call.cancel_same _
  have hlive (k : ℕ) : (calls k).live = (s.calls k).live := by
    rw [Call.live, (hkeep k).1, Call.live]
  refine ⟨h.index_le, h.begun_le, fun k hk => ?_, fun k hk => (hkeep k).1 ▸ h.reached k hk,
    fun k => ?_, fun k hk => ?_, fun k hk hk' => (hkeep k).2.2.1.trans (h.gated k hk hk'),
    fun k hk => ?_, fun k hex hk => ?_, fun k hk j hj => ?_, fun k j hj hstarted => ?_, hdoomed, ?_⟩
  · rcases hcalls k with heq | heq
    · exact heq.trans (h.fresh k hk)
    · refine heq.trans ?_
      rw [h.fresh k hk]
      rfl
  · change (calls k).Ok
    rcases hcalls k with heq | heq
    · rw [heq]
      exact h.ok k
    · rw [heq]
      exact (h.ok k).cancel
  · obtain ⟨hs, -, -, -, -, hcommitted⟩ := hkeep k
    exact ⟨hs.trans (h.settled k hk).1, hcommitted.trans (h.settled k hk).2⟩
  · rw [(hkeep k).2.2.1] at hk
    exact (hkeep (k - 1)).2.1.trans (h.grouped k hk)
  · exact h.solo k ((hkeep k).2.1 ▸ hex) (hlive k ▸ hk)
  · rw [(hkeep k).2.2.2.1, (hkeep k).2.2.2.2.2] at hk
    exact (hkeep j).2.2.2.2.2.trans (h.order k hk j hj)
  · rw [Call.started, (hkeep k).1] at hstarted
    exact (hkeep j).1 ▸ h.fifo k j hj hstarted
  · obtain ⟨S, hS, hcover⟩ := h.few
    exact ⟨S, hS, fun k hk => hcover k (hlive k ▸ hk)⟩

/-- A cancellation of every task of the group dooms the tasks that have not begun, and no
other. -/
theorem Base.cancelTasks (h : Base limit count s) : Base limit count s.cancelTasks := by
  refine h.cancelled (fun k => ?_) fun j k hjk hk hdoomed => ?_
  · split
    · exact .inr rfl
    · exact .inl rfl
  · have hold : (s.calls j).settle = .created ∨ (s.calls j).settle = .dropped := by
      have hsame : (if s.index ≤ j ∧ j < s.begun then (s.calls j).cancel else s.calls j).settle
          = (s.calls j).settle := by
        split
        · exact (Call.cancel_same _).1
        · rfl
      rw [← hsame]
      exact Call.created_or_dropped hdoomed
    have hj : s.index ≤ j := by
      by_contra hlt
      obtain ⟨hs, -⟩ := h.settled j (not_le.mp hlt)
      rw [hs] at hold
      rcases hold with hs | hs <;> cases hs
    rw [if_pos ⟨by omega, hk⟩]
    rcases hold with hcreated | hdropped
    · -- What comes after a task without a first step has none either.
      cases hs : (s.calls k).settle with
      | pending => exact absurd hs (h.reached k hk)
      | created => exact Call.doomed_cancel_of_created hs
      | dropped => exact Call.doomed_cancel (by rw [Call.doomed, hs])
      | shielded => exact absurd hcreated (h.fifo k j hjk (by rw [Call.started, hs]))
      | draining b => exact absurd hcreated (h.fifo k j hjk (by rw [Call.started, hs]))
      | ended e => exact absurd hcreated (h.fifo k j hjk (by rw [Call.started, hs]))
    · exact Call.doomed_cancel (h.doomed j k hjk hk (by rw [Call.doomed, hdropped]))

theorem Base.cancelCall (h : Base limit count s)
    (hbegun : (s.calls i).settle = .created → s.begun = i + 1) :
    Base limit count (s.setCall i (s.calls i).cancel) := by
  refine h.cancelled (fun k => ?_) fun j k hjk hk hdoomed => ?_
  · rcases eq_or_ne k i with rfl | hne
    · exact .inr (Function.update_self _ _ _)
    · exact .inl (Function.update_of_ne hne _ _)
  · have hold : (s.calls j).doomed = true := by
      rcases eq_or_ne j i with rfl | hne
      · rw [Function.update_self] at hdoomed
        rcases Call.created_or_dropped hdoomed with hs | hs
        · rw [(Call.cancel_same _).1] at hs
          have := hbegun hs
          omega
        · rw [(Call.cancel_same _).1] at hs
          rw [Call.doomed, hs]
      · rwa [Function.update_of_ne hne] at hdoomed
    have hnew := h.doomed j k hjk hk hold
    rcases eq_or_ne k i with rfl | hne
    · rw [Function.update_self]
      exact Call.doomed_cancel hnew
    · rwa [Function.update_of_ne hne]

/-- **A call that is begun** keeps the invariant of the calls. -/
theorem Base.create (h : Base limit count s) (hroom : s.begun < count) (hok : d.Ok)
    (hsettle : d.settle = .created ∨ d.settle = .shielded)
    (hidle : d.work = .running ∧ d.committed = false)
    (hgated : d.gated = decide (s.begun ≠ s.index))
    (hprev : ∀ k, s.index ≤ k → k < s.begun → (s.calls k).exclusive = false)
    (hsolo : d.exclusive = true → s.begun = s.index)
    (hnone : ∀ k, (s.calls k).doomed = false)
    (hcreated : d.settle = .shielded → ∀ k < s.begun, (s.calls k).settle ≠ .created)
    (hfew : ∃ S : Finset ℕ, S.card ≤ limit ∧ s.begun ∈ S ∧
      ∀ k, (s.calls k).live = true → k ∈ S) :
    Base limit count { s with calls := Function.update s.calls s.begun d, begun := s.begun + 1 } := by
  have hself : Function.update s.calls s.begun d s.begun = d := Function.update_self _ _ _
  have hother (k : ℕ) (hne : k ≠ s.begun) : Function.update s.calls s.begun d k = s.calls k :=
    Function.update_of_ne hne _ _
  have hfresh := h.fresh s.begun le_rfl
  refine ⟨Nat.le_succ_of_le h.index_le, hroom, fun k hk => ?_, fun k hk => ?_, fun k => ?_,
    fun k hk => ?_, fun k hk hk' => ?_, fun k hk => ?_, fun k hex hlive => ?_, fun k hk j hj => ?_,
    fun k j hj hstarted => ?_, fun j k hjk hk hdoomed => ?_, ?_⟩
  · have hk : s.begun + 1 ≤ k := hk
    exact (hother k (by omega)).trans (h.fresh k (by omega))
  · have hk : k < s.begun + 1 := hk
    change (Function.update s.calls s.begun d k).settle ≠ _
    rcases eq_or_ne k s.begun with rfl | hne
    · rw [hself]
      rintro hs
      rw [hs] at hsettle
      rcases hsettle with hs | hs <;> cases hs
    · rw [hother k hne]
      exact h.reached k (by omega)
  · change (Function.update s.calls s.begun d k).Ok
    rcases eq_or_ne k s.begun with rfl | hne
    · rw [hself]
      exact hok
    · rw [hother k hne]
      exact h.ok k
  · have hk : k < s.index := hk
    have hle := h.index_le
    change (Function.update s.calls s.begun d k).Settled
    rw [hother k (by omega)]
    exact h.settled k hk
  · have hk' : k < s.begun + 1 := hk'
    change (Function.update s.calls s.begun d k).gated = _
    rcases eq_or_ne k s.begun with rfl | hne
    · rw [hself]
      exact hgated
    · rw [hother k hne]
      exact h.gated k hk (by omega)
  · change (Function.update s.calls s.begun d (k - 1)).exclusive = false
    change (Function.update s.calls s.begun d k).gated = true at hk
    have hle := h.index_le
    rcases eq_or_ne k s.begun with rfl | hne
    · rw [hself, hgated, decide_eq_true_eq] at hk
      rw [hother _ (by omega)]
      exact hprev _ (by omega) (by omega)
    · rw [hother k hne] at hk
      have hlt : k < s.begun := by
        by_contra hge
        rw [h.fresh k (not_lt.mp hge)] at hk
        cases hk
      rw [hother _ (by omega)]
      exact h.grouped k hk
  · change (Function.update s.calls s.begun d k).exclusive = true at hex
    change (Function.update s.calls s.begun d k).live = true at hlive
    change k = s.index ∧ s.begun + 1 = s.index + 1
    rcases eq_or_ne k s.begun with rfl | hne
    · rw [hself] at hex
      exact ⟨hsolo hex, congrArg (· + 1) (hsolo hex)⟩
    · rw [hother k hne] at hex hlive
      obtain ⟨hle, hlt⟩ := h.current hlive
      rw [hprev k hle hlt] at hex
      cases hex
  · change (Function.update s.calls s.begun d j).committed = true
    change (Function.update s.calls s.begun d k).committed = true ∨
      (Function.update s.calls s.begun d k).work = .committing at hk
    have hlt : k < s.begun := by
      by_contra hge
      rcases eq_or_ne k s.begun with rfl | hne
      · rw [hself, hidle.1, hidle.2] at hk
        rcases hk with hk | hk <;> cases hk
      · rw [hother k hne, h.fresh k (not_lt.mp hge)] at hk
        rcases hk with hk | hk <;> cases hk
    rw [hother k (by omega)] at hk
    rw [hother j (by omega)]
    exact h.order k hk j hj
  · change (Function.update s.calls s.begun d j).settle ≠ _
    change (Function.update s.calls s.begun d k).started = true at hstarted
    rcases eq_or_ne k s.begun with rfl | hne
    · rw [hother j (by omega)]
      rw [hself, Call.started] at hstarted
      rcases hsettle with hs | hs
      · rw [hs] at hstarted
        cases hstarted
      · exact hcreated hs j hj
    · rw [hother k hne] at hstarted
      have hlt : k < s.begun := by
        by_contra hge
        rw [h.fresh k (not_lt.mp hge)] at hstarted
        cases hstarted
      rw [hother j (by omega)]
      exact h.fifo k j hj hstarted
  · have hk : k < s.begun + 1 := hk
    change (Function.update s.calls s.begun d j).doomed = true at hdoomed
    rw [hother j (by omega), hnone j] at hdoomed
    cases hdoomed
  · obtain ⟨S, hS, hmem, hcover⟩ := hfew
    refine ⟨S, hS, fun k hk => ?_⟩
    change (Function.update s.calls s.begun d k).live = true at hk
    rcases eq_or_ne k s.begun with rfl | hne
    · exact hmem
    · rw [hother k hne] at hk
      exact hcover k hk

theorem Base.advance (h : Base limit count s) (hall : ∀ k < s.begun, (s.calls k).Settled)
    (react : Reacting) : Base limit count { s with index := s.begun, react } := by
  have hdone (k : ℕ) : (s.calls k).live = false := by
    rw [Bool.eq_false_iff]
    intro hlive
    rw [(hall k (h.current hlive).2).not_live] at hlive
    cases hlive
  refine ⟨le_rfl, h.begun_le, h.fresh, h.reached, h.ok, hall, fun k hk hk' => ?_, h.grouped,
    fun k _ hlive => ?_, h.order, h.fifo, h.doomed, h.few⟩
  · exact absurd hk' (not_lt.mpr hk)
  · have hlive : (s.calls k).live = true := hlive
    rw [hdone k] at hlive
    cases hlive

theorem Base.react (h : Base limit count s) (react : Reacting) (cancelling interrupt : Bool) :
    Base limit count { s with react, cancelling, interrupt } :=
  ⟨h.index_le, h.begun_le, h.fresh, h.reached, h.ok, h.settled, h.gated, h.grouped, h.solo, h.order,
    h.fifo, h.doomed, h.few⟩

/-- `_drain_group` and the `gather` go on when every task of the group is done. -/
theorem Base.not_live_of_allDone (h : Base limit count s) (hdone : s.allDone = true) (k : ℕ) :
    (s.calls k).live = false := by
  rw [Bool.eq_false_iff]
  intro hlive
  obtain ⟨hle, hlt⟩ := h.current hlive
  rw [State.allDone, List.all_eq_true] at hdone
  have hk := hdone k (List.mem_range.mpr hlt)
  rw [hlive, Bool.or_eq_true, decide_eq_true_eq] at hk
  rcases hk with hk | hk
  · omega
  · cases hk

theorem groupEnd_le (parallel : ℕ → Bool) (rest stop : ℕ) :
    stop ≤ groupEnd parallel rest stop ∧ groupEnd parallel rest stop ≤ stop + rest := by
  induction rest generalizing stop with
  | zero => exact ⟨le_rfl, le_rfl⟩
  | succ rest ih =>
      rw [groupEnd]
      split
      · have hstep := ih (stop + 1)
        omega
      · omega

/-! ### The moves -/

theorem Base.not_doomed_of_next (h : Base limit count s) (hbegun : s.begun = s.index) (k : ℕ) :
    (s.calls k).doomed = false := by
  rcases Nat.lt_or_ge k s.index with hlt | hge
  · exact (h.settled k hlt).not_doomed
  · rw [h.fresh k (hbegun ▸ hge)]
    rfl

theorem Base.not_live_of_next (h : Base limit count s) (hbegun : s.begun = s.index) (k : ℕ) :
    (s.calls k).live = false := by
  rw [Bool.eq_false_iff]
  intro hlive
  obtain ⟨hle, hlt⟩ := h.current hlive
  omega

/-- The top of the loop of `_settle_pending` keeps the invariant. -/
theorem Inv.turn (h : Inv limit count s) (hlimit : 0 < limit) {parallel : ℕ → Bool}
    (hstep : s.turn count parallel = some t) : Inv limit count t := by
  rw [State.turn] at hstep
  split at hstep
  · next hreact =>
      have hbegun : s.begun = s.index := by
        have hphase := h.phase
        rw [State.Phase, hreact] at hphase
        exact hphase
      split at hstep
      · next hlt =>
          split at hstep
          · obtain rfl := Option.some.inj hstep
            have hend := groupEnd_le parallel (count - (s.index + 1)) (s.index + 1)
            refine ⟨h.base.react _ _ _, ?_, ?_, Nat.zero_le _, fun k hk => ?_,
              h.base.not_doomed_of_next hbegun, fun k hk hk' => ?_⟩
            · change s.begun ≤ _
              omega
            · omega
            · have hk : (s.calls k).live = true := hk
              rw [h.base.not_live_of_next hbegun k] at hk
              cases hk
            · have hk' : k < s.begun := hk'
              have hk : s.index ≤ k := hk
              omega
          · obtain rfl := Option.some.inj hstep
            have hnew := h.base.create (d := ⟨true, false, .shielded, false, .running, false, .new,
              false⟩) (hbegun ▸ hlt) Call.shielded_ok (.inr rfl) ⟨rfl, rfl⟩
              (by rw [hbegun]; simp) (fun k hk hk' => by omega) (fun _ => hbegun)
              (h.base.not_doomed_of_next hbegun) (fun _ k hk hs => ?_)
              ⟨{s.begun}, hlimit, Finset.mem_singleton_self _, fun k hk => ?_⟩
            · rw [hbegun] at hnew
              exact ⟨hnew.react _ _ _, rfl⟩
            · have hlive : (s.calls k).live = true := by rw [Call.live, hs]
              rw [h.base.not_live_of_next hbegun k] at hlive
              cases hlive
            · rw [h.base.not_live_of_next hbegun k] at hk
              cases hk
      · next hge =>
          obtain rfl := Option.some.inj hstep
          refine ⟨h.base.react _ _ _, h.base.not_live_of_next hbegun, fun _ => ⟨?_, fun k hk => ?_⟩⟩
          · have hle := h.base.begun_le
            change s.begun = count
            omega
          · exact h.base.settled k (hbegun ▸ hk)
  · cases hstep

theorem Inv.captureFails (h : Inv limit count s) (hstep : s.captureFails limit count = some t) :
    Inv limit count t := by
  rw [State.captureFails] at hstep
  split at hstep
  · next hreact =>
      have hbegun : s.begun = s.index := by
        have hphase := h.phase
        rw [State.Phase, hreact] at hphase
        exact hphase
      split at hstep
      · obtain rfl := Option.some.inj hstep
        exact ⟨h.base.react _ _ _, h.base.not_live_of_next hbegun, fun he => by cases he⟩
      · cases hstep
  · split at hstep
    · obtain rfl := Option.some.inj hstep
      exact ⟨h.base.react _ _ _, fun he => by cases he⟩
    · cases hstep
  · cases hstep

theorem Inv.handle (h : Inv limit count s) : Inv limit count s.handle :=
  ⟨h.base.cancelTasks.react _ _ _, trivial⟩

/-- **The react task** keeps the invariant when it goes on. -/
theorem Inv.wake (h : Inv limit count s) (hstep : s.wake limit = some t) : Inv limit count t := by
  have hphase := h.phase
  rw [State.wake] at hstep
  split at hstep
  · -- an exclusive call
    next hreact =>
    rw [State.Phase, hreact] at hphase
    have hdone {e : Ending} (hs : (s.calls s.index).settle = .ended e) (k : ℕ) :
        (s.calls k).live = false := by
      rw [Bool.eq_false_iff]
      intro hlive
      obtain ⟨hle, hlt⟩ := h.base.current hlive
      rw [show k = s.index by omega, Call.live, hs] at hlive
      cases hlive
    split at hstep
    · next hs =>
        obtain rfl := Option.some.inj hstep
        refine ⟨h.base.advance (fun k hk => ?_) _, rfl⟩
        rcases Nat.lt_or_ge k s.index with hlt | hge
        · exact h.base.settled k hlt
        · rw [show k = s.index by omega]
          exact ⟨hs, (h.base.ok s.index).returned hs⟩
    · next e hne hs =>
        obtain rfl := Option.some.inj hstep
        exact ⟨h.base.react _ _ _, hdone hs, fun he => absurd he hne⟩
    · cases hstep
  · next stop inFlight hreact =>
      rw [State.Phase, hreact] at hphase
      obtain ⟨hbegun, hstop, hcard, hcover, hnone, hex⟩ := hphase
      split at hstep
      · next hlt =>
          split at hstep
          · obtain rfl := Option.some.inj hstep
            exact ⟨h.base.react _ _ _, hbegun, hstop, hcard, hcover, hnone, hex⟩
          · next hroom =>
              obtain rfl := Option.some.inj hstep
              have hfew : (insert s.begun inFlight).card ≤ limit :=
                (Finset.card_insert_le _ _).trans (by omega)
              have hcover' (k : ℕ) (hk : (s.calls k).live = true) : k ∈ insert s.begun inFlight :=
                Finset.mem_insert_of_mem (hcover k hk)
              refine ⟨(h.base.create (d := ⟨false, decide (s.begun ≠ s.index), .created, false,
                .running, false, .new, false⟩) (by omega) Call.created_ok (.inl rfl) ⟨rfl, rfl⟩ rfl
                hex (fun hs => by cases hs) hnone (fun hs => by cases hs)
                ⟨_, hfew, Finset.mem_insert_self _ _, hcover'⟩).react _ _ _, ?_⟩
              refine ⟨hlt, hstop, hfew, fun k hk => ?_, fun k => ?_, fun k hk hk' => ?_⟩
              · change (Function.update s.calls s.begun _ k).live = true at hk
                rcases eq_or_ne k s.begun with rfl | hne
                · exact Finset.mem_insert_self _ _
                · rw [Function.update_of_ne hne] at hk
                  exact hcover' k hk
              · change (Function.update s.calls s.begun _ k).doomed = false
                rcases eq_or_ne k s.begun with rfl | hne
                · rw [Function.update_self]
                  rfl
                · rw [Function.update_of_ne hne]
                  exact hnone k
              · change (Function.update s.calls s.begun _ k).exclusive = false
                have hk' : k < s.begun + 1 := hk'
                rcases eq_or_ne k s.begun with rfl | hne
                · rw [Function.update_self]
                  rfl
                · rw [Function.update_of_ne hne]
                  exact hex k hk (by omega)
      · obtain rfl := Option.some.inj hstep
        exact ⟨h.base.react _ _ _, by change s.begun = stop; omega, h.base.settled⟩
  · next stop inFlight hreact =>
      rw [State.Phase, hreact] at hphase
      obtain ⟨hbegun, hstop, hcard, hcover, hnone, hex⟩ := hphase
      split at hstep
      · obtain rfl := Option.some.inj hstep
        exact h.handle
      · split at hstep
        · split at hstep
          · obtain rfl := Option.some.inj hstep
            exact ⟨h.base.react _ _ _, fun he => by cases he⟩
          · obtain rfl := Option.some.inj hstep
            refine ⟨h.base.react _ _ _, hbegun, hstop, (Finset.card_filter_le _ _).trans hcard,
              fun k hk => Finset.mem_filter.mpr ⟨hcover k hk, hk⟩, hnone, hex⟩
        · cases hstep
  · next stop j hreact =>
      rw [State.Phase, hreact] at hphase
      obtain ⟨hbegun, hall⟩ := hphase
      split at hstep
      · obtain rfl := Option.some.inj hstep
        exact h.handle
      · split at hstep
        · split at hstep
          · next hs =>
              obtain rfl := Option.some.inj hstep
              refine ⟨h.base.react _ _ _, hbegun, fun k hk => ?_⟩
              have hk : k < j + 1 := hk
              rcases Nat.lt_succ_iff_lt_or_eq.mp hk with hlt | rfl
              · exact hall k hlt
              · exact ⟨hs, (h.base.ok k).returned hs⟩
          · obtain rfl := Option.some.inj hstep
            exact ⟨h.base.react _ _ _, fun he => by cases he⟩
          · obtain rfl := Option.some.inj hstep
            exact h.handle
          · obtain rfl := Option.some.inj hstep
            exact h.handle
          · cases hstep
        · next hge =>
            obtain rfl := Option.some.inj hstep
            refine ⟨h.base.react _ _ _, fun _ k hk => hall k ?_⟩
            have hk : k < s.begun := hk
            omega
  · next hreact =>
    split at hstep
    · obtain rfl := Option.some.inj hstep
      split
      · exact ⟨h.base.cancelTasks.react _ _ _, by rw [State.Phase]; simp [State.cancelTasks, hreact]⟩
      · exact ⟨h.base.react _ _ _, by rw [State.Phase]; simp [hreact]⟩
    · split at hstep
      · obtain rfl := Option.some.inj hstep
        exact ⟨h.base.react _ _ _, fun he => by cases he⟩
      · cases hstep
  · next e hreact =>
      rw [State.Phase, hreact] at hphase
      obtain ⟨hdone, hstep⟩ | ⟨-, ⟨⟩⟩ := ite_eq_iff.mp hstep
      have hnone := h.base.not_live_of_allDone hdone
      split at hstep
      · obtain rfl := Option.some.inj hstep
        exact ⟨h.base.react _ _ _, hnone, fun he => by cases he⟩
      · split at hstep
        · next he =>
            obtain rfl := Option.some.inj hstep
            exact ⟨h.base.advance (hphase he) _, rfl⟩
        · next he =>
            obtain rfl := Option.some.inj hstep
            exact ⟨h.base.react _ _ _, hnone, fun he' => absurd he' he⟩
  · cases hstep
  · cases hstep

/-- **The condition on a move**: the react task is not cancelled while it awaits a task that has
not taken its first step and is not the last of its group. -/
def Guarded (s : State) : Move → Prop
  | .cancel _ =>
      match s.react with
      | .joining stop j => j + 1 < stop → (s.calls j).settle ≠ .created
      | _ => True
  | _ => True

theorem State.Phase.cancelled (h : s.Phase limit count)
    (hreact : ∀ stop inFlight, s.react ≠ .filling stop inFlight ∧ s.react ≠ .pool stop inFlight)
    {calls : ℕ → Call} (hcalls : ∀ k, calls k = s.calls k ∨ calls k = (s.calls k).cancel)
    (cancelling interrupt : Bool) :
    State.Phase limit count { s with calls, cancelling, interrupt } := by
  have hsettled (k : ℕ) (hk : (s.calls k).Settled) : (calls k).Settled := by
    rcases hcalls k with heq | heq
    · rwa [heq]
    · rw [heq]
      exact hk.cancel
  have hlive (k : ℕ) : (calls k).live = (s.calls k).live := by
    rcases hcalls k with heq | heq
    · rw [heq]
    · rw [heq, Call.live_cancel]
  rw [State.Phase] at h ⊢
  dsimp only
  split at h
  · exact h
  · exact h
  · trivial
  · next stop inFlight heq => exact absurd heq (hreact stop inFlight).1
  · next stop inFlight heq => exact absurd heq (hreact stop inFlight).2
  · exact ⟨h.1, fun k hk => hsettled k (h.2 k hk)⟩
  · exact fun he k hk => hsettled k (h he k hk)
  · exact ⟨fun k => (hlive k).trans (h.1 k),
      fun he => ⟨(h.2 he).1, fun k hk => hsettled k ((h.2 he).2 k hk)⟩⟩

theorem State.setCall_cancel (s : State) (i k : ℕ) :
    (s.setCall i (s.calls i).cancel).calls k = s.calls k ∨
      (s.setCall i (s.calls i).cancel).calls k = (s.calls k).cancel := by
  rcases eq_or_ne k i with rfl | hne
  · exact .inr (s.setCall_self _ _)
  · exact .inl (s.setCall_of_ne _ hne)

/-- **A cancellation** keeps the invariant. -/
theorem Inv.cancel (h : Inv limit count s) {interrupt : Bool}
    (hguard : Guarded s (.cancel interrupt)) (hstep : s.cancel interrupt = some t) :
    Inv limit count t := by
  have hphase := h.phase
  rw [State.cancel] at hstep
  dsimp only at hstep
  split at hstep
  · next hreact =>
      have hbegun := hphase
      rw [State.Phase, hreact] at hbegun
      split at hstep
      · obtain rfl := Option.some.inj hstep
        exact ⟨(h.base.cancelCall (i := s.index) fun _ => hbegun).react _ _ _,
          hphase.cancelled (fun _ _ => by simp [hreact]) (s.setCall_cancel s.index) _ _⟩
      · cases hstep
  · next stop inFlight hreact =>
      obtain rfl := Option.some.inj hstep
      rw [State.Phase, hreact] at hphase
      refine ⟨h.base.react _ _ _, ?_⟩
      rw [State.Phase]
      dsimp only
      rw [hreact]
      exact hphase
  · next hreact =>
      obtain rfl := Option.some.inj hstep
      refine ⟨h.base.react _ _ _, ?_⟩
      rw [State.Phase]
      dsimp only
      rw [hreact]
      trivial
  · next stop j hreact =>
      have hother (stop' : ℕ) (inFlight : Finset ℕ) :
          s.react ≠ .filling stop' inFlight ∧ s.react ≠ .pool stop' inFlight := by
        simp [hreact]
      have hstop := hphase
      rw [State.Phase, hreact] at hstop
      rw [Guarded, hreact] at hguard
      split at hstep
      · split at hstep
        · next hlt hlive =>
            obtain rfl := Option.some.inj hstep
            refine ⟨(h.base.cancelCall (i := j) fun hcreated => ?_).react _ _ _,
              hphase.cancelled hother (s.setCall_cancel j) _ _⟩
            have hlast : ¬ j + 1 < stop := fun hbefore => hguard hbefore hcreated
            omega
        · obtain rfl := Option.some.inj hstep
          exact ⟨h.base.react _ _ _, hphase.cancelled hother (fun _ => .inl rfl) _ _⟩
      · cases hstep
  · next e hreact =>
      obtain rfl := Option.some.inj hstep
      refine ⟨h.base.cancelTasks.react _ _ _,
        hphase.cancelled (fun _ _ => by simp [hreact]) (fun k => ?_) _ _⟩
      dsimp only [State.cancelTasks]
      split
      · exact .inr rfl
      · exact .inl rfl
  · cases hstep
  · cases hstep
  · cases hstep

/-- **A first step** keeps the invariant. -/
theorem Inv.start (h : Inv limit count s) (hstep : s.start i = some t) : Inv limit count t := by
  rw [State.start] at hstep
  obtain ⟨hstart, hstep⟩ | ⟨-, ⟨⟩⟩ := ite_eq_iff.mp hstep
  obtain rfl := Option.some.inj hstep
  obtain ⟨hcreated, hfirst⟩ := hstart
  have hmoves := (h.base.ok i).begin hcreated
  have hidle := (h.base.ok i).idle (by rw [Call.started, hcreated])
  have hsame : (s.calls i).begin.committed = (s.calls i).committed ∧
      (s.calls i).begin.work = (s.calls i).work := by
    rw [Call.begin]
    split <;> exact ⟨rfl, rfl⟩
  refine ⟨h.base.setCall hmoves (fun hc => hsame.1.trans hc) (fun hc => ?_)
    (fun _ k hk => hfirst k (List.mem_range.mpr hk)), h.phase.setCall hmoves⟩
  rw [hsame.1, hsame.2, hidle.1, hidle.2] at hc
  rcases hc with hc | hc <;> cases hc

/-- **A coroutine that resumes** keeps the invariant. -/
theorem Inv.resume (h : Inv limit count s) {close : Ending} (hstep : s.resume i close = some t) :
    Inv limit count t := by
  rw [State.resume, Option.map_eq_some_iff] at hstep
  obtain ⟨d, hd, rfl⟩ := hstep
  have hmoves := (h.base.ok i).resume hd
  obtain ⟨hcommitted, hwork, hc⟩ := Call.resume_same hd
  refine ⟨h.base.setCall hmoves (fun hs => hcommitted.trans hs) (fun hs => ?_)
    (fun _ k hk => h.base.fifo i k hk (Call.started_of_executing hc)), h.phase.setCall hmoves⟩
  rw [hcommitted, hwork] at hs
  exact h.base.order i hs

/-- **A step of an execution** keeps the invariant: a result is committed only behind the results
of the calls before it. -/
theorem Inv.execute (h : Inv limit count s) {m : WorkMove} (hstep : s.execute i m = some t) :
    Inv limit count t := by
  rw [State.execute] at hstep
  obtain ⟨hc, hstep⟩ | ⟨-, ⟨⟩⟩ := ite_eq_iff.mp hstep
  rw [Option.map_eq_some_iff] at hstep
  obtain ⟨d, hd, rfl⟩ := hstep
  obtain ⟨hmoves, hmono, hcommitted, hpass⟩ := (h.base.ok i).execute hc hd
  refine ⟨h.base.setCall hmoves hmono (fun hs => ?_)
    (fun _ k hk => h.base.fifo i k hk (Call.started_of_executing hc)), h.phase.setCall hmoves⟩
  rcases hs with hs | hs
  · exact h.base.order i (hcommitted hs)
  · exact h.base.before_of_pass hc (hpass hs)

/-- **Every guarded move** keeps the invariant. -/
theorem Inv.step (h : Inv limit count s) (hlimit : 0 < limit) {m : Move} (hguard : Guarded s m)
    (hstep : s.step limit count m = some t) : Inv limit count t := by
  cases m with
  | turn parallel => exact h.turn hlimit hstep
  | captureFails => exact h.captureFails hstep
  | wake => exact h.wake hstep
  | cancel interrupt => exact h.cancel hguard hstep
  | start i => exact h.start hstep
  | resume i close => exact h.resume hstep
  | execute i m => exact h.execute hstep

theorem inv_initial (interrupt : Bool) : Inv limit count (State.initial interrupt) where
  base :=
    { index_le := le_rfl
      begun_le := Nat.zero_le _
      fresh _ _ := rfl
      reached _ hk := absurd hk (Nat.not_lt_zero _)
      ok _ := Call.fresh_ok
      settled _ hk := absurd hk (Nat.not_lt_zero _)
      gated _ _ hk := absurd hk (Nat.not_lt_zero _)
      grouped _ hs := by cases hs
      solo _ hs := by cases hs
      order _ hs := by rcases hs with hs | hs <;> cases hs
      fifo _ _ _ hs := by cases hs
      doomed _ _ _ hk := absurd hk (Nat.not_lt_zero _)
      few := ⟨∅, Nat.zero_le _, fun _ hs => by cases hs⟩ }
  phase := rfl

theorem inv_of_reachable (hlimit : 0 < limit)
    (h : (batches limit count).ReachableVia Guarded s) : Inv limit count s :=
  h.invariant (fun _ ⟨interrupt, hs⟩ => hs ▸ inv_initial interrupt)
    fun _ _ _ hinv hguard hstep => hinv.step hlimit hguard hstep

end Steps

/-! ### Batches -/

/-- The execution of the call has begun and is not done. -/
def Call.underway (c : Call) : Bool :=
  c.started &&
    match c.work with
    | .ended _ => false
    | _ => true

/-- The call waits for the gate after the call before it, and the gate is closed. -/
def State.Waits (s : State) (i : ℕ) : Prop :=
  (s.calls i).executing = true ∧ (s.calls i).work = .waiting ∧
    (s.calls (i - 1)).gate.ready = false

/-- What a batch promises at every time: at most `limit` executions at once; an exclusive one by
itself; results in the order of the calls, so that nothing is committed behind a call that is
over without a result; a gate somebody waits for belongs to a coroutine that runs and opens or
aborts it at its end, and one of the coroutines before waits for no gate; and a normal return
only when every call was settled. -/
structure InOrder (limit count : ℕ) (s : State) : Prop where
  bounded : ((Finset.range count).filter fun i => (s.calls i).underway = true).card ≤ limit
  alone : ∀ i k, (s.calls i).exclusive = true → (s.calls i).underway = true →
    (s.calls k).underway = true → k = i
  ordered : ∀ i, (s.calls i).committed = true → ∀ k < i, (s.calls k).committed = true
  refused : ∀ i k, i < k → (s.calls i).live = false → (s.calls i).committed = false →
    (s.calls k).committed = false
  served : ∀ i, s.Waits i → i ≠ 0 ∧ (s.calls (i - 1)).executing = true ∧
    ∃ k < i, (s.calls k).executing = true ∧ ¬ s.Waits k
  settled : s.react = .ended .returned → ∀ i < count, (s.calls i).Settled

section Batches

variable {limit count : ℕ} {s : State} {i : ℕ}

theorem Call.Ok.executing (h : c.Ok) (hc : c.underway = true) : c.executing = true := by
  rw [Call.underway, Bool.and_eq_true] at hc
  obtain ⟨hstarted, hwork⟩ := hc
  rw [Call.started] at hstarted
  rw [Call.executing]
  split at hstarted
  · next hs => rw [hs]
  · next hs => rw [hs]
  · next e hs =>
      obtain ⟨e', he⟩ := h.ended e hs
      rw [he] at hwork
      cases hwork
  · cases hstarted

/-- **The gate somebody waits for** belongs to a coroutine that runs. -/
theorem Inv.served (h : Inv limit count s) (hwaits : s.Waits i) :
    i ≠ 0 ∧ (s.calls (i - 1)).executing = true := by
  obtain ⟨hc, hwork, hclosed⟩ := hwaits
  obtain ⟨hle, hlt⟩ := h.base.current (Call.live_of_executing hc)
  have hgated := (h.base.ok i).asked hwork
  have hne : i ≠ s.index := by
    rw [h.base.gated i hle hlt] at hgated
    exact of_decide_eq_true hgated
  have hprev : i - 1 < i := by omega
  have hstarted := Call.started_of_executing hc
  refine ⟨by omega, ?_⟩
  cases hs : (s.calls (i - 1)).settle with
  | pending => exact absurd hs (h.base.reached _ (by omega))
  | created => exact absurd hs (h.base.fifo i _ hprev hstarted)
  | shielded => rw [Call.executing, hs]
  | draining b => rw [Call.executing, hs]
  | ended e =>
      -- The end of its coroutine has set the gate.
      rw [(h.base.ok _).opened e hs (h.base.grouped i hgated)] at hclosed
      cases hclosed
  | dropped =>
      -- Behind a task that never enters its coroutine nobody enters one.
      have hdoomed := h.base.doomed _ i hprev hlt (by rw [Call.doomed, hs])
      rw [Call.not_doomed_of_executing hc] at hdoomed
      cases hdoomed

theorem Inv.first_served (h : Inv limit count s) :
    ∀ i, s.Waits i → ∃ k < i, (s.calls k).executing = true ∧ ¬ s.Waits k := by
  intro i
  induction i with
  | zero => exact fun hwaits => absurd rfl (h.served hwaits).1
  | succ i ih =>
      intro hwaits
      obtain ⟨-, hc⟩ := h.served hwaits
      by_cases hprev : s.Waits i
      · obtain ⟨k, hk, hk'⟩ := ih hprev
        exact ⟨k, Nat.lt_succ_of_lt hk, hk'⟩
      · exact ⟨i, Nat.lt_succ_self i, hc, hprev⟩

theorem Inv.inOrder (h : Inv limit count s) : InOrder limit count s where
  bounded := by
    obtain ⟨S, hS, hcover⟩ := h.base.few
    refine (Finset.card_le_card fun i hi => hcover i ?_).trans hS
    rw [Finset.mem_filter] at hi
    exact Call.live_of_executing ((h.base.ok i).executing hi.2)
  alone i k hexclusive hi hk := by
    have hi := Call.live_of_executing ((h.base.ok i).executing hi)
    have hk := h.base.current (Call.live_of_executing ((h.base.ok k).executing hk))
    obtain ⟨heq, hbegun⟩ := h.base.solo i hexclusive hi
    omega
  ordered i hcommitted := h.base.order i (.inl hcommitted)
  refused i k hik _ hnone := by
    rw [Bool.eq_false_iff]
    intro hcommitted
    rw [h.base.order k (.inl hcommitted) i hik] at hnone
    cases hnone
  served i hwaits := ⟨(h.served hwaits).1, (h.served hwaits).2, h.first_served i hwaits⟩
  settled hreact i hi := by
    have hphase := h.phase
    rw [State.Phase, hreact] at hphase
    obtain ⟨hbegun, hall⟩ := hphase.2 rfl
    exact hall i (hbegun ▸ hi)

/-- **A batch keeps the order of its calls** in every run in which the react task is not cancelled
while it awaits a task that has not taken its first step and is not the last of its group. -/
theorem batches_in_order (hlimit : 0 < limit)
    (hs : (batches limit count).ReachableVia Guarded s) : InOrder limit count s :=
  (inv_of_reachable hlimit hs).inOrder

end Batches

/-! ### Samples -/

/-- Two parallel calls; the second is done first, and waits for the first. -/
def sampleBatch : List Move :=
  [.turn fun _ => true, .wake, .wake, .wake, .start 0, .start 1, .execute 1 .ask, .execute 0 .ask,
    .execute 0 (.commit true), .execute 0 (.leave .returned), .resume 0 .returned, .execute 1 .pass,
    .execute 1 (.commit true), .execute 1 (.leave .returned), .resume 1 .returned, .wake, .wake,
    .wake, .wake, .turn fun _ => true]

/-- The batch returns, and both calls are settled. -/
theorem batches_in_order_sampleBatch :
    ∃ s, (batches 2 2).ReachableVia Guarded s ∧ InOrder 2 2 s ∧ (s.calls 0).Settled ∧
      (s.calls 1).Settled := by
  have hrun : (sampleBatch.foldlM (State.step 2 2) (State.initial false)).any (fun s =>
      match s.react with
      | .ended .returned => true
      | _ => false) = true := by
    decide +kernel
  obtain ⟨s, hs, hafter⟩ := (Option.any_eq_true _ _).mp hrun
  have hreach : (batches 2 2).ReachableVia Guarded s :=
    ⟨_, ⟨false, rfl⟩, Transition.System.RunVia.foldlM (fun _ _ _ => id)
      (by simp [sampleBatch, Guarded]) hs⟩
  have horder := batches_in_order (by decide) hreach
  have hreturned : s.react = .ended .returned := by
    split at hafter
    · next heq => exact heq
    · cases hafter
  exact ⟨s, hreach, horder, horder.settled hreturned 0 (by decide),
    horder.settled hreturned 1 (by decide)⟩

/-- Two parallel calls; the react task is cancelled while it awaits the first task, which has not
begun. -/
def sampleDropped : List Move :=
  [.turn fun _ => true, .wake, .wake, .wake, .cancel false, .start 0, .start 1, .wake,
    .resume 1 .returned, .execute 1 .ask]

/-- The second call waits for a gate whose task never entered its coroutine. -/
structure Stuck (s : State) : Prop where
  react : s.react = .draining
  index : s.index = 0
  begun : s.begun = 2
  interrupt : s.interrupt = false
  first : (s.calls 0).settle = .dropped ∧ (s.calls 0).gate.ready = false
  second : (s.calls 1).executing = true ∧ (s.calls 1).work = .waiting ∧
    (s.calls 1).workCancelled = false
  rest : ∀ i, 2 ≤ i → (s.calls i).settle = .pending

theorem Stuck.waits {s : State} (h : Stuck s) : s.Waits 1 :=
  ⟨h.second.1, h.second.2.1, h.first.2⟩

theorem Stuck.eq_one {s : State} (h : Stuck s) {i : ℕ} (hc : (s.calls i).executing = true) :
    i = 1 := by
  by_contra hne
  have hs : (s.calls i).settle = .dropped ∨ (s.calls i).settle = .pending := by
    rcases Nat.lt_or_ge i 2 with hlt | hge
    · rw [show i = 0 by omega]
      exact .inl h.first.1
    · exact .inr (h.rest i hge)
  rw [Call.executing] at hc
  rcases hs with hs | hs <;> · rw [hs] at hc; cases hc

theorem Call.resume_of_waiting (hwork : c.work = .waiting) (hcancelled : c.workCancelled = false)
    (hd : c.resume false close = some d) :
    d.executing = true ∧ d.work = .waiting ∧ d.workCancelled = false := by
  rw [Call.resume] at hd
  split at hd
  · split at hd
    · obtain rfl := Option.some.inj hd
      exact ⟨rfl, hwork, by simp [hcancelled]⟩
    · rw [hwork] at hd
      cases hd
  · next b hs =>
      split at hd
      · rw [if_neg (by simp)] at hd
        obtain rfl := Option.some.inj hd
        exact ⟨by rw [Call.executing, hs], hwork, hcancelled⟩
      · rw [hwork] at hd
        cases hd
  · cases hd

/-- **Without an interrupt it waits for ever.** -/
theorem Stuck.step {limit count : ℕ} {s t : State} {m : Move} (h : Stuck s)
    (hm : m ≠ .cancel true) (hstep : s.step limit count m = some t) : Stuck t := by
  have hset (d : Call) (hd : d.executing = true ∧ d.work = .waiting ∧ d.workCancelled = false) :
      Stuck (s.setCall 1 d) := by
    refine ⟨h.react, h.index, h.begun, h.interrupt, ?_, ?_, fun i hi => ?_⟩
    · rw [s.setCall_of_ne d (by decide)]
      exact h.first
    · rw [s.setCall_self]
      exact hd
    · rw [s.setCall_of_ne d (by omega)]
      exact h.rest i hi
  cases m with
  | turn parallel =>
      rw [State.step, State.turn, h.react] at hstep
      cases hstep
  | captureFails =>
      rw [State.step, State.captureFails, h.react] at hstep
      cases hstep
  | wake =>
      rw [State.step, State.wake, h.react] at hstep
      dsimp only at hstep
      split at hstep
      · rw [h.interrupt, if_neg Bool.false_ne_true] at hstep
        obtain rfl := Option.some.inj hstep
        exact ⟨h.react, h.index, h.begun, h.interrupt, h.first, h.second, h.rest⟩
      · obtain ⟨hdone, hstep⟩ | ⟨-, ⟨⟩⟩ := ite_eq_iff.mp hstep
        -- The second call is not done.
        rw [State.allDone, List.all_eq_true] at hdone
        have hone := hdone 1 (List.mem_range.mpr (by rw [h.begun]; decide))
        rw [Call.live_of_executing h.second.1, h.index] at hone
        cases hone
  | cancel interrupt =>
      have hfalse : interrupt = false := by
        cases interrupt with
        | false => rfl
        | true => exact absurd rfl hm
      rw [State.step, State.cancel, hfalse] at hstep
      dsimp only at hstep
      rw [h.react] at hstep
      obtain rfl := Option.some.inj hstep
      exact ⟨rfl, h.index, h.begun, by rw [h.interrupt]; rfl, h.first, h.second, h.rest⟩
  | start i =>
      rw [State.step, State.start] at hstep
      obtain ⟨hstart, hstep⟩ | ⟨-, ⟨⟩⟩ := ite_eq_iff.mp hstep
      have hs := hstart.1
      rcases Nat.lt_or_ge i 2 with hlt | hge
      · rcases show i = 0 ∨ i = 1 by omega with rfl | rfl
        · rw [h.first.1] at hs
          cases hs
        · have hc := h.second.1
          rw [Call.executing, hs] at hc
          cases hc
      · rw [h.rest i hge] at hs
        cases hs
  | resume i close =>
      rw [State.step, State.resume, Option.map_eq_some_iff] at hstep
      obtain ⟨d, hd, rfl⟩ := hstep
      obtain rfl := h.eq_one (Call.resume_same hd).2.2
      rw [h.interrupt] at hd
      exact hset d (Call.resume_of_waiting h.second.2.1 h.second.2.2 hd)
  | execute i m =>
      rw [State.step, State.execute] at hstep
      obtain ⟨hc, hstep⟩ | ⟨-, ⟨⟩⟩ := ite_eq_iff.mp hstep
      obtain rfl := h.eq_one hc
      rw [Option.map_eq_some_iff] at hstep
      obtain ⟨d, hd, -⟩ := hstep
      rw [Call.execute.eq_def, h.second.2.1, h.first.2, h.second.2.2] at hd
      cases m with
      | pass => cases hd
      | refuse => cases hd
      | ask => cases hd
      | commit stored => cases hd
      | leave e => cases hd

/-- **A gate is left closed**: the task before it was cancelled before its first step, the call
behind it waits, and without an interrupt it waits in every state that follows. -/
theorem gate_left_closed :
    ∃ s, (batches 2 2).Reachable s ∧ ¬ InOrder 2 2 s ∧
      ∀ t, (batches 2 2).RunVia (fun _ m => m ≠ .cancel true) s t → t.Waits 1 := by
  have hrun : (sampleDropped.foldlM (State.step 2 2) (State.initial false)).any (fun s =>
      (match s.react with
        | .draining => true
        | _ => false) && decide (s.index = 0 ∧ s.begun = 2 ∧ s.interrupt = false ∧
        s.calls 0 = ⟨false, false, .dropped, false, .running, false, .new, false⟩ ∧
        s.calls 1 = ⟨false, true, .draining false, false, .waiting, false, .new, false⟩)) = true := by
    decide +kernel
  obtain ⟨s, hs, hafter⟩ := (Option.any_eq_true _ _).mp hrun
  rw [Bool.and_eq_true, decide_eq_true_eq] at hafter
  obtain ⟨hreact, hindex, hbegun, hinterrupt, hzero, hone⟩ := hafter
  have hreach : (batches 2 2).Reachable s :=
    ⟨_, ⟨false, rfl⟩, Transition.System.RunVia.foldlM (fun _ _ _ => id) (fun _ _ _ => trivial) hs⟩
  have hrest (i : ℕ) (hi : 2 ≤ i) : (s.calls i).settle = .pending := by
    obtain ⟨k, rfl⟩ := Nat.exists_eq_add_of_le' hi
    have hpending : (sampleDropped.foldlM (State.step 2 2) (State.initial false)).map
        (fun s => (s.calls (k + 2)).settle) = some .pending := by
      rfl
    rw [hs] at hpending
    exact Option.some.inj hpending
  have hdraining : s.react = .draining := by
    split at hreact
    · next heq => exact heq
    · cases hreact
  have hstuck : Stuck s :=
    ⟨hdraining, hindex, hbegun, hinterrupt, by rw [hzero]; exact ⟨rfl, rfl⟩,
      by rw [hone]; exact ⟨rfl, rfl, rfl⟩, hrest⟩
  refine ⟨s, hreach, fun horder => ?_, fun t ht => ?_⟩
  · have hserved := (horder.served 1 hstuck.waits).2.1
    rw [show 1 - 1 = 0 from rfl, hzero] at hserved
    cases hserved
  · exact (ht.preserves (fun s m t hs hm hstep => hs.step hm hstep) hstuck).waits

end React

end Kirakira
