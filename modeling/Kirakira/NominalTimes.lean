import Kirakira.JobStore
import Mathlib.Order.Bounds.Basic

/-!
# Nominal Times of Interval Jobs

`advance`, `settle` and `recover` of `plugins/scheduler/store.py`, for the jobs that repeat at an
interval: where their next nominal time lies. Times are counted in microseconds.

A time may lie after the year 9999. It is no `datetime` then, the call raises `OverflowError`,
and the store stays as it was.

## Main results

* `isLeast_nextOnGrid` — the time that `advance` calculates is the first one on the grid of the
  job that is later than a time.
* `NominalStep` — what one call does to the nominal time of a job.
* `nominal_times` — both, and the grid over runs.
-/

namespace Kirakira.Scheduler

open Exceptions Transition

/-! ### The grid -/

/-- The microseconds of seconds. -/
def secondsMicros (seconds : ℤ) : ℤ :=
  seconds * 1000000

/-- The times of a grid, after its start, that are later than a time. -/
def laterOnGrid (start interval after : ℤ) : Set ℤ :=
  {t | ∃ k : ℤ, 1 ≤ k ∧ t = start + k * interval ∧ after < t}

/-- The time that `advance` calculates. -/
def nextOnGrid (start interval after : ℤ) : ℤ :=
  start + (max 0 ((after - start) / interval) + 1) * interval

theorem sub_lt_next {interval : ℤ} (h : 0 < interval) (start after : ℤ) :
    after - start < ((after - start) / interval + 1) * interval :=
  Int.lt_ediv_add_one_mul_self (after - start) h

/-- **The next time is the first on the grid** that is later than a time. -/
theorem isLeast_nextOnGrid {interval : ℤ} (h : 0 < interval) (start after : ℤ) :
    IsLeast (laterOnGrid start interval after) (nextOnGrid start interval after) := by
  have hlt := sub_lt_next h start after
  constructor
  · refine ⟨max 0 ((after - start) / interval) + 1, by omega, rfl, ?_⟩
    have hle : ((after - start) / interval + 1) * interval ≤
        (max 0 ((after - start) / interval) + 1) * interval :=
      Int.mul_le_mul_of_nonneg_right (by omega) h.le
    rw [nextOnGrid]
    omega
  · rintro t ⟨k, hk, rfl, hafter⟩
    have hquotient : (after - start) / interval < k := by
      refine Int.ediv_lt_of_lt_mul h ?_
      omega
    have hle : (max 0 ((after - start) / interval) + 1) * interval ≤ k * interval :=
      Int.mul_le_mul_of_nonneg_right (by omega) h.le
    rw [nextOnGrid]
    omega

/-! ### Jobs -/

/-- A job that repeats at an interval. -/
structure ScheduledJob.Repeats (job : ScheduledJob) (seconds : ℤ) : Prop where
  cronExpr : job.cronExpr.filter (fun expr => expr ≠ "") = none
  intervalSeconds : job.intervalSeconds = some seconds
  pos : 0 < seconds

variable {job job' : ScheduledJob} {seconds : ℤ}

theorem ScheduledJob.Repeats.micros_pos (h : job.Repeats seconds) : 0 < secondsMicros seconds :=
  Int.mul_pos h.pos (by decide)

/-- **`advance` of a job that repeats at an interval** is the first time on its grid that is later
than a time, where that is a time. -/
theorem advance_eq (p : Platform) {start : ℤ} (h : job.Repeats seconds)
    (hstart : aware job.fireAt = .ok start) (after : ℤ) :
    p.advance job after = (utcTime (nextOnGrid start (secondsMicros seconds) after)).map
      fun t => ⟨t, some 0⟩ := by
  rw [Platform.advance, h.cronExpr, h.intervalSeconds]
  dsimp only
  rw [hstart]
  change ((utcTime (nextOnGrid start (secondsMicros seconds) after)).bind _) = _
  cases utcTime (nextOnGrid start (secondsMicros seconds) after) <;> rfl

theorem aware_eq_ok {value : Datetime} {t : ℤ} (h : aware value = .ok t) : t = value.utc := by
  rw [aware, utcTime] at h
  split at h
  · exact (Except.ok.inj h).symm
  · cases h

theorem advance_eq_ok {p : Platform} {after : ℤ} {next : Datetime} (h : job.Repeats seconds)
    (hnext : p.advance job after = .ok next) :
    next.utc = nextOnGrid job.fireAt.utc (secondsMicros seconds) after := by
  have hstart : ∃ start, aware job.fireAt = .ok start := by
    rw [Platform.advance, h.cronExpr, h.intervalSeconds] at hnext
    obtain ⟨start, hstart, -⟩ := bind_eq_ok.mp hnext
    exact ⟨start, hstart⟩
  obtain ⟨start, hstart⟩ := hstart
  obtain rfl := aware_eq_ok hstart
  rw [advance_eq p h hstart] at hnext
  cases hutc : utcTime (nextOnGrid job.fireAt.utc (secondsMicros seconds) after) with
  | error e =>
      rw [hutc] at hnext
      cases hnext
  | ok t =>
      rw [hutc] at hnext
      obtain rfl := Except.ok.inj hnext
      rw [utcTime] at hutc
      split at hutc
      · exact (Except.ok.inj hutc).symm
      · cases hutc

/-- Two states of a job that repeats. -/
structure ScheduledJob.SamePeriod (job job' : ScheduledJob) : Prop where
  trigger : job'.trigger = job.trigger
  cronExpr : job'.cronExpr = job.cronExpr
  intervalSeconds : job'.intervalSeconds = job.intervalSeconds

theorem ScheduledJob.SamePeriod.refl (job : ScheduledJob) : job.SamePeriod job :=
  ⟨rfl, rfl, rfl⟩

theorem ScheduledJob.SamePeriod.trans {job'' : ScheduledJob} (h : job.SamePeriod job')
    (h' : job'.SamePeriod job'') : job.SamePeriod job'' :=
  ⟨h'.trigger.trans h.trigger, h'.cronExpr.trans h.cronExpr,
    h'.intervalSeconds.trans h.intervalSeconds⟩

theorem ScheduledJob.SamePeriod.repeats (h : job.SamePeriod job') (hjob : job.Repeats seconds) :
    job'.Repeats seconds :=
  ⟨h.cronExpr ▸ hjob.cronExpr, h.intervalSeconds.trans hjob.intervalSeconds, hjob.pos⟩

/-- **What a call does to the nominal time of a job**: it leaves it, or it has read a clock and
sets the first time on the grid that is later than a time, which is neither before the clock nor
before the old nominal time. -/
inductive NominalStep (seconds : ℤ) (clock : Option ℤ) (job job' : ScheduledJob) : Prop where
  | kept (h : job'.fireAt.utc = job.fireAt.utc)
  | advanced (now after : ℤ) (hclock : clock = some now) (hnow : now ≤ after)
      (hafter : job.fireAt.utc ≤ after)
      (h : job'.fireAt.utc = nextOnGrid job.fireAt.utc (secondsMicros seconds) after)

theorem nominalStep_settle {p : Platform} {delivered : Bool} {now : Datetime}
    (hjob : job.Repeats seconds) (h : p.settleJob job delivered now = .ok job') :
    job.SamePeriod job' ∧ NominalStep seconds (some now.utc) job job' := by
  rw [Platform.settleJob] at h
  split at h
  · obtain ⟨clock, hclock, h⟩ := bind_eq_ok.mp h
    obtain ⟨fireAt, hfireAt, h⟩ := bind_eq_ok.mp h
    obtain ⟨next, hnext, h⟩ := bind_eq_ok.mp h
    obtain rfl := Except.ok.inj h
    obtain rfl := aware_eq_ok hclock
    obtain rfl := aware_eq_ok hfireAt
    exact ⟨⟨rfl, rfl, rfl⟩, .advanced now.utc _ rfl (le_max_left ..) (le_max_right ..)
      (advance_eq_ok hjob hnext)⟩
  · obtain rfl := Except.ok.inj h
    exact ⟨⟨rfl, rfl, rfl⟩, .kept rfl⟩

theorem nominalStep_recover {store : JobStore} {fires : Dict String Fire} {now : ℤ}
    (hjob : job.Repeats seconds) (h : store.recoverJob fires now job = .ok job') :
    job.SamePeriod job' ∧ NominalStep seconds (some now) job job' := by
  rw [JobStore.recoverJob] at h
  obtain ⟨key, -, h⟩ := bind_eq_ok.mp h
  dsimp only at h
  split at h
  · obtain rfl := Except.ok.inj h
    exact ⟨.refl _, .kept rfl⟩
  · obtain ⟨fireAt, hfireAt, h⟩ := bind_eq_ok.mp h
    obtain rfl := aware_eq_ok hfireAt
    split at h
    · obtain rfl := Except.ok.inj h
      exact ⟨.refl _, .kept rfl⟩
    · next hdue =>
        split at h
        · obtain ⟨next, hnext, h⟩ := bind_eq_ok.mp h
          obtain rfl := Except.ok.inj h
          have hle : job.fireAt.utc ≤ now := not_lt.mp fun hlt => hdue (.inl hlt)
          exact ⟨⟨rfl, rfl, rfl⟩, .advanced now now rfl le_rfl hle (advance_eq_ok hjob hnext)⟩
        · split at h
          · obtain rfl := Except.ok.inj h
            exact ⟨⟨rfl, rfl, rfl⟩, .kept rfl⟩
          · obtain rfl := Except.ok.inj h
            exact ⟨.refl _, .kept rfl⟩

/-! ### Calls -/

/-- The clock that a call has read. -/
def StoreCall.clock : StoreCall → Option ℤ
  | .settle _ _ now _ => some now.utc
  | .recover now => some now.utc
  | .add _ _ _ | .cancel _ _ | .startFire _ => none

/-- A call that does not cancel a job. -/
def StoreCall.Keeps (id : String) (call : StoreCall) : Prop :=
  ∀ key jobIds, call = .cancel key jobIds → id ∉ jobIds

/-- What became of a job in a state: it is there, and took one step. -/
def ScheduledJob.StepsIn (job : ScheduledJob) (s : ScheduleState) (id : String) (seconds : ℤ)
    (clock : Option ℤ) : Prop :=
  ∃ job', s.jobs.get? id = some job' ∧ job.SamePeriod job' ∧ NominalStep seconds clock job job'

section Calls

variable {store : JobStore} {s s' : ScheduleState} {id : String} {job : ScheduledJob} {seconds : ℤ}
  {clock : Option ℤ}

theorem stepsIn_of_get (h : s.jobs.get? id = some job) : job.StepsIn s id seconds clock :=
  ⟨job, h, .refl job, .kept rfl⟩

variable {key : String}

theorem stepsIn_add {response : String} {new : ScheduledJob} {operation : Operation}
    (h : store.addUpdate key new response s = .ok (operation, s'))
    (hget : s.jobs.get? id = some job) : job.StepsIn s' id seconds clock := by
  refine stepsIn_of_get ?_
  rw [JobStore.addUpdate] at h
  obtain ⟨previous, -, h⟩ := bind_eq_ok.mp h
  cases previous with
  | some previous =>
      obtain ⟨-, rfl⟩ := Prod.mk.inj (Except.ok.inj h)
      exact hget
  | none =>
      dsimp only at h
      obtain ⟨-, ⟨⟩⟩ | ⟨hnew, h⟩ := ite_eq_iff.mp h
      split at h
      · obtain ⟨-, rfl⟩ := record_eq_ok h
        exact hget
      · obtain ⟨-, rfl⟩ := record_eq_ok h
        refine (Dict.get?_set_of_ne _ _ ?_).trans hget
        rintro rfl
        rw [hget] at hnew
        exact hnew rfl

theorem stepsIn_cancel {jobIds : List String} {operation : Operation}
    (h : store.cancelUpdate key jobIds s = .ok (operation, s')) (hid : id ∉ jobIds)
    (hget : s.jobs.get? id = some job) : job.StepsIn s' id seconds clock := by
  refine stepsIn_of_get ?_
  rw [JobStore.cancelUpdate] at h
  obtain ⟨previous, -, h⟩ := bind_eq_ok.mp h
  cases previous with
  | some previous =>
      obtain ⟨-, rfl⟩ := Prod.mk.inj (Except.ok.inj h)
      exact hget
  | none =>
      obtain ⟨jobs, hjobs, h⟩ := bind_eq_ok.mp h
      obtain ⟨-, rfl⟩ := record_eq_ok h
      refine ((deleteAll_eq_ok hjobs).1 id).trans ?_
      rw [if_neg fun hmem => hid (List.mem_filter.mp hmem).1]
      exact hget

theorem stepsIn_startFire {new : ScheduledJob} {fire : Option Fire}
    (h : store.startFireUpdate new s = .ok (fire, s')) (hget : s.jobs.get? id = some job) :
    job.StepsIn s' id seconds clock := by
  refine stepsIn_of_get ?_
  rw [JobStore.startFireUpdate] at h
  split at h
  · obtain ⟨-, rfl⟩ := Prod.mk.inj (Except.ok.inj h)
    exact hget
  · split at h
    · obtain ⟨-, rfl⟩ := Prod.mk.inj (Except.ok.inj h)
      exact hget
    · obtain ⟨currentKey, -, h⟩ := bind_eq_ok.mp h
      obtain ⟨key, -, h⟩ := bind_eq_ok.mp h
      split at h
      · obtain ⟨-, rfl⟩ := Prod.mk.inj (Except.ok.inj h)
        exact hget
      · split at h
        · obtain ⟨-, rfl⟩ := Prod.mk.inj (Except.ok.inj h)
          exact hget
        · obtain ⟨-, rfl⟩ := Prod.mk.inj (Except.ok.inj h)
          exact hget

/-- **`settle`** advances the job of its fire. -/
theorem stepsIn_settle {delivered : Bool} {now : Datetime} {error : Option String}
    (h : store.settleUpdate key delivered now error s = .ok ((), s'))
    (hids : ∀ id job, s.jobs.get? id = some job → job.id = id) (hjob : job.Repeats seconds)
    (hget : s.jobs.get? id = some job) : job.StepsIn s' id seconds (some now.utc) := by
  rw [JobStore.settleUpdate] at h
  split at h
  · cases h
  · next fire hfire =>
      split at h
      · obtain ⟨-, rfl⟩ := Prod.mk.inj (Except.ok.inj h)
        exact stepsIn_of_get hget
      · dsimp only at h
        split at h
        · obtain ⟨-, rfl⟩ := Prod.mk.inj (Except.ok.inj h)
          exact stepsIn_of_get hget
        · next current hcurrent =>
            obtain ⟨currentKey, -, h⟩ := bind_eq_ok.mp h
            split at h
            · obtain ⟨-, rfl⟩ := Prod.mk.inj (Except.ok.inj h)
              exact stepsIn_of_get hget
            · obtain ⟨settled, hsettled, h⟩ := bind_eq_ok.mp h
              obtain ⟨-, rfl⟩ := Prod.mk.inj (Except.ok.inj h)
              by_cases hid : id = current.id
              · -- the job under its identity is the one that is settled
                have hkey := hids fire.job.id current hcurrent
                rw [hid, hkey] at hget
                obtain rfl := Option.some.inj (hcurrent.symm.trans hget)
                obtain ⟨hsame, hstep⟩ := nominalStep_settle hjob hsettled
                exact ⟨settled, by rw [hid]; exact Dict.get?_set_self .., hsame, hstep⟩
              · exact stepsIn_of_get ((Dict.get?_set_of_ne _ _ hid).trans hget)

/-- **`recover`** advances the jobs that are due. -/
theorem stepsIn_recover {now : ℤ} {state : ScheduleState}
    (h : store.recoverUpdate now s = .ok (state, s')) (hjob : job.Repeats seconds)
    (hget : s.jobs.get? id = some job) : job.StepsIn s' id seconds (some now) := by
  rw [JobStore.recoverUpdate] at h
  obtain ⟨jobs, hjobs, h⟩ := bind_eq_ok.mp h
  obtain ⟨-, rfl⟩ := Prod.mk.inj (Except.ok.inj h)
  obtain ⟨job', hget', i, hrecover⟩ := (Dict.rel_of_traverse hjobs).get?_left hget
  obtain ⟨hsame, hstep⟩ := nominalStep_recover hjob hrecover
  exact ⟨job', hget', hsame, hstep⟩

theorem StepsIn.encoded (h : job.StepsIn s id seconds clock) (hencoded : Encoded store s s') :
    job.StepsIn s' id seconds clock := by
  obtain ⟨job', hget, hsame, hstep⟩ := h
  obtain ⟨stored, hstored, rfl⟩ := hencoded.jobs.get?_left hget
  refine ⟨_, hstored, hsame.trans ⟨rfl, rfl, rfl⟩, ?_⟩
  cases hstep with
  | kept h => exact .kept h
  | advanced now after hclock hnow hafter h => exact .advanced now after hclock hnow hafter h

/-- **What a call does to a job** that repeats and is not cancelled. -/
theorem stepsIn_call {file : Option ScheduleState} (hvalid : Valid store file) {call : StoreCall}
    (hkeeps : call.Keeps id) (hjob : job.Repeats seconds)
    (hget : (file.getD .empty).jobs.get? id = some job) :
    job.StepsIn ((store.call file call).getD .empty) id seconds call.clock := by
  have hchange : ∀ {α : Type} (f : Change α),
      (∀ a s', f (file.getD .empty) = .ok (a, s') → job.StepsIn s' id seconds call.clock) →
      job.StepsIn ((store.change f file).2.getD .empty) id seconds call.clock := by
    intro α f hf
    rcases change_cases store f file with hkept | ⟨a, s', stored, hok, hencode, heq⟩
    · rw [hkept]
      exact stepsIn_of_get hget
    · rw [heq]
      exact StepsIn.encoded (hf a s' hok) (encode_eq_ok hencode)
  cases call with
  | add key new response => exact hchange _ fun _ _ h => stepsIn_add h hget
  | cancel key jobIds => exact hchange _ fun _ _ h => stepsIn_cancel h (hkeeps key jobIds rfl) hget
  | startFire new => exact hchange _ fun _ _ h => stepsIn_startFire h hget
  | settle key delivered now error =>
      exact hchange _ fun _ _ h => stepsIn_settle h hvalid.sound.jobId hjob hget
  | recover now =>
      rw [JobStore.call, JobStore.recover]
      split
      · exact stepsIn_of_get hget
      · next clock hclock =>
          obtain rfl := aware_eq_ok hclock
          exact hchange _ fun _ _ h => stepsIn_recover h hjob hget

end Calls

/-! ### Runs -/

/-- A time that is on the grid of a job, not before its nominal time. -/
def OnGrid (start seconds t : ℤ) : Prop :=
  ∃ k : ℤ, 0 ≤ k ∧ t = start + k * secondsMicros seconds

/-- **What one step means**: the nominal time stays, or it is a later one on the grid, later than
the clock that the call has read. -/
theorem NominalStep.spec {clock : Option ℤ} (hpos : 0 < secondsMicros seconds)
    (h : NominalStep seconds clock job job') :
    OnGrid job.fireAt.utc seconds job'.fireAt.utc ∧
      (job'.fireAt.utc = job.fireAt.utc ∨ ∃ now, clock = some now ∧ now < job'.fireAt.utc ∧
        job.fireAt.utc < job'.fireAt.utc) := by
  cases h with
  | kept h => exact ⟨⟨0, le_rfl, by rw [h]; omega⟩, .inl h⟩
  | advanced now after hclock hnow hafter h =>
      obtain ⟨k, hk, heq, hlt⟩ :=
        (isLeast_nextOnGrid hpos job.fireAt.utc after).1
      rw [← h] at heq hlt
      exact ⟨⟨k, by omega, heq⟩, .inr ⟨now, hclock, by omega, by omega⟩⟩

theorem OnGrid.trans {a b c : ℤ} (h : OnGrid a seconds b) (h' : OnGrid b seconds c) :
    OnGrid a seconds c := by
  obtain ⟨k, hk, rfl⟩ := h
  obtain ⟨l, hl, rfl⟩ := h'
  exact ⟨k + l, by omega, by rw [Int.add_mul, Int.add_assoc]⟩

/-- A job of a stored state that repeats at an interval. -/
theorem repeats_of_valid {store : JobStore} {file : Option ScheduleState}
    (hvalid : Valid store file) {id : String} (hget : (file.getD .empty).jobs.get? id = some job)
    (hevery : job.trigger = "every") (hseconds : job.intervalSeconds = some seconds) :
    job.Repeats seconds := by
  cases file with
  | none => cases hget
  | some s =>
      have hencode := hvalid.encode s rfl
      rw [JobStore.encode] at hencode
      obtain ⟨checked, hchecked, -⟩ := bind_eq_ok.mp hencode
      obtain ⟨_, -, i, hcheck⟩ := (Dict.rel_of_traverse hchecked).get?_left hget
      rw [JobStore.encodeCheck] at hcheck
      split at hcheck
      · cases hcheck
      · rw [JobStore.validateJob] at hcheck
        obtain ⟨_, -, hcheck⟩ := bind_eq_ok.mp hcheck
        obtain ⟨_, -, hcheck⟩ := bind_eq_ok.mp hcheck
        rw [JobStore.validateJobSchedule, if_pos hevery] at hcheck
        obtain ⟨_, hone, hcheck⟩ := bind_eq_ok.mp hcheck
        obtain ⟨_, hpos, -⟩ := bind_eq_ok.mp hcheck
        rw [JobStore.require] at hone hpos
        obtain ⟨hone', hone⟩ | ⟨-, ⟨⟩⟩ := ite_eq_iff.mp hone
        obtain ⟨hpos', hpos⟩ | ⟨-, ⟨⟩⟩ := ite_eq_iff.mp hpos
        rw [hseconds] at hone' hpos'
        refine ⟨?_, hseconds, by simpa using hpos'⟩
        cases hcron : job.cronExpr with
        | none => rfl
        | some expr =>
            rw [hcron] at hone'
            simp at hone'

/-- **Interval jobs neither drift nor fire in the past.** `advance` is the first time on the grid of
a job that is later than a time. In a run that does not cancel a job, its nominal time stays on the
grid that it had; each call leaves it, or has read a clock and sets it to a time that is later
than both the clock and the old one. -/
theorem nominal_times (store : JobStore) :
    (∀ job seconds start after, job.Repeats seconds → aware job.fireAt = .ok start →
      ∃ t, IsLeast (laterOnGrid start (secondsMicros seconds) after) t ∧
        store.platform.advance job after = (utcTime t).map fun t => ⟨t, some 0⟩) ∧
    (∀ file id job seconds, (jobStore store).Reachable file →
      (file.getD .empty).jobs.get? id = some job → job.trigger = "every" →
      job.intervalSeconds = some seconds →
      ∀ file', (jobStore store).RunVia (fun _ call => call.Keeps id) file file' →
      ∃ job', (file'.getD .empty).jobs.get? id = some job' ∧ job.SamePeriod job' ∧
        OnGrid job.fireAt.utc seconds job'.fireAt.utc ∧
        ∀ call, call.Keeps id → ∃ job'',
          ((store.call file' call).getD .empty).jobs.get? id = some job'' ∧
          (job''.fireAt.utc = job'.fireAt.utc ∨ ∃ now, call.clock = some now ∧
            now < job''.fireAt.utc ∧ job'.fireAt.utc < job''.fireAt.utc)) := by
  refine ⟨fun job seconds start after hjob hstart => ?_,
    fun file id job seconds hreach hget hevery hseconds file' hrun => ?_⟩
  · exact ⟨_, isLeast_nextOnGrid hjob.micros_pos start after,
      advance_eq store.platform hjob hstart after⟩
  · have hvalid := valid_of_reachable hreach
    have hjob := repeats_of_valid hvalid hget hevery hseconds
    have hfile : Valid store file' ∧ ∃ job', (file'.getD .empty).jobs.get? id = some job' ∧
        job.SamePeriod job' ∧ OnGrid job.fireAt.utc seconds job'.fireAt.utc := by
      refine hrun.preserves (I := fun file' => Valid store file' ∧
        ∃ job', (file'.getD .empty).jobs.get? id = some job' ∧ job.SamePeriod job' ∧
          OnGrid job.fireAt.utc seconds job'.fireAt.utc) (fun s call t hs hkeeps hstep => ?_)
        ⟨hvalid, job, hget, .refl job, 0, le_rfl, by omega⟩
      obtain ⟨hs, job', hget', hsame, hgrid⟩ := hs
      refine ⟨hs.step hstep, ?_⟩
      obtain rfl := hstep
      obtain ⟨job'', hget'', hsame', hnominal⟩ :=
        stepsIn_call hs hkeeps (hsame.repeats hjob) hget'
      exact ⟨job'', hget'', hsame.trans hsame', hgrid.trans (hnominal.spec hjob.micros_pos).1⟩
    obtain ⟨hvalid', job', hget', hsame, hgrid⟩ := hfile
    refine ⟨job', hget', hsame, hgrid, fun call hkeeps => ?_⟩
    obtain ⟨job'', hget'', -, hnominal⟩ := stepsIn_call hvalid' hkeeps (hsame.repeats hjob) hget'
    exact ⟨job'', hget'', (hnominal.spec hjob.micros_pos).2⟩

/-- A job that repeats every minute. -/
def minuteJob : ScheduledJob :=
  { ranJob with trigger := "every", intervalSeconds := some 60, runCount := 0 }

/-- The job of a minute after a recovery that comes two and a half minutes late. -/
theorem nominal_times_minute : ∃ job',
    ((exampleStore.call (exampleStore.call none (.add "operation" minuteJob "added"))
      (.recover ⟨minuteJob.fireAt.utc + 150000000, some 0⟩)).getD .empty).jobs.get? "job" =
        some job' ∧
    job'.fireAt.utc = minuteJob.fireAt.utc + 180000000 ∧
    OnGrid minuteJob.fireAt.utc 60 job'.fireAt.utc := by
  let added := exampleStore.call none (.add "operation" minuteJob "added")
  let recovery : StoreCall := .recover ⟨minuteJob.fireAt.utc + 150000000, some 0⟩
  have hreach : (jobStore exampleStore).Reachable added :=
    (System.ReachableVia.init rfl).step trivial rfl
  have hget : (added.getD .empty).jobs.get? "job" = some minuteJob := by decide +kernel
  have hkeeps : recovery.Keeps "job" := fun _ _ h => StoreCall.noConfusion h
  have hrun : (jobStore exampleStore).RunVia (fun _ call => call.Keeps "job") added
      (exampleStore.call added recovery) :=
    .tail (.refl added) hkeeps rfl
  obtain ⟨job', hget', -, hgrid, -⟩ := (nominal_times exampleStore).2 added "job" minuteJob 60
    hreach hget rfl rfl _ hrun
  refine ⟨job', hget', ?_, hgrid⟩
  have htime : (((exampleStore.call added recovery).getD .empty).jobs.get? "job").map
      (fun job => job.fireAt.utc) = some (minuteJob.fireAt.utc + 180000000) := by decide +kernel
  rw [hget'] at htime
  exact Option.some.inj htime

end Kirakira.Scheduler
