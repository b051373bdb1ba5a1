import Kirakira.Lib.Transition
import Kirakira.Schedule

/-!
# The Job Store

`JobStore` of `plugins/scheduler/store.py`. Every operation reads the file, changes the
state it holds, checks the changed state by encoding it, and replaces the file; an
exception leaves the file alone. The file lock and the atomic replacement make one
operation one step.

## Main results

* `Changed` — what the operations can do to a state.
* `Sound.step` — what holds whatever the arguments are.
* `Counted.step` — what holds when the jobs that are added are new.
* `replay` — a receipt answers its request after any run.
* `jobStore_runs` — all of it, over runs.
-/

namespace Kirakira.Scheduler

open Exceptions Transition

/-! ### The file -/

/-- The check of one job by `encode`. -/
def JobStore.encodeCheck (store : JobStore) (id : String) (job : ScheduledJob) (index : ℕ) :
    Except PyError Unit :=
  if id ≠ job.id then
    valueError s!"job_store 任务 ID 与字典键不一致：path={store.path} index={index} key='{id}' id='{job.id}'"
  else store.validateJob job index

/-- `decode` of an encoded state. -/
def JobStore.decode (store : JobStore) (state : ScheduleState) :
    Except PyError ScheduleState := do
  let jobs ← state.jobs.traverse fun _ job index => store.decodeJob job index
  let operations ← state.operations.traverse fun key operation _ =>
    store.decodeOperation key operation
  let fires ← state.fires.traverse store.decodeFire
  return ⟨jobs, operations, fires⟩

/-- `encode`: the state that reading the file again will give. -/
def JobStore.encode (store : JobStore) (state : ScheduleState) :
    Except PyError ScheduleState := do
  let _ ← state.jobs.traverse store.encodeCheck
  store.decode state

/-- What an operation makes of a state. -/
abbrev Change (α : Type) := ScheduleState → Except PyError (α × ScheduleState)

/-- The file after a change, when the state before it and the state after it are valid. -/
def JobStore.commit {α : Type} (store : JobStore) (f : Change α) (file : Option ScheduleState) :
    Except PyError (α × ScheduleState) := do
  let state := file.getD .empty
  let _ ← store.encode state
  let (a, state) ← f state
  let stored ← store.encode state
  return (a, stored)

/-- `_change`. A state that encodes as before is the state of the file. -/
def JobStore.change {α : Type} (store : JobStore) (f : Change α) (file : Option ScheduleState) :
    Except PyError α × Option ScheduleState :=
  match store.commit f file with
  | .ok (a, stored) => (.ok a, some stored)
  | .error e => (.error e, file)

/-! ### Operations -/

/-- `_previous`. -/
def ScheduleState.previous (state : ScheduleState) (key : String) (kind : OperationKind)
    (digest : String) : Except PyError (Option Operation) :=
  match state.operations.get? key with
  | none => .ok none
  | some previous =>
      if (previous.kind, previous.digest) ≠ (kind, digest) then
        valueError "调度操作 key 已用于不同请求"
      else .ok (some previous)

/-- A new receipt. -/
def ScheduleState.record (state : ScheduleState) (key : String) (operation : Operation) :
    Except PyError (Operation × ScheduleState) := do
  operation.validate
  return (operation, { state with operations := state.operations.set key operation })

/-- The number of enabled jobs. -/
def ScheduleState.active (state : ScheduleState) : ℕ :=
  Dict.countP (fun entry => entry.2.enabled) state.jobs

/-- The receipt of a job there is no room for. -/
def capacityReached (digest : String) (active maxActive : ℕ) : Operation where
  kind := .schedule
  digest := digest
  jobIds := []
  succeeded := false
  response := s!"schedule_capacity_reached：当前已有 {active} 个活动定时任务，上限为 {maxActive} 个（可在设置里调整）。请先确认要移除的任务。"

/-- `update` of `add`. -/
def JobStore.addUpdate (store : JobStore) (key : String) (job : ScheduledJob)
    (response : String) : Change Operation := fun state => do
  let digest := store.platform.digest (encodeJob job)
  match ← state.previous key .schedule digest with
  | some previous => return (previous, state)
  | none =>
      if (state.jobs.get? job.id).isSome then valueError "新增调度任务 ID 已存在"
      else if store.maxActive ≤ state.active then
        state.record key (capacityReached digest state.active store.maxActive)
      else
        ScheduleState.record { state with jobs := state.jobs.set job.id job } key
          ⟨.schedule, digest, [job.id], true, response⟩

/-- `JobStore.add`. -/
def JobStore.add (store : JobStore) (key : String) (job : ScheduledJob) (response : String) :
    Option ScheduleState → Except PyError Operation × Option ScheduleState :=
  store.change (store.addUpdate key job response)

/-- `del jobs[identity]` for one identity after the other. -/
def deleteAll : List String → Dict String ScheduledJob → Except PyError (Dict String ScheduledJob)
  | [], jobs => .ok jobs
  | id :: ids, jobs =>
      if (jobs.get? id).isSome then deleteAll ids (jobs.erase id)
      else .error ⟨.keyError, id⟩

/-- A fire whose job was cancelled. -/
def Fire.cancel (fire : Fire) (jobIds : List String) : Fire :=
  if jobIds.contains fire.job.id ∧ fire.status = .pending then
    { fire with status := .cancelled, error := some "任务已被明确取消" }
  else fire

/-- `update` of `cancel`. -/
def JobStore.cancelUpdate (store : JobStore) (key : String) (jobIds : List String) :
    Change Operation := fun state => do
  let digest := store.platform.digest (.arr (jobIds.map .str))
  match ← state.previous key .cancel digest with
  | some previous => return (previous, state)
  | none =>
      let removed := jobIds.filter fun id => (state.jobs.get? id).isSome
      let jobs ← deleteAll removed state.jobs
      let response := if removed.isEmpty then "未找到匹配的任务"
        else s!"已取消 {removed.length} 个任务"
      ScheduleState.record
        ⟨jobs, state.operations, state.fires.mapValues fun _ fire => fire.cancel jobIds⟩ key
        ⟨.cancel, digest, removed, true, response⟩

/-- `JobStore.cancel`. -/
def JobStore.cancel (store : JobStore) (key : String) (jobIds : List String) :
    Option ScheduleState → Except PyError Operation × Option ScheduleState :=
  store.change (store.cancelUpdate key jobIds)

/-- `update` of `start_fire`. -/
def JobStore.startFireUpdate (store : JobStore) (job : ScheduledJob) :
    Change (Option Fire) := fun state =>
  match state.jobs.get? job.id with
  | none => .ok (none, state)
  | some current =>
      if current.enabled = false then .ok (none, state)
      else do
        let currentKey ← store.platform.fireKey current
        let key ← store.platform.fireKey job
        if currentKey ≠ key then return (none, state)
        else match state.fires.get? key with
          | some previous =>
              return (if previous.status = .pending then some previous else none, state)
          | none =>
              let fire : Fire := ⟨current, .pending, none⟩
              return (some fire, { state with fires := state.fires.set currentKey fire })

/-- `JobStore.start_fire`. -/
def JobStore.startFire (store : JobStore) (job : ScheduledJob) :
    Option ScheduleState → Except PyError (Option Fire) × Option ScheduleState :=
  store.change (store.startFireUpdate job)

/-- What `settle` makes of the job whose fire it was. -/
def Platform.settleJob (p : Platform) (job : ScheduledJob) (delivered : Bool) (now : Datetime) :
    Except PyError ScheduledJob := do
  let runCount := job.runCount + if delivered then 1 else 0
  if job.trigger = "every" then
    let now ← aware now
    let fireAt ← aware job.fireAt
    let next ← p.advance job (max now fireAt)
    return { job with fireAt := next, runCount := runCount }
  else return { job with enabled := false, runCount := runCount }

/-- A fire with its final status. -/
def Fire.settle (fire : Fire) (delivered : Bool) (error : Option String) : Fire :=
  ⟨fire.job, if delivered then .delivered else .failed, error⟩

/-- `update` of `settle`; the status is `"delivered"` or `"failed"`. -/
def JobStore.settleUpdate (store : JobStore) (key : String) (delivered : Bool) (now : Datetime)
    (error : Option String) : Change Unit := fun state =>
  match state.fires.get? key with
  | none => .error ⟨.keyError, key⟩
  | some fire =>
      if fire.status ≠ .pending then .ok ((), state)
      else
        let state := { state with fires := state.fires.set key (fire.settle delivered error) }
        match state.jobs.get? fire.job.id with
        | none => .ok ((), state)
        | some current => do
            let currentKey ← store.platform.fireKey current
            if currentKey ≠ key then return ((), state)
            else
              let job ← store.platform.settleJob current delivered now
              return ((), { state with jobs := state.jobs.set current.id job })

/-- `JobStore.settle`. -/
def JobStore.settle (store : JobStore) (key : String) (delivered : Bool) (now : Datetime)
    (error : Option String) : Option ScheduleState → Except PyError Unit × Option ScheduleState :=
  store.change (store.settleUpdate key delivered now error)

/-- What `recover` makes of a job. -/
def JobStore.recoverJob (store : JobStore) (fires : Dict String Fire) (now : ℤ)
    (job : ScheduledJob) : Except PyError ScheduledJob := do
  let key ← store.platform.fireKey job
  let fire := fires.get? key
  if job.enabled = false then return job
  else
    let fireAt ← aware job.fireAt
    if now < fireAt ∨ fire.any (fun fire => fire.status = .pending) = true then return job
    else if job.trigger = "every" then
      let next ← store.platform.advance job now
      return { job with fireAt := next }
    else if fire.isSome ∨ 300000000 < now - fireAt then return { job with enabled := false }
    else return job

/-- `update` of `recover`. -/
def JobStore.recoverUpdate (store : JobStore) (now : ℤ) : Change ScheduleState := fun state => do
  let jobs ← state.jobs.traverse fun _ job _ => store.recoverJob state.fires now job
  let state := { state with jobs := jobs }
  return (state, state)

/-- `JobStore.recover`. -/
def JobStore.recover (store : JobStore) (now : Datetime) (file : Option ScheduleState) :
    Except PyError ScheduleState × Option ScheduleState :=
  match aware now with
  | .error e => (.error e, file)
  | .ok now => store.change (store.recoverUpdate now) file

/-! ### The system -/

/-- A call of the store. -/
inductive StoreCall where
  | add (key : String) (job : ScheduledJob) (response : String)
  | cancel (key : String) (jobIds : List String)
  | startFire (job : ScheduledJob)
  | settle (key : String) (delivered : Bool) (now : Datetime) (error : Option String)
  | recover (now : Datetime)

/-- The file after a call. -/
def JobStore.call (store : JobStore) (file : Option ScheduleState) :
    StoreCall → Option ScheduleState
  | .add key job response => (store.add key job response file).2
  | .cancel key jobIds => (store.cancel key jobIds file).2
  | .startFire job => (store.startFire job file).2
  | .settle key delivered now error => (store.settle key delivered now error file).2
  | .recover now => (store.recover now file).2

/-- Calls of a store, from a missing file. -/
def jobStore (store : JobStore) : System (Option ScheduleState) StoreCall where
  init file := file = none
  step file call file' := file' = store.call file call

/-! ### What the file keeps -/

/-- A state and what reading its file gives. -/
structure Encoded (store : JobStore) (s s' : ScheduleState) : Prop where
  jobId : ∀ id job, s.jobs.get? id = some job → job.id = id
  jobs : Dict.Rel (fun _ job job' => job' = job.parsed) s.jobs s'.jobs
  operations : s'.operations = s.operations
  fires : Dict.Rel (fun key fire fire' => store.platform.fireKey fire.job = .ok key ∧
    fire' = { fire with job := fire.job.parsed }) s.fires s'.fires

section Encoded

variable {store : JobStore} {s s' : ScheduleState}

theorem decodeJob_eq_ok {job job' : ScheduledJob} {i : ℕ}
    (h : store.decodeJob job i = .ok job') :
    store.validateJob job' i = .ok () ∧ job' = job.parsed := by
  rw [JobStore.decodeJob] at h
  obtain ⟨_, hvalid, h⟩ := bind_eq_ok.mp h
  obtain rfl := Except.ok.inj h
  exact ⟨hvalid, rfl⟩

theorem decodeJob_again {job job' : ScheduledJob} {i : ℕ}
    (h : store.decodeJob job i = .ok job') : store.decodeJob job' i = .ok job' := by
  obtain ⟨hvalid, rfl⟩ := decodeJob_eq_ok h
  exact bind_eq_ok.mpr ⟨(), hvalid, rfl⟩

variable {key : String}

theorem decodeOperation_eq_ok {operation operation' : Operation}
    (h : store.decodeOperation key operation = .ok operation') : operation' = operation := by
  rw [JobStore.decodeOperation] at h
  split at h
  · cases h
  · obtain ⟨_, -, h⟩ := bind_eq_ok.mp h
    exact (Except.ok.inj h).symm

theorem decodeFire_eq_ok {fire fire' : Fire} {i : ℕ} (h : store.decodeFire key fire i = .ok fire') :
    store.decodeJob fire.job i = .ok fire.job.parsed ∧ fire.consistent = true ∧
      store.platform.fireKey fire.job = .ok key ∧
      fire' = { fire with job := fire.job.parsed } := by
  rw [JobStore.decodeFire] at h
  obtain ⟨job, hjob, h⟩ := bind_eq_ok.mp h
  obtain ⟨-, rfl⟩ := decodeJob_eq_ok hjob
  split at h
  · cases h
  · next hconsistent =>
      obtain ⟨fireKey, hkey, h⟩ := bind_eq_ok.mp h
      split at h
      · cases h
      · next hsame =>
          obtain rfl := not_not.mp hsame
          exact ⟨hjob, Bool.not_eq_false _ ▸ hconsistent, hkey, (Except.ok.inj h).symm⟩

theorem decodeFire_again {fire fire' : Fire} {i : ℕ} (h : store.decodeFire key fire i = .ok fire') :
    store.decodeFire key fire' i = .ok fire' := by
  obtain ⟨hjob, hconsistent, hkey, rfl⟩ := decodeFire_eq_ok h
  have hconsistent' :
      ¬ ({ fire with job := fire.job.parsed } : Fire).consistent = false := by
    rw [Bool.not_eq_false]
    exact hconsistent
  rw [JobStore.decodeFire]
  refine bind_eq_ok.mpr ⟨_, decodeJob_again hjob, ?_⟩
  rw [if_neg hconsistent']
  refine bind_eq_ok.mpr ⟨key, hkey, ?_⟩
  rw [if_neg (not_not.mpr rfl)]
  rfl

/-- **What `encode` returns.** -/
theorem encode_eq_ok (h : store.encode s = .ok s') : Encoded store s s' := by
  rw [JobStore.encode] at h
  obtain ⟨checked, hchecked, h⟩ := bind_eq_ok.mp h
  rw [JobStore.decode] at h
  obtain ⟨jobs, hjobs, h⟩ := bind_eq_ok.mp h
  obtain ⟨operations, hoperations, h⟩ := bind_eq_ok.mp h
  obtain ⟨fires, hfires, h⟩ := bind_eq_ok.mp h
  obtain rfl := Except.ok.inj h
  refine ⟨fun id job hjob => ?_, ?_, ?_, ?_⟩
  · obtain ⟨_, -, i, hcheck⟩ := (Dict.rel_of_traverse hchecked).get?_left hjob
    rw [JobStore.encodeCheck] at hcheck
    split at hcheck
    · cases hcheck
    · next hid => exact (not_not.mp hid).symm
  · exact (Dict.rel_of_traverse hjobs).imp fun e e' he =>
      ⟨he.1, he.2.elim fun i hi => (decodeJob_eq_ok hi).2⟩
  · exact Dict.Rel.eq ((Dict.rel_of_traverse hoperations).imp fun e e' he =>
      ⟨he.1, he.2.elim fun i hi => decodeOperation_eq_ok hi⟩)
  · refine (Dict.rel_of_traverse hfires).imp fun e e' he => ⟨he.1, ?_⟩
    obtain ⟨i, hi⟩ := he.2
    obtain ⟨-, -, hkey, hfire⟩ := decodeFire_eq_ok hi
    exact ⟨hkey, hfire⟩

/-- **A stored state is valid**: encoding it again gives it back. -/
theorem encode_again (h : store.encode s = .ok s') : store.encode s' = .ok s' := by
  have hencoded := encode_eq_ok h
  rw [JobStore.encode] at h
  obtain ⟨checked, -, h⟩ := bind_eq_ok.mp h
  rw [JobStore.decode] at h
  obtain ⟨jobs, hjobs, h⟩ := bind_eq_ok.mp h
  obtain ⟨operations, hoperations, h⟩ := bind_eq_ok.mp h
  obtain ⟨fires, hfires, h⟩ := bind_eq_ok.mp h
  obtain rfl := Except.ok.inj h
  have hchecked : jobs.traverse store.encodeCheck = .ok (jobs.mapValues fun _ _ => ()) := by
    refine Dict.traverse_again (fun id job hget i job' hjob => ?_) hjobs
    obtain ⟨hvalid, rfl⟩ := decodeJob_eq_ok hjob
    have hid : id = job.parsed.id := (hencoded.jobId id job hget).symm
    rw [JobStore.encodeCheck, if_neg (not_not.mpr hid)]
    exact hvalid
  refine bind_eq_ok.mpr ⟨_, hchecked, bind_eq_ok.mpr ⟨jobs, ?_,
    bind_eq_ok.mpr ⟨operations, ?_, bind_eq_ok.mpr ⟨fires, ?_, rfl⟩⟩⟩⟩
  · exact Dict.traverse_stable (fun _ _ _ _ => decodeJob_again) hjobs
  · refine Dict.traverse_stable (fun key operation _ operation' hoperation => ?_) hoperations
    obtain rfl := decodeOperation_eq_ok hoperation
    exact hoperation
  · exact Dict.traverse_stable (fun _ _ _ _ => decodeFire_again) hfires

end Encoded

variable {store : JobStore}

/-- **What a change that returned did.** -/
theorem change_eq_ok {α : Type} {f : Change α} {file file' : Option ScheduleState} {a : α}
    (h : store.change f file = (.ok a, file')) :
    ∃ s' stored, f (file.getD .empty) = .ok (a, s') ∧ store.encode s' = .ok stored ∧
      file' = some stored := by
  rw [JobStore.change] at h
  split at h
  · next a' stored hcommit =>
      obtain ⟨ha, rfl⟩ := Prod.mk.inj h
      obtain rfl := Except.ok.inj ha
      rw [JobStore.commit] at hcommit
      obtain ⟨_, -, hcommit⟩ := bind_eq_ok.mp hcommit
      obtain ⟨⟨b, s'⟩, hf, hcommit⟩ := bind_eq_ok.mp hcommit
      obtain ⟨encoded, hencoded, hcommit⟩ := bind_eq_ok.mp hcommit
      obtain ⟨rfl, rfl⟩ := Prod.mk.inj (Except.ok.inj hcommit)
      exact ⟨s', _, hf, hencoded, rfl⟩
  · cases (Prod.mk.inj h).1

theorem change_eq_error {α : Type} {f : Change α} {file file' : Option ScheduleState} {e : PyError}
    (h : store.change f file = (.error e, file')) : file' = file := by
  rw [JobStore.change] at h
  split at h
  · cases (Prod.mk.inj h).1
  · exact (Prod.mk.inj h).2.symm

theorem change_cases {α : Type} (store : JobStore) (f : Change α) (file : Option ScheduleState) :
    (store.change f file).2 = file ∨
      ∃ a s' stored, f (file.getD .empty) = .ok (a, s') ∧ store.encode s' = .ok stored ∧
        (store.change f file).2 = some stored := by
  rcases hrun : store.change f file with ⟨result, file'⟩
  cases result with
  | error e => exact .inl (change_eq_error hrun)
  | ok a =>
      obtain ⟨s', stored, hf, hencoded, rfl⟩ := change_eq_ok hrun
      exact .inr ⟨a, s', stored, hf, hencoded, rfl⟩

/-! ### What the operations do -/

/-- **What an operation can do to a state**; `new` is the job it was given to add. -/
inductive Changed (store : JobStore) (new : Option ScheduledJob) (s : ScheduleState) :
    ScheduleState → Prop where
  | kept : Changed store new s s
  | refused (key : String) (operation : Operation) (hfresh : s.operations.get? key = none)
      (hids : operation.jobIds = []) :
      Changed store new s { s with operations := s.operations.set key operation }
  | added (key : String) (operation : Operation) (job : ScheduledJob)
      (hjob : new = some job)
      (hfresh : s.operations.get? key = none) (hnew : s.jobs.get? job.id = none)
      (hroom : s.active < store.maxActive) (hkind : operation.kind = .schedule)
      (hids : operation.jobIds = [job.id]) :
      Changed store new s ⟨s.jobs.set job.id job, s.operations.set key operation, s.fires⟩
  | cancelled (key : String) (operation : Operation) (jobIds : List String)
      (jobs : Dict String ScheduledJob) (hfresh : s.operations.get? key = none)
      (hkind : operation.kind = .cancel)
      (hids : ∀ id ∈ operation.jobIds, id ∈ jobIds ∧ (s.jobs.get? id).isSome = true)
      (hjobs : ∀ id, jobs.get? id = if id ∈ jobIds then none else s.jobs.get? id)
      (hactive : Dict.countP (fun entry => entry.2.enabled) jobs ≤ s.active) :
      Changed store new s ⟨jobs, s.operations.set key operation,
        s.fires.mapValues fun _ fire => fire.cancel jobIds⟩
  | fired (key id : String) (job : ScheduledJob) (hjob : s.jobs.get? id = some job)
      (hkey : store.platform.fireKey job = .ok key) (hnew : s.fires.get? key = none) :
      Changed store new s { s with fires := s.fires.set key ⟨job, .pending, none⟩ }
  | orphaned (key : String) (fire : Fire) (delivered : Bool) (error : Option String)
      (hfire : s.fires.get? key = some fire) (hpending : fire.status = .pending)
      (hjob : ∀ job, s.jobs.get? fire.job.id = some job → store.platform.fireKey job ≠ .ok key) :
      Changed store new s { s with fires := s.fires.set key (fire.settle delivered error) }
  | settled (key : String) (fire : Fire) (delivered : Bool) (error : Option String)
      (current job : ScheduledJob) (now : Datetime)
      (hfire : s.fires.get? key = some fire) (hpending : fire.status = .pending)
      (hcurrent : s.jobs.get? fire.job.id = some current)
      (hkey : store.platform.fireKey current = .ok key)
      (hjob : store.platform.settleJob current delivered now = .ok job) :
      Changed store new s ⟨s.jobs.set current.id job, s.operations,
        s.fires.set key (fire.settle delivered error)⟩
  | recovered (jobs : Dict String ScheduledJob) (now : ℤ)
      (hjobs : Dict.Rel (fun _ job job' => store.recoverJob s.fires now job = .ok job')
        s.jobs jobs) :
      Changed store new s { s with jobs := jobs }

section Changed

variable {store : JobStore} {s s' : ScheduleState}

variable {key : String} {operation : Operation}

theorem previous_eq_ok {kind : OperationKind} {digest : String} {previous : Option Operation}
    (h : s.previous key kind digest = .ok previous) :
    s.operations.get? key = previous ∧
      ∀ operation, previous = some operation → operation.kind = kind ∧ operation.digest = digest := by
  rw [ScheduleState.previous] at h
  split at h
  · next hnone =>
      obtain rfl := Except.ok.inj h
      exact ⟨hnone, fun _ hsome => by cases hsome⟩
  · next operation hsome =>
      obtain ⟨-, ⟨⟩⟩ | ⟨hsame, h⟩ := ite_eq_iff.mp h
      obtain rfl := Except.ok.inj h
      refine ⟨hsome, fun operation' heq => ?_⟩
      obtain rfl := Option.some.inj heq
      exact Prod.mk.inj (not_not.mp hsame)

theorem record_eq_ok {operation' : Operation} (h : s.record key operation = .ok (operation', s')) :
    operation' = operation ∧
      s' = { s with operations := s.operations.set key operation } := by
  rw [ScheduleState.record] at h
  obtain ⟨_, -, h⟩ := bind_eq_ok.mp h
  obtain ⟨h₁, h₂⟩ := Prod.mk.inj (Except.ok.inj h)
  exact ⟨h₁.symm, h₂.symm⟩

theorem changed_add {response : String} {job : ScheduledJob}
    (h : store.addUpdate key job response s = .ok (operation, s')) :
    Changed store (some job) s s' := by
  rw [JobStore.addUpdate] at h
  obtain ⟨previous, hprevious, h⟩ := bind_eq_ok.mp h
  obtain ⟨hfresh, -⟩ := previous_eq_ok hprevious
  cases previous with
  | some previous =>
      obtain ⟨-, rfl⟩ := Prod.mk.inj (Except.ok.inj h)
      exact .kept
  | none =>
      dsimp only at h
      obtain ⟨-, ⟨⟩⟩ | ⟨hnew, h⟩ := ite_eq_iff.mp h
      split at h
      · obtain ⟨-, rfl⟩ := record_eq_ok h
        exact .refused key _ hfresh rfl
      · next hroom =>
          obtain ⟨-, rfl⟩ := record_eq_ok h
          exact .added key _ job rfl hfresh (Option.not_isSome_iff_eq_none.mp hnew)
            (not_le.mp hroom) rfl rfl

theorem deleteAll_eq_ok {ids : List String} {jobs jobs' : Dict String ScheduledJob}
    (h : deleteAll ids jobs = .ok jobs') :
    (∀ id, jobs'.get? id = if id ∈ ids then none else jobs.get? id) ∧
      ∀ p, Dict.countP p jobs' ≤ Dict.countP p jobs := by
  induction ids generalizing jobs with
  | nil =>
      obtain rfl := Except.ok.inj h
      exact ⟨fun id => by simp, fun p => le_refl _⟩
  | cons id ids ih =>
      rw [deleteAll] at h
      split at h
      · obtain ⟨hget, hcount⟩ := ih h
        refine ⟨fun id' => ?_, fun p => (hcount p).trans (Dict.countP_erase_le p jobs id)⟩
        rw [hget id', Dict.get?_erase]
        by_cases hid : id' = id
        · simp [hid]
        · simp [hid]
      · cases h

theorem changed_cancel {jobIds : List String}
    (h : store.cancelUpdate key jobIds s = .ok (operation, s')) : Changed store none s s' := by
  rw [JobStore.cancelUpdate] at h
  obtain ⟨previous, hprevious, h⟩ := bind_eq_ok.mp h
  obtain ⟨hfresh, -⟩ := previous_eq_ok hprevious
  cases previous with
  | some previous =>
      obtain ⟨-, rfl⟩ := Prod.mk.inj (Except.ok.inj h)
      exact .kept
  | none =>
      obtain ⟨jobs, hjobs, h⟩ := bind_eq_ok.mp h
      obtain ⟨-, rfl⟩ := record_eq_ok h
      obtain ⟨hget, hcount⟩ := deleteAll_eq_ok hjobs
      refine .cancelled key _ jobIds jobs hfresh rfl (fun id hid => List.mem_filter.mp hid) ?_
        (hcount _)
      intro id
      rw [hget id]
      by_cases hid : id ∈ jobIds
      · rw [if_pos hid]
        split
        · rfl
        · next hnot =>
            rw [List.mem_filter, not_and, Option.not_isSome_iff_eq_none] at hnot
            exact hnot hid
      · rw [if_neg hid, if_neg fun hmem => hid (List.mem_filter.mp hmem).1]

theorem changed_startFire {job : ScheduledJob} {fire : Option Fire}
    (h : store.startFireUpdate job s = .ok (fire, s')) : Changed store none s s' := by
  have hkept : ∀ {x : Except PyError (Option Fire × ScheduleState)} {r : Option Fire},
      x = .ok (r, s) → x = .ok (fire, s') → Changed store none s s' := by
    intro x r hx hx'
    obtain ⟨-, rfl⟩ := Prod.mk.inj (Except.ok.inj (hx.symm.trans hx'))
    exact .kept
  rw [JobStore.startFireUpdate] at h
  split at h
  · exact hkept rfl h
  · next current hcurrent =>
      split at h
      · exact hkept rfl h
      · obtain ⟨currentKey, hcurrentKey, h⟩ := bind_eq_ok.mp h
        obtain ⟨key, -, h⟩ := bind_eq_ok.mp h
        split at h
        · exact hkept rfl h
        · next hsame =>
            obtain rfl := not_not.mp hsame
            split at h
            · exact hkept rfl h
            · next hnew =>
                obtain ⟨-, rfl⟩ := Prod.mk.inj (Except.ok.inj h)
                exact .fired currentKey job.id current hcurrent hcurrentKey hnew

theorem changed_settle {delivered : Bool} {now : Datetime} {error : Option String} {u : Unit}
    (h : store.settleUpdate key delivered now error s = .ok (u, s')) : Changed store none s s' := by
  rw [JobStore.settleUpdate] at h
  split at h
  · cases h
  · next fire hfire =>
      split at h
      · obtain ⟨-, rfl⟩ := Prod.mk.inj (Except.ok.inj h)
        exact .kept
      · next hpending =>
          have hpending := not_not.mp hpending
          dsimp only at h
          split at h
          · next hnone =>
              obtain ⟨-, rfl⟩ := Prod.mk.inj (Except.ok.inj h)
              exact .orphaned key fire delivered error hfire hpending fun job hjob =>
                by cases hnone.symm.trans hjob
          · next current hcurrent =>
              obtain ⟨currentKey, hcurrentKey, h⟩ := bind_eq_ok.mp h
              split at h
              · next hother =>
                  obtain ⟨-, rfl⟩ := Prod.mk.inj (Except.ok.inj h)
                  refine .orphaned key fire delivered error hfire hpending fun job hjob => ?_
                  obtain rfl := Option.some.inj (hcurrent.symm.trans hjob)
                  rw [hcurrentKey]
                  exact fun heq => hother (Except.ok.inj heq)
              · next hsame =>
                  obtain rfl := not_not.mp hsame
                  obtain ⟨job, hjob, h⟩ := bind_eq_ok.mp h
                  obtain ⟨-, rfl⟩ := Prod.mk.inj (Except.ok.inj h)
                  exact .settled currentKey fire delivered error current job now hfire hpending
                    hcurrent hcurrentKey hjob

theorem changed_recover {now : ℤ} {state : ScheduleState}
    (h : store.recoverUpdate now s = .ok (state, s')) : Changed store none s s' := by
  rw [JobStore.recoverUpdate] at h
  obtain ⟨jobs, hjobs, h⟩ := bind_eq_ok.mp h
  obtain ⟨-, rfl⟩ := Prod.mk.inj (Except.ok.inj h)
  exact .recovered jobs now ((Dict.rel_of_traverse hjobs).imp fun e e' he =>
    ⟨he.1, he.2.elim fun _ hi => hi⟩)

end Changed

/-- A job and what a fire or a recovery made of it. -/
structure ScheduledJob.Later (job job' : ScheduledJob) : Prop where
  id : job'.id = job.id
  trigger : job'.trigger = job.trigger
  enabled : job'.enabled = true → job.enabled = true
  fireAt : job.trigger ≠ "every" → job'.fireAt = job.fireAt

theorem ScheduledJob.Later.refl (job : ScheduledJob) : job.Later job :=
  ⟨rfl, rfl, fun h => h, fun _ => rfl⟩

theorem settleJob_eq_ok {p : Platform} {job job' : ScheduledJob} {delivered : Bool}
    {now : Datetime} (h : p.settleJob job delivered now = .ok job') :
    job.Later job' ∧ job'.runCount = job.runCount + if delivered then 1 else 0 := by
  rw [Platform.settleJob] at h
  split at h
  · next hevery =>
      obtain ⟨_, -, h⟩ := bind_eq_ok.mp h
      obtain ⟨_, -, h⟩ := bind_eq_ok.mp h
      obtain ⟨next, -, h⟩ := bind_eq_ok.mp h
      obtain rfl := Except.ok.inj h
      exact ⟨⟨rfl, rfl, fun h => h, fun hne => absurd hevery hne⟩, rfl⟩
  · obtain rfl := Except.ok.inj h
    exact ⟨⟨rfl, rfl, fun h => (Bool.false_ne_true h).elim, fun _ => rfl⟩, rfl⟩

/-- A recovered job keeps its count, and is left alone while its fire is pending. -/
theorem recoverJob_eq_ok {fires : Dict String Fire} {now : ℤ} {job job' : ScheduledJob}
    (h : store.recoverJob fires now job = .ok job') :
    job.Later job' ∧ job'.runCount = job.runCount ∧
      ∀ key fire, store.platform.fireKey job = .ok key → fires.get? key = some fire →
        fire.status = .pending → job' = job := by
  rw [JobStore.recoverJob] at h
  obtain ⟨key, hkey, h⟩ := bind_eq_ok.mp h
  dsimp only at h
  split at h
  · obtain rfl := Except.ok.inj h
    exact ⟨.refl _, rfl, fun _ _ _ _ _ => rfl⟩
  · obtain ⟨fireAt, -, h⟩ := bind_eq_ok.mp h
    split at h
    · obtain rfl := Except.ok.inj h
      exact ⟨.refl _, rfl, fun _ _ _ _ _ => rfl⟩
    · next hdue =>
        have hnot : ∀ key' fire, store.platform.fireKey job = .ok key' →
            fires.get? key' = some fire → fire.status ≠ .pending := by
          intro key' fire hkey' hfire hpending
          obtain rfl := Except.ok.inj (hkey.symm.trans hkey')
          refine hdue (.inr ?_)
          rw [hfire, Option.any_some]
          exact decide_eq_true hpending
        split at h
        · next hevery =>
            obtain ⟨next, -, h⟩ := bind_eq_ok.mp h
            obtain rfl := Except.ok.inj h
            exact ⟨⟨rfl, rfl, fun h => h, fun hne => absurd hevery hne⟩, rfl,
              fun key' fire hkey' hfire hpending => absurd hpending (hnot key' fire hkey' hfire)⟩
        · split at h
          · obtain rfl := Except.ok.inj h
            exact ⟨⟨rfl, rfl, fun h => (Bool.false_ne_true h).elim, fun _ => rfl⟩, rfl,
              fun key' fire hkey' hfire hpending => absurd hpending (hnot key' fire hkey' hfire)⟩
          · obtain rfl := Except.ok.inj h
            exact ⟨.refl _, rfl, fun _ _ _ _ _ => rfl⟩

/-! ### What holds for any arguments -/

/-- What every state of the store satisfies, whatever the calls were given. -/
structure Sound (store : JobStore) (s : ScheduleState) : Prop where
  jobId : ∀ id job, s.jobs.get? id = some job → job.id = id
  fireKey : ∀ key fire, s.fires.get? key = some fire →
    store.platform.fireKey fire.job = .ok key
  active : s.active ≤ store.maxActive
  pending : ∀ key fire, s.fires.get? key = some fire → fire.status = .pending →
    ∃ job, s.jobs.get? fire.job.id = some job ∧ store.platform.fireKey job = .ok key

section Sound

variable {store : JobStore} {new : Option ScheduledJob} {s s' : ScheduleState}

theorem cancel_pending {fire : Fire} {jobIds : List String}
    (h : (fire.cancel jobIds).status = .pending) :
    fire.status = .pending ∧ fire.job.id ∉ jobIds := by
  rw [Fire.cancel] at h
  split at h
  · cases h
  · next hnot =>
      refine ⟨h, fun hmem => hnot ⟨?_, h⟩⟩
      exact List.contains_iff_mem.mpr hmem

theorem cancel_job (fire : Fire) (jobIds : List String) : (fire.cancel jobIds).job = fire.job := by
  rw [Fire.cancel]
  split <;> rfl

theorem settle_status (fire : Fire) (delivered : Bool) (error : Option String) :
    (fire.settle delivered error).status ≠ .pending := by
  cases delivered <;> exact fun h => nomatch h

/-- **Every operation keeps the state sound.** -/
theorem Sound.step (h : Sound store s) (hstep : Changed store new s s') : Sound store s' := by
  cases hstep with
  | kept => exact h
  | refused => exact ⟨h.jobId, h.fireKey, h.active, h.pending⟩
  | added key operation job hjob hfresh hnew hroom hkind hids =>
      refine ⟨fun id job' hget => ?_, h.fireKey, ?_, fun key fire hfire hpending => ?_⟩
      · rw [Dict.get?_set] at hget
        split at hget
        · next hid => rw [← Option.some.inj hget, hid]
        · exact h.jobId id job' hget
      · rw [ScheduleState.active, Dict.countP_set_of_none hnew]
        rw [ScheduleState.active] at hroom
        split <;> omega
      · obtain ⟨job', hjob', hkey⟩ := h.pending key fire hfire hpending
        refine ⟨job', ?_, hkey⟩
        rw [Dict.get?_set_of_ne _ _ fun heq => by cases (heq ▸ hnew).symm.trans hjob']
        exact hjob'
  | cancelled key operation jobIds jobs hfresh hkind hids hjobs hactive =>
      refine ⟨fun id job hget => ?_, fun key fire hfire => ?_, hactive.trans h.active,
        fun key fire hfire hpending => ?_⟩
      · rw [hjobs] at hget
        split at hget
        · cases hget
        · exact h.jobId id job hget
      · obtain ⟨fire, hold, rfl⟩ := (Dict.rel_mapValues _ _).get?_right hfire
        rw [cancel_job]
        exact h.fireKey key fire hold
      · obtain ⟨fire, hold, rfl⟩ := (Dict.rel_mapValues _ _).get?_right hfire
        obtain ⟨hpending, hnot⟩ := cancel_pending hpending
        obtain ⟨job, hjob, hkey⟩ := h.pending key fire hold hpending
        refine ⟨job, ?_, hkey⟩
        rw [cancel_job, hjobs, if_neg hnot]
        exact hjob
  | fired key id job hjob hkey hnew =>
      refine ⟨h.jobId, fun key' fire hfire => ?_, h.active, fun key' fire hfire hpending => ?_⟩
      · obtain ⟨heq, rfl⟩ | ⟨-, hfire⟩ := Dict.of_get?_set hfire
        · rw [heq]
          exact hkey
        · exact h.fireKey key' fire hfire
      · obtain ⟨heq, rfl⟩ | ⟨-, hfire⟩ := Dict.of_get?_set hfire
        · refine ⟨job, ?_, heq ▸ hkey⟩
          rw [h.jobId id job hjob]
          exact hjob
        · exact h.pending key' fire hfire hpending
  | orphaned key fire delivered error hfire hpending hjob =>
      obtain ⟨job, hget, hkey⟩ := h.pending key fire hfire hpending
      exact absurd hkey (hjob job hget)
  | settled key fire delivered error current job now hfire hpending hcurrent hkey hjob =>
      obtain ⟨hlater, -⟩ := settleJob_eq_ok hjob
      have hid := h.jobId _ _ hcurrent
      refine ⟨fun id job' hget => ?_, fun key' fire' hfire' => ?_, ?_,
        fun key' fire' hfire' hpending' => ?_⟩
      · rw [Dict.get?_set] at hget
        split at hget
        · next heq => rw [← Option.some.inj hget, hlater.id, heq]
        · exact h.jobId id job' hget
      · obtain ⟨heq, rfl⟩ | ⟨-, hfire'⟩ := Dict.of_get?_set hfire'
        · rw [heq]
          exact h.fireKey key fire hfire
        · exact h.fireKey key' fire' hfire'
      · have hcount := Dict.countP_set_of_get? (p := fun entry => entry.2.enabled)
          (v := job) (hid.symm ▸ hcurrent)
        have hactive := h.active
        rw [ScheduleState.active] at hactive
        change Dict.countP (fun entry => entry.2.enabled) (s.jobs.set current.id job) ≤ _
        dsimp only at hcount
        cases henabled : job.enabled with
        | false =>
            rw [henabled] at hcount
            simp only [Bool.false_eq_true, if_false] at hcount
            omega
        | true =>
            rw [henabled, hlater.enabled henabled] at hcount
            simp only [if_true] at hcount
            omega
      · rw [Dict.get?_set] at hfire'
        split at hfire'
        · obtain rfl := Option.some.inj hfire'
          exact absurd hpending' (settle_status fire delivered error)
        · next hne =>
            obtain ⟨job', hget', hkey'⟩ := h.pending key' fire' hfire' hpending'
            refine ⟨job', ?_, hkey'⟩
            rw [Dict.get?_set_of_ne]
            · exact hget'
            · intro heq
              rw [heq, hid, hcurrent] at hget'
              obtain rfl := Option.some.inj hget'
              exact hne (Except.ok.inj (hkey'.symm.trans hkey))
  | recovered jobs now hjobs =>
      refine ⟨fun id job hget => ?_, h.fireKey, ?_, fun key fire hfire hpending => ?_⟩
      · obtain ⟨old, hold, hjob⟩ := hjobs.get?_right hget
        rw [(recoverJob_eq_ok hjob).1.id]
        exact h.jobId id old hold
      · refine le_trans (hjobs.countP_le fun id old job hjob henabled => ?_) h.active
        exact (recoverJob_eq_ok hjob).1.enabled henabled
      · obtain ⟨job, hget, hkey⟩ := h.pending key fire hfire hpending
        obtain ⟨job', hget', hjob⟩ := hjobs.get?_left hget
        obtain rfl := (recoverJob_eq_ok hjob).2.2 key fire hkey hfire hpending
        exact ⟨job', hget', hkey⟩

theorem Sound.encoded (h : Sound store s) (hencoded : Encoded store s s') : Sound store s' := by
  refine ⟨fun id job hget => ?_, fun key fire hfire => ?_, ?_, fun key fire hfire hpending => ?_⟩
  · obtain ⟨old, hold, rfl⟩ := hencoded.jobs.get?_right hget
    exact hencoded.jobId id old hold
  · obtain ⟨old, -, hkey, rfl⟩ := hencoded.fires.get?_right hfire
    exact hkey
  · refine le_trans (hencoded.jobs.countP_le fun id old job hjob henabled => ?_) h.active
    rw [hjob] at henabled
    exact henabled
  · obtain ⟨old, hold, -, rfl⟩ := hencoded.fires.get?_right hfire
    obtain ⟨job, hget, hkey⟩ := h.pending key old hold hpending
    obtain ⟨job', hget', rfl⟩ := hencoded.jobs.get?_left hget
    exact ⟨_, hget', hkey⟩

end Sound

/-! ### What holds when new jobs are new -/

/-- A job that was added at some time: a receipt says so. -/
def ScheduleState.Known (s : ScheduleState) (id : String) : Prop :=
  ∃ key operation, s.operations.get? key = some operation ∧ operation.kind = .schedule ∧
    id ∈ operation.jobIds

/-- The number of delivered fires of a job. -/
def ScheduleState.deliveries (s : ScheduleState) (id : String) : ℕ :=
  Dict.countP (fun entry => decide (entry.2.job.id = id ∧ entry.2.status = .delivered)) s.fires

/-- What every state satisfies whose jobs were new when they were added. -/
structure Counted (s : ScheduleState) : Prop where
  runCount : ∀ id job, s.jobs.get? id = some job → job.runCount = s.deliveries id
  same : ∀ id job key fire, s.jobs.get? id = some job → s.fires.get? key = some fire →
    fire.job.id = id → fire.job.trigger = job.trigger ∧
      (job.trigger ≠ "every" → fire.job.fireAt.utc = job.fireAt.utc)
  once : ∀ key fire key' fire', s.fires.get? key = some fire → s.fires.get? key' = some fire' →
    fire.job.id = fire'.job.id → fire.job.trigger ≠ "every" → key = key'
  jobKnown : ∀ id job, s.jobs.get? id = some job → s.Known id
  fireKnown : ∀ key fire, s.fires.get? key = some fire → s.Known fire.job.id
  cancelled : ∀ key operation, s.operations.get? key = some operation →
    operation.kind = .cancel → ∀ id ∈ operation.jobIds, s.Known id ∧ s.jobs.get? id = none

section Counted

variable {store : JobStore} {new : Option ScheduledJob} {s s' : ScheduleState}

variable {key : String}

theorem known_set {id : String} {operation : Operation} {jobs : Dict String ScheduledJob}
    {fires : Dict String Fire} (hfresh : s.operations.get? key = none) (h : s.Known id) :
    ScheduleState.Known ⟨jobs, s.operations.set key operation, fires⟩ id := by
  obtain ⟨key', old, hget, hkind, hid⟩ := h
  refine ⟨key', old, ?_, hkind, hid⟩
  rw [Dict.get?_set_of_ne]
  · exact hget
  · rintro rfl
    exact nomatch hfresh.symm.trans hget

theorem cancelled_set (h : Counted s) {operation : Operation} {jobs : Dict String ScheduledJob}
    {fires : Dict String Fire} (hfresh : s.operations.get? key = none)
    (hjobs : ∀ id, s.Known id → s.jobs.get? id = none → jobs.get? id = none)
    (hnew : operation.kind = .cancel → ∀ id ∈ operation.jobIds, s.Known id ∧ jobs.get? id = none)
    {key' : String} {operation' : Operation}
    (hget : (s.operations.set key operation).get? key' = some operation')
    (hkind : operation'.kind = .cancel) : ∀ id ∈ operation'.jobIds,
      ScheduleState.Known ⟨jobs, s.operations.set key operation, fires⟩ id ∧
        jobs.get? id = none := by
  intro id hid
  obtain ⟨-, rfl⟩ | ⟨-, hget⟩ := Dict.of_get?_set hget
  · obtain ⟨hknown, hnone⟩ := hnew hkind id hid
    exact ⟨known_set hfresh hknown, hnone⟩
  · obtain ⟨hknown, hnone⟩ := h.cancelled key' operation' hget hkind id hid
    exact ⟨known_set hfresh hknown, hjobs id hknown hnone⟩

theorem fireKey_congr (p : Platform) {job job' : ScheduledJob} (hid : job.id = job'.id)
    (hutc : job.fireAt.utc = job'.fireAt.utc) : p.fireKey job = p.fireKey job' := by
  rw [Platform.fireKey, Platform.fireKey, aware, aware, hid, hutc]

theorem same_later (h : Counted s) {id : String} {job job' : ScheduledJob} {fire : Fire}
    (hjob : s.jobs.get? id = some job) (hlater : job.Later job')
    (hfire : s.fires.get? key = some fire) (hid : fire.job.id = id) :
    fire.job.trigger = job'.trigger ∧
      (job'.trigger ≠ "every" → fire.job.fireAt.utc = job'.fireAt.utc) := by
  obtain ⟨htrigger, hutc⟩ := h.same id job key fire hjob hfire hid
  refine ⟨htrigger.trans hlater.trigger.symm, fun hne => ?_⟩
  rw [hlater.trigger] at hne
  rw [hlater.fireAt hne]
  exact hutc hne

theorem deliveries_settle {fire : Fire} (hfire : s.fires.get? key = some fire)
    (hpending : fire.status = .pending) (delivered : Bool) (error : Option String) (id : String) :
    ScheduleState.deliveries
      ⟨s.jobs, s.operations, s.fires.set key (fire.settle delivered error)⟩ id
        = s.deliveries id + if fire.job.id = id then (if delivered then 1 else 0) else 0 := by
  have hcount := Dict.countP_set_of_get? (v := fire.settle delivered error)
    (p := fun entry => decide (entry.2.job.id = id ∧ entry.2.status = .delivered)) hfire
  have hbefore : decide (fire.job.id = id ∧ fire.status = .delivered) = false := by
    rw [hpending]
    simp
  rw [hbefore, if_neg Bool.false_ne_true, Nat.add_zero] at hcount
  rw [ScheduleState.deliveries, hcount, ScheduleState.deliveries]
  rw [Nat.add_left_cancel_iff]
  by_cases hid : fire.job.id = id <;> cases delivered <;> simp [Fire.settle, hid]

/-- **Every operation keeps the counts**, when the job it adds is new and has not run. -/
theorem Counted.step (h : Counted s) (hs : Sound store s)
    (hnew : ∀ job, new = some job → ¬ s.Known job.id ∧ job.runCount = 0)
    (hstep : Changed store new s s') : Counted s' := by
  cases hstep with
  | kept => exact h
  | refused key operation hfresh hids =>
      refine ⟨h.runCount, h.same, h.once, fun id job hjob => known_set hfresh (h.jobKnown id job hjob),
        fun key fire hfire => known_set hfresh (h.fireKnown key fire hfire),
        fun key' operation' hget hkind => ?_⟩
      refine cancelled_set h hfresh (fun _ _ hnone => hnone) ?_ hget hkind
      intro _ id hid
      rw [hids] at hid
      cases hid
  | added key operation job hjob hfresh hnone hroom hkind hids =>
      obtain ⟨hunknown, hzero⟩ := hnew job hjob
      have hfires : ∀ key fire, s.fires.get? key = some fire → fire.job.id ≠ job.id :=
        fun key fire hfire heq => hunknown (heq ▸ h.fireKnown key fire hfire)
      refine ⟨fun id job' hget => ?_, fun id job' key' fire hget hfire hid => ?_, h.once,
        fun id job' hget => ?_, fun key fire hfire => known_set hfresh (h.fireKnown key fire hfire),
        fun key' operation' hget hkind' => ?_⟩
      · obtain ⟨hid, rfl⟩ | ⟨-, hget⟩ := Dict.of_get?_set hget
        · rw [hzero, ScheduleState.deliveries, Dict.countP_eq_zero]
          · rfl
          · intro key' fire hfire
            rw [decide_eq_false_iff_not, hid]
            exact fun hboth => hfires key' fire hfire hboth.1
        · exact h.runCount id job' hget
      · rw [Dict.get?_set] at hget
        split at hget
        · next heq => exact absurd (hid.trans heq) (hfires key' fire hfire)
        · exact h.same id job' key' fire hget hfire hid
      · rw [Dict.get?_set] at hget
        split at hget
        · next hid =>
            refine ⟨key, operation, Dict.get?_set_self _ _ _, hkind, ?_⟩
            rw [hids, hid]
            exact List.mem_singleton_self _
        · exact known_set hfresh (h.jobKnown id job' hget)
      · refine cancelled_set h hfresh (fun id hknown hnone' => ?_) ?_ hget hkind'
        · rw [Dict.get?_set_of_ne]
          · exact hnone'
          · rintro rfl
            exact hunknown hknown
        · intro hcancel
          cases hkind.symm.trans hcancel
  | cancelled key operation jobIds jobs hfresh hkind hids hjobs hactive =>
      have hsub : ∀ id job, jobs.get? id = some job → s.jobs.get? id = some job := by
        intro id job hget
        rw [hjobs] at hget
        split at hget
        · cases hget
        · exact hget
      refine ⟨fun id job hget => ?_, fun id job key' fire hget hfire hid => ?_,
        fun key fire key' fire' hfire hfire' hid hne => ?_,
        fun id job hget => known_set hfresh (h.jobKnown id job (hsub id job hget)),
        fun key' fire hfire => ?_, fun key' operation' hget hkind' => ?_⟩
      · rw [h.runCount id job (hsub id job hget)]
        refine congrArg Int.ofNat ((Dict.rel_mapValues s.fires _).countP ?_).symm
        rintro _ fire _ rfl
        rw [cancel_job, decide_eq_decide]
        refine and_congr_right fun _ => ?_
        rw [Fire.cancel]
        split
        · next hboth => simp [hboth.2]
        · rfl
      · obtain ⟨old, hold, rfl⟩ := (Dict.rel_mapValues _ _).get?_right hfire
        rw [cancel_job] at hid ⊢
        exact h.same id job key' old (hsub id job hget) hold hid
      · obtain ⟨old, hold, rfl⟩ := (Dict.rel_mapValues _ _).get?_right hfire
        obtain ⟨old', hold', rfl⟩ := (Dict.rel_mapValues _ _).get?_right hfire'
        rw [cancel_job] at hid hne
        rw [cancel_job] at hid
        exact h.once key old key' old' hold hold' hid hne
      · obtain ⟨old, hold, rfl⟩ := (Dict.rel_mapValues _ _).get?_right hfire
        rw [cancel_job]
        exact known_set hfresh (h.fireKnown key' old hold)
      · refine cancelled_set h hfresh (fun id _ hnone => ?_) ?_ hget hkind'
        · rw [hjobs, hnone, ite_self]
        · intro _ id hid
          obtain ⟨hmem, hsome⟩ := hids id hid
          obtain ⟨job, hjob⟩ := Option.isSome_iff_exists.mp hsome
          exact ⟨h.jobKnown id job hjob, by rw [hjobs, if_pos hmem]⟩
  | fired key id job hjob hkey hfree =>
      have hid := hs.jobId id job hjob
      have honce : ∀ key' fire', s.fires.get? key' = some fire' → job.id = fire'.job.id →
          job.trigger ≠ "every" → key = key' := by
        intro key' fire' hfire' heq hne
        obtain ⟨-, hutc⟩ := h.same id job key' fire' hjob hfire' (heq.symm.trans hid)
        have hsame := fireKey_congr store.platform heq.symm (hutc hne)
        rw [hs.fireKey key' fire' hfire', hkey] at hsame
        exact (Except.ok.inj hsame).symm
      refine ⟨fun id' job' hget => ?_, fun id' job' key' fire hget hfire hid' => ?_,
        fun key₁ fire₁ key₂ fire₂ hfire₁ hfire₂ heq hne => ?_, h.jobKnown,
        fun key' fire hfire => ?_, h.cancelled⟩
      · rw [h.runCount id' job' hget, ScheduleState.deliveries, ScheduleState.deliveries,
          Dict.countP_set_of_none hfree]
        simp
      · obtain ⟨-, rfl⟩ | ⟨-, hfire⟩ := Dict.of_get?_set hfire
        · dsimp only at hid' ⊢
          rw [hid] at hid'
          rw [← hid', hjob] at hget
          obtain rfl := Option.some.inj hget
          exact ⟨rfl, fun _ => rfl⟩
        · exact h.same id' job' key' fire hget hfire hid'
      · rw [Dict.get?_set] at hfire₁ hfire₂
        split at hfire₁
        · next h₁ =>
            obtain rfl := Option.some.inj hfire₁
            split at hfire₂
            · next h₂ => rw [h₁, h₂]
            · rw [h₁]
              exact honce key₂ fire₂ hfire₂ heq hne
        · split at hfire₂
          · next h₂ =>
              obtain rfl := Option.some.inj hfire₂
              rw [h₂]
              obtain ⟨htrigger, -⟩ := h.same id job key₁ fire₁ hjob hfire₁ (heq.trans hid)
              exact (honce key₁ fire₁ hfire₁ heq.symm (htrigger ▸ hne)).symm
          · exact h.once key₁ fire₁ key₂ fire₂ hfire₁ hfire₂ heq hne
      · obtain ⟨-, rfl⟩ | ⟨-, hfire⟩ := Dict.of_get?_set hfire
        · rw [hid]
          exact h.jobKnown id job hjob
        · exact h.fireKnown key' fire hfire
  | orphaned key fire delivered error hfire hpending hjob =>
      obtain ⟨job, hget, hkey⟩ := hs.pending key fire hfire hpending
      exact absurd hkey (hjob job hget)
  | settled key fire delivered error current job now hfire hpending hcurrent hkey hjob =>
      obtain ⟨hlater, hcount⟩ := settleJob_eq_ok hjob
      have hid := hs.jobId _ _ hcurrent
      have hback : ∀ {key' fire'}, (s.fires.set key (fire.settle delivered error)).get? key'
          = some fire' → ∃ old, s.fires.get? key' = some old ∧ fire'.job = old.job := by
        intro key' fire' hget
        obtain ⟨heq, rfl⟩ | ⟨-, hget⟩ := Dict.of_get?_set hget
        · exact ⟨fire, heq ▸ hfire, rfl⟩
        · exact ⟨fire', hget, rfl⟩
      have hjobs : ∀ {id' job'}, (s.jobs.set current.id job).get? id' = some job' →
          ∃ old, s.jobs.get? id' = some old ∧ old.Later job' := by
        intro id' job' hget
        obtain ⟨heq, rfl⟩ | ⟨-, hget⟩ := Dict.of_get?_set hget
        · exact ⟨current, by rw [heq, hid]; exact hcurrent, hlater⟩
        · exact ⟨job', hget, .refl _⟩
      refine ⟨fun id' job' hget => ?_, fun id' job' key' fire' hget hfire' hid' => ?_,
        fun key₁ fire₁ key₂ fire₂ hfire₁ hfire₂ heq hne => ?_, fun id' job' hget => ?_,
        fun key' fire' hfire' => ?_, fun key' operation hget hkind id' hmem => ?_⟩
      · have hdeliveries := deliveries_settle hfire hpending delivered error id'
        rw [Dict.get?_set] at hget
        split at hget
        · next heq =>
            obtain rfl := Option.some.inj hget
            have hold := h.runCount id' current (by rw [heq, hid]; exact hcurrent)
            rw [hcount, hold]
            rw [if_pos (hid.symm.trans heq.symm)] at hdeliveries
            change _ = (ScheduleState.deliveries ⟨s.jobs, s.operations, _⟩ id' : ℤ)
            rw [hdeliveries]
            cases delivered <;> rfl
        · next hne =>
            rw [h.runCount id' job' hget]
            rw [if_neg fun heq => hne (heq.symm.trans hid.symm)] at hdeliveries
            exact congrArg Int.ofNat hdeliveries.symm
      · obtain ⟨old, hold, hjob'⟩ := hback hfire'
        obtain ⟨oldJob, hget', hlater'⟩ := hjobs hget
        rw [hjob'] at hid' ⊢
        exact same_later h hget' hlater' hold hid'
      · obtain ⟨old₁, hold₁, hjob₁⟩ := hback hfire₁
        obtain ⟨old₂, hold₂, hjob₂⟩ := hback hfire₂
        rw [hjob₁, hjob₂] at heq
        exact h.once key₁ old₁ key₂ old₂ hold₁ hold₂ heq (hjob₁ ▸ hne)
      · obtain ⟨old, hold, -⟩ := hjobs hget
        exact h.jobKnown id' old hold
      · obtain ⟨old, hold, hjob'⟩ := hback hfire'
        rw [hjob']
        exact h.fireKnown key' old hold
      · obtain ⟨hknown, hnone⟩ := h.cancelled key' operation hget hkind id' hmem
        refine ⟨hknown, ?_⟩
        rw [Dict.get?_set_of_ne]
        · exact hnone
        · rintro rfl
          rw [hid, hcurrent] at hnone
          cases hnone
  | recovered jobs now hjobs =>
      refine ⟨fun id job hget => ?_, fun id job key fire hget hfire hid => ?_, h.once,
        fun id job hget => ?_, h.fireKnown, fun key operation hget hkind id hmem => ?_⟩
      · obtain ⟨old, hold, hjob⟩ := hjobs.get?_right hget
        rw [(recoverJob_eq_ok hjob).2.1]
        exact h.runCount id old hold
      · obtain ⟨old, hold, hjob⟩ := hjobs.get?_right hget
        exact same_later h hold (recoverJob_eq_ok hjob).1 hfire hid
      · obtain ⟨old, hold, -⟩ := hjobs.get?_right hget
        exact h.jobKnown id old hold
      · obtain ⟨hknown, hnone⟩ := h.cancelled key operation hget hkind id hmem
        refine ⟨hknown, ?_⟩
        rcases hjobs.get? id with ⟨-, hnone'⟩ | ⟨_, _, hsome, -, -⟩
        · exact hnone'
        · cases hnone.symm.trans hsome

theorem Counted.encoded (h : Counted s) (hencoded : Encoded store s s') : Counted s' := by
  have hknown : ∀ id, s.Known id → s'.Known id := by
    rintro id ⟨key, operation, hget, hkind, hid⟩
    exact ⟨key, operation, by rw [hencoded.operations]; exact hget, hkind, hid⟩
  refine ⟨fun id job hget => ?_, fun id job key fire hget hfire hid => ?_,
    fun key fire key' fire' hfire hfire' heq hne => ?_, fun id job hget => ?_,
    fun key fire hfire => ?_, fun key operation hget hkind id hid => ?_⟩
  · obtain ⟨old, hold, rfl⟩ := hencoded.jobs.get?_right hget
    refine (h.runCount id old hold).trans (congrArg Int.ofNat (hencoded.fires.countP ?_).symm)
    rintro _ fire _ ⟨-, rfl⟩
    rfl
  · obtain ⟨old, hold, rfl⟩ := hencoded.jobs.get?_right hget
    obtain ⟨oldFire, holdFire, -, rfl⟩ := hencoded.fires.get?_right hfire
    exact h.same id old key oldFire hold holdFire hid
  · obtain ⟨old, hold, -, rfl⟩ := hencoded.fires.get?_right hfire
    obtain ⟨old', hold', -, rfl⟩ := hencoded.fires.get?_right hfire'
    exact h.once key old key' old' hold hold' heq hne
  · obtain ⟨old, hold, -⟩ := hencoded.jobs.get?_right hget
    exact hknown id (h.jobKnown id old hold)
  · obtain ⟨old, hold, -, rfl⟩ := hencoded.fires.get?_right hfire
    exact hknown _ (h.fireKnown key old hold)
  · rw [hencoded.operations] at hget
    obtain ⟨hknown', hnone⟩ := h.cancelled key operation hget hkind id hid
    refine ⟨hknown id hknown', ?_⟩
    rcases hencoded.jobs.get? id with ⟨-, hnone'⟩ | ⟨_, _, hsome, -, -⟩
    · exact hnone'
    · exact nomatch hnone.symm.trans hsome

end Counted

/-! ### Runs -/

section Runs

variable {store : JobStore} {file file' : Option ScheduleState}

/-- The job a call is given to add. -/
def StoreCall.newJob : StoreCall → Option ScheduledJob
  | .add _ job _ => some job
  | _ => none

/-- **What a call does to the file**: nothing, or it commits a change of the state. -/
theorem call_cases (store : JobStore) (file : Option ScheduleState) (call : StoreCall) :
    store.call file call = file ∨
      ∃ s' stored, Changed store call.newJob (file.getD .empty) s' ∧
        store.encode s' = .ok stored ∧ store.call file call = some stored := by
  have hchange : ∀ {α : Type} (f : Change α) (new : Option ScheduledJob),
      (∀ a s', f (file.getD .empty) = .ok (a, s') → Changed store new (file.getD .empty) s') →
      (store.change f file).2 = file ∨
        ∃ s' stored, Changed store new (file.getD .empty) s' ∧
          store.encode s' = .ok stored ∧ (store.change f file).2 = some stored := by
    intro α f new hf
    rcases change_cases store f file with hkept | ⟨a, s', stored, hok, hencode, heq⟩
    · exact .inl hkept
    · exact .inr ⟨s', stored, hf a s' hok, hencode, heq⟩
  cases call with
  | add key job response => exact hchange _ _ fun _ _ => changed_add
  | cancel key jobIds => exact hchange _ _ fun _ _ => changed_cancel
  | startFire job => exact hchange _ _ fun _ _ => changed_startFire
  | settle key delivered now error => exact hchange _ _ fun _ _ => changed_settle
  | recover now =>
      rw [JobStore.call, JobStore.recover]
      split
      · exact .inl rfl
      · exact hchange _ _ fun _ _ => changed_recover

/-- The invariant of the file: it is sound, and encoding it again gives it back. -/
structure Valid (store : JobStore) (file : Option ScheduleState) : Prop where
  sound : Sound store (file.getD .empty)
  encode : ∀ s, file = some s → store.encode s = .ok s

/-- **Every call keeps the file valid.** -/
theorem Valid.step (h : Valid store file) {call : StoreCall}
    (hstep : (jobStore store).step file call file') : Valid store file' := by
  obtain rfl : file' = _ := hstep
  rcases call_cases store file call with hkept | ⟨s', stored, hchanged, hencode, heq⟩
  · rw [hkept]
    exact h
  · rw [heq]
    refine ⟨(h.sound.step hchanged).encoded (encode_eq_ok hencode), fun s hs => ?_⟩
    obtain rfl := Option.some.inj hs
    exact encode_again hencode

theorem valid_none (store : JobStore) : Valid store none :=
  ⟨⟨(fun _ _ hget => nomatch hget), (fun _ _ hget => nomatch hget), Nat.zero_le _,
    (fun _ _ hget => nomatch hget)⟩, (fun _ hs => nomatch hs)⟩

variable {G : Option ScheduleState → StoreCall → Prop} {s s' : ScheduleState} {key : String}
  {operation : Operation} {jobIds : List String}

theorem valid_of_reachable (h : (jobStore store).ReachableVia G file) : Valid store file := by
  refine h.invariant (I := Valid store) ?_ fun _ _ _ hs _ hstep => hs.step hstep
  rintro _ rfl
  exact valid_none store

/-- The job a call adds is new: no job of its identity was ever added, and it has not run. -/
def Fresh (file : Option ScheduleState) (call : StoreCall) : Prop :=
  ∀ job, call.newJob = some job → ¬ (file.getD .empty).Known job.id ∧ job.runCount = 0

theorem counted_of_reachable (h : (jobStore store).ReachableVia Fresh file) :
    Counted (file.getD .empty) := by
  refine (h.invariant (I := fun file => Valid store file ∧ Counted (file.getD .empty)) ?_ ?_).2
  · rintro _ rfl
    refine ⟨valid_none store, ?_⟩
    exact ⟨(fun _ _ hget => nomatch hget), (fun _ _ _ _ hget => nomatch hget),
      (fun _ _ _ _ hget => nomatch hget), (fun _ _ hget => nomatch hget),
      (fun _ _ hget => nomatch hget), (fun _ _ hget => nomatch hget)⟩
  · rintro file call _ ⟨hvalid, hcounted⟩ hfresh hstep
    refine ⟨hvalid.step hstep, ?_⟩
    obtain rfl := hstep
    rcases call_cases store file call with hkept | ⟨s', stored, hchanged, hencode, heq⟩
    · rw [hkept]
      exact hcounted
    · rw [heq]
      exact (hcounted.step hvalid.sound hfresh hchanged).encoded (encode_eq_ok hencode)

/-- What is decided: the receipts, and the fires that are over. -/
structure Decided (s s' : ScheduleState) : Prop where
  operations : ∀ key operation, s.operations.get? key = some operation →
    s'.operations.get? key = some operation
  fires : ∀ key fire, s.fires.get? key = some fire → fire.status ≠ .pending →
    ∃ fire', s'.fires.get? key = some fire' ∧ fire'.status = fire.status

theorem Decided.refl (s : ScheduleState) : Decided s s :=
  ⟨fun _ _ h => h, fun _ fire h _ => ⟨fire, h, rfl⟩⟩

theorem Decided.trans {t u : ScheduleState} (h₁ : Decided s t) (h₂ : Decided t u) :
    Decided s u := by
  refine ⟨fun key operation h => h₂.operations key operation (h₁.operations key operation h),
    fun key fire hfire hover => ?_⟩
  obtain ⟨fire', hfire', hstatus⟩ := h₁.fires key fire hfire hover
  obtain ⟨fire'', hfire'', hstatus'⟩ := h₂.fires key fire' hfire' (hstatus ▸ hover)
  exact ⟨fire'', hfire'', hstatus'.trans hstatus⟩

theorem operations_set (operation : Operation) (hfresh : s.operations.get? key = none)
    (key' : String) (operation' : Operation) (hget : s.operations.get? key' = some operation') :
    (s.operations.set key operation).get? key' = some operation' := by
  rw [Dict.get?_set_of_ne]
  · exact hget
  · rintro rfl
    exact nomatch hfresh.symm.trans hget

theorem fires_set (fire : Fire)
    (hpending : ∀ old, s.fires.get? key = some old → old.status = .pending) (key' : String)
    (fire' : Fire) (hget : s.fires.get? key' = some fire') (hover : fire'.status ≠ .pending) :
    ∃ fire'', (s.fires.set key fire).get? key' = some fire'' ∧ fire''.status = fire'.status := by
  refine ⟨fire', ?_, rfl⟩
  rw [Dict.get?_set_of_ne]
  · exact hget
  · rintro rfl
    exact hover (hpending fire' hget)

/-- **No operation changes what is decided.** -/
theorem Changed.decided {new : Option ScheduledJob} (h : Changed store new s s') :
    Decided s s' := by
  have hfires : ∀ key fire, s.fires.get? key = some fire → fire.status ≠ .pending →
      ∃ fire', s.fires.get? key = some fire' ∧ fire'.status = fire.status :=
    (Decided.refl s).fires
  cases h with
  | kept => exact .refl s
  | refused key operation hfresh hids => exact ⟨operations_set operation hfresh, hfires⟩
  | added key operation job hjob hfresh hnone hroom hkind hids =>
      exact ⟨operations_set operation hfresh, hfires⟩
  | cancelled key operation jobIds jobs hfresh hkind hids hjobs hactive =>
      refine ⟨operations_set operation hfresh, fun key' fire hget hover => ?_⟩
      obtain ⟨fire', hget', rfl⟩ :=
        (Dict.rel_mapValues s.fires fun _ fire => fire.cancel jobIds).get?_left hget
      refine ⟨_, hget', ?_⟩
      rw [Fire.cancel, if_neg fun hboth => hover hboth.2]
  | fired key id job hjob hkey hnew =>
      exact ⟨fun _ _ hget => hget, fires_set _ fun old hold => nomatch hnew.symm.trans hold⟩
  | orphaned key fire delivered error hfire hpending hjob =>
      refine ⟨fun _ _ hget => hget, fires_set _ fun old hold => ?_⟩
      obtain rfl := Option.some.inj (hfire.symm.trans hold)
      exact hpending
  | settled key fire delivered error current job now hfire hpending hcurrent hkey hjob =>
      refine ⟨fun _ _ hget => hget, fires_set _ fun old hold => ?_⟩
      obtain rfl := Option.some.inj (hfire.symm.trans hold)
      exact hpending
  | recovered jobs now hjobs => exact ⟨fun _ _ hget => hget, hfires⟩

theorem Encoded.decided (h : Encoded store s s') : Decided s s' := by
  refine ⟨fun key operation hget => h.operations ▸ hget, fun key fire hget _ => ?_⟩
  obtain ⟨fire', hget', -, rfl⟩ := h.fires.get?_left hget
  exact ⟨_, hget', rfl⟩

/-- **No run changes what is decided.** -/
theorem decided_of_run (h : (jobStore store).RunVia G file file') :
    Decided (file.getD .empty) (file'.getD .empty) := by
  refine System.RunVia.relates (I := fun _ => True)
    (R := fun a b => Decided (a.getD .empty) (b.getD .empty)) (fun _ => .refl _)
    (fun _ _ _ => .trans) (fun _ _ _ _ _ _ => trivial) ?_ h trivial
  rintro file call _ - - rfl
  rcases call_cases store file call with hkept | ⟨s', stored, hchanged, hencode, heq⟩
  · rw [hkept]
    exact .refl _
  · rw [heq]
    exact hchanged.decided.trans (encode_eq_ok hencode).decided

/-! ### Replays -/

/-- What a receipt says about its request. -/
structure Receipt (s : ScheduleState) (key : String) (kind : OperationKind) (digest : String)
    (operation : Operation) : Prop where
  stored : s.operations.get? key = some operation
  kind : operation.kind = kind
  digest : operation.digest = digest

theorem Receipt.previous {kind : OperationKind} {digest : String}
    (h : Receipt s key kind digest operation) :
    s.previous key kind digest = .ok (some operation) := by
  rw [ScheduleState.previous, h.stored]
  dsimp only
  rw [if_neg (not_not.mpr (by rw [h.kind, h.digest]))]

theorem receipt_add {response : String} {job : ScheduledJob}
    (h : store.addUpdate key job response s = .ok (operation, s')) :
    Receipt s' key .schedule (store.platform.digest (encodeJob job)) operation := by
  rw [JobStore.addUpdate] at h
  obtain ⟨previous, hprevious, h⟩ := bind_eq_ok.mp h
  obtain ⟨hget, hsame⟩ := previous_eq_ok hprevious
  cases previous with
  | some previous =>
      obtain ⟨rfl, rfl⟩ := Prod.mk.inj (Except.ok.inj h)
      obtain ⟨hkind, hdigest⟩ := hsame _ rfl
      exact ⟨hget, hkind, hdigest⟩
  | none =>
      dsimp only at h
      split at h
      · cases h
      · split at h
        all_goals
          obtain ⟨rfl, rfl⟩ := record_eq_ok h
          exact ⟨Dict.get?_set_self _ _ _, rfl, rfl⟩

theorem receipt_cancel (h : store.cancelUpdate key jobIds s = .ok (operation, s')) :
    Receipt s' key .cancel (store.platform.digest (.arr (jobIds.map .str))) operation := by
  rw [JobStore.cancelUpdate] at h
  obtain ⟨previous, hprevious, h⟩ := bind_eq_ok.mp h
  obtain ⟨hget, hsame⟩ := previous_eq_ok hprevious
  cases previous with
  | some previous =>
      obtain ⟨rfl, rfl⟩ := Prod.mk.inj (Except.ok.inj h)
      obtain ⟨hkind, hdigest⟩ := hsame _ rfl
      exact ⟨hget, hkind, hdigest⟩
  | none =>
      obtain ⟨jobs, -, h⟩ := bind_eq_ok.mp h
      obtain ⟨rfl, rfl⟩ := record_eq_ok h
      exact ⟨Dict.get?_set_self _ _ _, rfl, rfl⟩

/-- **A replay**: a change that left a receipt is answered by it after any run. -/
theorem replay {f f' : Change Operation} {kind : OperationKind} {digest : String}
    (hleft : ∀ s s' operation, f s = .ok (operation, s') → Receipt s' key kind digest operation)
    (hreplay : ∀ s operation, Receipt s key kind digest operation → f' s = .ok (operation, s))
    {file₁ file₂ : Option ScheduleState} (h : store.change f file = (.ok operation, file₁))
    (hvalid : Valid store file₂) (hrun : (jobStore store).RunVia G file₁ file₂) :
    store.change f' file₂ = (.ok operation, file₂) := by
  obtain ⟨s', stored, hf, hencode, rfl⟩ := change_eq_ok h
  have hreceipt := hleft _ _ _ hf
  have hget : stored.operations.get? key = some operation := by
    rw [(encode_eq_ok hencode).operations]
    exact hreceipt.stored
  have hget₂ := (decided_of_run hrun).operations key operation hget
  cases file₂ with
  | none => cases hget₂
  | some s₂ =>
      have hcommit : store.commit f' (some s₂) = .ok (operation, s₂) :=
        bind_eq_ok.mpr ⟨s₂, hvalid.encode s₂ rfl, bind_eq_ok.mpr
          ⟨(operation, s₂), hreplay s₂ operation ⟨hget₂, hreceipt.kind, hreceipt.digest⟩,
            bind_eq_ok.mpr ⟨s₂, hvalid.encode s₂ rfl, rfl⟩⟩⟩
      rw [JobStore.change, hcommit]

theorem replay_add {job : ScheduledJob} (response : String)
    (h : Receipt s key .schedule (store.platform.digest (encodeJob job)) operation) :
    store.addUpdate key job response s = .ok (operation, s) :=
  bind_eq_ok.mpr ⟨some operation, h.previous, rfl⟩

theorem replay_cancel
    (h : Receipt s key .cancel (store.platform.digest (.arr (jobIds.map .str))) operation) :
    store.cancelUpdate key jobIds s = .ok (operation, s) :=
  bind_eq_ok.mpr ⟨some operation, h.previous, rfl⟩

/-- **A cancellation that is no replay** leaves no job and no pending fire behind. -/
theorem cancelled_jobs (h : store.cancel key jobIds file = (.ok operation, file'))
    (hnew : (file.getD .empty).operations.get? key = none) :
    ∀ id ∈ jobIds, (file'.getD .empty).jobs.get? id = none ∧
      ∀ key' fire, (file'.getD .empty).fires.get? key' = some fire → fire.job.id = id →
        fire.status ≠ .pending := by
  obtain ⟨s', stored, hf, hencode, rfl⟩ := change_eq_ok h
  have hencoded := encode_eq_ok hencode
  rw [JobStore.cancelUpdate] at hf
  obtain ⟨previous, hprevious, hf⟩ := bind_eq_ok.mp hf
  obtain ⟨hget, -⟩ := previous_eq_ok hprevious
  obtain rfl := hget.symm.trans hnew
  obtain ⟨jobs, hjobs, hf⟩ := bind_eq_ok.mp hf
  obtain ⟨-, rfl⟩ := record_eq_ok hf
  intro id hid
  constructor
  · rcases hencoded.jobs.get? id with ⟨-, hnone⟩ | ⟨job, _, hjob, -, -⟩
    · exact hnone
    · rw [(deleteAll_eq_ok hjobs).1] at hjob
      obtain ⟨-, ⟨⟩⟩ | ⟨hnot, hjob⟩ := ite_eq_iff.mp hjob
      exact absurd (List.mem_filter.mpr ⟨hid, by rw [hjob]; rfl⟩) hnot
  · intro key' fire hfire hjob hpending
    obtain ⟨cancelled, hcancelled, -, rfl⟩ := hencoded.fires.get?_right hfire
    obtain ⟨old, -, rfl⟩ := (Dict.rel_mapValues _ _).get?_right hcancelled
    obtain ⟨-, hnot⟩ := cancel_pending hpending
    change (old.cancel jobIds).job.id = id at hjob
    rw [cancel_job] at hjob
    exact hnot (hjob ▸ hid)

/-- **The job store over whole runs.** Whatever the calls are given: at most `max_active`
jobs are enabled; a pending fire stands under the key of the present time of its job, so
each job has at most one; a job and a time have at most one fire; a fire that is over
stays what it is; a replayed operation returns its first receipt and changes nothing; and
a cancellation leaves no job and no pending fire. When every job is new and has not run as
it is added, then also: its count is the number of its delivered fires; a job that does
not repeat fires at most once; and a job whose cancellation has a receipt stays away
without a pending fire. -/
theorem jobStore_runs (store : JobStore) :
    (∀ file, (jobStore store).Reachable file →
      (file.getD .empty).active ≤ store.maxActive ∧
      (∀ key fire, (file.getD .empty).fires.get? key = some fire → fire.status = .pending →
        ∃ job, (file.getD .empty).jobs.get? fire.job.id = some job ∧
          store.platform.fireKey job = .ok key) ∧
      (∀ key fire key' fire', (file.getD .empty).fires.get? key = some fire →
        (file.getD .empty).fires.get? key' = some fire' → fire.job.id = fire'.job.id →
        (fire.status = .pending ∧ fire'.status = .pending ∨
          fire.job.fireAt.utc = fire'.job.fireAt.utc) → key = key') ∧
      (∀ file', (jobStore store).Run file file' →
        ∀ key fire, (file.getD .empty).fires.get? key = some fire → fire.status ≠ .pending →
          ∃ fire', (file'.getD .empty).fires.get? key = some fire' ∧
            fire'.status = fire.status) ∧
      (∀ key job response operation file₁, store.add key job response file
          = (.ok operation, file₁) → ∀ file₂, (jobStore store).Run file₁ file₂ →
        ∀ response', store.add key job response' file₂ = (.ok operation, file₂)) ∧
      (∀ key jobIds operation file₁, store.cancel key jobIds file = (.ok operation, file₁) →
        (∀ file₂, (jobStore store).Run file₁ file₂ →
          store.cancel key jobIds file₂ = (.ok operation, file₂)) ∧
        ((file.getD .empty).operations.get? key = none →
          ∀ id ∈ jobIds, (file₁.getD .empty).jobs.get? id = none ∧
            ∀ key' fire, (file₁.getD .empty).fires.get? key' = some fire →
              fire.job.id = id → fire.status ≠ .pending))) ∧
    (∀ file, (jobStore store).ReachableVia Fresh file →
      (∀ id job, (file.getD .empty).jobs.get? id = some job →
        job.runCount = (file.getD .empty).deliveries id) ∧
      (∀ key fire key' fire', (file.getD .empty).fires.get? key = some fire →
        (file.getD .empty).fires.get? key' = some fire' → fire.job.id = fire'.job.id →
        fire.job.trigger ≠ "every" → key = key') ∧
      (∀ key operation, (file.getD .empty).operations.get? key = some operation →
        operation.kind = .cancel → ∀ id ∈ operation.jobIds,
          (file.getD .empty).jobs.get? id = none ∧
          ∀ key' fire, (file.getD .empty).fires.get? key' = some fire → fire.job.id = id →
            fire.status ≠ .pending)) := by
  constructor
  · intro file h
    have hsound := (valid_of_reachable h).sound
    have hstep : ∀ {α : Type} {f : Change α} {a : α} {file₁ : Option ScheduleState}
        (call : StoreCall), store.call file call = (store.change f file).2 →
        store.change f file = (.ok a, file₁) → (jobStore store).Reachable file₁ := by
      intro α f a file₁ call hcall hrun
      refine h.step trivial (e := call) ?_
      change file₁ = store.call file call
      rw [hcall, hrun]
    refine ⟨hsound.active, hsound.pending, ?_, fun file' hrun => (decided_of_run hrun).fires,
      fun key job response operation file₁ hadd file₂ hrun response' => ?_,
      fun key jobIds operation file₁ hcancel => ⟨fun file₂ hrun => ?_, cancelled_jobs hcancel⟩⟩
    · rintro key fire key' fire' hfire hfire' hid (⟨hpending, hpending'⟩ | hutc)
      · obtain ⟨job, hjob, hkey⟩ := hsound.pending key fire hfire hpending
        obtain ⟨job', hjob', hkey'⟩ := hsound.pending key' fire' hfire' hpending'
        rw [hid, hjob'] at hjob
        obtain rfl := Option.some.inj hjob
        exact Except.ok.inj (hkey.symm.trans hkey')
      · have hsame := fireKey_congr store.platform hid hutc
        rw [hsound.fireKey key fire hfire, hsound.fireKey key' fire' hfire'] at hsame
        exact Except.ok.inj hsame
    · have hvalid := valid_of_reachable ((hstep (.add key job response) rfl hadd).run hrun)
      exact replay (fun _ _ _ => receipt_add) (fun _ _ => replay_add response') hadd hvalid hrun
    · have hvalid := valid_of_reachable ((hstep (.cancel key jobIds) rfl hcancel).run hrun)
      exact replay (fun _ _ _ => receipt_cancel) (fun _ _ => replay_cancel) hcancel hvalid hrun
  · intro file h
    have hsound := (valid_of_reachable h).sound
    have hcounted := counted_of_reachable h
    refine ⟨hcounted.runCount, hcounted.once, fun key operation hget hkind id hid => ?_⟩
    obtain ⟨-, hnone⟩ := hcounted.cancelled key operation hget hkind id hid
    refine ⟨hnone, fun key' fire hfire hjob hpending => ?_⟩
    obtain ⟨job, hsome, -⟩ := hsound.pending key' fire hfire hpending
    rw [hjob, hnone] at hsome
    cases hsome

end Runs

/-- A platform for examples. -/
def examplePlatform : Platform where
  sha256 := fun _ => String.ofList (List.replicate 64 '0')
  knownZone := fun _ => true
  cronFireTime := fun _ _ _ _ => .ok none

/-- A store for examples. -/
def exampleStore : JobStore :=
  ⟨examplePlatform, "schedules.json", 10⟩

/-- A job for one time that has run before it is added. -/
def ranJob : ScheduledJob where
  trigger := "at"
  action := "notify"
  fireAt := ⟨63902908800000000, some 0⟩
  channel := "cli"
  chatId := "chat"
  sessionId := "session"
  text := "text"
  intervalSeconds := none
  cronExpr := none
  context := "none"
  name := none
  timezone := "UTC"
  createdAt := ⟨63902908800000000, some 0⟩
  runCount := 1
  enabled := true
  id := "job"

/-- **Whatever the calls are given, counts can be wrong**: a job that is added with a count
keeps it. -/
theorem jobStore_ranJob : ¬ ∀ store file, (jobStore store).Reachable file →
    ∀ id job, (file.getD .empty).jobs.get? id = some job →
      job.runCount = (file.getD .empty).deliveries id := by
  intro hcount
  have hreach : (jobStore exampleStore).Reachable
      (exampleStore.call none (.add "operation" ranJob "added")) :=
    (System.ReachableVia.init rfl).step trivial rfl
  have hjob : ((exampleStore.call none (.add "operation" ranJob "added")).getD .empty).jobs.get?
      "job" = some ranJob := rfl
  have hcounted := hcount exampleStore _ hreach "job" ranJob hjob
  exact absurd hcounted (by decide)

end Kirakira.Scheduler
