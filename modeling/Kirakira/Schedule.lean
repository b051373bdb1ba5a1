import Kirakira.Lib.Dict
import Kirakira.Lib.Exceptions
import Kirakira.Text
import Kirakira.Times

/-!
# Scheduled Jobs

The job, the fire and the operation of `plugins/scheduler`, their validation, and the
times they fire at. The tree of a JSON file is represented by the values it encodes;
decoding what was encoded changes one thing, that a naive time comes back as UTC.

What lies outside the repository is a `Platform`: the digest of `hashlib`, the time zones
of the machine, and the cron triggers of `apscheduler`.
-/

namespace Kirakira.Scheduler

open Exceptions

/-! ### Values -/

/-- What the scheduler takes from its platform: `sha256(text).hexdigest()`, whether
`ZoneInfo` knows a name, and `get_next_fire_time` of the cron trigger of some fields in a
time zone, after an earlier fire time, at or after a time. -/
structure Platform where
  sha256 : String → String
  knownZone : String → Bool
  cronFireTime : List String → String → Option Datetime → ℤ → Except PyError (Option Datetime)

/-- `ScheduledJob`. -/
structure ScheduledJob where
  trigger : String
  action : String
  fireAt : Datetime
  channel : String
  chatId : String
  sessionId : String
  text : String
  intervalSeconds : Option ℤ
  cronExpr : Option String
  context : String
  name : Option String
  timezone : String
  createdAt : Datetime
  runCount : ℤ
  enabled : Bool
  id : String
  deriving DecidableEq

/-- `FireStatus`. -/
inductive FireStatus where
  | pending
  | delivered
  | failed
  | cancelled
  deriving DecidableEq, Repr

/-- `Fire`. -/
structure Fire where
  job : ScheduledJob
  status : FireStatus
  error : Option String
  deriving DecidableEq

/-- `Operation.kind`. -/
inductive OperationKind where
  | schedule
  | cancel
  deriving DecidableEq, Repr

/-- `Operation`; `succeeded` is the outcome `"success"`. -/
structure Operation where
  kind : OperationKind
  digest : String
  jobIds : List String
  succeeded : Bool
  response : String
  deriving DecidableEq

/-- `ScheduleState`. -/
structure ScheduleState where
  jobs : Dict String ScheduledJob
  operations : Dict String Operation
  fires : Dict String Fire

/-- The state a missing file stands for. -/
def ScheduleState.empty : ScheduleState :=
  ⟨.empty, .empty, .empty⟩

/-! ### Digests -/

/-- `_digest`. -/
def Platform.digest (p : Platform) (value : Json) : String :=
  p.sha256 value.sortKeys.dumps

/-- A text or `None`. -/
def textOrNull : Option String → Json
  | none => .null
  | some text => .str text

/-- `encode_job`. -/
def encodeJob (job : ScheduledJob) : Json :=
  .obj [("trigger", .str job.trigger), ("action", .str job.action),
    ("fire_at", .str job.fireAt.isoformat), ("channel", .str job.channel),
    ("chat_id", .str job.chatId), ("session_id", .str job.sessionId), ("text", .str job.text),
    ("interval_seconds", job.intervalSeconds.elim .null .int),
    ("cron_expr", textOrNull job.cronExpr), ("context", .str job.context),
    ("name", textOrNull job.name), ("timezone", .str job.timezone),
    ("created_at", .str job.createdAt.isoformat), ("run_count", .int job.runCount),
    ("enabled", .bool job.enabled), ("id", .str job.id)]

/-- `aware`. -/
def aware (value : Datetime) : Except PyError ℤ :=
  utcTime value.utc

/-- `fire_key`. -/
def Platform.fireKey (p : Platform) (job : ScheduledJob) : Except PyError String := do
  let fireAt ← aware job.fireAt
  return p.digest (.arr [.str job.id, .str (Datetime.mk fireAt (some 0)).isoformat])

/-! ### Firing times -/

/-- Whether a time that must be aware is at most another. -/
def noLater (value : Datetime) (after : ℤ) : Except PyError Bool :=
  if value.offset = none then typeError "can't compare offset-naive and offset-aware datetimes"
  else .ok (decide (value.utc ≤ after))

/-- `next_cron_fire`. -/
def Platform.nextCronFire (p : Platform) (cronExpr timezone : String) (after : ℤ) :
    Except PyError Datetime := do
  let parts := words cronExpr
  let invalid := valueError s!"无效的 cron 表达式: {cronExpr}"
  if parts.length ≠ 5 ∧ parts.length ≠ 6 then invalid
  else match ← p.cronFireTime parts timezone none after with
    | none => invalid
    | some first =>
        if ← noLater first after then
          match ← p.cronFireTime parts timezone (some first) after with
          | none => invalid
          | some second => return second
        else return first

/-- `advance`. -/
def Platform.advance (p : Platform) (job : ScheduledJob) (after : ℤ) :
    Except PyError Datetime := do
  match job.cronExpr.filter fun expr => expr ≠ "" with
  | some expr => p.nextCronFire expr job.timezone after
  | none =>
      match job.intervalSeconds with
      | none => .error ⟨.assertionError, ""⟩
      | some seconds =>
          let interval := seconds * 1000000
          let start ← aware job.fireAt
          let next ← utcTime (start + (max 0 ((after - start) / interval) + 1) * interval)
          return ⟨next, some 0⟩

/-! ### Validation -/

/-- `JobStore`. -/
structure JobStore where
  platform : Platform
  path : String
  maxActive : ℕ

/-- `_schema_error`. -/
def JobStore.schemaError {α : Type} (store : JobStore) (index : ℕ) (detail : String) :
    Except PyError α :=
  valueError s!"job_store 任务 schema 无效：path={store.path} index={index} {detail}"

/-- A check of a job: the exception is raised unless the condition holds. -/
def JobStore.require (store : JobStore) (index : ℕ) (condition : Bool) (detail : String) :
    Except PyError Unit :=
  if condition then .ok () else store.schemaError index detail

/-- `_validate_job_identity`. -/
def JobStore.validateJobIdentity (store : JobStore) (job : ScheduledJob) (index : ℕ) :
    Except PyError Unit := do
  store.require index (["at", "after", "every"].contains job.trigger) "trigger 无效"
  store.require index (["notify", "run"].contains job.action) "action 无效"
  store.require index (["none", "session"].contains job.context) "context 无效"
  store.require index (job.id ≠ "") "id 无效"
  store.require index (job.channel ≠ "") "channel 无效"
  store.require index (job.chatId ≠ "") "chat_id 无效"
  store.require index (job.sessionId ≠ "") "session_id 无效"
  store.require index (job.timezone ≠ "") "timezone 无效"
  store.require index (store.platform.knownZone job.timezone)
    s!"timezone 无效 timezone='{job.timezone}'"

/-- `_validate_job_payload`. -/
def JobStore.validateJobPayload (store : JobStore) (job : ScheduledJob) (index : ℕ) :
    Except PyError Unit := do
  store.require index (strip job.text ≠ "") "任务缺少 text"
  store.require index (0 ≤ job.runCount) "run_count 无效"

/-- `is_cron_expr`. -/
def isCronExpr (text : String) : Bool :=
  (words text).length = 5 || (words text).length = 6

/-- `_validate_job_schedule`. -/
def JobStore.validateJobSchedule (store : JobStore) (job : ScheduledJob) (index : ℕ) :
    Except PyError Unit :=
  if job.trigger = "every" then do
    store.require index (job.intervalSeconds.isNone ≠ job.cronExpr.isNone)
      "every 任务必须且只能有一种周期"
    store.require index (job.intervalSeconds.all fun seconds => 0 < seconds)
      "interval_seconds 无效"
    store.require index (job.cronExpr.all isCronExpr) "cron_expr 无效"
  else
    store.require index (job.intervalSeconds.isNone && job.cronExpr.isNone)
      "非 every 任务不能带周期字段"

/-- `_validate_job`. -/
def JobStore.validateJob (store : JobStore) (job : ScheduledJob) (index : ℕ) :
    Except PyError Unit := do
  store.validateJobIdentity job index
  store.validateJobPayload job index
  store.validateJobSchedule job index

/-- A job as it is read back. -/
def ScheduledJob.parsed (job : ScheduledJob) : ScheduledJob :=
  { job with fireAt := job.fireAt.parsed, createdAt := job.createdAt.parsed }

/-- `decode_job` of `encode_job`. -/
def JobStore.decodeJob (store : JobStore) (job : ScheduledJob) (index : ℕ) :
    Except PyError ScheduledJob := do
  store.validateJob job.parsed index
  return job.parsed

/-- The checks of the fields and the validator of `Operation`. -/
def Operation.validate (operation : Operation) : Except PyError Unit :=
  if isDigest operation.digest = false then valueError "digest"
  else if operation.response = "" then valueError "response"
  else if operation.jobIds.contains "" ∨ ¬ operation.jobIds.Nodup then
    valueError "调度回执任务 ID 必须非空且唯一"
  else if operation.kind = .schedule ∧
      operation.jobIds.length ≠ (if operation.succeeded then 1 else 0) then
    valueError "新增调度回执与任务数量不一致"
  else .ok ()

/-- The check of the status of a fire and its error. -/
def Fire.consistent (fire : Fire) : Bool :=
  match fire.status with
  | .pending | .delivered => fire.error.isNone
  | .failed | .cancelled => fire.error.any fun error => error ≠ ""

/-- The decoding of one fire. -/
def JobStore.decodeFire (store : JobStore) (key : String) (fire : Fire) (index : ℕ) :
    Except PyError Fire := do
  let job ← store.decodeJob fire.job index
  if fire.consistent = false then
    valueError s!"job_store 触发状态无效：path={store.path} key={key}"
  else
    let fireKey ← store.platform.fireKey job
    if key ≠ fireKey then
      valueError s!"job_store 触发身份不一致：path={store.path} key={key}"
    else return { fire with job := job }

/-- The decoding of one operation. -/
def JobStore.decodeOperation (store : JobStore) (key : String) (operation : Operation) :
    Except PyError Operation := do
  if key = "" then valueError s!"job_store 操作 key 无效：path={store.path}"
  else
    operation.validate
    return operation

end Kirakira.Scheduler
