import Kirakira.ToolReceipts

/-!
# Tool Calls as Coroutines

The programs of `plugins/tools/execution.py` and `plugins/tools/abandon.py` that run on one
effect key: the two protocols of an execution, the settlement of an abandoned call, and the
callers that wait for a result. Each is a coroutine over the store of the key. What it awaits
and does not own — the tool, the authorization, the gate in front of its commit — may return
anything or raise anything, and every operation may raise, which covers a cancellation at any
await. A transaction that raises was rolled back, or it was committed and only its
confirmation was lost.

A transaction, a read and a piece of code between two awaits are atomic here at most where
they are so in the source; that a read and the code after it are one step of the event loop is
not used.

## Main results

* `toolCalls` — the machine: executions, callers and settlements of one key, admitted one
  execution at a time, with restarts of the process.
-/

namespace Kirakira

namespace Tools

/-! ### Operations -/

/-- A call of one binding: what `_execute` gets, with the identity of its result message for
the call of a message. -/
structure Request where
  binding : String
  arguments : FrozenJson
  reply : Option String
  deriving DecidableEq

/-- An opened tool. -/
structure Tool where
  idempotent : Bool

/-- What the programs await and do not own. -/
inductive Outside : Type → Type where
  | check : Outside Unit
  | callMessage : Outside Unit
  | checkBatch : Outside (Option String)
  | openTool (binding : String) : Outside Tool
  | closeTool : Outside Unit
  | active : Outside Unit
  | prepare (arguments : FrozenJson) : Outside (String ⊕ FrozenJson)
  | authorize (binding : String) (arguments : FrozenJson) : Outside (String ⊕ FrozenJson)
  | checkStart : Outside Unit
  | commitAfter : Outside Unit
  | prepareAppend (messageId : String) (result : Result) : Outside Unit
  | taskDone : Outside Bool
  | joinedFirst : Outside Bool

/-- The operations of the programs. -/
inductive ToolOp : Type → Type 1 where
  | outside {β : Type} (o : Outside β) : ToolOp β
  | look {β : Type} (f : Store → Except Raised β) : ToolOp β
  | transact {β : Type} (f : Store → Except Raised (β × Store)) : ToolOp β
  | start (record : Record) (permission : FrozenJson) : ToolOp Record
  | commit (f : Store → Except Raised (Result × Store)) (notify : Bool) : ToolOp Result
  | publish (result : Result) : ToolOp Unit
  | query : ToolOp (Option Result)
  | invoke (idempotent : Bool) (arguments : FrozenJson) : ToolOp Result
  | processStarted : ToolOp Bool
  | ended (outcome : Except Raised Result) : ToolOp Unit
  | committed (task : ℕ) : ToolOp (Option Result)
  | join (task : ℕ) : ToolOp Result
  | returned (result : Result) : ToolOp Unit

/-- A program of one key. -/
abbrev ToolM := Program ToolOp Raised

/-- One operation. -/
abbrev perform {β : Type} (o : ToolOp β) : ToolM β :=
  Program.perform o

/-- Something the program does not own. -/
abbrev outside {β : Type} (o : Outside β) : ToolM β :=
  perform (.outside o)

/-- A read of the store. -/
abbrev look {β : Type} (f : Store → Except Raised β) : ToolM β :=
  perform (.look f)

/-- `raise`. -/
abbrev raise {β : Type} (e : Raised) : ToolM β :=
  Program.raise e

/-- The outcome of a program, with its exception as a value. -/
def attempt {β : Type} (p : ToolM β) : ToolM (Except Raised β) :=
  (p >>= fun b => pure (.ok b)).catching fun e => pure (.error e)

/-- `async with self._open_tool(binding_id) as tool`. -/
def withTool {β : Type} (binding : String) (body : Tool → ToolM β) : ToolM β := do
  let tool ← outside (.openTool binding)
  let outcome ← attempt (body tool)
  outside .closeTool
  Program.ofExcept outcome

/-- `_invocation_failure`. -/
def invocationFailure (failure : Raised) : Result :=
  match failure with
  | .cancelled => textResult .interrupted "工具调用取消，已执行的效果不会撤销。"
  | failure => textResult .error ("工具执行失败: " ++ failure.name ++ "；已执行的效果不会撤销。")

/-- `reply.check`, where there is a reply. -/
def checkReply (reply : Option String) : ToolM Unit :=
  if reply.isSome then outside .check else pure ()

/-- `_check_batch`, where there is a reply. -/
def checkBatch (reply : Option String) : ToolM (Option String) :=
  if reply.isSome then outside .checkBatch else pure none

/-- `reply.writer.prepare_async`, where there is a reply. -/
def prepareReply (reply : Option String) (result : Result) : ToolM Unit :=
  match reply with
  | none => pure ()
  | some messageId => outside (.prepareAppend messageId result)

/-- `on_commit`, where there is one. -/
def publish (notify : Bool) (result : Result) : ToolM Unit :=
  if notify then perform (.publish result) else pure ()

/-- `finish`: the result and the receipt in one transaction. A conflict while it is prepared or
committed adopts the result of a receipt that is done. -/
def finish (value : Receipt) (result : Result) (reply : Option String) (notify : Bool) :
    ToolM Result :=
  Program.catching
    (do
      prepareReply reply result
      perform (.commit (fun store => store.finish value result reply) notify))
    fun
      | .conflict text =>
          if reply.isNone then raise (.conflict text)
          else do
            let previous ← look fun store => store.completed value reply
            match previous with
            | none => raise (.conflict text)
            | some previous => do
                publish notify previous
                return previous
      | e => raise e

section Receipts

variable (fingerprint : Request → String)

/-- The receipt of a request. -/
def initial (request : Request) : Receipt where
  request := fingerprint request
  binding := request.binding
  replyId := request.reply
  phase := .requested
  arguments := request.arguments
  permission := none
  result := none

/-! ### The receipt protocol -/

/-- `commit` of `_run`: once the predecessors have committed, finish the receipt. -/
def commit (request : Request) (record : Option Record) (result : Result) : ToolM Result := do
  outside .commitAfter
  finish ((record.map Record.value).getD (initial fingerprint request)) result request.reply true

/-- The result of an invocation that raised is committed before it is raised again. -/
def settleFailure (request : Request) (record : Record) (failure : Raised) : ToolM Result := do
  let outcome ← attempt (commit fingerprint request (some record) (invocationFailure failure))
  match outcome with
  | .error .cancelled => raise .cancelled
  | _ => raise failure

/-- The outcome of a call that is refused. -/
def refused (record : Record) : Outcome :=
  if record.value.phase = .started then .interrupted else .denied

/-- From the authorization on: the start intent is committed before the tool is entered. -/
def launch (request : Request) (tool : Tool) (record : Record) : ToolM Result := do
  let permission ← (outside (.authorize request.binding record.value.arguments)).catching fun
    | .denied text => pure (.inl text)
    | e => raise e
  match permission with
  | .inl text => commit fingerprint request (some record) (textResult (refused record) text)
  | .inr permission => do
      outside .active
      checkReply request.reply
      let begun ← (do
        let current ← perform (.start record permission)
        return Sum.inr current).catching fun
          | .denied text => pure (.inl text)
          | e => raise e
      match begun with
      | .inl text => commit fingerprint request (some record) (textResult (refused record) text)
      | .inr current => do
          let result ← (perform (.invoke tool.idempotent record.value.arguments)).catching
            (settleFailure fingerprint request current)
          commit fingerprint request (some current) result

/-- From the prepared receipt on: a call that was started is queried first, and only an
idempotent tool may be entered again. -/
def proceed (request : Request) (tool : Tool) (record : Record) : ToolM Result :=
  if record.value.phase = .started then do
    let found ← perform .query
    match found with
    | some found => commit fingerprint request (some record) found
    | none =>
        if tool.idempotent = false then
          commit fingerprint request (some record) (textResult .error
            "原工具调用中断且没有可查询结果；先检查当前状态，不要直接重复执行原操作。")
        else launch fingerprint request tool record
  else launch fingerprint request tool record

/-- The final arguments of a request are prepared and saved. -/
def prepareRequested (request : Request) (record : Option Record) : ToolM (Result ⊕ Record) := do
  let final ← (outside (.prepare request.arguments)).catching fun
    | .invalidArguments text => pure (.inl text)
    | e => raise e
  match final with
  | .inl text => return .inl (textResult .error text)
  | .inr final =>
      if isMapping final.json = false then
        raise (.failed "TypeError" "工具 prepare 必须返回参数对象")
      else do
        outside .active
        let saved ← perform (.transact fun store => store.save
          { initial fingerprint request with phase := .prepared, arguments := final }
          (record.map Record.version))
        return .inr saved

/-- The receipt with its final arguments, which are prepared once. -/
def prepareRecord (request : Request) (record : Option Record) : ToolM (Result ⊕ Record) :=
  match record with
  | none => prepareRequested fingerprint request none
  | some record =>
      if record.value.phase = .requested then prepareRequested fingerprint request (some record)
      else return .inr record

/-- The body of `_run` behind its first read. -/
def runBody (request : Request) (record : Option Record) : ToolM Result := do
  checkReply request.reply
  if record.isNone ∧ request.reply.isNone then
    raise (.failed "RuntimeError" "独立工具调用缺少 requested 回执")
  else do
    let refusal ← checkBatch request.reply
    match refusal with
    | some text => commit fingerprint request record (textResult .denied text)
    | none => withTool request.binding fun tool => do
        outside .active
        let ready ← prepareRecord fingerprint request record
        match ready with
        | .inl result => commit fingerprint request record result
        | .inr record => proceed fingerprint request tool record

/-- The handlers of `_run`: a conflict adopts a result that is there, a cancellation settles
a start intent. -/
def recover (request : Request) : Raised → ToolM Result
  | .conflict text => do
      let current ← look fun store => store.record (fingerprint request)
      match current with
      | none => raise (.conflict text)
      | some current =>
          if current.value.phase ≠ .done then raise (.conflict text)
          else look fun store => store.resultOf request.reply current.value.result
  | .cancelled => do
      let _ ← attempt (do
        let current ← look fun store => .ok store.receipt
        match current with
        | none => raise .cancelled
        | some current =>
            if current.value.phase ≠ .started then raise .cancelled
            else
              commit fingerprint request (some current)
                (textResult .interrupted "原工具调用在恢复时取消；已执行的效果不会撤销。"))
      raise .cancelled
  | e => raise e

/-- `_run`: a receipt that is done answers at once. -/
def run (request : Request) : ToolM Result := do
  let record ← look fun store => store.record (fingerprint request)
  match record with
  | some current =>
      if current.value.phase = .done then
        look fun store => store.resultOf request.reply current.value.result
      else (runBody fingerprint request (some current)).catching (recover fingerprint request)
  | none => (runBody fingerprint request none).catching (recover fingerprint request)

/-- `ensure_requested` of the admission. -/
def ensureRequested (request : Request) : ToolM Unit := do
  let record ← look fun store => store.record (fingerprint request)
  match record with
  | some _ => pure ()
  | none => do
      checkReply request.reply
      let _ ← perform (.transact fun store => store.save (initial fingerprint request) none)

/-! ### Abandoned calls -/

/-- The result of an abandoned call. -/
def abandonedResult (mayHaveStarted : Bool) : Result :=
  if mayHaveStarted then
    textResult .interrupted
      "用户已放弃此工作；工具可能已部分执行。请先检查当前状态，再决定是否重试。"
  else textResult .denied "用户已放弃此工作，工具未启动。"

/-- The settlement of an abandoned call whose receipt names this result identity. -/
def abandonRecord (call : Request) (current : Record) (identity : String) : ToolM Result :=
  if current.value.request ≠ fingerprint { call with reply := some identity } then
    raise (.value "放弃的工具回执与原请求不一致")
  else if current.value.phase = .done then
    look fun store => store.readReply identity current.value.result
  else finish current.value (abandonedResult (current.value.phase = .started)) (some identity) false

/-- `abandon_call`, for the call of a message whose result has this identity unless its
receipt names another one. -/
def abandonCall (call : Request) (messageId : String) : ToolM Result := do
  outside .check
  let record ← look fun store => .ok store.receipt
  match record with
  | none => do
      let answered ← look fun store => .ok (store.answer.map Answer.result)
      match answered with
      | some result => return result
      | none =>
          finish (initial fingerprint { call with reply := some messageId })
            (abandonedResult true) (some messageId) false
  | some current =>
      match current.value.replyId with
      | none => raise (.value "消息工具回执缺少结果身份")
      | some identity => abandonRecord fingerprint call current identity

/-! ### Callers of the receipt protocol -/

/-- The owner of a task waits for the commit, or for the end of the task. -/
def waitOwner (task : ℕ) : ToolM Result := do
  let result ← perform (.committed task)
  match result with
  | none => perform (.join task)
  | some result => do
      let done ← outside .taskDone
      if result.outcome = .error ∨ done = true then perform (.join task) else return result

/-- `recorded` of `_wait_result`, at the moment the receipt is seen to be done. -/
def recorded (request : Request) : ToolM Result := do
  outside .callMessage
  let record ← look fun store => store.record (fingerprint request)
  match record with
  | none => raise (.failed "RuntimeError" "工具结果订阅提前结束")
  | some record =>
      if record.value.phase = .done then
        look fun store => store.resultOf request.reply record.value.result
      else raise (.failed "RuntimeError" "工具结果订阅提前结束")

/-- A caller that found a task of somebody else waits for its end, or for the receipt. -/
def waitRecord (request : Request) (task : ℕ) : ToolM Result := do
  let joined ← outside .joinedFirst
  if joined = true then do
    let outcome ← attempt (perform (.join task))
    match outcome with
    | .ok _ | .error .cancelled => do
        let record ← look fun store => store.record (fingerprint request)
        match record with
        | none => Program.ofExcept outcome
        | some record =>
            if record.value.phase = .done then
              look fun store => store.resultOf request.reply record.value.result
            else Program.ofExcept outcome
    | .error e => raise e
  else do
    let result ← recorded fingerprint request
    if result.outcome = .error then perform (.join task) else return result

/-- The check `_execute` makes before it returns. -/
def checked (request : Request) (wait : ToolM Result) : ToolM Result := do
  let result ← wait
  let record ← look fun store => .ok store.receipt
  match record with
  | none => raise differentRequest
  | some record =>
      if record.value.request ≠ fingerprint request then raise differentRequest else return result

end Receipts

/-! ### The message protocol -/

/-- `commit_message`. -/
def commitMessage (messageId : String) (result : Result) : ToolM Result :=
  Program.catching
    (do
      outside (.prepareAppend messageId result)
      perform (.commit (fun store => store.commitMessage messageId result) true))
    fun
      | .conflict text => do
          let previous ← look fun store => store.existingResult messageId
          match previous with
          | none => raise (.conflict text)
          | some previous => do
              perform (.publish previous)
              return previous
      | e => raise e

/-- `commit` of `_run_message`. -/
def commitAnswer (messageId : String) (result : Result) : ToolM Result := do
  outside .commitAfter
  commitMessage messageId result

/-- `_invoke_message`: what the tool raises is wrapped with the result to commit. -/
def invokeMessage (call : Request) : ToolM Result :=
  withTool call.binding fun tool => do
    outside .active
    let final ← (outside (.prepare call.arguments)).catching fun
      | .invalidArguments text => pure (.inl text)
      | e => raise e
    match final with
    | .inl text => return textResult .error text
    | .inr final =>
        if isMapping final.json = false then
          raise (.failed "TypeError" "工具 prepare 必须返回参数对象")
        else do
          let permission ← (outside (.authorize call.binding final)).catching fun
            | .denied text => pure (.inl text)
            | e => raise e
          match permission with
          | .inl text => return textResult .denied text
          | .inr _ => do
              outside .active
              outside .check
              let refusal ← (do
                outside .checkStart
                return none).catching fun
                  | .denied text => pure (some text)
                  | e => raise e
              match refusal with
              | some text => return textResult .denied text
              | none =>
                  (perform (.invoke tool.idempotent final)).catching fun failure =>
                    raise (.invocation (invocationFailure failure) failure)

/-- The text of a call whose outcome an earlier process took along. -/
def unknownOutcome : String :=
  "工具调用在进程重启前已发出，结果未知。只读操作可以重新执行；" ++
    "可能有副作用的操作先检查当前状态，不要直接重复。"

/-- `_settle_message`. -/
def settleMessage (call : Request) (messageId : String) : ToolM Result := do
  let existing ← look fun store => store.existingResult messageId
  match existing with
  | some existing => return existing
  | none => do
      outside .callMessage
      outside .check
      let refusal ← outside .checkBatch
      match refusal with
      | some text => commitAnswer messageId (textResult .denied text)
      | none => do
          let recordedBefore ← perform .processStarted
          if recordedBefore = true then
            commitAnswer messageId (textResult .error unknownOutcome)
          else
            Program.catching
              (do
                let result ← invokeMessage call
                commitAnswer messageId result)
              fun
                | .invocation result original => do
                    let outcome ← attempt (commitAnswer messageId result)
                    match outcome with
                    | .error .cancelled => raise .cancelled
                    | _ => raise original
                | e => raise e

/-- `_run_message`. -/
def runMessage (call : Request) (messageId : String) : ToolM Result :=
  (settleMessage call messageId).catching fun
    | .conflict text => do
        let existing ← look fun store => store.existingResult messageId
        match existing with
        | none => raise (.conflict text)
        | some existing => return existing
    | e => raise e

/-! ### The machine -/

/-- What the programs of one key share: the store, what this process knows, and what has
happened so far. -/
structure World where
  store : Store
  /-- The call was recorded before this process started. -/
  recordedBefore : Bool
  /-- The task that holds the slot of the key. -/
  slot : Option ℕ
  /-- How the tasks of this process ended. -/
  outcomes : List (ℕ × Except Raised Result)
  /-- The results that tasks of this process handed to their owners at their commit. -/
  published : List (ℕ × Result)
  /-- The task whose start intent was the first one, until it enters the tool. -/
  starter : Option ℕ
  /-- The task of this process that entered the tool last. -/
  invoker : Option ℕ
  /-- How often the tool was entered. -/
  invoked : ℕ
  /-- How often the tool was entered as one that is not idempotent. -/
  unrepeatable : ℕ
  /-- The tasks that began when the receipt was done. -/
  late : List ℕ
  /-- How often one of these entered or queried the tool. -/
  lateEffects : ℕ
  /-- What callers got. -/
  returned : List Result

/-- What a transaction may do: it commits, also when its caller only sees an exception, or it
raises and leaves the store. -/
inductive Transacts {β : Type} (f : Store → Except Raised (β × Store)) (store : Store) :
    Except Raised β → Store → Prop
  | committed (b : β) (store' : Store) (h : f store = .ok (b, store')) : Transacts f store (.ok b) store'
  | unconfirmed (b : β) (store' : Store) (e : Raised) (h : f store = .ok (b, store')) :
      Transacts f store (.error e) store'
  | refused (e : Raised) : Transacts f store (.error e) store

theorem Transacts.rule {β : Type} {f : Store → Except Raised (β × Store)} {store store' : Store}
    {r : Except Raised β} {P : Prop} {Q : β → Prop} (h : Transacts f store r store')
    (hf : ∀ b, f store = .ok (b, store') → P ∧ Q b) (hkept : store' = store → P) :
    P ∧ ∀ b, r = .ok b → Q b := by
  cases h with
  | committed b _ h => exact ⟨(hf b h).1, fun c hc => Except.ok.inj hc ▸ (hf b h).2⟩
  | unconfirmed b _ e h => exact ⟨(hf b h).1, fun c hc => nomatch hc⟩
  | refused e => exact ⟨hkept rfl, fun c hc => nomatch hc⟩

theorem Transacts.eq_ok {β : Type} {f : Store → Except Raised (β × Store)} {store store' : Store}
    {b : β} (h : Transacts f store (.ok b) store') : f store = .ok (b, store') := by
  cases h with
  | committed _ _ h => exact h

/-- A receipt is there and in this phase. -/
def Store.InPhase (store : Store) (phase : Phase) : Prop :=
  ∃ record, store.receipt = some record ∧ record.value.phase = phase

instance (store : Store) (phase : Phase) : Decidable (store.InPhase phase) :=
  match h : store.receipt with
  | none => isFalse fun ⟨_, hsome, _⟩ => by rw [h] at hsome; cases hsome
  | some record =>
      if hphase : record.value.phase = phase then isTrue ⟨record, h, hphase⟩
      else isFalse fun ⟨other, hsome, hother⟩ => by
        rw [h] at hsome
        exact hphase (Option.some.inj hsome ▸ hother)

/-- What a task hands to its owner at a commit: the result, unless the notification is lost. -/
inductive Notifies (i : ℕ) (f : Store → Except Raised (Result × Store)) (w : World)
    (store : Store) : Bool → List (ℕ × Result) → Prop
  | silent (notify : Bool) : Notifies i f w store notify w.published
  | notified (result : Result) (h : f w.store = .ok (result, store)) :
      Notifies i f w store true ((i, result) :: w.published)

/-- Entering or querying the tool counts when the receipt was done before the task began. -/
def World.touch (w : World) (i : ℕ) : ℕ :=
  w.lateEffects + if i ∈ w.late then 1 else 0

/-- What the transaction of a start leaves: the task whose start intent is the first one is
remembered. -/
def World.startedBy (w : World) (i : ℕ) (store : Store) : World :=
  { w with
    store := store
    starter := if store.InPhase .started ∧ ¬ w.store.InPhase .started then some i
      else w.starter }

theorem World.startedBy_self (w : World) (i : ℕ) : w.startedBy i w.store = w := by
  rw [World.startedBy, if_neg fun h => h.2 h.1]

/-- What entering the tool leaves. -/
def World.invokedBy (w : World) (i : ℕ) (idempotent : Bool) : World :=
  { w with
    invoker := some i
    invoked := w.invoked + 1
    unrepeatable := w.unrepeatable + if idempotent then 0 else 1
    starter := if w.starter = some i then none else w.starter
    lateEffects := w.touch i }

/-- What an operation of a task may do. -/
def Exec (i : ℕ) : {β : Type} → ToolOp β → World → Except Raised β → World → Prop
  | _, .outside _, w, _, w' => w' = w
  | _, .look f, w, r, w' => w' = w ∧ ∀ b, r = .ok b → f w.store = .ok b
  | _, .transact f, w, r, w' =>
      ∃ store, Transacts f w.store r store ∧ w' = { w with store := store }
  | _, .start record permission, w, r, w' =>
      ∃ store, Transacts (saveStart record permission) w.store r store ∧ w' = w.startedBy i store
  | _, .commit f notify, w, r, w' =>
      ∃ store published, Transacts f w.store r store ∧ Notifies i f w store notify published ∧
        w' = { w with store := store, published := published }
  | _, .publish result, w, r, w' =>
      r = .ok () ∧ w' = { w with published := (i, result) :: w.published }
  | _, .query, w, _, w' => w' = { w with lateEffects := w.touch i }
  | _, .invoke idempotent _, w, _, w' => w' = w.invokedBy i idempotent
  | _, .processStarted, w, r, w' => r = .ok w.recordedBefore ∧ w' = w
  | _, .ended outcome, w, r, w' =>
      r = .ok () ∧ w' = { w with
        slot := if w.slot = some i then none else w.slot
        outcomes := (i, outcome) :: w.outcomes }
  | _, .committed task, w, r, w' => w' = w ∧ ∀ b, r = .ok (some b) → (task, b) ∈ w.published
  | _, .join task, w, r, w' => w' = w ∧ ∀ b, r = .ok b → (task, .ok b) ∈ w.outcomes
  | _, .returned result, w, r, w' =>
      r = .ok () ∧ w' = { w with returned := result :: w.returned }

/-- What runs on a key: the parts of an execution, which are its admission, its task and its
wait, for both protocols, and the settlement of the abandoned call. -/
inductive Job where
  | ensureRequested (request : Request)
  | receiptRun (request : Request)
  | receiptWait (request : Request) (task : ℕ) (owned : Bool)
  | messageRun (call : Request)
  | messageWait (task : ℕ) (owned : Bool)
  | abandon (call : Request)

/-- The jobs that are tasks and hold the slot of the key. -/
def Job.isRun : Job → Prop
  | .receiptRun _ | .messageRun _ => True
  | _ => False

instance : DecidablePred Job.isRun
  | .receiptRun _ | .messageRun _ => isTrue trivial
  | .ensureRequested _ | .receiptWait .. | .messageWait .. | .abandon _ => isFalse id

/-- A task: its body, and how it ended. -/
def taskOf (body : ToolM Result) : ToolM Unit := do
  let outcome ← attempt body
  perform (.ended outcome)

/-- A caller: what it waits for is what it returns. -/
def callerOf (body : ToolM Result) : ToolM Unit := do
  let result ← body
  perform (.returned result)

/-- The wait of `_execute`. -/
def waitReceipt (fingerprint : Request → String) (request : Request) (task : ℕ) (owned : Bool) :
    ToolM Result :=
  if request.reply.isNone then perform (.join task)
  else if owned then waitOwner task else waitRecord fingerprint request task

/-- The wait of `_execute_message`. -/
def waitMessage (task : ℕ) (owned : Bool) : ToolM Result :=
  if owned then waitOwner task else perform (.join task)

/-- The program of a job; `messageId` is the default identity of the result. -/
def Job.program (fingerprint : Request → String) (messageId : String) : Job → ToolM Unit
  | .ensureRequested request => Tools.ensureRequested fingerprint request
  | .receiptRun request => taskOf (run fingerprint request)
  | .receiptWait request task owned =>
      callerOf (checked fingerprint request (waitReceipt fingerprint request task owned))
  | .messageRun call => taskOf (runMessage call messageId)
  | .messageWait task owned => callerOf (waitMessage task owned)
  | .abandon call => callerOf (abandonCall fingerprint call messageId)

/-- What the beginning of a job does: a task takes the slot of the key. -/
def World.begin (w : World) (job : Job) (i : ℕ) : World :=
  if job.isRun then
    { w with slot := some i, late := if w.store.InPhase .done then i :: w.late else w.late }
  else w

/-- What a restart of the process leaves: what is stored, and what has happened. -/
def World.restart (w : World) : World :=
  { w with
    recordedBefore := true
    slot := none
    outcomes := []
    published := []
    starter := none
    invoker := none }

/-- Nothing is stored about the key, and nothing has happened. -/
def World.fresh (recordedBefore : Bool) (taken : List String) (nextSeq : ℕ) : World where
  store := ⟨none, none, taken, nextSeq⟩
  recordedBefore := recordedBefore
  slot := none
  outcomes := []
  published := []
  starter := none
  invoker := none
  invoked := 0
  unrepeatable := 0
  late := []
  lateEffects := 0
  returned := []

open Coroutine in
/-- **The jobs of one key** as a machine, as far as `allowed` admits them. One task of the key
runs at a time; the other messages of the log take identities and numbers meanwhile. -/
def toolCalls (fingerprint : Request → String) (messageId : String) (allowed : Job → Prop) :
    Machine ToolOp Raised World where
  init w := ∃ recordedBefore taken nextSeq, w = World.fresh recordedBefore taken nextSeq
  exec _ i := Exec i
  entry i p w w' := ∃ job, allowed job ∧ (job.isRun → w.slot = none) ∧
    p = job.program fingerprint messageId ∧ w' = w.begin job i
  environment w w' := ∃ taken nextSeq,
    w' = { w with store := { w.store with taken := taken, nextSeq := nextSeq } }
  crash w w' := w' = w.restart

/-! ### Executions without interruption -/

/-- What the awaited parts of one execution do. -/
structure Surroundings where
  outside : ∀ β : Type, Outside β → Except Raised β
  queried : Except Raised (Option Result)
  invoked : Except Raised Result

/-- A transaction that commits when it can. -/
def transacted {β : Type} (f : Store → Except Raised (β × Store)) (store : Store) :
    Except Raised β × Store :=
  match f store with
  | .ok (b, store') => (.ok b, store')
  | .error e => (.error e, store)

theorem transacted_spec {β : Type} (f : Store → Except Raised (β × Store)) (store : Store) :
    Transacts f store (transacted f store).1 (transacted f store).2 := by
  rw [transacted]
  split
  · next b store' h => exact .committed b store' h
  · exact .refused _

/-- The operations of a task whose surroundings do this, when nothing else fails. -/
def execute (around : Surroundings) (i : ℕ) : Handler ToolOp Raised World
  | _, .outside o, w => (around.outside _ o, w)
  | _, .look f, w => (f w.store, w)
  | _, .transact f, w =>
      let (r, store) := transacted f w.store
      (r, { w with store := store })
  | _, .start record permission, w =>
      let (r, store) := transacted (saveStart record permission) w.store
      (r, w.startedBy i store)
  | _, .commit f notify, w =>
      let (r, store) := transacted f w.store
      match notify, f w.store with
      | true, .ok (result, _) =>
          (r, { w with store := store, published := (i, result) :: w.published })
      | _, _ => (r, { w with store := store })
  | _, .publish result, w => (.ok (), { w with published := (i, result) :: w.published })
  | _, .query, w => (around.queried, { w with lateEffects := w.touch i })
  | _, .invoke idempotent _, w => (around.invoked, w.invokedBy i idempotent)
  | _, .processStarted, w => (.ok w.recordedBefore, w)
  | _, .ended outcome, w => (.ok (),
      { w with
        slot := if w.slot = some i then none else w.slot
        outcomes := (i, outcome) :: w.outcomes })
  | _, .committed task, w =>
      (.ok ((w.published.find? fun entry => entry.1 = task).map Prod.snd), w)
  | _, .join task, w =>
      match w.outcomes.find? fun entry => entry.1 = task with
      | some (_, outcome) => (outcome, w)
      | none => (.error .cancelled, w)
  | _, .returned result, w => (.ok (), { w with returned := result :: w.returned })

/-- An execution without interruption is a possible one. -/
theorem execute_spec (around : Surroundings) (i : ℕ) (β : Type) (o : ToolOp β) (w : World) :
    Exec i o w (execute around i β o w).1 (execute around i β o w).2 := by
  cases o with
  | outside o => rfl
  | look f => exact ⟨rfl, fun b h => h⟩
  | transact f => exact ⟨_, transacted_spec f w.store, rfl⟩
  | start record permission => exact ⟨_, transacted_spec _ w.store, rfl⟩
  | commit f notify =>
      have hspec := transacted_spec f w.store
      rw [execute.eq_def]
      dsimp only
      split
      · next result store h =>
          have hstore : (transacted f w.store).2 = store := by rw [transacted, h]
          exact ⟨_, _, hspec, hstore ▸ .notified result h, rfl⟩
      · exact ⟨_, _, hspec, .silent _, rfl⟩
  | publish result => exact ⟨rfl, rfl⟩
  | query => rfl
  | invoke idempotent arguments => rfl
  | processStarted => exact ⟨rfl, rfl⟩
  | ended outcome => exact ⟨rfl, rfl⟩
  | committed task =>
      refine ⟨rfl, fun b h => ?_⟩
      obtain ⟨entry, hentry, rfl⟩ := Option.map_eq_some_iff.mp (Except.ok.inj h)
      have htask : entry.1 = task := by simpa using List.find?_some hentry
      exact htask ▸ List.mem_of_find?_eq_some hentry
  | join task =>
      rw [execute.eq_def]
      dsimp only
      split
      · next other outcome hentry =>
          refine ⟨rfl, fun b h => ?_⟩
          have htask : other = task := by simpa using List.find?_some hentry
          rw [← htask, ← show outcome = .ok b from h]
          exact List.mem_of_find?_eq_some hentry
      · exact ⟨rfl, fun b h => nomatch h⟩
  | returned result => exact ⟨rfl, rfl⟩

end Tools

end Kirakira
