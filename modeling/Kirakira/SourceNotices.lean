import Kirakira.ReplyState

/-!
# What a Source Tells

`SourceSession` of `plugins/sources/session.py`: `accept`, `control`, `pause`, `resume` and
`record_failure`. Each reads the log in one snapshot, appends one message, and tells its listener,
when the append has committed a new message, whether the source now waits for a reply
(`SourceChangedV3.pending`). Anything may be appended between the read and the commit, and the task
of the source may change; a stated source head makes an append fail when the source has moved on.

A pause ends the round of a task that was withdrawn by a newer input, and leaves the input to the
next round. It says all the same that the source does not wait.

## Main results

* `ofSource_eq` — a source whose head has not moved has the same messages.
* `commit_created` — what an append that says that its message is new has done.
* `notices_iff` — **every notice tells the truth but that of such a pause**, and a call that is
  made again tells nothing and withdraws nothing.
-/

namespace Kirakira.Sources

open Exceptions SortedBy

/-! ### Reading -/

/-- `MessageReader.get`. -/
def readMessage (db : Db) (sessionId messageId : String) : Except PyError (Option Message) :=
  match db.messages.find? fun row => row.id = messageId && row.sessionKey = sessionId with
  | none => .ok none
  | some row => (messageOf row).map some

/-- `latest_input` and `latest_control`: the last message of a kind in a prefix of the source. -/
def readLatest (db : Db) (sessionId source kind : String) (throughSeq : ℤ) :
    Except PyError (Option Message) :=
  match ((db.sourceRows sessionId (some source)).filter fun row =>
      decide ((row.seq : ℤ) ≤ throughSeq) && bodyKind row.body = some (.str kind)).getLast? with
  | none => .ok none
  | some row => (messageOf row).map some

/-! ### The source -/

/-- A `Task`, as a source sees it: its handle, whether it may still write, and where its round
began. -/
structure Task where
  handle : String
  active : Bool
  boundaryHint : ℤ
  deriving DecidableEq

/-- `SourceSession`: its session, and its writers of inputs and of controls. -/
structure SourceSession where
  sessionId : String
  inputs : Writer
  controls : Writer
  writers_ok : inputs.sessionId = sessionId ∧ controls.sessionId = sessionId ∧
    controls.source = inputs.source

/-- The source. -/
def SourceSession.source (s : SourceSession) : String :=
  s.inputs.source

/-- What a call appends: the message, the writer, the head that it states, what it tells about
the message, whether it withdraws the task, and whether it reads again when the head has moved. -/
structure Plan where
  messageId : String
  body : Body
  writer : Writer
  expectedHead : Option ℤ
  pending : Message → Bool
  withdraws : Bool
  retries : Bool

/-- `check_open` of the restart gate, where there is one. -/
def checkOpen : Option Bool → Except PyError Unit
  | some false => .error ⟨.runtimeError, "runtime 正在等待重启，暂不接纳新 Root"⟩
  | _ => .ok ()

/-- `slot.require` of the handle of a control; without one the source must not be active. -/
def checkHandle (task : Option Task) : Option String → Except PyError Unit
  | some handle =>
      match task with
      | some task =>
          if task.handle ≠ handle ∨ task.active = false then
            .error ⟨.runtimeError, "handle 不属于当前活动任务"⟩
          else .ok ()
      | none => .error ⟨.runtimeError, "handle 不属于当前活动任务"⟩
  | none =>
      if task.any (·.active) then .error ⟨.messageConflict, "控制活动来源需要当前 handle"⟩
      else .ok ()

/-- A control of the source's own making. -/
def newControl (action : Action) (throughSeq : ℤ) (reason : Option String) :
    Except PyError Control :=
  Control.new (.str action.text) (.int throughSeq) (reason.elim .null .str)

/-- Whether a message closes a prefix of the source from a position on. -/
def closesFrom (throughSeq : ℕ) (message : Message) : Bool :=
  match message.body with
  | .output body => body.finish ≠ .continue && decide (throughSeq ≤ message.seq)
  | .control body => body.action = .abandon && decide (throughSeq ≤ body.throughSeq)
  | _ => false

/-- `accept`. -/
def SourceSession.planAccept (s : SourceSession) (db : Db) (gate : Option Bool)
    (messageId : String) (body : Input) : Except PyError Plan := do
  let existing ← readMessage db s.sessionId messageId
  if existing = none then checkOpen gate
  return ⟨messageId, .input body, s.inputs, none, fun _ => true, true, false⟩

/-- The messages that an abandoned prefix is checked against. -/
def SourceSession.abandoned (s : SourceSession) (db : Db) (body : Control) :
    Except PyError (List Message) :=
  if body.action = .abandon then db.scan s.sessionId (-1) none (some s.source) else .ok []

/-- `read` of `control`: the state of the source, or nothing when the message is there. -/
def SourceSession.readControl (s : SourceSession) (db : Db) (messageId : String)
    (body : Control) : Except PyError (Option ReplyState) := do
  match ← readMessage db s.sessionId messageId with
  | some _ => return none
  | none => do
      let target ← db.read s.sessionId ((body.throughSeq : ℤ) - 1) body.throughSeq none 1
      if target.head?.map (·.source) ≠ some s.source then
        .error ⟨.messageConflict, "控制前缀必须指向已接纳的同来源消息"⟩
      else do
        let rows ← s.abandoned db body
        if rows.any (closesFrom body.throughSeq) then
          .error ⟨.messageConflict, "不能放弃已经关闭的前缀"⟩
        else do
          let state ← db.readState s.sessionId s.source
          return some state

/-- `control`. -/
def SourceSession.planControl (s : SourceSession) (db : Db) (task : Option Task)
    (messageId : String) (body : Control) (expectedHead : ℤ) (handle : Option String) :
    Except PyError Plan := do
  match ← s.readControl db messageId body with
  | none => return ⟨messageId, .control body, s.controls, none, fun _ => false, true, false⟩
  | some state =>
      if state.head ≠ expectedHead then
        .error ⟨.sourceHeadConflict, "控制判定的来源前缀与显式 head 不同"⟩
      else do
        checkHandle task handle
        return ⟨messageId, .control body, s.controls, some expectedHead,
          fun message => (state.add message).pending, true, false⟩

/-- The prefix that a pause covers: a round that a newer input has withdrawn, or everything. -/
def pauseThrough (task : Option Task) (head latestInput : ℤ) : ℤ :=
  match task with
  | some task =>
      if task.active = false ∧ latestInput > task.boundaryHint ∧ task.boundaryHint ≥ 0 then
        task.boundaryHint
      else head
  | none => head

/-- The control that a pause has appended before. -/
def pauseOf : Option Message → Except PyError (Option Control)
  | none => .ok none
  | some message =>
      match message.body with
      | .control body =>
          if body.action = .pause then .ok (some body)
          else .error ⟨.messageConflict, "停止身份已被其他消息使用"⟩
      | _ => .error ⟨.messageConflict, "停止身份已被其他消息使用"⟩

/-- `pause`, one round of its loop. -/
def SourceSession.planPause (s : SourceSession) (db : Db) (task : Option Task)
    (messageId : String) : Except PyError Plan := do
  let existing ← pauseOf (← readMessage db s.sessionId messageId)
  let head := db.sourceHead s.sessionId s.source
  let latestInput := coalesceSeq (db.latestInputSeq s.sessionId s.source head)
  match existing with
  | some body => return ⟨messageId, .control body, s.controls, none, fun _ => false, true, false⟩
  | none =>
      if head < 0 then .error ⟨.messageConflict, "当前来源没有可暂停的消息"⟩
      else do
        let body ← newControl .pause (pauseThrough task head latestInput) none
        return ⟨messageId, .control body, s.controls, some head, fun _ => false, true, true⟩

/-- The target of a retry: an input of the source. -/
def SourceSession.retryTarget (s : SourceSession) (db : Db) (inputId : String) :
    Except PyError Message := do
  match ← readMessage db s.sessionId inputId with
  | some target =>
      if target.source ≠ s.source ∨ target.body.isInput = false then
        .error ⟨.messageConflict, "重试目标不是当前来源的 Input"⟩
      else return target
  | none => .error ⟨.messageConflict, "重试目标不是当前来源的 Input"⟩

/-- `latest is None or latest.message_id != input_id`. -/
def checkLatest (latest : Option Message) (inputId text : String) : Except PyError Unit :=
  if latest.map (·.messageId) ≠ some inputId then .error ⟨.messageConflict, text⟩ else .ok ()

/-- The resume that a retry has appended before. -/
def SourceSession.existingResume (s : SourceSession) (db : Db) (inputId : String) :
    Body → Except PyError Control
  | .control body =>
      if body.action = .resume then do
        let latest ← readLatest db s.sessionId s.source "input" body.throughSeq
        checkLatest latest inputId "重试身份已用于另一条输入"
        return body
      else .error ⟨.messageConflict, "重试身份已被其他消息使用"⟩
  | _ => .error ⟨.messageConflict, "重试身份已被其他消息使用"⟩

/-- Whether a failure or a pause covers an input. -/
def stops (target : Message) (control : Option Message) : Bool :=
  match control.bind Message.control? with
  | some (_, body) =>
      (body.action = .failure || body.action = .pause) && decide (target.seq ≤ body.throughSeq)
  | none => false

/-- `read` of `resume`: the control, and the head it is stated for when it is new. -/
def SourceSession.readResume (s : SourceSession) (db : Db) (messageId inputId : String) :
    Except PyError (Control × Option ℤ) := do
  let target ← s.retryTarget db inputId
  match ← readMessage db s.sessionId messageId with
  | some existing => do
      let body ← s.existingResume db inputId existing.body
      return (body, none)
  | none => do
      let through := db.head s.sessionId
      let latest ← readLatest db s.sessionId s.source "input" through
      checkLatest latest inputId "只能重试本来源的最新输入"
      let rows ← db.scan s.sessionId target.seq (some through) (some s.source)
      if rows.any (closesFrom target.seq) then .error ⟨.messageConflict, "已关闭的输入不能重试"⟩
      else do
        let control ← readLatest db s.sessionId s.source "control" through
        if stops target control = false then
          .error ⟨.messageConflict, "输入没有等待恢复的失败或暂停"⟩
        else do
          let head := db.sourceHead s.sessionId s.source
          let body ← newControl .resume head none
          return (body, some head)

/-- `resume`. -/
def SourceSession.planResume (s : SourceSession) (db : Db) (task : Option Task)
    (gate : Option Bool) (messageId inputId : String) : Except PyError Plan := do
  let (body, head) ← s.readResume db messageId inputId
  if head ≠ none then
    if task.any (·.active) then .error ⟨.messageConflict, "不能重试仍在运行的来源"⟩
    else checkOpen gate
  return ⟨messageId, .control body, s.controls, head, fun _ => true, true, false⟩

/-- `record_failure`: nothing is recorded of a source that does not wait. -/
def SourceSession.planFailure (s : SourceSession) (db : Db) (messageId error : String)
    (boundary : Option ℤ) : Except PyError (Option Plan) := do
  let state ← db.readState s.sessionId s.source
  if state.pending = false then return none
  else if boundary.any (· < 0) then valueError "failure 回执不能绑定伪造的负边界"
  else do
    let body ← newControl .failure (boundary.elim state.head (min · state.head)) (some error)
    return some ⟨messageId, .control body, s.controls, some state.head,
      fun message => (state.add message).pending, false, false⟩

/-! ### Calls -/

/-- What becomes of the task of a source. -/
inductive Signal where
  | interrupt
  | cancel
  | supersede
  deriving DecidableEq, Repr

/-- How a committed message withdraws the current task. A pause also interrupts the tools of a
task that was withdrawn before. -/
def signal (task : Option Task) (message : Message) : Option Signal :=
  match task, message.control? with
  | none, _ => none
  | some task, none => if task.active then some .cancel else none
  | some task, some (_, body) =>
      if body.action = .pause then some .interrupt
      else if task.active = false then none
      else
        match body.action with
        | .abandon => some .supersede
        | .resume => none
        | _ => some .cancel

/-- What came of a call: the message, whether it is new, what the listener was told, what became
of the task, and the log. -/
structure Receipt where
  message : Message
  created : Bool
  notice : Option Bool
  signal : Option Signal
  log : Log

/-- `_committed`: a message that was there before is not told again. -/
def Plan.committed (plan : Plan) (current : Option Task) (message : Message) (created : Bool)
    (log : Log) : Receipt where
  message := message
  created := created
  notice := if created then some (plan.pending message) else none
  signal := if created && plan.withdraws then Sources.signal current message else none
  log := log

/-- What a call finds: the log that it reads, with the task and the restart gate, the log that its
append is prepared on, and the log, the clock and the task at the commit. -/
structure Moment where
  seen : Log
  task : Option Task
  gate : Option Bool
  prepared : Log
  active : Bool
  log : Log
  env : Ambient
  current : Option Task

/-- `append_async`, with what it tells. -/
def Plan.append (plan : Plan) (mo : Moment) : Except PyError Receipt := do
  let p ← plan.writer.prepareAsync mo.prepared.db mo.active plan.messageId plan.body none
  match p.existing with
  | some message => return plan.committed mo.current message false mo.log
  | none =>
      match mo.log.commit p mo.env plan.expectedHead with
      | (.ok (message, created), log) => return plan.committed mo.current message created log
      | (.error e, _) => .error e

/-- The calls. -/
inductive Call where
  | accept (messageId : String) (body : Input)
  | control (messageId : String) (body : Control) (expectedHead : ℤ) (handle : Option String)
  | pause (messageId : String)
  | resume (messageId inputId : String)
  | recordFailure (messageId error : String) (boundary : Option ℤ)

/-- What a call appends, if anything. -/
def SourceSession.plan (s : SourceSession) (mo : Moment) : Call → Except PyError (Option Plan)
  | .accept messageId body => (s.planAccept mo.seen.db mo.gate messageId body).map some
  | .control messageId body expectedHead handle =>
      (s.planControl mo.seen.db mo.task messageId body expectedHead handle).map some
  | .pause messageId => (s.planPause mo.seen.db mo.task messageId).map some
  | .resume messageId inputId =>
      (s.planResume mo.seen.db mo.task mo.gate messageId inputId).map some
  | .recordFailure messageId error boundary =>
      s.planFailure mo.seen.db messageId error boundary

/-- A call, with what it finds each time that it reads: a pause reads again when the head has
moved. What it came to, and when. -/
def SourceSession.call (s : SourceSession) (call : Call) :
    List Moment → Except PyError (Option (Moment × Receipt))
  | [] => .ok none
  | mo :: later => do
      match ← s.plan mo call with
      | none => return none
      | some plan =>
          match plan.append mo with
          | .ok receipt => return some (mo, receipt)
          | .error e =>
              if plan.retries = true ∧ e.cls = .sourceHeadConflict then s.call call later
              else .error e

/-- The logs that a call finds follow one another, with anything between them. -/
def Moment.Valid (mo : Moment) : Prop :=
  ledger.Reachable mo.seen ∧ ledger.Run mo.seen mo.prepared ∧ ledger.Run mo.prepared mo.log

/-- `needs_reply`. -/
def needsReply (messages : List Message) (source : String) : Bool :=
  (readState messages source).pending

/-- A pause of a round that a newer input has withdrawn, of a source that waits. -/
def SourceSession.LeavesInput (s : SourceSession) (mo : Moment) : Call → Prop
  | .pause _ =>
      (∃ task, mo.task = some task ∧ task.active = false ∧ 0 ≤ task.boundaryHint ∧
        task.boundaryHint < coalesceSeq (mo.seen.db.latestInputSeq s.sessionId s.source
          (mo.seen.db.sourceHead s.sessionId s.source))) ∧
      (mo.seen.db.readState s.sessionId s.source).map ReplyState.pending = .ok true
  | _ => False

/-! ### Logs that follow one another -/

section Logs

variable {db db' : Db} {messages messages' : List Message}

theorem messages_eq (h : Ledger db messages) (h' : db.messages.mapM messageOf = .ok messages') :
    messages' = messages :=
  Except.ok.inj (h'.symm.trans h.decodes)

theorem prefix_of_rows (h : Ledger db messages) (h' : Ledger db' messages')
    (hstays : db.messages <+: db'.messages) : messages <+: messages' := by
  rw [h.rows, h'.rows] at hstays
  obtain ⟨rest, hrest⟩ := hstays
  obtain ⟨front, back, rfl, hfront, -⟩ := List.map_eq_append_iff.mp hrest.symm
  have hinjective : Function.Injective Message.row := by
    intro m m' hrow
    have hdecode := messageOf_row m
    rw [hrow, messageOf_row] at hdecode
    exact (Except.ok.inj hdecode).symm
  rw [List.map_injective_iff.mpr hinjective hfront]
  exact List.prefix_append _ _

/-- **A source whose head has not moved** has the same messages. -/
theorem ofSource_eq (h : Ledger db messages) (h' : Ledger db' messages')
    (hstays : messages <+: messages') {sessionId source : String}
    (hhead : db'.sourceHead sessionId source = db.sourceHead sessionId source) :
    ofSource sessionId source messages' = ofSource sessionId source messages := by
  obtain ⟨rest, rfl⟩ := hstays
  have hsplit : ofSource sessionId source (messages ++ rest)
      = ofSource sessionId source messages ++ ofSource sessionId source rest := by
    rw [ofSource, ofSession_append, List.filter_append]
    rfl
  have hsorted := h'.sorted_ofSource sessionId source
  rw [h'.sourceHead_eq, h.sourceHead_eq] at hhead
  rw [hsplit] at hsorted hhead ⊢
  rcases List.eq_nil_or_concat' (ofSource sessionId source rest) with hnil | ⟨front, last, hlast⟩
  · rw [hnil, List.append_nil]
  · have hlt := hsorted.lastKey_lt last (by
      rw [hlast]
      exact List.mem_append_right _ List.mem_cons_self)
    rw [hlast, ← List.append_assoc, lastKey_concat] at hhead
    omega

theorem prefix_of_run {log log' : Log} (hrun : ledger.Run log log') (h : Ledger log.db messages)
    (h' : Ledger log'.db messages') : messages <+: messages' :=
  prefix_of_rows h h' (messages_prefix_of_run hrun h)

theorem messageRow_of_prefix (hstays : db.messages <+: db'.messages) {messageId : String}
    (h : db.messageRow messageId ≠ none) : db'.messageRow messageId ≠ none := by
  obtain ⟨rest, hrest⟩ := hstays
  obtain ⟨row, hrow⟩ := Option.ne_none_iff_exists'.mp h
  rw [Db.messageRow] at hrow
  rw [Db.messageRow, ← hrest, List.find?_append, hrow]
  exact Option.some_ne_none _

theorem messageRow_of_readMessage {sessionId messageId : String} {message : Message}
    (h : readMessage db sessionId messageId = .ok (some message)) :
    db.messageRow messageId ≠ none := by
  rw [readMessage] at h
  split at h
  · cases h
  · next row hrow =>
      intro hnone
      have hfound := List.find?_some hrow
      have hmissing := List.find?_eq_none.mp hnone row (List.mem_of_find?_eq_some hrow)
      rw [Bool.and_eq_true] at hfound
      exact hmissing hfound.1

end Logs

/-! ### Appends -/

section Appends

variable {p : PreparedAppend} {env : Ambient} {expected : Option ℤ} {m : Message}

theorem replay_ne_none {w : Writer} {db : Db} {messageId : String} {body : Body}
    {metadata : Metadata} (h : db.messageRow messageId ≠ none) :
    w.replay db messageId body metadata ≠ .ok none := by
  obtain ⟨row, hrow⟩ := Option.ne_none_iff_exists'.mp h
  intro hreplay
  rw [Writer.replay, hrow] at hreplay
  obtain ⟨payload, -, hreplay⟩ := bind_eq_ok.mp hreplay
  split at hreplay
  · cases hreplay
  · obtain ⟨previous, -, hreplay⟩ := bind_eq_ok.mp hreplay
    split at hreplay
    · cases hreplay
    · cases Except.ok.inj hreplay

theorem append_created {tx tx' : Tx} (h : (p.append env expected).run tx = .ok (m, true) tx') :
    p.writer.replay tx.db p.messageId p.body p.metadata = .ok none ∧
      ∃ prepared : PreparedMessage, prepared.body = p.body ∧
        Inserted p.writer p.messageId prepared expected tx m tx' := by
  unfold PreparedAppend.append at h
  rw [run_get_bind] at h
  obtain ⟨previous, hreplay, h⟩ := run_lift_bind_eq_ok.mp h
  cases previous with
  | some previous => cases h
  | none =>
      dsimp only at h
      split at h
      · cases h
      · next prepared hprepared =>
          obtain ⟨m', tx₁, hinsert, h⟩ := run_bind_eq_ok.mp h
          cases h
          exact ⟨hreplay, prepared, (p.prepared_ok prepared hprepared).1, (insert_spec hinsert).2⟩

/-- **What a commit that says that its message is new has done**: it has put it at the end of the
log, under the head that it stated. -/
theorem commit_created {log log' : Log} {messages : List Message}
    (hledger : Ledger log.db messages)
    (h : log.commit p env expected = (.ok (m, true), log')) :
    log.db.messageRow p.messageId = none ∧ m.body = p.body ∧ m.sessionId = p.writer.sessionId ∧
      m.source = p.writer.source ∧ Ledger log'.db (messages ++ [m]) ∧
      ∀ head, expected = some head →
        log.db.sourceHead p.writer.sessionId p.writer.source = head := by
  rw [Log.commit, Log.write] at h
  split at h
  · next result tx hcallback =>
      obtain ⟨hresult, rfl⟩ := Prod.mk.inj h
      obtain rfl := Except.ok.inj hresult
      obtain ⟨hreplay, prepared, hbody, hinserted⟩ := append_created (callback_eq_ok hcallback)
      refine ⟨?_, hinserted.body_eq.trans hbody, hinserted.sessionId_eq, hinserted.source_eq,
        @Ledger.insert _ (Tx.start log.db) _ _ _ _ _ _ hledger hinserted, fun head hhead => ?_⟩
      · by_contra hrow
        exact replay_ne_none hrow hreplay
      · have hchecked := hinserted.checked
        unfold Writer.checkInsert at hchecked
        obtain ⟨_, hhead', -⟩ := bind_eq_ok.mp hchecked
        rw [hhead, Writer.checkHead] at hhead'
        split at hhead'
        · next heq => exact heq
        · cases hhead'
  · cases (Prod.mk.inj h).1

theorem prepareAsync_fields {w : Writer} {db : Db} {active : Bool} {messageId : String}
    {body : Body} {metadata : Option Json}
    (h : w.prepareAsync db active messageId body metadata = .ok p) :
    p.writer = w ∧ p.messageId = messageId ∧ p.body = body := by
  unfold Writer.prepareAsync at h
  obtain ⟨value, -, h⟩ := bind_eq_ok.mp h
  obtain ⟨existing, -, h⟩ := bind_eq_ok.mp h
  cases existing with
  | some existing =>
      obtain rfl := Except.ok.inj h
      exact ⟨rfl, rfl, rfl⟩
  | none =>
      obtain ⟨_, -, h⟩ := bind_eq_ok.mp h
      split at h
      · cases h
      · obtain rfl := Except.ok.inj h
        exact ⟨rfl, rfl, rfl⟩

/-- **What a call that was told to have committed a new message has done.** -/
theorem planAppend_created {plan : Plan} {mo : Moment} {receipt : Receipt}
    {messages : List Message} (hledger : Ledger mo.log.db messages)
    (h : plan.append mo = .ok receipt) (hcreated : receipt.created = true) :
    mo.log.db.messageRow plan.messageId = none ∧ receipt.message.body = plan.body ∧
      receipt.message.sessionId = plan.writer.sessionId ∧
      receipt.message.source = plan.writer.source ∧
      Ledger receipt.log.db (messages ++ [receipt.message]) ∧
      receipt.notice = some (plan.pending receipt.message) ∧
      ∀ head, plan.expectedHead = some head →
        mo.log.db.sourceHead plan.writer.sessionId plan.writer.source = head := by
  obtain ⟨p, hprepare, h⟩ := bind_eq_ok.mp h
  obtain ⟨hwriter, hid, hbody⟩ := prepareAsync_fields hprepare
  split at h
  · obtain rfl := Except.ok.inj h
    cases hcreated
  · split at h
    · next message created log hcommit =>
        obtain rfl := Except.ok.inj h
        obtain rfl : created = true := hcreated
        obtain ⟨hrow, hbody', hsession, hsource, hledger', hhead⟩ := commit_created hledger hcommit
        rw [hid] at hrow
        rw [hbody] at hbody'
        rw [hwriter] at hsession hsource hhead
        exact ⟨hrow, hbody', hsession, hsource, hledger', rfl, hhead⟩
    · cases h

theorem planAppend_again {plan : Plan} {mo : Moment} {receipt : Receipt}
    (h : plan.append mo = .ok receipt) (hcreated : receipt.created = false) :
    receipt.notice = none ∧ receipt.signal = none := by
  obtain ⟨p, -, h⟩ := bind_eq_ok.mp h
  split at h
  · obtain rfl := Except.ok.inj h
    exact ⟨rfl, rfl⟩
  · split at h
    · next message created log hcommit =>
        obtain rfl := Except.ok.inj h
        obtain rfl : created = false := hcreated
        exact ⟨rfl, rfl⟩
    · cases h

end Appends

/-! ### What is told -/

section Told

variable {db db₀ db' : Db} {messages₀ messages : List Message} {m : Message}
  {sessionId source : String}

theorem needsReply_concat (h : Ledger db messages) (hnew : Ledger db' (messages ++ [m]))
    (hsession : m.sessionId = sessionId) (hsource : m.source = source) :
    needsReply (ofSession sessionId (messages ++ [m])) source
        = ((readState (ofSession sessionId messages) source).add m).pending ∧
      (readState (ofSession sessionId messages) source).head < m.seq := by
  obtain ⟨state, hstate, hagree⟩ := h.readState_agree sessionId source
  have hxs : ofSource sessionId source (messages ++ [m])
      = ofSource sessionId source messages ++ [m] := by
    rw [ofSource, ofSession_append, ofSession_singleton, if_pos hsession, List.filter_append,
      List.filter_cons_of_pos (by simpa using hsource), List.filter_nil]
    rfl
  constructor
  · rw [needsReply, readState_ofSession, readState_ofSession, hxs, List.foldl_append]
    rfl
  · have hsorted := hnew.sorted_ofSource sessionId source
    rw [hxs] at hsorted
    rw [hagree.head, readState_head hstate, h.sourceHead_eq]
    exact hsorted.lastKey_lt m List.mem_cons_self

variable {state : ReplyState}

theorem pending_input (hbounded : state.Bounded) (hhead : state.head < m.seq) {body : Input}
    (hbody : m.body = .input body) : (state.add m).pending = true := by
  obtain ⟨-, hb, -, hp⟩ := hbounded
  rw [ReplyState.add, hbody, ReplyState.pending, decide_eq_true_iff]
  dsimp only
  omega

theorem addControls_latestInput (state : ReplyState) (controls : List (ℕ × Control)) :
    (state.addControls controls).latestInput = state.latestInput := by
  induction controls generalizing state with
  | nil => rfl
  | cons row controls ih =>
      rw [ReplyState.addControls, List.foldl_cons]
      exact (ih _).trans (ReplyState.addControl_fields state row.2).2

theorem latestInput_of_readState (h : db.readState sessionId source = .ok state) :
    state.latestInput
      = coalesceSeq (db.latestInputSeq sessionId source (db.sourceHead sessionId source)) := by
  rw [Db.readState] at h
  dsimp only at h
  split at h
  · next hnone =>
      obtain rfl := Except.ok.inj h
      rw [hnone]
      rfl
  · next latest hsome =>
      obtain ⟨controls, -, h⟩ := bind_eq_ok.mp h
      obtain rfl := Except.ok.inj h
      rw [hsome]
      exact addControls_latestInput _ controls

theorem latestInputSeq_le (db : Db) (sessionId source : String) {through : ℤ}
    (hthrough : -1 ≤ through) :
    coalesceSeq (db.latestInputSeq sessionId source through) ≤ through := by
  rw [Db.latestInputSeq, Db.maxSeq]
  cases hmax : ((db.messages.filter _).map MessageRow.seq).max? with
  | none => exact hthrough
  | some latest =>
      obtain ⟨row, hrow, rfl⟩ := List.mem_map.mp (List.max?_mem hmax)
      have hfound := (List.mem_filter.mp hrow).2
      simp only [Bool.and_eq_true, decide_eq_true_iff] at hfound
      exact hfound.2.1

theorem told_state (h₀ : Ledger db₀ messages₀) (h : Ledger db messages)
    (hstays : messages₀ <+: messages) (hnew : Ledger db' (messages ++ [m]))
    (hsession : m.sessionId = sessionId) (hsource : m.source = source)
    (hhead : db.sourceHead sessionId source = db₀.sourceHead sessionId source)
    (hstate : db₀.readState sessionId source = .ok state) :
    needsReply (ofSession sessionId (messages ++ [m])) source = (state.add m).pending ∧
      state.head < m.seq := by
  obtain ⟨hreply, hlt⟩ := needsReply_concat h hnew hsession hsource
  obtain ⟨state', hstate', hagree⟩ := h₀.readState_agree sessionId source
  obtain rfl := Except.ok.inj (hstate.symm.trans hstate')
  have hsame : readState (ofSession sessionId messages) source
      = readState (ofSession sessionId messages₀) source := by
    rw [readState_ofSession, readState_ofSession, ofSource_eq h₀ h hstays hhead]
  rw [hreply, hsame]
  rw [hsame] at hlt
  exact ⟨(hagree.add hlt).pending_eq, hagree.head ▸ hlt⟩

end Told

/-! ### The calls -/

section Calls

variable {s : SourceSession} {db : Db} {messages : List Message}

variable {body : Control} {inputId : String}

theorem newControl_eq_ok {action : Action} {throughSeq : ℤ} {reason : Option String}
    (h : newControl action throughSeq reason = .ok body) :
    body.action = action ∧ (body.throughSeq : ℤ) = throughSeq := by
  rw [newControl, Control.new, actionOf_text] at h
  obtain ⟨_, haction, h⟩ := bind_eq_ok.mp h
  obtain rfl := Except.ok.inj haction
  dsimp only at h
  obtain ⟨hpos, h⟩ | ⟨-, ⟨⟩⟩ := ite_eq_iff.mp h
  cases reason with
  | none =>
      obtain rfl := Except.ok.inj h
      exact ⟨rfl, Int.toNat_of_nonneg hpos⟩
  | some reason =>
      obtain rfl := Except.ok.inj h
      exact ⟨rfl, Int.toNat_of_nonneg hpos⟩

theorem pending_pause {state : ReplyState} {m : Message} {body : Control}
    (hbody : m.body = .control body) (haction : body.action = .pause) :
    (state.add m).pending = true ↔
      state.pending = true ∧ (body.throughSeq : ℤ) < state.latestInput := by
  obtain ⟨action, throughSeq, reason⟩ := body
  obtain rfl : action = .pause := haction
  have hadd : state.add m = { state with
      head := m.seq, pausedThrough := max state.pausedThrough throughSeq } := by
    rw [ReplyState.add, hbody]
    rfl
  rw [hadd, ReplyState.pending, ReplyState.pending, decide_eq_true_iff, decide_eq_true_iff]
  dsimp only
  omega

variable {task : Option Task} {messageId : String}

/-- The prefix that a pause covers is below the latest input exactly when it ends a round that the
input has withdrawn. -/
theorem pauseThrough_lt {head latestInput : ℤ} (hle : latestInput ≤ head) :
    pauseThrough task head latestInput < latestInput ↔
      ∃ found, task = some found ∧ found.active = false ∧ 0 ≤ found.boundaryHint ∧
        found.boundaryHint < latestInput := by
  cases task with
  | none =>
      refine ⟨fun hlt => absurd hlt (not_lt_of_ge hle), ?_⟩
      rintro ⟨found, hfound, -⟩
      cases hfound
  | some task =>
      rw [pauseThrough]
      constructor
      · intro hlt
        split at hlt
        · next hround => exact ⟨task, rfl, hround.1, hround.2.2, hround.2.1⟩
        · omega
      · rintro ⟨found, hfound, hactive, hpos, hlt⟩
        obtain rfl := Option.some.inj hfound
        rw [if_pos ⟨hactive, hlt, hpos⟩]
        exact hlt

theorem readMessage_eq_ok (h : Ledger db messages) {sessionId : String} {m : Message}
    (hread : readMessage db sessionId messageId = .ok (some m)) :
    m ∈ messages ∧ m.messageId = messageId := by
  rw [readMessage] at hread
  split at hread
  · cases hread
  · next row hrow =>
      have hmem := List.mem_of_find?_eq_some hrow
      have hfound := List.find?_some hrow
      rw [h.rows] at hmem
      obtain ⟨found, hfound', rfl⟩ := List.mem_map.mp hmem
      rw [messageOf_row] at hread
      obtain rfl := Option.some.inj (Except.ok.inj hread)
      rw [Bool.and_eq_true, decide_eq_true_iff] at hfound
      exact ⟨hfound', hfound.1⟩

theorem le_head (h : Ledger db messages) {sessionId source : String} {m : Message}
    (hm : m ∈ ofSource sessionId source messages) : (m.seq : ℤ) ≤ db.head sessionId := by
  rw [head_eq_lastKey h.uniqueSeqs]
  have hrow : m.row ∈ db.sourceRows sessionId (some source) := by
    rw [h.sourceRows_eq]
    exact List.mem_map_of_mem hm
  exact (sorted_sessionRows h.uniqueSeqs sessionId).le_lastKey m.row (List.mem_filter.mp hrow).1

theorem readLatest_input (h : Ledger db messages) (sessionId source : String) :
    readLatest db sessionId source "input" (db.head sessionId)
      = .ok ((ofSource sessionId source messages).filter fun m => m.body.isInput).getLast? := by
  have hrows : (db.sourceRows sessionId (some source)).filter (fun row =>
        decide ((row.seq : ℤ) ≤ db.head sessionId) && bodyKind row.body = some (.str "input"))
      = ((ofSource sessionId source messages).filter fun m => m.body.isInput).map Message.row := by
    rw [h.sourceRows_eq, List.filter_map]
    congr 1
    refine List.filter_congr fun m hm => ?_
    have hkind : decide (bodyKind m.row.body = some (.str "input")) = m.body.isInput := by
      rw [Message.row, bodyKind_payload]
      cases m.body <;> rfl
    change (decide ((m.seq : ℤ) ≤ db.head sessionId) &&
      decide (bodyKind m.row.body = some (.str "input"))) = _
    rw [decide_eq_true (le_head h hm), Bool.true_and, hkind]
  rw [readLatest, hrows, List.getLast?_map]
  cases ((ofSource sessionId source messages).filter fun m => m.body.isInput).getLast? with
  | none => rfl
  | some m =>
      rw [Option.map_some]
      dsimp only
      rw [messageOf_row]
      rfl

theorem scan_after (h : Ledger db messages) (sessionId source : String) (afterSeq : ℕ) :
    db.scan sessionId afterSeq (some (db.head sessionId)) (some source)
      = .ok ((ofSource sessionId source messages).filter fun m => afterSeq < m.seq) := by
  have hrows : between MessageRow.seq afterSeq (db.head sessionId)
        (db.sourceRows sessionId (some source))
      = ((ofSource sessionId source messages).filter fun m => afterSeq < m.seq).map
          Message.row := by
    rw [between, h.sourceRows_eq, List.filter_map]
    congr 1
    refine List.filter_congr fun m hm => ?_
    change (decide ((afterSeq : ℤ) < m.seq) && decide ((m.seq : ℤ) ≤ db.head sessionId)) = _
    rw [decide_eq_true (le_head h hm), Bool.and_true, decide_eq_decide]
    omega
  rw [scan_eq h.uniqueSeqs _ (by omega), Option.getD_some, hrows]
  exact mapM_messageOf_row _

/-- A message that closes no prefix from a position on leaves the boundary below it. -/
theorem boundary_lt_of_open {state : ReplyState} {input : ℕ} (hbelow : state.boundary < input)
    {rest : List Message} (habove : ∀ m ∈ rest, input < m.seq)
    (hopen : ∀ m ∈ rest, closesFrom input m = false) :
    (rest.foldl ReplyState.add state).boundary < input := by
  induction rest generalizing state with
  | nil => exact hbelow
  | cons m rest ih =>
      refine ih ?_ (fun x hx => habove x (List.mem_cons_of_mem _ hx))
        fun x hx => hopen x (List.mem_cons_of_mem _ hx)
      have hm := hopen m List.mem_cons_self
      have hlt := habove m List.mem_cons_self
      rw [closesFrom] at hm
      rw [ReplyState.add]
      cases hbody : m.body with
      | input body => exact hbelow
      | toolResult body => exact hbelow
      | output body =>
          rw [hbody] at hm
          dsimp only at hm ⊢
          rw [decide_eq_true hlt.le, Bool.and_true, decide_eq_false_iff_not, not_not] at hm
          rw [if_neg (not_not.mpr hm)]
          exact hbelow
      | control body =>
          rw [hbody] at hm
          obtain ⟨action, throughSeq, reason⟩ := body
          cases action with
          | pause => exact hbelow
          | failure => exact hbelow
          | abandon =>
              have hless : throughSeq < input := by simpa using hm
              exact max_lt hbelow (by exact_mod_cast hless)
          | resume =>
              dsimp only
              rw [ReplyState.addControl]
              dsimp only
              split <;> exact hbelow

/-- **A source that is resumed waits**: nothing has closed its latest input, and the resume covers
every pause. -/
theorem pending_resume (h : Ledger db messages) {target : Message}
    (hlast : ((ofSource s.sessionId s.source messages).filter
      fun m => m.body.isInput).getLast? = some target)
    (hopen : ∀ m ∈ (ofSource s.sessionId s.source messages).filter fun m => target.seq < m.seq,
      closesFrom target.seq m = false) {m : Message} (hbody : m.body = .control body)
    (haction : body.action = .resume)
    (hthrough : (body.throughSeq : ℤ) = db.sourceHead s.sessionId s.source) :
    ((readState (ofSession s.sessionId messages) s.source).add m).pending = true := by
  obtain ⟨state, hstate, hagree⟩ := h.readState_agree s.sessionId s.source
  have hsorted := h.sorted_ofSource s.sessionId s.source
  rw [readState_ofSession] at hagree ⊢
  generalize ofSource s.sessionId s.source messages = xs at hsorted hlast hopen hagree ⊢
  obtain ⟨front, rest, rfl, hrest⟩ := split_at_last hlast
  obtain ⟨hfront, hback, hbefore⟩ := List.pairwise_append.mp hsorted
  have habove := (List.pairwise_cons.mp hback).1
  have hinput : target.body.isInput = true :=
    (List.mem_filter.mp (List.mem_of_getLast? hlast)).2
  have hat := agree_at_input hfront (fun x hx => hbefore x hx target List.mem_cons_self) hinput
  rw [List.foldl_append, List.foldl_cons] at hagree ⊢
  generalize (front.foldl ReplyState.add ReplyState.start).add target = start at hat hagree ⊢
  have hlatest : start.latestInput = target.seq := hat.latestInput
  have hbelow : start.boundary < target.seq := by
    have hsame := hat.boundary (by omega)
    rw [ReplyState.Same] at hsame
    dsimp only at hsame
    omega
  have hopen' : ∀ x ∈ rest, closesFrom target.seq x = false := fun x hx => hopen x (by
    refine List.mem_filter.mpr ⟨List.mem_append_right _ (List.mem_cons_of_mem _ hx), ?_⟩
    exact decide_eq_true (habove x hx))
  have hboundary := boundary_lt_of_open hbelow habove hopen'
  have hlatest' := @foldl_add_latestInput rest start hrest
  have hpaused := hagree.left.paused_le
  rw [hagree.head, readState_head hstate, ← hthrough] at hpaused
  generalize rest.foldl ReplyState.add start = whole at hboundary hlatest' hpaused ⊢
  obtain ⟨action, throughSeq, reason⟩ := body
  obtain rfl : action = .resume := haction
  have hadd : whole.add m = { whole with head := m.seq, pausedThrough := -1 } := by
    rw [ReplyState.add, hbody]
    dsimp only
    rw [ReplyState.addControl]
    exact if_pos hpaused
  rw [hadd, ReplyState.pending, decide_eq_true_iff]
  dsimp only
  omega

theorem planAccept_eq_ok {gate : Option Bool} {body : Input} {plan : Plan}
    (h : s.planAccept db gate messageId body = .ok plan) :
    plan.writer = s.inputs ∧ plan.body = .input body ∧ ∀ m, plan.pending m = true := by
  obtain ⟨existing, -, h⟩ := bind_eq_ok.mp h
  split at h
  · obtain ⟨_, -, h⟩ := bind_eq_ok.mp h
    obtain rfl := Except.ok.inj h
    exact ⟨rfl, rfl, fun _ => rfl⟩
  · obtain rfl := Except.ok.inj h
    exact ⟨rfl, rfl, fun _ => rfl⟩

/-- What a call appends that tells of the state that it has read. -/
structure Plan.OfState (plan : Plan) (s : SourceSession) (db : Db) : Prop where
  writer : plan.writer = s.controls
  state : ∃ state, db.readState s.sessionId s.source = .ok state ∧
    plan.expectedHead = some (db.sourceHead s.sessionId s.source) ∧
    ∀ m, plan.pending m = (state.add m).pending

theorem planControl_eq_ok {expectedHead : ℤ} {handle : Option String} {plan : Plan}
    (h : s.planControl db task messageId body expectedHead handle = .ok plan) :
    db.messageRow plan.messageId ≠ none ∨ plan.OfState s db := by
  obtain ⟨found, hfound, h⟩ := bind_eq_ok.mp h
  obtain ⟨existing, hexisting, hfound⟩ := bind_eq_ok.mp hfound
  cases existing with
  | some existing =>
      obtain rfl := Except.ok.inj hfound
      obtain rfl := Except.ok.inj h
      exact .inl (messageRow_of_readMessage hexisting)
  | none =>
      obtain ⟨target, -, hfound⟩ := bind_eq_ok.mp hfound
      split at hfound
      · cases hfound
      · obtain ⟨rows, -, hfound⟩ := bind_eq_ok.mp hfound
        split at hfound
        · cases hfound
        · obtain ⟨state, hstate, hfound⟩ := bind_eq_ok.mp hfound
          obtain rfl := Except.ok.inj hfound
          dsimp only at h
          obtain ⟨-, ⟨⟩⟩ | ⟨hhead, h⟩ := ite_eq_iff.mp h
          obtain ⟨_, -, h⟩ := bind_eq_ok.mp h
          obtain rfl := Except.ok.inj h
          refine .inr ⟨rfl, state, hstate, ?_, fun _ => rfl⟩
          rw [← readState_head hstate, not_not.mp hhead]

theorem planFailure_eq_ok {error : String} {boundary : Option ℤ} {plan : Plan}
    (h : s.planFailure db messageId error boundary = .ok (some plan)) : plan.OfState s db := by
  obtain ⟨state, hstate, h⟩ := bind_eq_ok.mp h
  split at h
  · cases Except.ok.inj h
  · split at h
    · cases h
    · obtain ⟨body, -, h⟩ := bind_eq_ok.mp h
      obtain rfl := Option.some.inj (Except.ok.inj h)
      exact ⟨rfl, state, hstate, by rw [readState_head hstate], fun _ => rfl⟩

theorem planPause_eq_ok {plan : Plan} (h : s.planPause db task messageId = .ok plan) :
    db.messageRow plan.messageId ≠ none ∨
    plan.writer = s.controls ∧
      plan.expectedHead = some (db.sourceHead s.sessionId s.source) ∧
      (∀ m, plan.pending m = false) ∧
      ∃ body, plan.body = .control body ∧ body.action = .pause ∧
        (body.throughSeq : ℤ) = pauseThrough task (db.sourceHead s.sessionId s.source)
          (coalesceSeq (db.latestInputSeq s.sessionId s.source
            (db.sourceHead s.sessionId s.source))) := by
  obtain ⟨existing, hexisting, h⟩ := bind_eq_ok.mp h
  obtain ⟨found, hfound, h⟩ := bind_eq_ok.mp h
  cases found with
  | some found =>
      obtain rfl := Except.ok.inj h
      cases existing with
      | none => cases Except.ok.inj hfound
      | some existing => exact .inl (messageRow_of_readMessage hexisting)
  | none =>
      dsimp only at h
      split at h
      · cases h
      · obtain ⟨body, hbody, h⟩ := bind_eq_ok.mp h
        obtain rfl := Except.ok.inj h
        obtain ⟨haction, hthrough⟩ := newControl_eq_ok hbody
        exact .inr ⟨rfl, rfl, fun _ => rfl, body, rfl, haction, hthrough⟩

theorem retryTarget_eq_ok {target : Message} (h : s.retryTarget db inputId = .ok target) :
    readMessage db s.sessionId inputId = .ok (some target) := by
  obtain ⟨found, hfound, h⟩ := bind_eq_ok.mp h
  cases found with
  | none => cases h
  | some found =>
      dsimp only at h
      split at h
      · cases h
      · obtain rfl := Except.ok.inj h
        exact hfound

theorem checkLatest_eq_ok {latest : Option Message} {text : String} {u : Unit}
    (h : checkLatest latest inputId text = .ok u) :
    ∃ last, latest = some last ∧ last.messageId = inputId := by
  rw [checkLatest] at h
  split at h
  · cases h
  · next hlatest => exact Option.map_eq_some_iff.mp (not_not.mp hlatest)

/-- What a retry appends: the message that is there, or a new one, of a source whose latest input
nothing has closed. -/
theorem planResume_eq_ok (hledger : Ledger db messages) {gate : Option Bool} {plan : Plan}
    (h : s.planResume db task gate messageId inputId = .ok plan) :
    db.messageRow plan.messageId ≠ none ∨
    plan.writer = s.controls ∧
      plan.expectedHead = some (db.sourceHead s.sessionId s.source) ∧
      (∀ m, plan.pending m = true) ∧
      ∃ body target, plan.body = .control body ∧ body.action = .resume ∧
        (body.throughSeq : ℤ) = db.sourceHead s.sessionId s.source ∧
        ((ofSource s.sessionId s.source messages).filter
          fun m => m.body.isInput).getLast? = some target ∧
        ∀ m ∈ (ofSource s.sessionId s.source messages).filter fun m => target.seq < m.seq,
          closesFrom target.seq m = false := by
  obtain ⟨⟨body, head⟩, hread, h⟩ := bind_eq_ok.mp h
  have hplan : plan = ⟨messageId, .control body, s.controls, head, fun _ => true, true, false⟩ := by
    dsimp only at h
    split at h
    · split at h
      · cases h
      · obtain ⟨_, -, h⟩ := bind_eq_ok.mp h
        exact (Except.ok.inj h).symm
    · exact (Except.ok.inj h).symm
  subst hplan
  clear h
  obtain ⟨target, htarget, hread⟩ := bind_eq_ok.mp hread
  obtain ⟨existing, hexisting, hread⟩ := bind_eq_ok.mp hread
  cases existing with
  | some existing => exact .inl (messageRow_of_readMessage hexisting)
  | none =>
      obtain ⟨latest, hlatest, hread⟩ := bind_eq_ok.mp hread
      obtain ⟨_, hcheck, hread⟩ := bind_eq_ok.mp hread
      obtain ⟨rows, hrows, hread⟩ := bind_eq_ok.mp hread
      rw [readLatest_input hledger] at hlatest
      obtain ⟨last, hlast⟩ := checkLatest_eq_ok hcheck
      have hinput := Except.ok.inj hlatest
      obtain rfl : last = target := by
        obtain ⟨hmem, hid⟩ := readMessage_eq_ok hledger (retryTarget_eq_ok htarget)
        have hmem' : last ∈ messages := by
          have hin := List.mem_of_getLast? (hinput.trans hlast.1)
          exact (List.mem_filter.mp (List.mem_filter.mp (List.mem_filter.mp hin).1).1).1
        exact List.inj_on_of_nodup_map hledger.ids hmem' hmem (hlast.2.trans hid.symm)
      obtain ⟨-, ⟨⟩⟩ | ⟨hopen, hread⟩ := ite_eq_iff.mp hread
      obtain ⟨control, -, hread⟩ := bind_eq_ok.mp hread
      split at hread
      · cases hread
      · obtain ⟨made, hmade, hread⟩ := bind_eq_ok.mp hread
        obtain ⟨rfl, rfl⟩ := Prod.mk.inj (Except.ok.inj hread)
        obtain ⟨haction, hthrough⟩ := newControl_eq_ok hmade
        refine .inr ⟨rfl, rfl, fun _ => rfl, made, last, rfl, haction, hthrough, ?_, ?_⟩
        · exact hinput.trans hlast.1
        · rw [scan_after hledger] at hrows
          obtain rfl := Except.ok.inj hrows
          intro m hm
          exact Bool.eq_false_of_not_eq_true fun hclosed =>
            hopen (List.any_eq_true.mpr ⟨m, hm, hclosed⟩)

end Calls

/-! ### Every call -/

section Notices

variable {s : SourceSession} {mo : Moment} {messages₀ messages : List Message}

variable {messageId : String} {receipt : Receipt}

theorem Moment.Valid.messageRow (h : mo.Valid) (hrow : mo.seen.db.messageRow messageId ≠ none) :
    mo.log.db.messageRow messageId ≠ none := by
  obtain ⟨hreach, hrun, hrun'⟩ := h
  obtain ⟨messages, hledger⟩ := ledger_of_reachable hreach
  exact messageRow_of_prefix (messages_prefix_of_run (hrun.trans hrun') hledger) hrow

theorem SourceSession.controls_eq (s : SourceSession) :
    s.controls.sessionId = s.sessionId ∧ s.controls.source = s.source :=
  s.writers_ok.2

/-- The notice of a control that was committed under a stated head, beside the state that was
read. -/
theorem notice_of_head {plan : Plan} (hwriter : plan.writer = s.controls)
    (hexpected : plan.expectedHead = some (mo.seen.db.sourceHead s.sessionId s.source))
    (h₀ : Ledger mo.seen.db messages₀) (h : Ledger mo.log.db messages)
    (hstays : messages₀ <+: messages) (happend : plan.append mo = .ok receipt)
    (hcreated : receipt.created = true) {state : ReplyState}
    (hstate : mo.seen.db.readState s.sessionId s.source = .ok state) :
    receipt.message.body = plan.body ∧
      receipt.notice = some (plan.pending receipt.message) ∧
      needsReply (ofSession s.sessionId (messages ++ [receipt.message])) s.source
        = (state.add receipt.message).pending ∧
      state.head < receipt.message.seq := by
  obtain ⟨-, hbody, hsession, hsource, hnew, hnotice, hhead⟩ :=
    planAppend_created h happend hcreated
  rw [hwriter, s.controls_eq.1] at hsession hhead
  rw [hwriter, s.controls_eq.2] at hsource
  rw [s.controls_eq.2] at hhead
  exact ⟨hbody, hnotice,
    told_state h₀ h hstays hnew hsession hsource (hhead _ hexpected) hstate⟩

/-- What a plan that tells of the state that it has read says of a message that it has committed. -/
theorem Plan.OfState.told {plan : Plan} (hplan : plan.OfState s mo.seen.db)
    (h₀ : Ledger mo.seen.db messages₀) (h : Ledger mo.log.db messages)
    (hstays : messages₀ <+: messages) (happend : plan.append mo = .ok receipt)
    (hcreated : receipt.created = true) :
    receipt.notice
      = some (needsReply (ofSession s.sessionId (messages ++ [receipt.message])) s.source) := by
  obtain ⟨hwriter, state, hstate, hexpected, hpending⟩ := hplan
  obtain ⟨-, hnotice, hreply, -⟩ :=
    notice_of_head hwriter hexpected h₀ h hstays happend hcreated hstate
  rw [hnotice, hpending, hreply]

theorem told_pause {plan : Plan} (hplan : s.planPause mo.seen.db mo.task messageId = .ok plan)
    (hvalid : mo.Valid) (h₀ : Ledger mo.seen.db messages₀) (h : Ledger mo.log.db messages)
    (hstays : messages₀ <+: messages) (happend : plan.append mo = .ok receipt)
    (hcreated : receipt.created = true) :
    receipt.notice
        = some (needsReply (ofSession s.sessionId (messages ++ [receipt.message])) s.source) ↔
      ¬s.LeavesInput mo (.pause messageId) := by
  rcases planPause_eq_ok hplan with hthere | ⟨hwriter, hexpected, hpending, body, hbody', haction,
    hthrough⟩
  · exact absurd (planAppend_created h happend hcreated).1 (hvalid.messageRow hthere)
  · obtain ⟨state, hstate, hagree⟩ := h₀.readState_agree s.sessionId s.source
    obtain ⟨hbody, hnotice, hreply, -⟩ :=
      notice_of_head hwriter hexpected h₀ h hstays happend hcreated hstate
    have hle := latestInputSeq_le mo.seen.db s.sessionId s.source
      (show -1 ≤ mo.seen.db.sourceHead s.sessionId s.source by
        rw [h₀.sourceHead_eq]
        exact neg_one_le_lastKey _)
    have hwaits := @pending_pause state receipt.message body (hbody.trans hbody') haction
    rw [hthrough, latestInput_of_readState hstate, pauseThrough_lt hle] at hwaits
    have hread : (Except.ok state : Except PyError ReplyState).map ReplyState.pending = .ok true ↔
        state.pending = true := ⟨Except.ok.inj, congrArg Except.ok⟩
    rw [hnotice, hpending, hreply, SourceSession.LeavesInput, hstate, hread, and_comm, ← hwaits,
      Option.some.injEq, eq_comm, Bool.not_eq_true]

theorem told_resume {plan : Plan} {inputId : String}
    (hplan : s.planResume mo.seen.db mo.task mo.gate messageId inputId = .ok plan)
    (hvalid : mo.Valid) (h₀ : Ledger mo.seen.db messages₀) (h : Ledger mo.log.db messages)
    (hstays : messages₀ <+: messages) (happend : plan.append mo = .ok receipt)
    (hcreated : receipt.created = true) :
    receipt.notice
      = some (needsReply (ofSession s.sessionId (messages ++ [receipt.message])) s.source) := by
  rcases planResume_eq_ok h₀ hplan with hthere | ⟨hwriter, hexpected, hpending, body, target,
    hbody', haction, hthrough, hlast, hopen⟩
  · exact absurd (planAppend_created h happend hcreated).1 (hvalid.messageRow hthere)
  · obtain ⟨state, hstate, hagree⟩ := h₀.readState_agree s.sessionId s.source
    obtain ⟨hbody, hnotice, hreply, hlt⟩ :=
      notice_of_head hwriter hexpected h₀ h hstays happend hcreated hstate
    have hwaits := pending_resume h₀ hlast hopen (hbody.trans hbody') haction hthrough
    rw [hnotice, hpending, hreply, ← (hagree.add (hagree.head ▸ hlt)).pending_eq, hwaits]

theorem told_accept {plan : Plan} {body : Input}
    (hplan : s.planAccept mo.seen.db mo.gate messageId body = .ok plan)
    (h : Ledger mo.log.db messages) (happend : plan.append mo = .ok receipt)
    (hcreated : receipt.created = true) :
    receipt.notice
      = some (needsReply (ofSession s.sessionId (messages ++ [receipt.message])) s.source) := by
  obtain ⟨hwriter, hbody', hpending⟩ := planAccept_eq_ok hplan
  obtain ⟨-, hbody, hsession, hsource, hnew, hnotice, -⟩ := planAppend_created h happend hcreated
  rw [hwriter, s.writers_ok.1] at hsession
  rw [hwriter] at hsource
  obtain ⟨hreply, hlt⟩ := needsReply_concat h hnew hsession hsource
  obtain ⟨state, -, hagree⟩ := h.readState_agree s.sessionId s.inputs.source
  have hwaits := pending_input hagree.left hlt (hbody.trans hbody')
  rw [hnotice, hpending, SourceSession.source, hreply, hwaits]

theorem call_eq_ok {call : Call} {moments : List Moment}
    (h : s.call call moments = .ok (some (mo, receipt))) :
    mo ∈ moments ∧ ∃ plan, s.plan mo call = .ok (some plan) ∧ plan.append mo = .ok receipt := by
  induction moments with
  | nil => cases Except.ok.inj h
  | cons first later ih =>
      obtain ⟨found, hplan, h⟩ := bind_eq_ok.mp h
      cases found with
      | none => cases Except.ok.inj h
      | some plan =>
          dsimp only at h
          split at h
          · next result happend =>
              obtain ⟨rfl, rfl⟩ := Prod.mk.inj (Option.some.inj (Except.ok.inj h))
              exact ⟨List.mem_cons_self, plan, hplan, happend⟩
          · split at h
            · obtain ⟨hmem, hdone⟩ := ih h
              exact ⟨List.mem_cons_of_mem _ hmem, hdone⟩
            · cases h

/-- **Every notice tells the truth** about the source up to and including the message that was
committed, but that of a pause that ends the round of a task that a newer input has withdrawn and
leaves the input waiting; and a call that is made again tells nothing and withdraws nothing. -/
theorem notices_iff {call : Call} {moments : List Moment} (hvalid : ∀ mo ∈ moments, mo.Valid)
    {receipt : Receipt} (h : s.call call moments = .ok (some (mo, receipt)))
    {logged : List Message} (hlogged : receipt.log.db.messages.mapM messageOf = .ok logged) :
    (receipt.created = true →
      (receipt.notice = some (needsReply (ofSession s.sessionId logged) s.source) ↔
        ¬s.LeavesInput mo call)) ∧
    (receipt.created = false → receipt.notice = none ∧ receipt.signal = none) := by
  obtain ⟨hmem, plan, hplan, happend⟩ := call_eq_ok h
  refine ⟨fun hcreated => ?_, planAppend_again happend⟩
  have hmoment := hvalid mo hmem
  obtain ⟨hreach, hrun, hrun'⟩ := hmoment
  obtain ⟨messages₀, h₀⟩ := ledger_of_reachable hreach
  obtain ⟨messages, hledger⟩ := ledger_of_reachable ((hreach.run hrun).run hrun')
  have hstays := prefix_of_run (hrun.trans hrun') h₀ hledger
  have hnew := (planAppend_created hledger happend hcreated).2.2.2.2.1
  obtain rfl := messages_eq hnew hlogged
  cases call with
  | accept messageId body =>
      obtain ⟨made, hmade, heq⟩ := map_eq_ok.mp hplan
      obtain rfl := Option.some.inj heq
      exact iff_of_true (told_accept hmade hledger happend hcreated) id
  | control messageId body expectedHead handle =>
      obtain ⟨made, hmade, heq⟩ := map_eq_ok.mp hplan
      obtain rfl := Option.some.inj heq
      rcases planControl_eq_ok hmade with hthere | hstate
      · exact absurd (planAppend_created hledger happend hcreated).1
          (Moment.Valid.messageRow ⟨hreach, hrun, hrun'⟩ hthere)
      · exact iff_of_true (hstate.told h₀ hledger hstays happend hcreated) id
  | pause messageId =>
      obtain ⟨made, hmade, heq⟩ := map_eq_ok.mp hplan
      obtain rfl := Option.some.inj heq
      exact told_pause hmade ⟨hreach, hrun, hrun'⟩ h₀ hledger hstays happend hcreated
  | resume messageId inputId =>
      obtain ⟨made, hmade, heq⟩ := map_eq_ok.mp hplan
      obtain rfl := Option.some.inj heq
      exact iff_of_true
        (told_resume hmade ⟨hreach, hrun, hrun'⟩ h₀ hledger hstays happend hcreated) id
  | recordFailure messageId error boundary =>
      exact iff_of_true
        ((planFailure_eq_ok hplan).told h₀ hledger hstays happend hcreated) id

end Notices

/-! ### A round that a newer input has withdrawn -/

/-- The clock and the grant of a call. -/
def openHours : Ambient :=
  ⟨⟨"2026-01-02T00:00:00+00:00"⟩, true, true, []⟩

/-- The source of a session. -/
def chatSource : SourceSession where
  sessionId := "session"
  inputs := inputWriter []
  controls := { Writer.ungranted "session" "user" "chat" with bodyTypes := [.control] }
  writers_ok := ⟨rfl, rfl, rfl⟩

/-- The log after a second input. -/
def queuedLog : Log :=
  (firstLog.append (inputWriter []) openHours "input-2" (.input ⟨[]⟩) none none).2

theorem reachable_queuedLog : ledger.Reachable queuedLog := by
  have hinit : ledger.Reachable ⟨.fresh, .empty⟩ :=
    Transition.System.ReachableVia.init ⟨rfl, fun _ => rfl⟩
  have hstep : ledger.step ⟨.fresh, .empty⟩ firstInput firstLog := rfl
  have hnext : ledger.step firstLog
    (.append (inputWriter []) openHours "input-2" (.input ⟨[]⟩) none none) queuedLog := rfl
  exact (hinit.step trivial hstep).step trivial hnext

/-- The task of the first input, withdrawn by the second one, while the source is stopped. -/
def stopMoment : Moment :=
  ⟨queuedLog, some ⟨"task", false, 0⟩, none, queuedLog, true, queuedLog, openHours,
    some ⟨"task", false, 0⟩⟩

/-- What the stop tells, and whether the source waits after it. -/
def stopTold : Except PyError (Option (Option Bool × Except PyError Bool)) :=
  (chatSource.call (.pause "stop") [stopMoment]).map fun result => result.map fun found =>
    (found.2.notice, (found.2.log.db.messages.mapM messageOf).map fun logged =>
      needsReply (ofSession "session" logged) "chat")

/-- **The stop of a round says that the source does not wait**, and it does: the second input has
no reply yet. -/
theorem stop_untrue : stopMoment.Valid ∧ chatSource.LeavesInput stopMoment (.pause "stop") ∧
    stopTold = .ok (some (some false, .ok true)) := by
  refine ⟨⟨reachable_queuedLog, .refl _, .refl _⟩,
    ⟨⟨_, rfl, rfl, by decide +kernel, by decide +kernel⟩, rfl⟩, rfl⟩

/-- The stop of the source while its task is active. -/
def activeMoment : Moment :=
  { stopMoment with task := some ⟨"task", true, 0⟩, current := some ⟨"task", true, 0⟩ }

/-- The stop of an active task covers both inputs, and what it says is true. -/
theorem notices_iff_active : ∃ receipt logged,
    chatSource.call (.pause "stop") [activeMoment] = .ok (some (activeMoment, receipt)) ∧
      receipt.created = true ∧ receipt.signal = some .interrupt ∧
      (receipt.created = true →
        (receipt.notice = some (needsReply (ofSession "session" logged) "chat") ↔
          ¬chatSource.LeavesInput activeMoment (.pause "stop"))) ∧
      (receipt.created = false → receipt.notice = none ∧ receipt.signal = none) := by
  have hvalid : ∀ mo ∈ [activeMoment], mo.Valid := by
    intro mo hmo
    obtain rfl := List.mem_singleton.mp hmo
    exact ⟨reachable_queuedLog, .refl _, .refl _⟩
  obtain ⟨receipt, hcall, hcreated, hsignal⟩ : ∃ receipt,
      chatSource.call (.pause "stop") [activeMoment] = .ok (some (activeMoment, receipt)) ∧
        receipt.created = true ∧ receipt.signal = some .interrupt := ⟨_, rfl, rfl, rfl⟩
  obtain ⟨messages, hledger⟩ := ledger_of_reachable reachable_queuedLog
  obtain ⟨-, plan, -, happend⟩ := call_eq_ok hcall
  have hnew := (planAppend_created hledger happend hcreated).2.2.2.2.1
  exact ⟨receipt, _, hcall, hcreated, hsignal, notices_iff hvalid hcall hnew.decodes⟩

end Kirakira.Sources
