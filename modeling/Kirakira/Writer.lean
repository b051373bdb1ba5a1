import Kirakira.Database

/-!
# The Message Writer

`MessageWriter` and `PreparedAppend` of `plugins/ledger/log.py`: the grant a writer holds,
the replay of an accepted identity, the preparation of a new message, and the insertion.
Everything here runs inside a write transaction, whose state `Tx` is the database as the
transaction sees it and what the transaction will publish once it has committed. Code
over that state keeps the rows a failed operation has already written, as SQLite does;
undoing them is the business of the transaction.

The callbacks a writer is built with, the append checks of the log and the clock are not
part of the ledger: the callbacks are fields of `Writer`, and what a single call finds
around it is an `Ambient`.

## Main results

* `insert_spec` — everything an insertion that returns has checked and changed.
* `append_spec`, `appendPrepared_spec` — an append that returns has replayed an accepted
  message and changed nothing, or has inserted a new one.
-/

namespace Kirakira

open Exceptions

/-! ### Exceptions of this layer -/

/-- `raise PermissionError(text)`. -/
def permissionError {α : Type} (text : String) : Except PyError α :=
  .error ⟨.permissionError, text⟩

/-- `raise MessageConflict(text)`. -/
def messageConflict {α : Type} (text : String) : Except PyError α :=
  .error ⟨.messageConflict, text⟩

/-- `raise WriterExpired("writer 已失效")`. -/
def writerExpired {α : Type} : Except PyError α :=
  .error ⟨.writerExpired, "writer 已失效"⟩

/-- `raise SourceHeadConflict(…)`. -/
def sourceHeadConflict {α : Type} (head expected : ℤ) : Except PyError α :=
  .error ⟨.sourceHeadConflict, s!"来源 head 已变化: {head} != {expected}"⟩

/-! ### The transaction state -/

/-- The state of a write transaction: the database it sees, the body types and heads it
will announce and the messages it has appended. `notifyPending = none` announces a change
to everybody. -/
structure Tx where
  db : Db
  notifyPending : Option (List BodyType)
  pendingHeads : AList fun _ : String => ℕ
  pendingMessages : List Message

/-- The state a write transaction starts in. -/
def Tx.start (db : Db) : Tx :=
  ⟨db, some [], ∅, []⟩

/-- Code inside a write transaction. -/
abbrev TxM (α : Type) := EStateM PyError Tx α

/-- One SQL statement. -/
def statement (f : Db → Except PyError Db) : TxM Unit := do
  let tx ← get
  let db ← lift (f tx.db)
  modify fun tx => { tx with db := db }

variable {tx tx' : Tx} {messageId : String}

variable {u : Unit}

theorem run_statement_eq_ok {f : Db → Except PyError Db} :
    (statement f).run tx = .ok u tx' ↔ ∃ db, f tx.db = .ok db ∧ tx' = { tx with db := db } := by
  rw [statement, run_get_bind, run_lift_bind_eq_ok]
  constructor
  · rintro ⟨db, hdb, hlast⟩
    cases hlast
    exact ⟨db, hdb, rfl⟩
  · rintro ⟨db, hdb, rfl⟩
    exact ⟨db, hdb, rfl⟩

theorem run_statement_bind_eq_ok {α : Type} {f : Db → Except PyError Db} {g : Unit → TxM α}
    {a : α} :
    (statement f >>= g).run tx = .ok a tx' ↔
      ∃ db, f tx.db = .ok db ∧ (g ()).run { tx with db := db } = .ok a tx' := by
  rw [run_bind_eq_ok]
  constructor
  · rintro ⟨_, tx₁, hstep, hrest⟩
    obtain ⟨db, hdb, rfl⟩ := run_statement_eq_ok.mp hstep
    exact ⟨db, hdb, hrest⟩
  · rintro ⟨db, hdb, hrest⟩
    exact ⟨(), _, run_statement_eq_ok.mpr ⟨db, hdb, rfl⟩, hrest⟩

/-- `_changed(type(body), message)`. -/
def Tx.changed (tx : Tx) (type : BodyType) (message : Message) : Tx :=
  { tx with
    notifyPending := tx.notifyPending.map fun types => types.insert type
    pendingHeads := tx.pendingHeads.insert message.sessionId message.seq
    pendingMessages := tx.pendingMessages ++ [message] }

/-! ### Writers -/

/-- `ContentReferences`. -/
structure ContentReferences where
  bindingIds : List String
  artifactIds : List String

/-- `MessageWriter`: the session, author and source it writes as, and its grant. -/
structure Writer where
  sessionId : String
  author : String
  source : String
  bodyTypes : List BodyType
  content : String → Option (ContentPart → Except PyError ContentReferences)
  callRef : Option CallRef
  checkCall : Option (ToolCall → Except PyError Unit)
  metadataKeys : List String
  updateMetadata : Option (Body → Except PyError (List (String × Json)))
  messageMetadataKeys : List String
  checkMetadata : Option (Metadata → Except PyError Unit)

/-- What a call finds around it: the clock, whether the writer is still active when the
call looks for the first time and when the insertion looks again, and the registered
append checks. -/
structure Ambient where
  now : Instant
  active : Bool
  granted : Bool
  checks : List (Db → Message → Except PyError Unit)

/-- `_check_grant`. -/
def Writer.checkGrant (w : Writer) (body : Body) : Except PyError Unit :=
  if w.bodyTypes.contains body.type = false then permissionError "writer 未获授该消息类型"
  else
    match body with
    | .toolResult r =>
        if w.callRef ≠ some r.callRef then permissionError "工具结果不属于 writer 获授的调用"
        else .ok ()
    | _ => .ok ()

/-- Whether the metadata has no namespace. -/
def Metadata.isEmpty (metadata : Metadata) : Bool :=
  (mappingFields metadata.json).isEmpty

/-- `_metadata`: the grant is checked and the metadata frozen. -/
def Writer.metadata (w : Writer) (body : Body) (metadata : Option Json) :
    Except PyError Metadata := do
  w.checkGrant body
  let value ← freezeMetadata (metadata.getD (.obj []))
  if w.checkMetadata.isNone = true ∧
      (Json.keys (mappingFields value.json)).all (w.messageMetadataKeys.contains ·) = false then
    permissionError "writer 未获授这些 Message metadata 命名空间"
  else return value

/-- `_replay`: the accepted message of that identity, when the content is the same. -/
def Writer.replay (w : Writer) (db : Db) (messageId : String) (body : Body)
    (metadata : Metadata) : Except PyError (Option Message) :=
  match db.messageRow messageId with
  | none =>
      if body.legacyUnknown = true then (encodeBody body false).map fun _ => none
      else .ok none
  | some old => do
      let payload ← encodeBody body true
      if (old.sessionKey, old.author, old.source, old.body)
          ≠ (w.sessionId, w.author, w.source, payload) then
        messageConflict "message_id 已用于不同的不可变内容"
      else do
        let previous ← messageOf old
        if previous.metadata ≠ metadata then
          messageConflict "message_id 已用于不同的不可变 metadata"
        else return some previous

/-- One part of `_references`: the grant to propose the call or to write the content. -/
def Writer.addReferences (w : Writer) (acc : List String × List String) :
    Part → Except PyError (List String × List String)
  | .toolCall call =>
      match w.checkCall with
      | none => permissionError "writer 未获授工具调用提出权"
      | some check => do
          check call
          return (acc.1.insert call.bindingId, acc.2)
  | .content part =>
      match w.content part.kind with
      | none => permissionError ("writer 未获授内容类型 " ++ part.kind)
      | some validator => do
          let references ← validator part
          return (references.bindingIds.foldl (fun ids id => ids.insert id) acc.1,
            acc.2 ++ references.artifactIds)

/-- `_references`: the bindings and artifacts the parts refer to. -/
def Writer.references (w : Writer) (body : Body) : Except PyError (List String × List String) :=
  body.parts.foldlM w.addReferences ([], [])

/-- `_PreparedMessage`. -/
structure PreparedMessage where
  body : Body
  metadata : Metadata
  bindings : List String
  artifacts : List String
  sessionMetadata : List (String × Json)

/-- The metadata check of `_prepare`, made of metadata that is not empty. -/
def Writer.checkNewMetadata (w : Writer) (metadata : Metadata) : Except PyError Unit :=
  match w.checkMetadata with
  | some check => if metadata.isEmpty = true then .ok () else check metadata
  | none => .ok ()

/-- The session metadata changes a body makes. -/
def Writer.sessionChanges (w : Writer) (body : Body) : Except PyError (List (String × Json)) :=
  match w.updateMetadata with
  | some update => update body
  | none => .ok []

/-- `_prepare`: the content checks of a new message and its session metadata. -/
def Writer.prepare (w : Writer) (body : Body) (metadata : Metadata) :
    Except PyError PreparedMessage := do
  w.checkNewMetadata metadata
  let references ← w.references body
  let changes ← w.sessionChanges body
  if (Json.keys changes).all (w.metadataKeys.contains ·) = false then
    permissionError "writer 未获授这些 Session metadata 键"
  else do
    let frozen ← freezeJson (.obj changes)
    return ⟨body, metadata, references.1, references.2, mappingFields frozen.json⟩

variable {w : Writer} {db' : Db} {env : Ambient}

theorem prepare_spec {body : Body} {metadata : Metadata} {p : PreparedMessage}
    (h : w.prepare body metadata = .ok p) : p.body = body ∧ p.metadata = metadata := by
  unfold Writer.prepare at h
  obtain ⟨_, _, h⟩ := bind_eq_ok.mp h
  obtain ⟨_, _, h⟩ := bind_eq_ok.mp h
  obtain ⟨_, _, h⟩ := bind_eq_ok.mp h
  split at h
  · cases h
  · obtain ⟨_, _, h⟩ := bind_eq_ok.mp h
    obtain rfl := Except.ok.inj h
    exact ⟨rfl, rfl⟩

/-! ### Insertion -/

/-- `_check_artifacts`. -/
def checkArtifacts (db : Db) (artifacts : List String) : Except PyError Unit :=
  if artifacts.all (fun id => db.attachments.lookup id = some "ready") = true then .ok ()
  else valueError "附件引用必须指向已发布的不可变资源"

/-- `_check_call_result`: the address is a tool call of the same session and source that
has no result. -/
def Writer.checkCallResult (w : Writer) (db : Db) (r : ToolResult) : Except PyError Unit :=
  match db.messageRow r.callRef.messageId with
  | none => valueError "调用不在 writer 获授的 Session/source 内"
  | some call =>
      if (call.sessionKey, call.source) ≠ (w.sessionId, w.source) then
        valueError "调用不在 writer 获授的 Session/source 内"
      else if bodyKind call.body ≠ some (.str "output") ∨
          partKind call.body r.callRef.partIndex ≠ some (.str "tool_call") then
        valueError "call_ref 未指向真实工具调用"
      else if db.messages.any (fun row =>
          callKey row.body = some (.str r.callRef.messageId, .int r.callRef.partIndex)) then
        messageConflict "该工具调用已经有结果消息"
      else .ok ()

/-- The comparison of the source head with the one the caller expects. -/
def Writer.checkHead (w : Writer) (db : Db) : Option ℤ → Except PyError Unit
  | none => .ok ()
  | some expected =>
      if db.sourceHead w.sessionId w.source = expected then .ok ()
      else sourceHeadConflict (db.sourceHead w.sessionId w.source) expected

/-- The check of the call address, made of tool results only. -/
def Writer.checkResult (w : Writer) (db : Db) : Body → Except PyError Unit
  | .toolResult r => w.checkCallResult db r
  | _ => .ok ()

/-- The checks of `_insert` before its first write. -/
def Writer.checkInsert (w : Writer) (db : Db) (prepared : PreparedMessage)
    (expectedSourceHead : Option ℤ) : Except PyError Unit := do
  w.checkHead db expectedSourceHead
  checkArtifacts db prepared.artifacts
  w.checkResult db prepared.body

/-- `updated[key] = value`, or `updated.pop(key, None)` where the value is `None`. -/
def mergeField (fields : List (String × Json)) (change : String × Json) :
    List (String × Json) :=
  if change.2 = .null then fields.filter fun f => f.1 ≠ change.1
  else if (Json.keys fields).contains change.1 then setField fields change.1 change.2
  else fields ++ [change]

/-- `MessageReader.metadata`. -/
def Db.sessionMetadata (db : Db) (sessionId : String) : Except PyError (Option FrozenJson) :=
  match (db.sessions.lookup sessionId).bind SessionRow.metadata with
  | none => .ok none
  | some raw => (jsonObject raw ("Session " ++ sessionId ++ " metadata")).map some

/-- `dict(current) if current is not None else {}`. -/
def currentFields (current : Option FrozenJson) : List (String × Json) :=
  (current.map fun value => mappingFields value.json).getD []

/-- The write of merged session metadata, made when the merge has changed it; numbers are
compared as they print. -/
def writeSessionMetadata (sessionId : String) (fields updated : List (String × Json))
    (db : Db) : Except PyError Db :=
  if (Json.obj updated).sortKeys = (Json.obj fields).sortKeys then .ok db
  else do
    let frozen ← freezeJson (.obj updated)
    return db.updateSession sessionId fun row => { row with metadata := some frozen.json }

/-- The merge of the granted keys into the metadata of the session. -/
def mergeSessionMetadata (sessionId : String) (changes : List (String × Json)) (db : Db) :
    Except PyError Db :=
  if changes.isEmpty = true then .ok db
  else do
    let current ← db.sessionMetadata sessionId
    writeSessionMetadata sessionId (currentFields current)
      (changes.foldl mergeField (currentFields current)) db

/-- `if not self._active: raise WriterExpired("writer 已失效")`. -/
def checkActive (active : Bool) : Except PyError Unit :=
  if active = true then .ok () else writerExpired

/-- The writes of `_insert` for a row of `messages`: the row itself, its attachments and
binding links, the counter of the session, and the session metadata. -/
def insertRows (row : MessageRow) (prepared : PreparedMessage) : TxM Unit := do
  statement fun db => db.insertMessage row
  prepared.artifacts.zipIdx.forM fun a => statement fun db =>
    db.insertAttachment row.id a.2 a.1
  prepared.bindings.forM fun bindingId => statement fun db =>
    db.insertMessageBinding row.id bindingId
  statement fun db => .ok (db.updateSession row.sessionKey fun session =>
    { session with nextSeq := row.seq + 1, updatedAt := row.ts })
  statement (mergeSessionMetadata row.sessionKey prepared.sessionMetadata)

/-- `_insert`. -/
def Writer.insert (w : Writer) (env : Ambient) (messageId : String)
    (prepared : PreparedMessage) (expectedSourceHead : Option ℤ) : TxM Message := do
  lift (checkActive env.granted)
  let payload ← lift (encodeBody prepared.body true)
  let tx ← get
  lift (w.checkInsert tx.db prepared expectedSourceHead)
  statement fun db => .ok (db.admitSession w.sessionId env.now)
  let tx ← get
  let seq := tx.db.nextSeq w.sessionId
  let message ← lift (Message.new messageId w.sessionId seq env.now w.author w.source
    prepared.body prepared.metadata)
  lift (env.checks.forM fun check => check tx.db message)
  insertRows ⟨messageId, w.sessionId, seq, env.now, w.author, w.source, payload,
    prepared.metadata.json⟩ prepared
  modify fun tx => tx.changed prepared.body.type message
  return message

/-- What an insertion that returned has checked and changed. -/
structure Inserted (w : Writer) (messageId : String) (prepared : PreparedMessage)
    (expectedSourceHead : Option ℤ) (tx : Tx) (m : Message) (tx' : Tx) : Prop where
  messageId_eq : m.messageId = messageId
  sessionId_eq : m.sessionId = w.sessionId
  author_eq : m.author = w.author
  source_eq : m.source = w.source
  body_eq : m.body = prepared.body
  metadata_eq : m.metadata = prepared.metadata
  seq_eq : m.seq = tx.db.nextSeq w.sessionId
  checked : w.checkInsert tx.db prepared expectedSourceHead = .ok ()
  fresh : ∀ old ∈ tx.db.messages, old.id ≠ messageId
  free : ∀ old ∈ tx.db.messages, old.sessionKey = w.sessionId → old.seq ≠ m.seq
  messages : tx'.db.messages = tx.db.messages ++ [m.row]
  nextSeq_self : tx'.db.nextSeq w.sessionId = m.seq + 1
  nextSeq_other : ∀ key, key ≠ w.sessionId → tx'.db.nextSeq key = tx.db.nextSeq key
  admitted : ∀ key, (tx'.db.sessions.lookup key).isSome
    = (decide (key = w.sessionId) || (tx.db.sessions.lookup key).isSome)
  ownerRecords : tx'.db.ownerRecords = tx.db.ownerRecords
  revision : tx'.db.revision = if tx.db.insertFires m.row then tx.db.revision + 1
    else tx.db.revision
  notifyPending : tx'.notifyPending = tx.notifyPending.map fun types => types.insert m.body.type
  pendingHeads : tx'.pendingHeads = tx.pendingHeads.insert m.sessionId m.seq
  pendingMessages : tx'.pendingMessages = tx.pendingMessages ++ [m]

/-- Two databases that differ at most in what the message log does not depend on: the
stamps and metadata of the sessions, the attachments and the links. -/
structure Db.SameLog (db db' : Db) : Prop where
  messages : db'.messages = db.messages
  nextSeq : ∀ key, db'.nextSeq key = db.nextSeq key
  admitted : ∀ key, (db.sessions.lookup key).isSome = true →
    (db'.sessions.lookup key).isSome = true
  ownerRecords : db'.ownerRecords = db.ownerRecords
  revision : db'.revision = db.revision

theorem Db.SameLog.refl (db : Db) : db.SameLog db :=
  ⟨rfl, fun _ => rfl, fun _ h => h, rfl, rfl⟩

theorem Db.SameLog.trans {a b c : Db} (h₁ : a.SameLog b) (h₂ : b.SameLog c) : a.SameLog c :=
  ⟨h₂.messages.trans h₁.messages, fun key => (h₂.nextSeq key).trans (h₁.nextSeq key),
    fun key h => h₂.admitted key (h₁.admitted key h), h₂.ownerRecords.trans h₁.ownerRecords,
    h₂.revision.trans h₁.revision⟩

/-- Statements that each keep the log keep it one after the other, and touch nothing that
will be published. -/
theorem run_forM_statement {α : Type} {f : α → Db → Except PyError Db}
    (hf : ∀ a db db', f a db = .ok db' → db.SameLog db') {xs : List α} {u : PUnit}
    (h : (xs.forM fun a => statement (f a)).run tx = .ok u tx') :
    ∃ db, tx' = { tx with db := db } ∧ tx.db.SameLog db := by
  induction xs generalizing tx with
  | nil =>
      cases h
      exact ⟨_, rfl, Db.SameLog.refl _⟩
  | cons a xs ih =>
      change ((statement (f a)) >>= fun _ => xs.forM fun a => statement (f a)).run tx = _ at h
      obtain ⟨db, hdb, hrest⟩ := run_statement_bind_eq_ok.mp h
      obtain ⟨db', rfl, hsame⟩ := ih hrest
      exact ⟨db', rfl, (hf a _ _ hdb).trans hsame⟩

theorem sameLog_mergeSessionMetadata {sessionId : String} {changes : List (String × Json)} {db : Db}
    (h : mergeSessionMetadata sessionId changes db = .ok db') : db.SameLog db' := by
  unfold mergeSessionMetadata at h
  split at h
  · cases h
    exact Db.SameLog.refl _
  · obtain ⟨current, -, h⟩ := bind_eq_ok.mp h
    unfold writeSessionMetadata at h
    split at h
    · cases h
      exact Db.SameLog.refl _
    · obtain ⟨frozen, -, h⟩ := bind_eq_ok.mp h
      obtain rfl := Except.ok.inj h
      obtain ⟨hframe, hother, hself⟩ := updateSession_spec db sessionId
        fun row => { row with metadata := some frozen.json }
      refine ⟨by rw [hframe], fun key => ?_, fun key hsome => ?_, by rw [hframe], by rw [hframe]⟩
      · by_cases hkey : key = sessionId
        · subst hkey
          rw [Db.nextSeq, hself, Db.nextSeq, Option.map_map]
          rfl
        · rw [Db.nextSeq, hother key hkey, Db.nextSeq]
      · by_cases hkey : key = sessionId
        · subst hkey
          rw [hself, Option.isSome_map]
          exact hsome
        · rw [hother key hkey]
          exact hsome

theorem sameLog_insertAttachment {db : Db} {artifactId : String} {ordinal : ℕ}
    (h : db.insertAttachment messageId ordinal artifactId = .ok db') : db.SameLog db' := by
  rw [insertAttachment_eq_ok h]
  exact ⟨rfl, fun _ => rfl, fun _ h => h, rfl, rfl⟩

theorem sameLog_insertMessageBinding {db : Db} {bindingId : String}
    (h : db.insertMessageBinding messageId bindingId = .ok db') : db.SameLog db' := by
  rw [insertMessageBinding_eq_ok h]
  exact ⟨rfl, fun _ => rfl, fun _ h => h, rfl, rfl⟩

theorem forM_insertAttachment {id : String} {artifacts : List (String × ℕ)} {u : PUnit}
    (h : (artifacts.forM fun a => statement fun db =>
      db.insertAttachment id a.2 a.1).run tx = .ok u tx') :
    tx' = { tx with db := { tx.db with messageAttachments :=
      tx.db.messageAttachments ++ artifacts.map fun a => (id, a.2, a.1) } } := by
  induction artifacts generalizing tx with
  | nil =>
      cases h
      simp
  | cons a artifacts ih =>
      change ((statement fun db => db.insertAttachment id a.2 a.1) >>= fun _ =>
        artifacts.forM fun a => statement fun db => db.insertAttachment id a.2 a.1).run tx = _ at h
      obtain ⟨db, hdb, hrest⟩ := run_statement_bind_eq_ok.mp h
      obtain rfl := insertAttachment_eq_ok hdb
      rw [ih hrest, List.map_cons, List.append_assoc, List.singleton_append]

theorem forM_insertMessageBinding {id : String} {bindings : List String} {u : PUnit}
    (h : (bindings.forM fun bindingId => statement fun db =>
      db.insertMessageBinding id bindingId).run tx = .ok u tx') :
    tx' = { tx with db := { tx.db with messageBindings :=
      tx.db.messageBindings ++ bindings.map fun bindingId => (id, bindingId) } } := by
  induction bindings generalizing tx with
  | nil =>
      cases h
      simp
  | cons b bindings ih =>
      change ((statement fun db => db.insertMessageBinding id b) >>= fun _ =>
        bindings.forM fun b => statement fun db => db.insertMessageBinding id b).run tx = _ at h
      obtain ⟨db, hdb, hrest⟩ := run_statement_bind_eq_ok.mp h
      obtain rfl := insertMessageBinding_eq_ok hdb
      rw [ih hrest, List.map_cons, List.append_assoc, List.singleton_append]

theorem admitted_updateSession (db : Db) (sessionId : String) (f : SessionRow → SessionRow)
    (key : String) : ((db.updateSession sessionId f).sessions.lookup key).isSome
      = (db.sessions.lookup key).isSome := by
  obtain ⟨-, hother, hself⟩ := updateSession_spec db sessionId f
  by_cases hkey : key = sessionId
  · rw [hkey, hself, Option.isSome_map]
  · rw [hother key hkey]

theorem admitted_mergeSessionMetadata {sessionId : String} {changes : List (String × Json)}
    {db : Db} (h : mergeSessionMetadata sessionId changes db = .ok db') (key : String) :
    (db'.sessions.lookup key).isSome = (db.sessions.lookup key).isSome := by
  unfold mergeSessionMetadata at h
  split at h
  · cases h
    rfl
  · obtain ⟨current, -, h⟩ := bind_eq_ok.mp h
    unfold writeSessionMetadata at h
    split at h
    · cases h
      rfl
    · obtain ⟨frozen, -, h⟩ := bind_eq_ok.mp h
      obtain rfl := Except.ok.inj h
      exact admitted_updateSession _ _ _ key

variable {prepared : PreparedMessage} {expected : Option ℤ}

theorem admitted_insertRows {row : MessageRow} (h : (insertRows row prepared).run tx = .ok u tx')
    (key : String) : (tx'.db.sessions.lookup key).isSome = (tx.db.sessions.lookup key).isSome := by
  unfold insertRows at h
  obtain ⟨db₁, hinsert, h⟩ := run_statement_bind_eq_ok.mp h
  obtain ⟨-, -, -, rfl⟩ := insertMessage_eq_ok hinsert
  obtain ⟨_, tx₂, hattach, h⟩ := run_bind_eq_ok.mp h
  obtain rfl := forM_insertAttachment hattach
  obtain ⟨_, tx₃, hbind, h⟩ := run_bind_eq_ok.mp h
  obtain rfl := forM_insertMessageBinding hbind
  obtain ⟨db₄, hupdate, h⟩ := run_statement_bind_eq_ok.mp h
  obtain rfl := Except.ok.inj hupdate
  obtain ⟨db₅, hmerge, rfl⟩ := run_statement_eq_ok.mp h
  rw [admitted_mergeSessionMetadata hmerge, admitted_updateSession]

/-- What the writes of an insertion change: one message more, and the counter of its
session. -/
theorem insertRows_spec {row : MessageRow} (h : (insertRows row prepared).run tx = .ok u tx')
    (hadmitted : (tx.db.sessions.lookup row.sessionKey).isSome = true) :
    ∃ db, tx' = { tx with db := db } ∧
      (∀ old ∈ tx.db.messages, old.id ≠ row.id) ∧
      (∀ old ∈ tx.db.messages, old.sessionKey = row.sessionKey → old.seq ≠ row.seq) ∧
      db.messages = tx.db.messages ++ [row] ∧
      db.nextSeq row.sessionKey = row.seq + 1 ∧
      (∀ key, key ≠ row.sessionKey → db.nextSeq key = tx.db.nextSeq key) ∧
      db.ownerRecords = tx.db.ownerRecords ∧
      db.revision = if tx.db.insertFires row then tx.db.revision + 1 else tx.db.revision := by
  unfold insertRows at h
  obtain ⟨db₁, hinsert, h⟩ := run_statement_bind_eq_ok.mp h
  obtain ⟨hid, hfree, -, rfl⟩ := insertMessage_eq_ok hinsert
  obtain ⟨_, tx₂, hattach, h⟩ := run_bind_eq_ok.mp h
  obtain ⟨_, tx₃, hbind, h⟩ := run_bind_eq_ok.mp h
  obtain ⟨db₂, rfl, hsame₂⟩ := run_forM_statement
    (f := fun (a : String × ℕ) db => db.insertAttachment row.id a.2 a.1)
    (fun _ _ _ => sameLog_insertAttachment) hattach
  obtain ⟨db₃, rfl, hsame₃⟩ := run_forM_statement
    (f := fun bindingId db => db.insertMessageBinding row.id bindingId)
    (fun _ _ _ => sameLog_insertMessageBinding) hbind
  obtain ⟨db₄, hupdate, h⟩ := run_statement_bind_eq_ok.mp h
  obtain rfl := Except.ok.inj hupdate
  obtain ⟨db₅, hmerge, rfl⟩ := run_statement_eq_ok.mp h
  have hsame := hsame₂.trans hsame₃
  have hmerged := sameLog_mergeSessionMetadata hmerge
  obtain ⟨hframe, hother, hself⟩ := updateSession_spec db₃ row.sessionKey
    fun session => { session with nextSeq := row.seq + 1, updatedAt := row.ts }
  refine ⟨db₅, rfl, hid, hfree, ?_, ?_, ?_, ?_, ?_⟩
  · rw [hmerged.messages, hframe]
    exact hsame.messages
  · have hsome := hsame.admitted row.sessionKey hadmitted
    obtain ⟨session, hsession⟩ := Option.isSome_iff_exists.mp hsome
    rw [hmerged.nextSeq, Db.nextSeq, hself, hsession]
    rfl
  · intro key hkey
    rw [hmerged.nextSeq, Db.nextSeq, hother key hkey]
    exact hsame.nextSeq key
  · rw [hmerged.ownerRecords, hframe]
    exact hsame.ownerRecords
  · rw [hmerged.revision, hframe]
    exact hsame.revision

theorem checkActive_eq_ok {active : Bool} : checkActive active = .ok u ↔ active = true := by
  cases active <;> simp [checkActive, writerExpired]

/-- **What an insertion that returns has checked and changed.** -/
theorem insert_spec {m : Message}
    (h : (w.insert env messageId prepared expected).run tx = .ok m tx') :
    env.granted = true ∧ Inserted w messageId prepared expected tx m tx' := by
  unfold Writer.insert at h
  obtain ⟨_, hgrant, h⟩ := run_lift_bind_eq_ok.mp h
  refine ⟨checkActive_eq_ok.mp hgrant, ?_⟩
  obtain ⟨body, henc, h⟩ := run_lift_bind_eq_ok.mp h
  rw [encodeBody_eq] at henc
  obtain rfl := Except.ok.inj henc
  rw [run_get_bind] at h
  obtain ⟨_, hcheck, h⟩ := run_lift_bind_eq_ok.mp h
  obtain ⟨db₁, hdb₁, h⟩ := run_statement_bind_eq_ok.mp h
  obtain rfl := Except.ok.inj hdb₁
  rw [run_get_bind] at h
  obtain ⟨m', hnew, h⟩ := run_lift_bind_eq_ok.mp h
  obtain ⟨_, -, h⟩ := run_lift_bind_eq_ok.mp h
  obtain ⟨_, tx₂, hrows, h⟩ := run_bind_eq_ok.mp h
  obtain ⟨hframe, hnext, hsome⟩ := admitSession_spec tx.db w.sessionId env.now
  have hadmitted := admitted_insertRows hrows
  obtain ⟨db₂, rfl, hid, hfree, hmessages, hself, hother, howner, hrevision⟩ :=
    insertRows_spec hrows hsome
  rw [run_modify_bind] at h
  cases h
  obtain ⟨hmid, hsession, hseq, hat, hauthor, hsource, hbody, hmeta⟩ := Message.new_fields hnew
  have hrow : m.row = ⟨messageId, w.sessionId,
      (tx.db.admitSession w.sessionId env.now).nextSeq w.sessionId, env.now, w.author, w.source,
      payload prepared.body, prepared.metadata.json⟩ := by
    rw [Message.row, hmid, hsession, hseq, hat, hauthor, hsource, hbody, hmeta]
  have htables : (tx.db.admitSession w.sessionId env.now).messages = tx.db.messages := by
    rw [hframe]
  exact {
    messageId_eq := hmid
    sessionId_eq := hsession
    author_eq := hauthor
    source_eq := hsource
    body_eq := hbody
    metadata_eq := hmeta
    seq_eq := hseq.trans (hnext _)
    checked := hcheck
    fresh := by rw [← htables]; exact hid
    free := by rw [← htables, hseq]; exact hfree
    messages := by rw [hrow, ← htables]; exact hmessages
    nextSeq_self := by rw [hseq]; exact hself
    nextSeq_other := fun key hkey => (hother key hkey).trans (hnext key)
    admitted := fun key => (hadmitted key).trans (admitted_admitSession tx.db w.sessionId env.now key)
    ownerRecords := howner.trans (by rw [hframe])
    revision := by
      rw [hrow]
      refine hrevision.trans ?_
      rw [Db.insertFires, Db.insertFires, htables, hframe]
    notifyPending := by rw [hbody]; rfl
    pendingHeads := rfl
    pendingMessages := rfl }

/-! ### Appends -/

/-- `MessageWriter._append`: an accepted identity is replayed before anything else is
looked at. -/
def Writer.append (w : Writer) (env : Ambient) (messageId : String) (body : Body)
    (expectedSourceHead : Option ℤ) (metadata : Option Json) : TxM Message := do
  let value ← lift (w.metadata body metadata)
  let tx ← get
  match ← lift (w.replay tx.db messageId body value) with
  | some previous => return previous
  | none => do
      lift (checkActive env.active)
      let prepared ← lift (w.prepare body value)
      w.insert env messageId prepared expectedSourceHead

/-- `PreparedAppend`: one append, fixed with its writer and its checked content. -/
structure PreparedAppend where
  writer : Writer
  messageId : String
  body : Body
  metadata : Metadata
  prepared : Option PreparedMessage
  existing : Option Message
  prepared_ok : ∀ p, prepared = some p → p.body = body ∧ p.metadata = metadata

/-- `prepare_async`: the replay in one read snapshot, then the content checks. -/
def Writer.prepareAsync (w : Writer) (db : Db) (active : Bool) (messageId : String)
    (body : Body) (metadata : Option Json) : Except PyError PreparedAppend := do
  let value ← w.metadata body metadata
  match ← w.replay db messageId body value with
  | some existing => return ⟨w, messageId, body, value, none, some existing, by simp⟩
  | none => do
      checkActive active
      match h : w.prepare body value with
      | .error e => .error e
      | .ok p => return ⟨w, messageId, body, value, some p, none, fun q hq => by
          obtain rfl := Option.some.inj hq
          exact prepare_spec h⟩

/-- `PreparedAppend._append`; the flag is whether the message is new. -/
def PreparedAppend.append (p : PreparedAppend) (env : Ambient)
    (expectedSourceHead : Option ℤ) : TxM (Message × Bool) := do
  let tx ← get
  match ← lift (p.writer.replay tx.db p.messageId p.body p.metadata) with
  | some previous => return (previous, false)
  | none =>
      match p.prepared with
      | none => lift (messageConflict "预备追加的既有消息已被删除")
      | some prepared => do
          let message ← p.writer.insert env p.messageId prepared expectedSourceHead
          return (message, true)

/-- What an append that returned did: it replayed the accepted message and changed
nothing, or it inserted a message with the given body and metadata. -/
def Appended (w : Writer) (messageId : String) (body : Body) (metadata : Metadata)
    (expectedSourceHead : Option ℤ) (tx : Tx) (m : Message) (tx' : Tx) : Prop :=
  (w.replay tx.db messageId body metadata = .ok (some m) ∧ tx' = tx) ∨
    (w.replay tx.db messageId body metadata = .ok none ∧
      ∃ prepared : PreparedMessage, prepared.body = body ∧ prepared.metadata = metadata ∧
        Inserted w messageId prepared expectedSourceHead tx m tx')

theorem ownerRecords_of_appended {body : Body} {metadata : Metadata} {m : Message}
    (h : Appended w messageId body metadata expected tx m tx') :
    tx'.db.ownerRecords = tx.db.ownerRecords := by
  obtain ⟨-, rfl⟩ | ⟨-, prepared, -, -, hinserted⟩ := h
  · rfl
  · exact hinserted.ownerRecords

/-- **An append that returns has replayed or inserted.** -/
theorem append_spec {body : Body} {metadata : Option Json} {m : Message}
    (h : (w.append env messageId body expected metadata).run tx = .ok m tx') :
    ∃ value, w.metadata body metadata = .ok value ∧
      Appended w messageId body value expected tx m tx' := by
  unfold Writer.append at h
  obtain ⟨value, hvalue, h⟩ := run_lift_bind_eq_ok.mp h
  refine ⟨value, hvalue, ?_⟩
  rw [run_get_bind] at h
  obtain ⟨previous, hreplay, h⟩ := run_lift_bind_eq_ok.mp h
  cases previous with
  | some previous =>
      cases h
      exact .inl ⟨hreplay, rfl⟩
  | none =>
      obtain ⟨_, -, h⟩ := run_lift_bind_eq_ok.mp h
      obtain ⟨prepared, hprepare, h⟩ := run_lift_bind_eq_ok.mp h
      obtain ⟨hbody, hmeta⟩ := prepare_spec hprepare
      exact .inr ⟨hreplay, prepared, hbody, hmeta, (insert_spec h).2⟩

/-- **So has a prepared append.** -/
theorem appendPrepared_spec {p : PreparedAppend} {r : Message × Bool}
    (h : (p.append env expected).run tx = .ok r tx') :
    Appended p.writer p.messageId p.body p.metadata expected tx r.1 tx' := by
  unfold PreparedAppend.append at h
  rw [run_get_bind] at h
  obtain ⟨previous, hreplay, h⟩ := run_lift_bind_eq_ok.mp h
  cases previous with
  | some previous =>
      cases h
      exact .inl ⟨hreplay, rfl⟩
  | none =>
      dsimp only at h
      split at h
      · cases h
      · next prepared hprepared =>
          obtain ⟨m, tx₁, hinsert, h⟩ := run_bind_eq_ok.mp h
          cases h
          obtain ⟨hbody, hmeta⟩ := p.prepared_ok prepared hprepared
          exact .inr ⟨hreplay, prepared, hbody, hmeta, (insert_spec hinsert).2⟩

end Kirakira
