import Kirakira.Codec
import Mathlib.Data.List.AList
import Mathlib.Data.List.MinMax

/-!
# The Message Database

The tables of `plugins/ledger/log.py` and the SQL statements the writers and readers
execute on them, for a database in the current schema. A statement that a constraint
rejects raises `IntegrityError`; what a failed statement left behind is undone by the
transaction it runs in.

JSON columns hold the tree of their text, with the fields in text order. A column the
modelled code neither reads nor writes is left out.

## Main results

* `messageOf_row` — the row an accepted message is stored as decodes to the message.
* `insertMessage_eq_ok` — what an accepted insertion checked and changed.
-/

namespace Kirakira

/-! ### Tables -/

/-- A row of `sessions`. -/
structure SessionRow where
  createdAt : Instant
  updatedAt : Instant
  metadata : Option Json
  nextSeq : ℕ
  deriving DecidableEq

/-- A row of `messages`. -/
structure MessageRow where
  id : String
  sessionKey : String
  seq : ℕ
  ts : Instant
  author : String
  source : String
  body : Json
  metadata : Json
  deriving DecidableEq

/-- `OwnerRecord`, which is also a row of `owner_records`: the value is a JSON object,
checked when it is saved. -/
structure OwnerRecord where
  version : ℕ
  value : FrozenJson
  value_ok : isMapping value.json = true

/-- The state of the database. The messages are in the order of their insertion; the
revision is that of `message_prefix_revision`. -/
structure Db where
  sessions : AList fun _ : String => SessionRow
  messages : List MessageRow
  attachments : AList fun _ : String => String
  messageAttachments : List (String × ℕ × String)
  bindings : List String
  messageBindings : List (String × String)
  ownerRecords : AList fun _ : String × String => OwnerRecord
  revision : ℕ

/-- A database as `__init__` leaves it. -/
def Db.fresh : Db where
  sessions := ∅
  messages := []
  attachments := ∅
  messageAttachments := []
  bindings := []
  messageBindings := []
  ownerRecords := ∅
  revision := 0

/-! ### Rows as messages -/

/-- `_json_object` on the tree of the stored text. -/
def jsonObject (raw : Json) (label : String) : Except PyError FrozenJson :=
  let broken (e : PyError) : PyError := ⟨.valueError, label ++ " 损坏: " ++ e.text⟩
  if raw.repeatedKey.isSome then .error (broken ⟨.valueError, "包含重复键"⟩)
  else
    match freezeJson raw with
    | .error e => .error (broken e)
    | .ok value =>
        if isMapping value.json = true then .ok value
        else .error (broken ⟨.valueError, "必须是 JSON 对象"⟩)

/-- `_message_metadata`. -/
def messageMetadata (raw : Json) (sessionId messageId : String) :
    Except PyError FrozenJson :=
  match jsonObject raw "metadata" with
  | .ok value => .ok value
  | .error e => valueError
      ("Session " ++ sessionId ++ " Message " ++ messageId ++ " metadata 损坏: " ++ e.text)

/-- The check `Message.__post_init__` makes of its metadata, which names the message in
its errors. -/
def checkedMetadata (value : Json) (sessionId messageId : String) : Except PyError Metadata :=
  match freezeMetadata value with
  | .ok metadata => .ok metadata
  | .error e => .error ⟨e.cls,
      "Session " ++ sessionId ++ " Message " ++ messageId ++ " metadata 损坏: " ++ e.text⟩

/-- `_message`: the message a row holds. -/
def messageOf (row : MessageRow) : Except PyError Message := do
  let raw ← messageMetadata row.metadata row.sessionKey row.id
  let body ← decodeBody row.body
  let metadata ← checkedMetadata raw.json row.sessionKey row.id
  Message.new row.id row.sessionKey row.seq row.ts row.author row.source body metadata

/-- The row a message is stored as. -/
def Message.row (m : Message) : MessageRow where
  id := m.messageId
  sessionKey := m.sessionId
  seq := m.seq
  ts := m.recordedAt
  author := m.author
  source := m.source
  body := payload m.body
  metadata := m.metadata.json

theorem messageMetadata_json (metadata : Metadata) (sessionId messageId : String) :
    messageMetadata metadata.json sessionId messageId
      = .ok ⟨metadata.json, metadata.ok.1⟩ := by
  have hunique : metadata.json.repeatedKey = none :=
    (Json.repeatedKey_eq_none_iff _).mpr metadata.ok.1.uniqueKeys
  have hfreeze : freezeJson metadata.json = .ok ⟨metadata.json, metadata.ok.1⟩ :=
    freezeJson_json ⟨metadata.json, metadata.ok.1⟩
  have hobject : jsonObject metadata.json "metadata" = .ok ⟨metadata.json, metadata.ok.1⟩ := by
    simp [jsonObject, hunique, hfreeze, metadata.ok.2.1]
  simp only [messageMetadata, hobject]

/-- **The row of a message decodes to the message.** -/
theorem messageOf_row (m : Message) : messageOf m.row = .ok m := by
  have hmeta := messageMetadata_json m.metadata m.sessionId m.messageId
  have hbody := decodeBody_payload m.body
  have hnew := Message.new_eq_ok m
  simp [messageOf, Message.row, hmeta, hbody, checkedMetadata, hnew, bind, Except.bind]

theorem Message.row_injective : Function.Injective Message.row := by
  intro m m' h
  have hm := messageOf_row m
  rw [h, messageOf_row m'] at hm
  exact (Except.ok.inj hm).symm

/-! ### Extraction from bodies -/

/-- `json_extract(body, '$.kind')`. -/
def bodyKind (body : Json) : Option Json :=
  body.get? "kind"

/-- `json_extract(body, '$.parts[i].kind')`. -/
def partKind (body : Json) (index : ℕ) : Option Json :=
  match body.get? "parts" with
  | some (.arr parts) => parts[index]? >>= fun part => part.get? "kind"
  | _ => none

/-- An extracted value; JSON `null` extracts as SQL `NULL`. -/
def extracted : Option Json → Option Json
  | some .null => none
  | v => v

/-- The key of the partial unique index `message_call_result`: the call address of a tool
result. A `NULL` component makes the key different from every other. -/
def callKey (body : Json) : Option (Json × Json) :=
  if bodyKind body = some (.str "tool_result") then do
    let call ← body.get? "call_ref"
    let messageId ← extracted (call.get? "message_id")
    let partIndex ← extracted (call.get? "part_index")
    return (messageId, partIndex)
  else none

/-- The text that names the kind of a body. -/
def BodyType.text : BodyType → String
  | .input => "input"
  | .output => "output"
  | .toolResult => "tool_result"
  | .control => "control"

@[simp] theorem bodyKind_payload (body : Body) :
    bodyKind (payload body) = some (.str body.type.text) := by
  cases body <;> rfl

@[simp] theorem callKey_payload (body : Body) :
    callKey (payload body) = match body with
      | .toolResult r => some (.str r.callRef.messageId, .int r.callRef.partIndex)
      | _ => none := by
  cases body <;> rfl

theorem partKind_payload {body : Body} {index : ℕ}
    (h : partKind (payload body) index = some (.str "tool_call")) :
    ∃ call, body.parts[index]? = some (.toolCall call) := by
  have hparts : ∀ parts : List Part, (payload body).get? "parts"
      = some (.arr (parts.map partPayload)) → ∃ part, parts[index]? = some part ∧
        (partPayload part).get? "kind" = some (.str "tool_call") := by
    intro parts hp
    rw [partKind, hp] at h
    obtain ⟨j, hj, hkind⟩ := Option.bind_eq_some_iff.mp h
    rw [List.getElem?_map] at hj
    obtain ⟨part, hpart, rfl⟩ := Option.map_eq_some_iff.mp hj
    exact ⟨part, hpart, hkind⟩
  have hcontrol : ∀ c, body ≠ .control c := by
    rintro c rfl
    cases h
  have hget : (payload body).get? "parts" = some (.arr (body.parts.map partPayload)) := by
    cases body with
    | control c => exact absurd rfl (hcontrol c)
    | _ => rfl
  obtain ⟨part, hpart, hkind⟩ := hparts body.parts hget
  cases part with
  | toolCall call => exact ⟨call, hpart⟩
  | content part =>
      have : part.kind = "tool_call" := by
        simpa [partPayload, Json.get?, List.lookup_cons] using hkind
      exact absurd this part.kind_ok.2

/-! ### Queries -/

/-- `SELECT MAX(seq) FROM messages WHERE …`. -/
def Db.maxSeq (db : Db) (p : MessageRow → Bool) : Option ℕ :=
  ((db.messages.filter p).map MessageRow.seq).max?

/-- `COALESCE(MAX(seq), -1)`. -/
def coalesceSeq : Option ℕ → ℤ
  | none => -1
  | some seq => seq

/-- `MessageReader.head`. -/
def Db.head (db : Db) (sessionId : String) : ℤ :=
  coalesceSeq (db.maxSeq fun row => row.sessionKey = sessionId)

/-- The head of one source, which `expected_source_head` is compared with. -/
def Db.sourceHead (db : Db) (sessionId source : String) : ℤ :=
  coalesceSeq (db.maxSeq fun row => row.sessionKey = sessionId && row.source = source)

/-- `SELECT next_seq FROM sessions WHERE key=?`; a missing row counts from `0`, as the row
that is inserted for it does. -/
def Db.nextSeq (db : Db) (sessionId : String) : ℕ :=
  ((db.sessions.lookup sessionId).map SessionRow.nextSeq).getD 0

/-- `SELECT * FROM messages WHERE id=?`. -/
def Db.messageRow (db : Db) (messageId : String) : Option MessageRow :=
  db.messages.find? fun row => row.id = messageId

/-- `source_changed`: whether an input or a control of the source follows `throughSeq`. -/
def Db.sourceChanged (db : Db) (sessionId source : String) (throughSeq : ℤ) : Bool :=
  db.messages.any fun row =>
    row.sessionKey = sessionId && row.source = source && decide (throughSeq < row.seq) &&
      (bodyKind row.body = some (.str "input") || bodyKind row.body = some (.str "control"))

/-- `raise sqlite3.IntegrityError(text)`. -/
def integrityError {α : Type} (text : String) : Except PyError α :=
  .error ⟨.integrityError, text⟩

/-- Whether the trigger `message_prefix_insert` fires before the row is inserted. -/
def Db.insertFires (db : Db) (row : MessageRow) : Bool :=
  db.messages.any fun old => (old.sessionKey = row.sessionKey && row.seq ≤ old.seq) || old.id = row.id

/-- `INSERT INTO messages`, with the trigger and the three unique constraints. -/
def Db.insertMessage (db : Db) (row : MessageRow) : Except PyError Db :=
  if db.messages.any (fun old => old.id = row.id) then
    integrityError "UNIQUE constraint failed: messages.id"
  else if db.messages.any (fun old => old.sessionKey = row.sessionKey && old.seq = row.seq) then
    integrityError "UNIQUE constraint failed: messages.session_key, messages.seq"
  else if db.messages.any (fun old => (callKey row.body).isSome && callKey old.body = callKey row.body)
  then integrityError "UNIQUE constraint failed: index 'message_call_result'"
  else .ok { db with
    messages := db.messages ++ [row]
    revision := if db.insertFires row then db.revision + 1 else db.revision }

/-- `INSERT INTO message_attachments`. -/
def Db.insertAttachment (db : Db) (messageId : String) (ordinal : ℕ) (artifactId : String) :
    Except PyError Db :=
  if db.messageAttachments.any (fun old => old.1 = messageId && old.2.1 = ordinal) then
    integrityError "UNIQUE constraint failed: message_attachments.message_id, message_attachments.ordinal"
  else if (db.attachments.lookup artifactId).isNone then
    integrityError "FOREIGN KEY constraint failed"
  else .ok { db with
    messageAttachments := db.messageAttachments ++ [(messageId, ordinal, artifactId)] }

/-- `INSERT INTO message_bindings`. -/
def Db.insertMessageBinding (db : Db) (messageId bindingId : String) : Except PyError Db :=
  if db.messageBindings.contains (messageId, bindingId) then
    integrityError "UNIQUE constraint failed: message_bindings.message_id, message_bindings.binding_id"
  else if db.bindings.contains bindingId = false then
    integrityError "FOREIGN KEY constraint failed"
  else .ok { db with messageBindings := db.messageBindings ++ [(messageId, bindingId)] }

/-- `INSERT OR IGNORE INTO sessions (key, created_at, updated_at, next_seq)`. -/
def Db.admitSession (db : Db) (sessionId : String) (stamp : Instant) : Db :=
  if (db.sessions.lookup sessionId).isSome then db
  else { db with sessions := db.sessions.insert sessionId ⟨stamp, stamp, none, 0⟩ }

/-- `UPDATE sessions SET … WHERE key=?`. -/
def Db.updateSession (db : Db) (sessionId : String) (f : SessionRow → SessionRow) : Db :=
  match db.sessions.lookup sessionId with
  | some row => { db with sessions := db.sessions.insert sessionId (f row) }
  | none => db

/-- **What an accepted insertion checked and changed.** -/
theorem insertMessage_eq_ok {db db' : Db} {row : MessageRow}
    (h : db.insertMessage row = .ok db') :
    (∀ old ∈ db.messages, old.id ≠ row.id) ∧
    (∀ old ∈ db.messages, old.sessionKey = row.sessionKey → old.seq ≠ row.seq) ∧
    (∀ old ∈ db.messages, (callKey row.body).isSome = true →
      callKey old.body ≠ callKey row.body) ∧
    db' = { db with
      messages := db.messages ++ [row]
      revision := if db.insertFires row then db.revision + 1 else db.revision } := by
  unfold Db.insertMessage at h
  obtain ⟨-, ⟨⟩⟩ | ⟨hid, h⟩ := ite_eq_iff.mp h
  obtain ⟨-, ⟨⟩⟩ | ⟨hseq, h⟩ := ite_eq_iff.mp h
  obtain ⟨-, ⟨⟩⟩ | ⟨hcall, h⟩ := ite_eq_iff.mp h
  refine ⟨?_, ?_, ?_, (Except.ok.inj h).symm⟩
  · intro old hold heq
    exact hid (List.any_eq_true.mpr ⟨old, hold, by simpa using heq⟩)
  · intro old hold hkey heq
    exact hseq (List.any_eq_true.mpr ⟨old, hold, by simp [hkey, heq]⟩)
  · intro old hold hsome heq
    exact hcall (List.any_eq_true.mpr ⟨old, hold, by simp [hsome, heq]⟩)

theorem insertAttachment_eq_ok {db db' : Db} {messageId artifactId : String} {ordinal : ℕ}
    (h : db.insertAttachment messageId ordinal artifactId = .ok db') :
    db' = { db with
      messageAttachments := db.messageAttachments ++ [(messageId, ordinal, artifactId)] } := by
  unfold Db.insertAttachment at h
  split_ifs at h
  · cases h
  · cases h
  · exact (Except.ok.inj h).symm

theorem insertMessageBinding_eq_ok {db db' : Db} {messageId bindingId : String}
    (h : db.insertMessageBinding messageId bindingId = .ok db') :
    db' = { db with messageBindings := db.messageBindings ++ [(messageId, bindingId)] } := by
  unfold Db.insertMessageBinding at h
  split_ifs at h
  · cases h
  · cases h
  · exact (Except.ok.inj h).symm

/-- Admitting a session leaves every table but `sessions` alone, and every counter. -/
theorem admitSession_spec (db : Db) (sessionId : String) (stamp : Instant) :
    (db.admitSession sessionId stamp) =
      { db with sessions := (db.admitSession sessionId stamp).sessions } ∧
    (∀ key, (db.admitSession sessionId stamp).nextSeq key = db.nextSeq key) ∧
    ((db.admitSession sessionId stamp).sessions.lookup sessionId).isSome = true := by
  unfold Db.admitSession
  split_ifs with hsome
  · exact ⟨rfl, fun _ => rfl, hsome⟩
  · refine ⟨rfl, ?_, by simp⟩
    intro key
    by_cases hkey : key = sessionId
    · subst hkey
      rw [Option.not_isSome_iff_eq_none] at hsome
      simp [Db.nextSeq, hsome]
    · simp [Db.nextSeq, AList.lookup_insert_ne hkey]

theorem admitted_admitSession (db : Db) (sessionId : String) (stamp : Instant) (key : String) :
    ((db.admitSession sessionId stamp).sessions.lookup key).isSome
      = (decide (key = sessionId) || (db.sessions.lookup key).isSome) := by
  unfold Db.admitSession
  by_cases hkey : key = sessionId
  · subst hkey
    split_ifs with hsome
    · simp [hsome]
    · simp
  · split_ifs with hsome
    · simp [hkey]
    · simp [hkey, AList.lookup_insert_ne hkey]

/-- Updating a session leaves every table but `sessions` alone, and the rows of the other
sessions. -/
theorem updateSession_spec (db : Db) (sessionId : String) (f : SessionRow → SessionRow) :
    db.updateSession sessionId f =
      { db with sessions := (db.updateSession sessionId f).sessions } ∧
    (∀ key, key ≠ sessionId →
      (db.updateSession sessionId f).sessions.lookup key = db.sessions.lookup key) ∧
    (db.updateSession sessionId f).sessions.lookup sessionId
      = (db.sessions.lookup sessionId).map f := by
  unfold Db.updateSession
  split
  · next row hrow =>
      refine ⟨rfl, fun key hkey => AList.lookup_insert_ne hkey, ?_⟩
      rw [AList.lookup_insert, hrow, Option.map_some]
  · next hnone => exact ⟨rfl, fun _ _ => rfl, by rw [hnone, Option.map_none]⟩

end Kirakira
