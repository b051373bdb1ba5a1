import Kirakira.Lib.Json

/-!
# Ledger Values

The values of `plugins/ledger/contract.py` that a message log is made of: content parts
and tool calls, the four bodies, and the accepted message. Each dataclass is a structure
that carries what its `__post_init__` checks as a field, so an invalid value cannot be
built; `new` is the constructor call, which runs the check on raw JSON arguments and
returns the exception the source raises.

## JSON values

A deep-frozen JSON value (`core/common/frozen_json.py`) is a canonical tree. Python
dictionaries repeat no key and compare without regard to order, so the canonical tree is
the value up to `==`; `freezeJson` computes it and rejects the doubles JSON has no text
for.

## Exceptions

`PyError` keeps the class and the text of an exception. The class decides what an
`except` clause catches: `SourceHeadConflict` is a `MessageConflict`, which is a
`ValueError`, and `WriterExpired` is a `RuntimeError`.
-/

namespace Kirakira

/-! ### Exceptions -/

/-- The exception classes the modelled code raises. -/
inductive ErrorClass where
  | valueError
  | typeError
  | keyError
  | permissionError
  | runtimeError
  | messageConflict
  | sourceHeadConflict
  | writerExpired
  | goalStale
  | integrityError
  | overflowError
  | assertionError
  | osError
  deriving DecidableEq, Repr

/-- A raised exception: its class and its text. -/
structure PyError where
  cls : ErrorClass
  text : String
  deriving DecidableEq, Repr

/-- Whether `except MessageConflict` catches the exception. -/
def PyError.isMessageConflict (e : PyError) : Bool :=
  e.cls = .messageConflict || e.cls = .sourceHeadConflict

/-- Whether `except ValueError` catches the exception. -/
def PyError.isValueError (e : PyError) : Bool :=
  e.cls = .valueError || e.cls = .goalStale || e.isMessageConflict

/-- `raise ValueError(text)`. -/
def valueError {α : Type} (text : String) : Except PyError α :=
  .error ⟨.valueError, text⟩

/-- `raise TypeError(text)`. -/
def typeError {α : Type} (text : String) : Except PyError α :=
  .error ⟨.typeError, text⟩

/-! ### Frozen JSON -/

/-- A deep-frozen JSON value. -/
structure FrozenJson where
  json : Json
  canonical : json.Canonical
  deriving DecidableEq

/-- `freeze_json`: the frozen value of a Python JSON value. Only a double that is not
finite is rejected; a dictionary never repeats a key. -/
def freezeJson (value : Json) : Except PyError FrozenJson :=
  if h : value.Finite ∧ value.UniqueKeys then
    .ok ⟨value.sortKeys, Json.canonical_sortKeys value h.1 h.2⟩
  else
    valueError "JSON 不接受非有限浮点数"

@[simp] theorem freezeJson_json (v : FrozenJson) : freezeJson v.json = .ok v := by
  have h : v.json.Finite ∧ v.json.UniqueKeys := ⟨v.canonical.finite, v.canonical.uniqueKeys⟩
  rw [freezeJson, dif_pos h]
  simp only [Json.sortKeys_of_canonical v.json v.canonical]

/-- Whether the tree is an object, that is a `Mapping` on the Python side. -/
def isMapping : Json → Bool
  | .obj _ => true
  | _ => false

/-- The fields of an object; none for any other tree. -/
def mappingFields : Json → List (String × Json)
  | .obj fields => fields
  | _ => []

/-! ### Parts -/

/-- A content type and its immutable payload. -/
structure ContentPart where
  kind : String
  value : FrozenJson
  kind_ok : kind ≠ "" ∧ kind ≠ "tool_call"
  deriving DecidableEq

theorem textKind_ok : "text" ≠ "" ∧ "text" ≠ "tool_call" := by decide

theorem text_canonical (text : String) : (Json.str text).Canonical := rfl

/-- `ContentPart(kind, value)`. -/
def ContentPart.new (kind value : Json) : Except PyError ContentPart :=
  match kind with
  | .str k =>
      if h : k ≠ "" ∧ k ≠ "tool_call" then do
        let frozen ← freezeJson value
        return ⟨k, frozen, h⟩
      else valueError "内容类型不能为空"
  | _ => valueError "内容类型不能为空"

/-- A proposed call of a bound tool. -/
structure ToolCall where
  bindingId : String
  arguments : FrozenJson
  bindingId_ok : bindingId ≠ ""
  arguments_ok : isMapping arguments.json = true
  deriving DecidableEq

theorem isMapping_of_freezeJson {value : Json} {v : FrozenJson}
    (h : freezeJson value = .ok v) (hm : isMapping value = true) :
    isMapping v.json = true := by
  unfold freezeJson at h
  split at h
  · obtain rfl := Except.ok.inj h
    cases value <;> simp_all [isMapping, Json.sortKeys]
  · cases h

/-- `ToolCall(binding_id, arguments)`. -/
def ToolCall.new (bindingId arguments : Json) : Except PyError ToolCall :=
  match bindingId with
  | .str b =>
      if hb : b ≠ "" then
        if hm : isMapping arguments = true then
          match h : freezeJson arguments with
          | .ok frozen => .ok ⟨b, frozen, hb, isMapping_of_freezeJson h hm⟩
          | .error e => .error e
        else typeError "工具参数必须是 JSON 对象"
      else valueError "工具调用必须固定 binding_id"
  | _ => valueError "工具调用必须固定 binding_id"

/-- The address of one tool call: the message that proposed it and the part it is. -/
structure CallRef where
  messageId : String
  partIndex : ℕ
  messageId_ok : messageId ≠ ""
  deriving DecidableEq

/-- `CallRef(message_id, part_index)`. -/
def CallRef.new (messageId partIndex : Json) : Except PyError CallRef :=
  match messageId, partIndex with
  | .str m, .int n =>
      if h : m ≠ "" ∧ 0 ≤ n then .ok ⟨m, n.toNat, h.1⟩
      else valueError "调用引用需要 message_id 和非负 part_index"
  | _, _ => valueError "调用引用需要 message_id 和非负 part_index"

/-- One part of an output. -/
inductive Part where
  | content (part : ContentPart)
  | toolCall (call : ToolCall)
  deriving DecidableEq

/-- `isinstance(part, ToolCall)`. -/
def Part.isToolCall : Part → Bool
  | .content _ => false
  | .toolCall _ => true

/-- The content part of a part, if it is one. -/
def Part.content? : Part → Option ContentPart
  | .content part => some part
  | .toolCall _ => none

/-- The parts as content parts; `none` when one of them is a tool call. -/
def contentParts (parts : List Part) : Option (List ContentPart) :=
  parts.mapM Part.content?

@[simp] theorem contentParts_map_content (parts : List ContentPart) :
    contentParts (parts.map .content) = some parts := by
  induction parts with
  | nil => rfl
  | cons part rest ih =>
      simp only [contentParts] at ih
      simp [contentParts, Part.content?, ih]

/-! ### Enumerations -/

/-- How an output ends. -/
inductive Finish where
  | continue
  | complete
  | quiet
  deriving DecidableEq, Repr

/-- The text of a finish. -/
def Finish.text : Finish → String
  | .continue => "continue"
  | .complete => "complete"
  | .quiet => "quiet"

/-- The outcome of a tool call. -/
inductive Outcome where
  | success
  | denied
  | error
  | interrupted
  deriving DecidableEq, Repr

/-- The text of an outcome. -/
def Outcome.text : Outcome → String
  | .success => "success"
  | .denied => "denied"
  | .error => "error"
  | .interrupted => "interrupted"

/-- What a control does to the source. -/
inductive Action where
  | pause
  | resume
  | abandon
  | failure
  deriving DecidableEq, Repr

/-- The text of an action. -/
def Action.text : Action → String
  | .pause => "pause"
  | .resume => "resume"
  | .abandon => "abandon"
  | .failure => "failure"

/-- A membership test `value in {…}` against an enumeration given by its members and
their texts. Lists and dictionaries have no hash, so testing them raises. -/
def enumMember {α : Type} (members : List α) (text : α → String) (message : String)
    (value : Json) : Except PyError α :=
  match value with
  | .str s =>
      match members.find? (fun a => text a = s) with
      | some a => .ok a
      | none => valueError message
  | .arr _ => typeError "unhashable type: 'list'"
  | .obj _ => typeError "unhashable type: 'dict'"
  | _ => valueError message

/-- The finish a text names. -/
def finishOf : Json → Except PyError Finish :=
  enumMember [.continue, .complete, .quiet] Finish.text "Output finish 无效"

/-- The outcome a text names. -/
def outcomeOf : Json → Except PyError Outcome :=
  enumMember [.success, .denied, .error, .interrupted] Outcome.text "ToolResult outcome 无效"

/-- The action a text names. -/
def actionOf : Json → Except PyError Action :=
  enumMember [.pause, .resume, .abandon, .failure] Action.text "Control action 无效"

@[simp] theorem finishOf_text (f : Finish) : finishOf (.str f.text) = .ok f := by
  cases f <;> rfl

@[simp] theorem outcomeOf_text (o : Outcome) : outcomeOf (.str o.text) = .ok o := by
  cases o <;> rfl

@[simp] theorem actionOf_text (a : Action) : actionOf (.str a.text) = .ok a := by
  cases a <;> rfl

/-! ### Bodies -/

/-- What a user, a channel or a program put in. -/
structure Input where
  parts : List ContentPart
  deriving DecidableEq

/-- `Input(parts)`. -/
def Input.new (parts : List Part) : Except PyError Input :=
  match contentParts parts with
  | some parts => .ok ⟨parts⟩
  | none => typeError "Input 只能包含内容块"

/-- What a model put out. An output that proposes calls has not finished. -/
structure Output where
  parts : List Part
  finish : Finish
  calls_continue : finish ≠ .continue → parts.any Part.isToolCall = false
  deriving DecidableEq

/-- `Output(parts, finish)`. -/
def Output.new (parts : List Part) (finish : Json) : Except PyError Output := do
  let finish ← finishOf finish
  if h : finish ≠ .continue → parts.any Part.isToolCall = false then
    return ⟨parts, finish, h⟩
  else valueError "含工具调用的 Output 必须是 continue"

/-- The result of one tool call. `legacyUnknown` marks a result stored with the outcome
`unknown` of an earlier version, which is read as an error. -/
structure ToolResult where
  legacyUnknown : Bool
  callRef : CallRef
  outcome : Outcome
  parts : List ContentPart
  legacy_error : legacyUnknown = true → outcome = .error
  deriving DecidableEq

/-- `ToolResult(call_ref, outcome, parts)`; only the decoder marks a result as legacy. -/
def ToolResult.new (callRef : CallRef) (outcome : Json) (parts : List Part) :
    Except PyError ToolResult :=
  match contentParts parts with
  | some parts => do
      let outcome ← outcomeOf outcome
      return ⟨false, callRef, outcome, parts, by simp⟩
  | none => typeError "ToolResult 只能包含内容块"

/-- A control over an accepted prefix of the source. -/
structure Control where
  action : Action
  throughSeq : ℕ
  reason : Option String
  deriving DecidableEq

/-- `Control(action, through_seq, reason)`. -/
def Control.new (action throughSeq reason : Json) : Except PyError Control := do
  let action ← actionOf action
  match throughSeq with
  | .int n =>
      if 0 ≤ n then
        match reason with
        | .null => return ⟨action, n.toNat, none⟩
        | .str r => return ⟨action, n.toNat, some r⟩
        | _ => typeError "Control reason 必须是文本"
      else valueError "Control through_seq 必须非负"
  | _ => valueError "Control through_seq 必须非负"

/-- The body of a message. -/
inductive Body where
  | input (body : Input)
  | output (body : Output)
  | toolResult (body : ToolResult)
  | control (body : Control)
  deriving DecidableEq

/-- The class of a body, `type(body)`. -/
inductive BodyType where
  | input
  | output
  | toolResult
  | control
  deriving DecidableEq, Repr

/-- `type(body)`. -/
def Body.type : Body → BodyType
  | .input _ => .input
  | .output _ => .output
  | .toolResult _ => .toolResult
  | .control _ => .control

/-- `body.parts`; a control has none. -/
def Body.parts : Body → List Part
  | .input b => b.parts.map .content
  | .output b => b.parts
  | .toolResult b => b.parts.map .content
  | .control _ => []

/-! ### Metadata -/

/-- `MAX_METADATA_BYTES`. -/
def maxMetadataBytes : ℕ := 64 * 1024

/-- The length of the compact UTF-8 text of a tree. -/
def jsonBytes (j : Json) : ℕ :=
  j.chars.foldl (fun bytes c => bytes + c.utf8Size) 0

/-- What message metadata must satisfy: a frozen JSON object with named namespaces whose
text has at most 64 KiB. -/
def MetadataOk (j : Json) : Prop :=
  j.Canonical ∧ isMapping j = true ∧ "" ∉ Json.keys (mappingFields j) ∧
    jsonBytes j ≤ maxMetadataBytes

instance (j : Json) : Decidable (MetadataOk j) := inferInstanceAs (Decidable (_ ∧ _))

/-- The metadata of a message. -/
structure Metadata where
  json : Json
  ok : MetadataOk json
  deriving DecidableEq

/-- `freeze_metadata`. The empty object is accepted before its size is looked at, which
makes no difference. -/
def freezeMetadata (value : Json) : Except PyError Metadata :=
  if isMapping value = false then typeError "消息 metadata 必须是 JSON 对象"
  else do
    let frozen ← freezeJson value
    if "" ∈ Json.keys (mappingFields frozen.json) then
      valueError "消息 metadata 命名空间不能为空"
    else if h : MetadataOk frozen.json then
      return ⟨frozen.json, h⟩
    else valueError "消息 metadata 超过 64 KiB"

@[simp] theorem freezeMetadata_json (m : Metadata) : freezeMetadata m.json = .ok m := by
  obtain ⟨hc, hmap, hkeys, -⟩ := m.ok
  have hfreeze : freezeJson m.json = .ok ⟨m.json, hc⟩ := freezeJson_json ⟨m.json, hc⟩
  simp [freezeMetadata, hmap, hfreeze, hkeys, m.ok, bind, Except.bind, pure, Except.pure]

/-- The empty metadata. -/
def Metadata.empty : Metadata :=
  ⟨.obj [], by decide⟩

/-! ### Messages -/

/-- An aware `datetime`, named by its `isoformat()` text. -/
structure Instant where
  iso : String
  deriving DecidableEq, Repr

/-- One accepted fact of a session. -/
structure Message where
  messageId : String
  sessionId : String
  seq : ℕ
  recordedAt : Instant
  author : String
  source : String
  body : Body
  metadata : Metadata
  identity_ok : messageId ≠ "" ∧ sessionId ≠ "" ∧ author ≠ "" ∧ source ≠ ""
  control_ok : ∀ c, body = .control c → c.throughSeq < seq
  deriving DecidableEq

/-- Whether a control addresses only what was accepted before it; every other body is
free of the condition. -/
def controlBelow (body : Body) (seq : ℕ) : Bool :=
  match body with
  | .control c => decide (c.throughSeq < seq)
  | _ => true

theorem controlBelow_iff {body : Body} {seq : ℕ} :
    controlBelow body seq = true ↔ ∀ c, body = .control c → c.throughSeq < seq := by
  cases body <;> simp [controlBelow]

theorem Message.messageId_ok (m : Message) : m.messageId ≠ "" :=
  m.identity_ok.1

/-- `Message(…)` on metadata that was frozen before. -/
def Message.new (messageId sessionId : String) (seq : ℕ) (recordedAt : Instant)
    (author source : String) (body : Body) (metadata : Metadata) : Except PyError Message :=
  if hid : messageId ≠ "" ∧ sessionId ≠ "" ∧ author ≠ "" ∧ source ≠ "" then
    if hc : controlBelow body seq = true then
      .ok ⟨messageId, sessionId, seq, recordedAt, author, source, body, metadata, hid,
        controlBelow_iff.mp hc⟩
    else valueError "Control 只能指向之前的已接纳前缀"
  else valueError "消息身份、Session、作者和来源不能为空"

theorem Message.new_eq_ok (m : Message) :
    Message.new m.messageId m.sessionId m.seq m.recordedAt m.author m.source m.body
      m.metadata = .ok m := by
  rw [Message.new, dif_pos m.identity_ok, dif_pos (controlBelow_iff.mpr m.control_ok)]

theorem Message.new_fields {messageId sessionId : String} {seq : ℕ} {recordedAt : Instant}
    {author source : String} {body : Body} {metadata : Metadata} {m : Message}
    (h : Message.new messageId sessionId seq recordedAt author source body metadata
      = .ok m) :
    m.messageId = messageId ∧ m.sessionId = sessionId ∧ m.seq = seq ∧
      m.recordedAt = recordedAt ∧ m.author = author ∧ m.source = source ∧
      m.body = body ∧ m.metadata = metadata := by
  unfold Message.new at h
  split at h
  · split at h
    · obtain rfl := Except.ok.inj h
      exact ⟨rfl, rfl, rfl, rfl, rfl, rfl, rfl, rfl⟩
    · cases h
  · cases h

end Kirakira
