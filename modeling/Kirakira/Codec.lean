import Kirakira.Lib.Exceptions
import Kirakira.Lib.JsonReader
import Kirakira.Contract

/-!
# The Body Codec

`encode_body` and `decode_body` of `plugins/ledger/contract.py`. A stored body is a JSON
text; the model keeps it as the tree of that text, with the fields in text order and
names possibly repeated, because that is what `decode_body` must judge. `encodeBody`
returns the tree `json.dumps(…, sort_keys=True)` prints, so two encoded bodies are equal
as trees exactly when they are equal as bytes.

The texts themselves come in at the end: `JsonText` is a JSON reader that reads every
canonical tree back from its compact text, and `encodeText` and `decodeText` are the two
functions as the source has them, from and to text.

## Main results

* `decodeBody_payload` — the decoder inverts the encoder on every body, the legacy mark
  included.
* `bodyShape_of_decodeBody` — whatever the decoder accepts has exactly the fields of its
  kind, each once, at the body, part and call address.
* `body_codec` — the two combined, on texts.
-/

namespace Kirakira

/-! ### Encoding -/

/-- An optional text as JSON. -/
def optionalText : Option String → Json
  | none => .null
  | some s => .str s

/-- One part of `body_to_dict`. -/
def partToDict : Part → Json
  | .toolCall call => .obj [("kind", .str "tool_call"), ("binding_id", .str call.bindingId),
      ("arguments", call.arguments.json)]
  | .content part => .obj [("kind", .str part.kind), ("value", part.value.json)]

/-- `body_to_dict`: the fields of the message as the running version names them. -/
def bodyToDict (body : Body) : List (String × Json) :=
  let parts := Json.arr (body.parts.map partToDict)
  match body with
  | .control c => [("kind", .str "control"), ("action", .str c.action.text),
      ("through_seq", .int c.throughSeq), ("reason", optionalText c.reason)]
  | .input _ => [("kind", .str "input"), ("parts", parts)]
  | .output o => [("kind", .str "output"), ("parts", parts), ("finish", .str o.finish.text)]
  | .toolResult r => [("kind", .str "tool_result"), ("parts", parts),
      ("outcome", .str r.outcome.text),
      ("call_ref", .obj [("message_id", .str r.callRef.messageId),
        ("part_index", .int r.callRef.partIndex)])]

/-- `data[key] = value` on a key the dictionary has. -/
def setField (fields : List (String × Json)) (key : String) (value : Json) :
    List (String × Json) :=
  fields.map fun f => if f.1 = key then (key, value) else f

/-- `body._legacy_unknown`, which only a tool result has. -/
def Body.legacyUnknown : Body → Bool
  | .toolResult r => r.legacyUnknown
  | _ => false

/-- `encode_body`: the tree of the stored text. A legacy result is stored under the
outcome it was read from, and only where `allowLegacy` permits it. -/
def encodeBody (body : Body) (allowLegacy : Bool) : Except PyError Json :=
  if body.legacyUnknown = true then
    if allowLegacy = true then
      .ok (Json.obj (setField (bodyToDict body) "outcome" (.str "unknown"))).sortKeys
    else valueError "旧 unknown 工具结果只能重放已有消息，不能作为新消息写入"
  else .ok (Json.obj (bodyToDict body)).sortKeys

/-! ### Decoding -/

/-- `sorted(fields)` as an error text shows it; the field lists below are sorted. -/
def fieldsRepr (fields : List String) : String :=
  "[" ++ String.intercalate ", " (fields.map fun f => "'" ++ f ++ "'") ++ "]"

/-- `set(names) == fields`. -/
def sameNames (names fields : List String) : Bool :=
  names.all (fun k => fields.contains k) && fields.all (fun k => names.contains k)

/-- `_object`: a dictionary with exactly these fields. -/
def object (value : Json) (fields : List String) : Except PyError Json :=
  if isMapping value = true ∧ sameNames (Json.keys (mappingFields value)) fields = true then
    .ok value
  else valueError ("消息对象字段必须为 " ++ fieldsRepr fields)

/-- `row[key]` on a key the row is known to have. -/
def item (row : Json) (key : String) : Json :=
  (row.get? key).getD .null

/-- `_CALL_REF_FIELDS`. -/
def callRefFields : List String := ["message_id", "part_index"]

/-- `_PART_CONTENT_FIELDS`. -/
def partContentFields : List String := ["kind", "value"]

/-- `_PART_TOOL_CALL_FIELDS`. -/
def partToolCallFields : List String := ["arguments", "binding_id", "kind"]

/-- `_CONTROL_FIELDS`. -/
def controlFields : List String := ["action", "kind", "reason", "through_seq"]

/-- `_BODY_FIELDS`. -/
def bodyFields : String → Option (List String)
  | "input" => some ["kind", "parts"]
  | "output" => some ["finish", "kind", "parts"]
  | "tool_result" => some ["call_ref", "kind", "outcome", "parts"]
  | _ => none

/-- `_part`. -/
def decodePart (value : Json) : Except PyError Part :=
  if isMapping value = true then
    if value.get? "kind" = some (.str "tool_call") then do
      let data ← object value partToolCallFields
      let call ← ToolCall.new (item data "binding_id") (item data "arguments")
      return .toolCall call
    else do
      let data ← object value partContentFields
      let part ← ContentPart.new (item data "kind") (item data "value")
      return .content part
  else valueError "消息 part 必须是对象"

/-- The parts of a row that must be an array. -/
def decodeParts (row : Json) : Except PyError (List Part) :=
  match item row "parts" with
  | .arr items => items.mapM decodePart
  | _ => valueError "消息 parts 必须是数组"

/-- The tail of `decode_body` for a tool result: the call address, the result, and the
mark of a result stored as `unknown`. -/
def decodeToolResult (row : Json) (parts : List Part) : Except PyError ToolResult := do
  let call ← object (item row "call_ref") callRefFields
  let callRef ← CallRef.new (item call "message_id") (item call "part_index")
  if item row "outcome" = .str "unknown" then
    match contentParts parts with
    | some parts => return ⟨true, callRef, .error, parts, fun _ => rfl⟩
    | none => typeError "ToolResult 只能包含内容块"
  else ToolResult.new callRef (item row "outcome") parts

/-- `decode_body` on the tree of the stored text. -/
def decodeBody (raw : Json) : Except PyError Body :=
  match raw.repeatedKey with
  | some key => valueError ("消息 JSON 包含重复字段: " ++ key)
  | none =>
    if isMapping raw = false then valueError "消息 body 必须是对象"
    else
      match raw.get? "kind" with
      | some (.str "control") => do
          let row ← object raw controlFields
          let c ← Control.new (item row "action") (item row "through_seq") (item row "reason")
          return .control c
      | some (.str kind) =>
          match bodyFields kind with
          | none => valueError "消息 body kind 无效"
          | some fields => do
              let row ← object raw fields
              let parts ← decodeParts row
              match kind with
              | "input" => return .input (← Input.new parts)
              | "output" => return .output (← Output.new parts (item row "finish"))
              | _ => return .toolResult (← decodeToolResult row parts)
      | _ => valueError "消息 body kind 无效"

/-! ### The stored form -/

/-- The stored form of a part. -/
def partPayload : Part → Json
  | .toolCall call => .obj [("arguments", call.arguments.json),
      ("binding_id", .str call.bindingId), ("kind", .str "tool_call")]
  | .content part => .obj [("kind", .str part.kind), ("value", part.value.json)]

/-- The outcome a result is stored under. -/
def ToolResult.storedOutcome (r : ToolResult) : String :=
  if r.legacyUnknown = true then "unknown" else r.outcome.text

/-- The stored form of a call address. -/
def callRefPayload (ref : CallRef) : Json :=
  .obj [("message_id", .str ref.messageId), ("part_index", .int ref.partIndex)]

/-- The stored form of a body, which is what `encode_body` returns. -/
def payload (body : Body) : Json :=
  let parts := Json.arr (body.parts.map partPayload)
  match body with
  | .control c => .obj [("action", .str c.action.text), ("kind", .str "control"),
      ("reason", optionalText c.reason), ("through_seq", .int c.throughSeq)]
  | .input _ => .obj [("kind", .str "input"), ("parts", parts)]
  | .output o => .obj [("finish", .str o.finish.text), ("kind", .str "output"),
      ("parts", parts)]
  | .toolResult r => .obj [("call_ref", callRefPayload r.callRef),
      ("kind", .str "tool_result"), ("outcome", .str r.storedOutcome), ("parts", parts)]

theorem sortKeys_partToDict (part : Part) : (partToDict part).sortKeys = partPayload part := by
  cases part with
  | content p =>
      simp [partToDict, partPayload, Json.sortKeys, Json.sortFields, Json.fieldLe,
        Json.sortKeys_of_canonical _ p.value.canonical]
  | toolCall c =>
      simp [partToDict, partPayload, Json.sortKeys, Json.sortFields, Json.fieldLe,
        Json.sortKeys_of_canonical _ c.arguments.canonical]

theorem sortItems_parts (parts : List Part) :
    Json.sortItems (parts.map partToDict) = parts.map partPayload := by
  rw [Json.sortItems_eq_map, List.map_map]
  exact List.map_congr_left fun part _ => sortKeys_partToDict part

@[simp] theorem sortKeys_optionalText (s : Option String) :
    (optionalText s).sortKeys = optionalText s := by
  cases s <;> rfl

/-- **What `encode_body` returns.** -/
theorem encodeBody_eq (body : Body) : encodeBody body true = .ok (payload body) := by
  cases body with
  | input b =>
      simp [encodeBody, Body.legacyUnknown, bodyToDict, payload, Json.sortKeys,
        Json.sortFields, Json.fieldLe, sortItems_parts]
  | output o =>
      simp [encodeBody, Body.legacyUnknown, bodyToDict, payload, Json.sortKeys,
        Json.sortFields, Json.fieldLe, sortItems_parts]
  | toolResult r =>
      by_cases hl : r.legacyUnknown = true <;>
      simp [encodeBody, Body.legacyUnknown, bodyToDict, payload, setField, Json.sortKeys,
        Json.sortFields, Json.fieldLe, sortItems_parts, ToolResult.storedOutcome,
        callRefPayload, hl]
  | control c =>
      simp [encodeBody, Body.legacyUnknown, bodyToDict, payload, Json.sortKeys,
        Json.sortFields, Json.fieldLe]

theorem canonical_partPayload (part : Part) : (partPayload part).Canonical := by
  cases part with
  | content p =>
      refine Json.canonical_obj.mpr ⟨(by decide : ["kind", "value"].Pairwise (· < ·)), ?_⟩
      simp [p.value.canonical]
  | toolCall c =>
      refine Json.canonical_obj.mpr
        ⟨(by decide : ["arguments", "binding_id", "kind"].Pairwise (· < ·)), ?_⟩
      simp [c.arguments.canonical]

theorem canonical_parts (parts : List Part) :
    (Json.arr (parts.map partPayload)).Canonical := by
  rw [Json.canonical_arr]
  intro j hj
  obtain ⟨part, -, rfl⟩ := List.mem_map.mp hj
  exact canonical_partPayload part

/-- **The stored form is canonical**, so it is determined by its text. -/
theorem canonical_payload (body : Body) : (payload body).Canonical := by
  have hparts := canonical_parts body.parts
  cases body with
  | input b =>
      refine Json.canonical_obj.mpr ⟨(by decide : ["kind", "parts"].Pairwise (· < ·)), ?_⟩
      simp [hparts]
  | output o =>
      refine Json.canonical_obj.mpr
        ⟨(by decide : ["finish", "kind", "parts"].Pairwise (· < ·)), ?_⟩
      simp [hparts]
  | toolResult r =>
      have hcall : (callRefPayload r.callRef).Canonical := by
        refine Json.canonical_obj.mpr
          ⟨(by decide : ["message_id", "part_index"].Pairwise (· < ·)), ?_⟩
        simp
      refine Json.canonical_obj.mpr
        ⟨(by decide : ["call_ref", "kind", "outcome", "parts"].Pairwise (· < ·)), ?_⟩
      simp [hparts, hcall]
  | control c =>
      have hreason : (optionalText c.reason).Canonical := by
        cases c.reason <;> rfl
      refine Json.canonical_obj.mpr
        ⟨(by decide : ["action", "kind", "reason", "through_seq"].Pairwise (· < ·)), ?_⟩
      simp [hreason]

/-! ### The decoder inverts the encoder -/

@[simp] theorem ContentPart.new_fields (part : ContentPart) :
    ContentPart.new (.str part.kind) part.value.json = .ok part := by
  simp [ContentPart.new, part.kind_ok, bind, Except.bind, pure, Except.pure]

@[simp] theorem ToolCall.new_fields (call : ToolCall) :
    ToolCall.new (.str call.bindingId) call.arguments.json = .ok call := by
  rw [ToolCall.new]
  simp only [call.bindingId_ok, call.arguments_ok, ne_eq, not_false_iff, dite_true]
  split
  · next v h =>
      rw [freezeJson_json] at h
      obtain rfl := Except.ok.inj h
      rfl
  · next e h =>
      rw [freezeJson_json] at h
      cases h

@[simp] theorem CallRef.new_fields (ref : CallRef) :
    CallRef.new (.str ref.messageId) (.int ref.partIndex) = .ok ref := by
  simp [CallRef.new, ref.messageId_ok]

theorem decodePart_payload (part : Part) : decodePart (partPayload part) = .ok part := by
  cases part with
  | content p =>
      have hkind : p.kind ≠ "tool_call" := p.kind_ok.2
      simp [decodePart, partPayload, isMapping, Json.get?, List.lookup_cons, hkind, object,
        mappingFields, sameNames, partContentFields, item, bind, Except.bind, pure,
        Except.pure]
  | toolCall c =>
      simp [decodePart, partPayload, isMapping, Json.get?, List.lookup_cons, object,
        mappingFields, sameNames, partToolCallFields, item, bind, Except.bind, pure,
        Except.pure]

theorem mapM_decodePart_payload (parts : List Part) :
    (parts.map partPayload).mapM decodePart = Except.ok parts := by
  induction parts with
  | nil => rfl
  | cons part rest ih =>
      simp [decodePart_payload, ih, bind, Except.bind, pure, Except.pure]

theorem Control.new_fields (c : Control) :
    Control.new (.str c.action.text) (.int c.throughSeq) (optionalText c.reason) = .ok c := by
  obtain ⟨action, throughSeq, reason⟩ := c
  cases reason <;>
  simp [Control.new, optionalText, bind, Except.bind, pure, Except.pure]

theorem Output.new_fields (o : Output) : Output.new o.parts (.str o.finish.text) = .ok o := by
  rw [Output.new, finishOf_text]
  exact dif_pos o.calls_continue

theorem Outcome.text_ne_unknown (o : Outcome) : o.text ≠ "unknown" := by
  cases o <;> decide

theorem decodeToolResult_payload (r : ToolResult) :
    decodeToolResult (payload (.toolResult r)) (r.parts.map .content) = .ok r := by
  obtain ⟨legacyUnknown, callRef, outcome, parts, hlegacy⟩ := r
  cases legacyUnknown with
  | true =>
      obtain rfl := hlegacy rfl
      simp [decodeToolResult, payload, item, Json.get?, List.lookup_cons, callRefPayload, object,
        isMapping, mappingFields, sameNames, callRefFields, ToolResult.storedOutcome, bind,
        Except.bind, pure, Except.pure]
  | false =>
      simp [decodeToolResult, payload, item, Json.get?, List.lookup_cons, callRefPayload, object,
        isMapping, mappingFields, sameNames, callRefFields, ToolResult.storedOutcome,
        Outcome.text_ne_unknown, ToolResult.new, bind, Except.bind, pure, Except.pure]

variable {parts : List Part} {row : Json}

theorem decodeParts_payload (h : row.get? "parts" = some (.arr (parts.map partPayload))) :
    decodeParts row = .ok parts := by
  rw [decodeParts, item, h, Option.getD_some]
  exact mapM_decodePart_payload parts

/-- **The decoder inverts the encoder**: the stored form of a body decodes to the body,
with the legacy mark it was stored with. -/
theorem decodeBody_payload (body : Body) : decodeBody (payload body) = .ok body := by
  have hunique : (payload body).repeatedKey = none :=
    (Json.repeatedKey_eq_none_iff _).mpr (canonical_payload body).uniqueKeys
  unfold decodeBody
  rw [hunique]
  cases body with
  | input b =>
      have hkind : (payload (.input b)).get? "kind" = some (.str "input") := rfl
      have hobj : object (payload (.input b)) ["kind", "parts"] = .ok (payload (.input b)) := rfl
      have hparts : decodeParts (payload (.input b)) = .ok (b.parts.map .content) :=
        decodeParts_payload rfl
      have hmap : isMapping (payload (.input b)) = true := rfl
      simp [hmap, hkind, bodyFields, hobj, hparts, Input.new, bind, Except.bind, pure,
        Except.pure]
  | output o =>
      have hkind : (payload (.output o)).get? "kind" = some (.str "output") := rfl
      have hobj : object (payload (.output o)) ["finish", "kind", "parts"]
          = .ok (payload (.output o)) := rfl
      have hparts : decodeParts (payload (.output o)) = .ok o.parts := decodeParts_payload rfl
      have hfinish : item (payload (.output o)) "finish" = .str o.finish.text := rfl
      have hmap : isMapping (payload (.output o)) = true := rfl
      simp [hmap, hkind, bodyFields, hobj, hparts, hfinish, Output.new_fields, bind,
        Except.bind, pure, Except.pure]
  | toolResult r =>
      have hkind : (payload (.toolResult r)).get? "kind" = some (.str "tool_result") := rfl
      have hobj : object (payload (.toolResult r)) ["call_ref", "kind", "outcome", "parts"]
          = .ok (payload (.toolResult r)) := rfl
      have hparts : decodeParts (payload (.toolResult r)) = .ok (r.parts.map .content) :=
        decodeParts_payload rfl
      have hmap : isMapping (payload (.toolResult r)) = true := rfl
      simp [hmap, hkind, bodyFields, hobj, hparts, decodeToolResult_payload, bind,
        Except.bind, pure, Except.pure]
  | control c =>
      have hkind : (payload (.control c)).get? "kind" = some (.str "control") := rfl
      have hobj : object (payload (.control c)) controlFields = .ok (payload (.control c)) := rfl
      have hnew : Control.new (item (payload (.control c)) "action")
          (item (payload (.control c)) "through_seq")
          (item (payload (.control c)) "reason") = .ok c := Control.new_fields c
      have hmap : isMapping (payload (.control c)) = true := rfl
      simp [hmap, hkind, hobj, hnew, bind, Except.bind, pure, Except.pure]

/-! ### What the decoder accepts -/

/-- The tree is an object with exactly these fields, each of them once. -/
def HasFields (j : Json) (fields : List String) : Prop :=
  ∃ fs, j = .obj fs ∧ (Json.keys fs).Perm fields

/-- The shape of an accepted part. -/
def PartShape (j : Json) : Prop :=
  if j.get? "kind" = some (.str "tool_call") then HasFields j partToolCallFields
  else HasFields j partContentFields

/-- The shape of an accepted body: the fields of its kind at the body, of their kinds at
the parts, and of an address at the call address. -/
def BodyShape (raw : Json) : Prop :=
  ∃ kind, raw.get? "kind" = some (.str kind) ∧
    ((kind = "control" ∧ HasFields raw controlFields) ∨
      ∃ fields items, bodyFields kind = some fields ∧ HasFields raw fields ∧
        raw.get? "parts" = some (.arr items) ∧ (∀ j ∈ items, PartShape j) ∧
        (kind = "tool_result" →
          ∃ call, raw.get? "call_ref" = some call ∧ HasFields call callRefFields))

variable {fields : List String}

/-- `_object` on a dictionary without repeated names lets exactly the field set pass. -/
theorem hasFields_of_object {value : Json} (h : object value fields = .ok row)
    (hvalue : value.UniqueKeys) (hfields : fields.Nodup) :
    row = value ∧ HasFields value fields := by
  unfold object at h
  obtain ⟨hok, h⟩ | ⟨-, ⟨⟩⟩ := ite_eq_iff.mp h
  obtain ⟨hmap, hsame⟩ := hok
  obtain rfl := Except.ok.inj h
  cases value with
  | obj fs =>
      refine ⟨rfl, fs, rfl, ?_⟩
      have hnodup : (Json.keys fs).Nodup := by
        simp only [Json.UniqueKeys, Json.all, Bool.and_eq_true, decide_eq_true_iff] at hvalue
        exact hvalue.1
      refine (List.perm_ext_iff_of_nodup hnodup hfields).mpr fun k => ?_
      simp only [sameNames, mappingFields, Bool.and_eq_true, List.all_eq_true,
        List.contains_iff_mem] at hsame
      exact ⟨hsame.1 k, hsame.2 k⟩
  | _ => cases hmap

theorem uniqueKeys_of_get? {j v : Json} {key : String} (hj : j.UniqueKeys)
    (h : j.get? key = some v) : v.UniqueKeys := by
  cases j with
  | obj fs =>
      have hmem : (key, v) ∈ fs := by
        simp only [Json.get?] at h
        obtain ⟨l, r, rfl, -⟩ := List.lookup_eq_some_iff.mp h
        simp
      simp only [Json.UniqueKeys, Json.all, Bool.and_eq_true, Json.allFields_eq_true_iff] at hj
      exact hj.2 _ hmem
  | _ => cases h

theorem get?_of_hasFields {j : Json} {key : String} (h : HasFields j fields) (hkey : key ∈ fields) :
    j.get? key = some (item j key) := by
  obtain ⟨fs, rfl, hperm⟩ := h
  have hmem : key ∈ Json.keys fs := hperm.mem_iff.mpr hkey
  have hsome : (List.lookup key fs).isSome = true := by
    obtain ⟨⟨k, v⟩, hf, rfl⟩ := List.mem_map.mp hmem
    rw [Option.isSome_iff_ne_none, ne_eq, List.lookup_eq_none_iff]
    intro hall
    simpa using hall _ hf
  obtain ⟨v, hv⟩ := Option.isSome_iff_exists.mp hsome
  simp [item, Json.get?, hv]

theorem partShape_of_decodePart {j : Json} {part : Part} (h : decodePart j = .ok part)
    (hj : j.UniqueKeys) : PartShape j := by
  unfold decodePart at h
  split at h
  · unfold PartShape
    split at h
    · next hkind =>
        obtain ⟨data, hdata, -⟩ := Exceptions.bind_eq_ok.mp h
        rw [if_pos hkind]
        exact (hasFields_of_object hdata hj (by decide)).2
    · next hkind =>
        obtain ⟨data, hdata, -⟩ := Exceptions.bind_eq_ok.mp h
        rw [if_neg hkind]
        exact (hasFields_of_object hdata hj (by decide)).2
  · cases h

theorem bodyFields_spec {kind : String} (h : bodyFields kind = some fields) :
    fields.Nodup ∧ "parts" ∈ fields ∧ (kind = "tool_result" → "call_ref" ∈ fields) := by
  unfold bodyFields at h
  split at h <;> cases h <;> simp

theorem partShape_of_decodeParts (h : decodeParts row = .ok parts) (hrow : row.UniqueKeys)
    (hfields : HasFields row fields) (hmem : "parts" ∈ fields) :
    ∃ items, row.get? "parts" = some (.arr items) ∧ ∀ j ∈ items, PartShape j := by
  have hget := get?_of_hasFields hfields hmem
  unfold decodeParts at h
  split at h
  · next items hitems =>
      rw [hitems] at hget
      refine ⟨items, hget, fun j hj => ?_⟩
      obtain ⟨part, -, hpart⟩ := Exceptions.mapM_eq_ok h j hj
      have harr : (Json.arr items).UniqueKeys := uniqueKeys_of_get? hrow hget
      simp only [Json.UniqueKeys, Json.all, Json.allItems_eq_true_iff] at harr
      exact partShape_of_decodePart hpart (harr j hj)
  · cases h

/-- **What the decoder accepts has no missing, additional or repeated field** at the
body, part or call address level. -/
theorem bodyShape_of_decodeBody {raw : Json} {body : Body} (h : decodeBody raw = .ok body) :
    raw.UniqueKeys ∧ BodyShape raw := by
  unfold decodeBody at h
  split at h
  · cases h
  · next hnone =>
    have hunique := (Json.repeatedKey_eq_none_iff raw).mp hnone
    refine ⟨hunique, ?_⟩
    split at h
    · cases h
    · split at h
      · next hkind =>
          obtain ⟨row, hrow, -⟩ := Exceptions.bind_eq_ok.mp h
          exact ⟨"control", hkind, .inl ⟨rfl, (hasFields_of_object hrow hunique (by decide)).2⟩⟩
      · next kind _ hkind =>
          split at h
          · cases h
          · next fields hfields =>
              obtain ⟨hnodup, hparts, hcall⟩ := bodyFields_spec hfields
              obtain ⟨row, hrow, hrest⟩ := Exceptions.bind_eq_ok.mp h
              obtain ⟨rfl, hshape⟩ := hasFields_of_object hrow hunique hnodup
              obtain ⟨parts, hdec, hlast⟩ := Exceptions.bind_eq_ok.mp hrest
              obtain ⟨items, hitems, hall⟩ := partShape_of_decodeParts hdec hunique hshape hparts
              refine ⟨kind, hkind, .inr ⟨fields, items, hfields, hshape, hitems, hall, ?_⟩⟩
              rintro rfl
              have hget := get?_of_hasFields hshape (hcall rfl)
              obtain ⟨r, hr, -⟩ := Exceptions.bind_eq_ok.mp hlast
              obtain ⟨call, hobj, -⟩ := Exceptions.bind_eq_ok.mp hr
              have hcallUnique := uniqueKeys_of_get? hunique hget
              exact ⟨_, hget, (hasFields_of_object hobj hcallUnique (by decide)).2⟩
      · cases h

theorem legacyUnknown_of_decodeToolResult {r : ToolResult} (h : decodeToolResult row parts = .ok r)
    (hunknown : row.get? "outcome" = some (.str "unknown")) : r.legacyUnknown = true := by
  have hitem : item row "outcome" = .str "unknown" := by rw [item, hunknown, Option.getD_some]
  unfold decodeToolResult at h
  obtain ⟨call, -, hrest⟩ := Exceptions.bind_eq_ok.mp h
  obtain ⟨ref, -, hlast⟩ := Exceptions.bind_eq_ok.mp hrest
  rw [if_pos hitem] at hlast
  split at hlast
  · rw [← Except.ok.inj hlast]
  · cases hlast

/-- A body stored with the outcome `unknown` and read as a result is marked as legacy. -/
theorem legacyUnknown_of_decodeBody {raw : Json} {r : ToolResult}
    (h : decodeBody raw = .ok (.toolResult r))
    (hunknown : raw.get? "outcome" = some (.str "unknown")) : r.legacyUnknown = true := by
  unfold decodeBody at h
  split at h
  · cases h
  · split at h
    · cases h
    · split at h
      · obtain ⟨row, -, hrest⟩ := Exceptions.bind_eq_ok.mp h
        obtain ⟨c, -, hlast⟩ := Exceptions.bind_eq_ok.mp hrest
        cases hlast
      · split at h
        · cases h
        · obtain ⟨row, hrow, hrest⟩ := Exceptions.bind_eq_ok.mp h
          obtain rfl : raw = row := by
            unfold object at hrow
            split at hrow
            · exact Except.ok.inj hrow
            · cases hrow
          obtain ⟨parts, -, hlast⟩ := Exceptions.bind_eq_ok.mp hrest
          split at hlast
          · obtain ⟨b, -, hb⟩ := Exceptions.bind_eq_ok.mp hlast
            cases hb
          · obtain ⟨b, -, hb⟩ := Exceptions.bind_eq_ok.mp hlast
            cases hb
          · obtain ⟨b, hdec, hb⟩ := Exceptions.bind_eq_ok.mp hlast
            obtain rfl := Body.toolResult.inj (Except.ok.inj hb)
            exact legacyUnknown_of_decodeToolResult hdec hunknown
      · cases h

/-! ### Texts -/

/-- A reader of JSON texts: it reads every canonical tree back from its compact text, and
nothing more is asked of it. -/
structure JsonText where
  /-- The tree of a text, fields in text order; `none` where the text is not JSON. -/
  loads : String → Option Json
  loads_dumps : ∀ j : Json, j.Canonical → loads j.dumps = some j

/-- The compact reader is such a reader. -/
def compactText : JsonText where
  loads := Json.loads
  loads_dumps _ h := Json.loads_dumps h.finite

/-- `encode_body` to text. -/
def encodeText (body : Body) (allowLegacy : Bool) : Except PyError String :=
  (encodeBody body allowLegacy).map Json.dumps

/-- `decode_body` from text. -/
def decodeText (T : JsonText) (text : String) : Except PyError Body :=
  match T.loads text with
  | some raw => decodeBody raw
  | none => valueError "Expecting value"

theorem encodeText_eq (body : Body) : encodeText body true = .ok (payload body).dumps := by
  rw [encodeText, encodeBody_eq]
  rfl

theorem decodeText_payload (T : JsonText) (body : Body) :
    decodeText T (payload body).dumps = .ok body := by
  rw [decodeText, T.loads_dumps _ (canonical_payload body)]
  exact decodeBody_payload body

/-- **The body codec.** Every body is read back from the text it is stored under. A text
the decoder accepts is stored again under a text that decodes to the same body, and under
the same text when it was one the encoder wrote. A result stored as `unknown` is read as
an error and stored as `unknown` again. And a text is rejected unless its body, its parts
and its call address have exactly the fields of their kinds, each once. -/
theorem body_codec (T : JsonText) :
    (∀ body, ∃ text, encodeText body true = .ok text ∧ decodeText T text = .ok body) ∧
    (∀ text body, decodeText T text = .ok body →
      ∃ text', encodeText body true = .ok text' ∧ decodeText T text' = .ok body ∧
        ((∃ body', encodeText body' true = .ok text) → text' = text)) ∧
    (∀ text raw r, T.loads text = some raw → decodeText T text = .ok (.toolResult r) →
      raw.get? "outcome" = some (.str "unknown") →
      r.outcome = .error ∧ ∃ stored, encodeBody (.toolResult r) true = .ok stored ∧
        stored.get? "outcome" = some (.str "unknown")) ∧
    (∀ text raw, T.loads text = some raw → ¬ (raw.UniqueKeys ∧ BodyShape raw) →
      ∃ e, decodeText T text = .error e) := by
  refine ⟨?_, ?_, ?_, ?_⟩
  · intro body
    exact ⟨_, encodeText_eq body, decodeText_payload T body⟩
  · intro text body hdec
    refine ⟨_, encodeText_eq body, decodeText_payload T body, ?_⟩
    rintro ⟨body', henc⟩
    rw [encodeText_eq] at henc
    obtain rfl := Except.ok.inj henc
    rw [decodeText_payload] at hdec
    rw [Except.ok.inj hdec]
  · intro text raw r hload hdec hunknown
    rw [decodeText, hload] at hdec
    have hlegacy := legacyUnknown_of_decodeBody hdec hunknown
    refine ⟨r.legacy_error hlegacy, _, encodeBody_eq _, ?_⟩
    simp [payload, Json.get?, List.lookup_cons, ToolResult.storedOutcome, hlegacy]
  · intro text raw hload hshape
    cases hdec : decodeText T text with
    | error e => exact ⟨e, rfl⟩
    | ok body =>
        rw [decodeText, hload] at hdec
        exact absurd (bodyShape_of_decodeBody hdec) hshape

end Kirakira
