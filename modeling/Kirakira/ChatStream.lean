import Kirakira.Lib.Dict
import Kirakira.Lib.Json
import Kirakira.ThinkTags

/-!
# Chat Streams

The reader of a streamed chat completion, `_consume_stream` of
`plugins/step_plan/transport.py`: the lines of an event stream are put together to one response,
and on the way the caller is shown what has come in.

* A value that was read from JSON is a `Json`, and `None` is its null. `json.loads`, and `str` of
  a finish reason, are parameters.
* What `_consume_stream` raises comes with the previews that were emitted before.
* The clock of the stream is not here, nor is what the callback does with a preview.
-/

namespace Kirakira.Stream

open Lines

/-! ### Values -/

/-- `mapping.get(key)`. -/
def get (mapping : Json) (key : String) : Json :=
  (mapping.get? key).getD .null

/-- The characters of a string; anything else has none. -/
def textOf : Json → List Char
  | .str text => text.toList
  | _ => []

/-- The items of a list; anything else has none. -/
def itemsOf : Json → List Json
  | .arr items => items
  | _ => []

/-- `isinstance(value, str)`, with the string. -/
def asString : Json → Option String
  | .str text => some text
  | _ => none

/-! ### Usage -/

/-- `UsageCoverage`; `partly` is `"partial"`. -/
inductive UsageCoverage where
  | exact
  | partly
  | unavailable
  deriving DecidableEq

/-- `ModelUsage`. -/
structure ModelUsage where
  inputTokens : Option ℤ := none
  cacheWriteInputTokens : Option ℤ := none
  cachedInputTokens : Option ℤ := none
  outputTokens : Option ℤ := none
  reasoningOutputTokens : Option ℤ := none
  requestCount : ℕ := 1
  coveredRequestCount : ℕ := 0
  coverage : UsageCoverage := .unavailable
  deriving DecidableEq

/-- `_optional_int`. -/
def optionalInt : Json → Except String (Option ℤ)
  | .null => .ok none
  | .int value =>
      if value < 0 then .error "usage token counts must be non-negative integers"
      else .ok (some value)
  | _ => .error "usage token counts must be non-negative integers"

/-- `_optional_int(details.get(key)) if isinstance(details, Mapping) else None`. -/
def detailInt (details : Json) (key : String) : Except String (Option ℤ) :=
  match details with
  | .obj _ => optionalInt (get details key)
  | _ => .ok none

/-- `_usage`. -/
def usage (raw : Json) : Except String ModelUsage := do
  let inputTokens ← optionalInt (get raw "prompt_tokens")
  let outputTokens ← optionalInt (get raw "completion_tokens")
  let promptDetails := get raw "prompt_tokens_details"
  let completionDetails := get raw "completion_tokens_details"
  let cached ← detailInt promptDetails "cached_tokens"
  let cacheHit ← optionalInt (get raw "prompt_cache_hit_tokens")
  let cacheMiss ← optionalInt (get raw "prompt_cache_miss_tokens")
  let counted := cacheHit.isSome || cacheMiss.isSome
  let inputTokens :=
    if counted then inputTokens.or (some (cacheHit.getD 0 + cacheMiss.getD 0)) else inputTokens
  let cached := if counted then cached.or (some (cacheHit.getD 0)) else cached
  let cached ← if cached.isNone then optionalInt (get raw "cached_tokens") else pure cached
  let cacheWrite ← detailInt promptDetails "cache_write_tokens"
  let reasoning ← detailInt completionDetails "reasoning_tokens"
  let covered := inputTokens.isSome && outputTokens.isSome
  let coverage : UsageCoverage :=
    if covered then .exact
    else if inputTokens.isSome || outputTokens.isSome then .partly
    else .unavailable
  pure
    { inputTokens
      cacheWriteInputTokens := cacheWrite
      cachedInputTokens := cached
      outputTokens
      reasoningOutputTokens := reasoning
      coveredRequestCount := covered.toNat
      coverage }

/-! ### Tool calls -/

/-- What has come in of one tool call. -/
structure Slot where
  id : String := ""
  name : String := ""
  arguments : String := ""
  deriving DecidableEq

/-- `ToolCall`. -/
structure ToolCall where
  id : String
  name : String
  arguments : Json

/-- What a fragment of a tool call adds, and to which one. -/
def fragment (raw : Json) : Except String (ℕ × Slot) :=
  match raw with
  | .obj _ =>
      match get raw "index" with
      | .int index =>
          if index < 0 then .error "stream tool call index must be non-negative"
          else
            -- a missing function has neither a name nor arguments
            let function := get raw "function"
            let added : Slot :=
              { id := (asString (get raw "id")).getD ""
                name := (asString (get function "name")).getD ""
                arguments := (asString (get function "arguments")).getD "" }
            .ok (index.toNat, added)
      | _ => .error "stream tool call index must be non-negative"
  | _ => .error "stream tool call delta must be an object"

/-- A slot with a fragment behind it. -/
def Slot.append (slot added : Slot) : Slot :=
  ⟨slot.id ++ added.id, slot.name ++ added.name, slot.arguments ++ added.arguments⟩

/-- One round of `_merge_tool_deltas`. -/
def mergeToolDelta (calls : Dict ℕ Slot) (raw : Json) : Except String (Dict ℕ Slot) := do
  let (index, added) ← fragment raw
  pure (calls.set index (((calls.get? index).getD {}).append added))

/-- `_merge_tool_deltas`. -/
def mergeToolDeltas (calls : Dict ℕ Slot) (rawCalls : List Json) : Except String (Dict ℕ Slot) :=
  rawCalls.foldlM mergeToolDelta calls

/-- `_required_string`. -/
def requiredString (value name : String) : Except String String :=
  if value = "" then .error (name ++ " must be a non-empty string") else .ok value

section

variable (loads : String → Option Json) (str : Json → String)

/-- `_tool_arguments`. -/
def toolArguments (value : String) : Except String Json :=
  match loads value with
  | none => .error "tool call arguments are invalid JSON"
  | some (.obj fields) => .ok (.obj fields)
  | some _ => .error "tool call arguments must decode to an object"

/-- `_tool_calls`. -/
def toolCalls (calls : Dict ℕ Slot) : Except String (List ToolCall) :=
  (calls.entries.mergeSort fun a b => a.1 ≤ b.1).mapM fun (_, raw) => do
    let id ← requiredString raw.id "tool call id"
    let name ← requiredString raw.name "tool call name"
    let arguments ← toolArguments loads (if raw.arguments = "" then "{}" else raw.arguments)
    pure ⟨id, name, arguments⟩

/-! ### The state of a stream -/

/-- What `on_delta` is called with. -/
inductive Preview where
  | content (text : List Char)
  | thinking (text : List Char)
  deriving DecidableEq

/-- `LLMResponse`, as far as a stream fills it. -/
structure LLMResponse where
  content : Option (List Char)
  thinking : Option (List Char)
  toolCalls : List ToolCall
  finishReason : Option String
  usage : Option ModelUsage

/-- What is raised: the message, and what `_StreamReadError` knows of the stream. -/
structure Failure where
  message : String
  responseDeltaSeen : Option Bool

/-- What a stream comes to. -/
structure Outcome where
  result : Except Failure LLMResponse
  previews : List Preview

/-- The variables of `_consume_stream`, with the previews that were emitted. -/
structure State where
  content : List (List Char) := []
  thinking : List (List Char) := []
  calls : Dict ℕ Slot := .empty
  toolSeen : Bool := false
  finishReason : Option String := none
  usage : Option ModelUsage := none
  responseDeltaSeen : Bool := false
  nativeReasoningSeen : Bool := false
  pendingContent : List Char := []
  legacyCandidate : Option (List Char) := none
  previews : List Preview := []

/-- What is raised in a state. -/
def State.fail (st : State) (message : String) : Outcome :=
  ⟨.error ⟨message, some st.responseDeltaSeen⟩, st.previews⟩

/-- `_emit_delta`. -/
def State.emit (st : State) (preview : Preview) : State :=
  { st with previews := st.previews ++ [preview] }

/-- `_emit_delta` of a text unless it is empty. -/
def State.emitText (st : State) (kind : List Char → Preview) (text : List Char) : State :=
  if text = [] then st else st.emit (kind text)

/-- The part of a chunk with tool calls. -/
def takeToolCalls (st : State) (rawCalls : List Json) : Except Outcome State :=
  let st := { st with responseDeltaSeen := true, toolSeen := true }
  match mergeToolDeltas st.calls rawCalls with
  | .ok calls => .ok { st with calls }
  | .error message => .error (st.fail message)

/-- The first reasoning of the provider gives up what was held back. -/
def noteNativeReasoning (st : State) : State :=
  if st.nativeReasoningSeen then st
  else
    let heldContent := (st.legacyCandidate.bind orNone).getD st.pendingContent
    let st := { st with nativeReasoningSeen := true }
    let st := if st.toolSeen then st else st.emitText .content heldContent
    { st with pendingContent := [], legacyCandidate := none }

/-- The part of a chunk with reasoning. -/
def takeReasoning (st : State) (reasoning : List Char) : State :=
  let st := noteNativeReasoning { st with responseDeltaSeen := true }
  let st := { st with thinking := st.thinking ++ [reasoning] }
  if st.toolSeen then st else st.emit (.thinking reasoning)

/-- The part of a chunk with content. -/
def takeContent (st : State) (piece : List Char) : State :=
  let st := { st with responseDeltaSeen := true, content := st.content ++ [piece] }
  if st.nativeReasoningSeen then
    if st.toolSeen then st else st.emit (.content piece)
  else
    match st.legacyCandidate with
    | some candidate => { st with legacyCandidate := some (candidate ++ piece) }
    | none =>
        let held := holdLegacyThinkingCandidate (st.pendingContent ++ piece)
        let st := { st with pendingContent := held.2.1, legacyCandidate := held.2.2 }
        if st.toolSeen then st else st.emitText .content held.1

/-! ### Reading the stream -/

/-- `reasoning_content` of a delta, or else its `reasoning`. -/
def reasoningOf (delta : Json) : Json :=
  if get delta "reasoning_content" = .null then get delta "reasoning"
  else get delta "reasoning_content"

/-- What the loop does with the delta of a choice. -/
def consumeDelta (st : State) (delta : Json) : Except Outcome State := do
  let rawCalls := itemsOf (get delta "tool_calls")
  let st ← (if rawCalls = [] then .ok st else takeToolCalls st rawCalls)
  let reasoning := textOf (reasoningOf delta)
  let st := if reasoning = [] then st else takeReasoning st reasoning
  let piece := textOf (get delta "content")
  pure (if piece = [] then st else takeContent st piece)

/-- What the loop does with the first choice of a chunk. -/
def consumeChoice (st : State) (choice : Json) : Except Outcome State :=
  match choice with
  | .obj _ =>
      let rawFinish := get choice "finish_reason"
      let st := if rawFinish = .null then st else { st with finishReason := some (str rawFinish) }
      match get choice "delta" with
      | .obj fields => consumeDelta st (.obj fields)
      | _ => .ok st
  | _ => .error (st.fail "stream choice must be an object")

/-- What the loop does with the usage of a chunk. -/
def consumeUsage (st : State) (rawUsage : Json) : Except Outcome State :=
  match rawUsage with
  | .obj _ =>
      match usage rawUsage with
      | .ok usage => .ok { st with usage := some usage }
      | .error message => .error (st.fail message)
  | _ => .ok st

/-- What the loop does with a chunk. -/
def consumeChunk (st : State) (chunk : Json) : Except Outcome State :=
  match chunk with
  | .obj _ => do
      let st ← consumeUsage st (get chunk "usage")
      match itemsOf (get chunk "choices") with
      | [] => .ok st
      | choice :: _ => consumeChoice str st choice
  | _ => .error (st.fail "stream chunk must be an object")

/-- The loop over the lines; whether the terminal marker was read. -/
def consumeLines (st : State) : List String → Except Outcome (State × Bool)
  | [] => .ok (st, false)
  | line :: lines =>
      if line.startsWith "data:" then
        let data := strip (line.drop 5).toString
        if data = "" then consumeLines st lines
        else if data = "[DONE]" then .ok (st, true)
        else
          match loads data with
          | none => .error (st.fail "stream contains invalid JSON")
          | some chunk => do
              let st ← consumeChunk str st chunk
              consumeLines st lines
      else consumeLines st lines

/-! ### The response -/

/-- What was held back is shown at the end. -/
def emitHeld (st : State) : State :=
  if st.nativeReasoningSeen ∨ st.toolSeen then st
  else
    match st.legacyCandidate with
    | some candidate =>
        let parsed := splitTaggedThinking (some candidate) none
        (st.emitText .thinking (parsed.2.getD [])).emitText .content (parsed.1.getD [])
    | none => st.emitText .content st.pendingContent

/-- `_consume_stream` after its loop. -/
def finishStream (st : State) : Outcome :=
  let parsed := splitTaggedThinking (orNone (trim st.content.flatten))
    (orNone (trim st.thinking.flatten))
  { previews := (emitHeld st).previews
    result :=
      match toolCalls loads st.calls with
      | .error message => .error ⟨message, none⟩
      | .ok toolCalls => .ok ⟨parsed.1, parsed.2, toolCalls, st.finishReason, st.usage⟩ }

/-- `_consume_stream`. -/
def consumeStream (lines : List String) : Outcome :=
  match consumeLines loads str {} lines with
  | .error outcome => outcome
  | .ok (st, false) => st.fail "stream ended before its terminal marker"
  | .ok (st, true) => finishStream loads st

end

end Kirakira.Stream
