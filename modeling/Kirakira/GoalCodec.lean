import Kirakira.Codec
import Kirakira.GoalState
import Kirakira.Times

/-!
# Goal Records

The encoding of goals and of operation receipts as owner records, from
`plugins/goal/store.py`. Both encoders check what they return by decoding it, so whatever
is saved can be read back, and reading it back gives what was saved.

## Main results

* `decodeGoal_of_encodeGoal` — a stored goal decodes to the goal.
* `decodeOperation_of_encodeOperation` — a stored receipt decodes to the receipt.
-/

namespace Kirakira

open Exceptions

/-! ### Goals -/

/-- `_datetime`. -/
def decodeDatetime (value : Json) (field : String) : Except PyError Instant :=
  match value with
  | .str text =>
      if (Instant.micros ⟨text⟩).isSome then .ok ⟨text⟩
      else valueError s!"goal owner {field} 不是合法 ISO 时间"
  | _ => valueError s!"goal owner {field} 必须是 ISO 时间"

/-- `_GOAL_FIELDS`. -/
def goalFields : List String :=
  ["consecutive_empty", "continuation_id", "continuations", "created_at", "goal_id", "last_reason",
    "last_settled_message_id", "objective", "session_id", "settled_through_seq", "status",
    "token_budget", "tokens_used", "updated_at", "usage_coverage", "version"]

/-- `value == 1`, which also holds of `True` and `1.0`. -/
def isOne : Json → Bool
  | .int n => n = 1
  | .bool b => b
  | .float f => f.text = "1.0"
  | _ => false

/-- `_optional_text`. -/
def decodeOptionalText (value : Json) (field : String) : Except PyError (Option String) :=
  match value with
  | .null => .ok none
  | .str text => if text = "" then valueError s!"goal owner {field} 无效" else .ok (some text)
  | _ => valueError s!"goal owner {field} 无效"

/-- A text that must not be empty. -/
def requiredText (value : Json) (field : String) : Except PyError String :=
  match value with
  | .str text => if text = "" then valueError s!"goal owner {field} 无效" else .ok text
  | _ => valueError s!"goal owner {field} 无效"

/-- The objective, which must be normalized. -/
def decodeObjective : Json → Except PyError String
  | .str text => do
      let normalized ← normalizeObjective text
      if normalized ≠ text then valueError "goal owner objective 无效" else return text
  | _ => valueError "goal owner objective 无效"

/-- The status. -/
def decodeStatus : Json → Except PyError GoalStatus
  | .str text =>
      match [GoalStatus.active, .paused, .blocked, .budgetLimited, .complete].find?
          (fun status => status.text = text) with
      | some status => .ok status
      | none => valueError s!"goal owner 未知状态: {text}"
  | _ => valueError "goal owner status 无效"

/-- The budget. -/
def decodeBudget : Json → Except PyError (Option ℤ)
  | .null => .ok none
  | .int n => normalizeTokenBudget (some n)
  | _ => valueError "goal owner token_budget 无效"

/-- A counter. -/
def decodeCount (value : Json) (field : String) : Except PyError ℕ :=
  match value with
  | .int n => if n < 0 then valueError s!"goal owner {field} 必须是非负整数" else .ok n.toNat
  | _ => valueError s!"goal owner {field} 必须是非负整数"

/-- The cursor. -/
def decodeCursor : Json → Except PyError ℤ
  | .int n => if n < -1 then valueError "goal owner settled_through_seq 无效" else .ok n
  | _ => valueError "goal owner settled_through_seq 无效"

/-- The coverage. -/
def decodeCoverage : Json → Except PyError UsageCoverage
  | .str text =>
      match [UsageCoverage.exact, .incomplete, .unavailable].find?
          (fun coverage => coverage.text = text) with
      | some coverage => .ok coverage
      | none => valueError "goal owner usage_coverage 无效"
  | _ => valueError "goal owner usage_coverage 无效"

/-- `decode_goal`. -/
def decodeGoal (sessionId : String) (raw : Json) : Except PyError Goal :=
  if isMapping raw = false ∨ sameNames (Json.keys (mappingFields raw)) goalFields = false then
    valueError "goal owner 目标字段无效"
  else if isOne (item raw "version") = false then valueError "goal owner 目标版本不支持"
  else if item raw "session_id" ≠ .str sessionId then
    valueError "goal owner 目标 Session 不一致"
  else do
    let goalId ← requiredText (item raw "goal_id") "goal_id"
    let objective ← decodeObjective (item raw "objective")
    let status ← decodeStatus (item raw "status")
    let tokenBudget ← decodeBudget (item raw "token_budget")
    let tokensUsed ← decodeCount (item raw "tokens_used") "tokens_used"
    let continuations ← decodeCount (item raw "continuations") "continuations"
    let consecutiveEmpty ← decodeCount (item raw "consecutive_empty") "consecutive_empty"
    let settledThroughSeq ← decodeCursor (item raw "settled_through_seq")
    let usageCoverage ← decodeCoverage (item raw "usage_coverage")
    let lastSettledMessageId ←
      decodeOptionalText (item raw "last_settled_message_id") "last_settled_message_id"
    let continuationId ← decodeOptionalText (item raw "continuation_id") "continuation_id"
    let createdAt ← decodeDatetime (item raw "created_at") "created_at"
    let updatedAt ← decodeDatetime (item raw "updated_at") "updated_at"
    let lastReason ← decodeOptionalText (item raw "last_reason") "last_reason"
    return {
      sessionId := sessionId
      goalId := goalId
      objective := objective
      status := status
      tokenBudget := tokenBudget
      tokensUsed := tokensUsed
      continuations := continuations
      consecutiveEmpty := consecutiveEmpty
      settledThroughSeq := settledThroughSeq
      lastSettledMessageId := lastSettledMessageId
      continuationId := continuationId
      usageCoverage := usageCoverage
      createdAt := createdAt
      updatedAt := updatedAt
      lastReason := lastReason }

/-- An optional integer as JSON. -/
def optionalInt : Option ℤ → Json
  | none => .null
  | some n => .int n

/-- The dictionary of a goal, in the order of its keys, which a dictionary does not have. -/
def goalDict (g : Goal) : Json :=
  .obj [("consecutive_empty", .int g.consecutiveEmpty),
    ("continuation_id", optionalText g.continuationId), ("continuations", .int g.continuations),
    ("created_at", .str g.createdAt.iso), ("goal_id", .str g.goalId),
    ("last_reason", optionalText g.lastReason),
    ("last_settled_message_id", optionalText g.lastSettledMessageId),
    ("objective", .str g.objective), ("session_id", .str g.sessionId),
    ("settled_through_seq", .int g.settledThroughSeq), ("status", .str g.status.text),
    ("token_budget", optionalInt g.tokenBudget), ("tokens_used", .int g.tokensUsed),
    ("updated_at", .str g.updatedAt.iso), ("usage_coverage", .str g.usageCoverage.text),
    ("version", .int 1)]

/-- `encode_goal`. -/
def encodeGoal (g : Goal) : Except PyError Json := do
  let _ ← decodeGoal g.sessionId (goalDict g)
  return goalDict g

/-! ### Receipts -/

/-- `_OPERATION_KINDS`. -/
def operationKinds : List String :=
  ["create", "update", "pause", "resume", "clear", "budget", "command"]

/-- `Operation`: the receipt of an operation. -/
structure Operation where
  kind : String
  digest : String
  response : String
  goal : Option Goal
  createdAt : Instant
  deriving DecidableEq

/-- `_OPERATION_FIELDS`. -/
def operationFields : List String :=
  ["created_at", "digest", "goal", "kind", "response", "version"]

/-- The goal of a receipt. -/
def decodeOperationGoal (value : Json) : Except PyError (Option Goal) :=
  match value with
  | .null => .ok none
  | .obj fields =>
      match (Json.obj fields).get? "session_id" with
      | some (.str sessionId) => (decodeGoal sessionId (.obj fields)).map some
      | _ => valueError "goal owner 操作目标无效"
  | _ => valueError "goal owner 操作目标无效"

/-- The kind of a receipt; testing a list or a dictionary for membership raises. -/
def decodeKind (value : Json) : Except PyError String :=
  match value with
  | .str kind => if operationKinds.contains kind then .ok kind
      else valueError "goal owner 操作 kind 无效"
  | .arr _ => typeError "unhashable type: 'list'"
  | .obj _ => typeError "unhashable type: 'dict'"
  | _ => valueError "goal owner 操作 kind 无效"

/-- The digest of a receipt. -/
def decodeDigest : Json → Except PyError String
  | .str digest => if isDigest digest then .ok digest else valueError "goal owner 操作 digest 无效"
  | _ => valueError "goal owner 操作 digest 无效"

/-- `decode_operation`. -/
def decodeOperation (raw : Json) : Except PyError Operation :=
  if isMapping raw = false ∨ sameNames (Json.keys (mappingFields raw)) operationFields = false then
    valueError "goal owner 操作字段无效"
  else if isOne (item raw "version") = false then valueError "goal owner 操作版本不支持"
  else do
    let kind ← decodeKind (item raw "kind")
    let digest ← decodeDigest (item raw "digest")
    let response ← requiredText (item raw "response") "操作 response"
    let goal ← decodeOperationGoal (item raw "goal")
    let createdAt ← decodeDatetime (item raw "created_at") "created_at"
    return ⟨kind, digest, response, goal, createdAt⟩

/-- The dictionary of a receipt, in the order of its keys. -/
def operationDict (o : Operation) : Json :=
  .obj [("created_at", .str o.createdAt.iso), ("digest", .str o.digest),
    ("goal", (o.goal.map goalDict).getD .null), ("kind", .str o.kind),
    ("response", .str o.response), ("version", .int 1)]

/-- `encode_operation`. -/
def encodeOperation (o : Operation) : Except PyError Json := do
  if let some goal := o.goal then
    let _ ← encodeGoal goal
  let _ ← decodeOperation (operationDict o)
  return operationDict o

/-! ### Reading back -/

section Fields

variable {field : String}

theorem decodeDatetime_str (instant : Instant) {instant' : Instant}
    (h : decodeDatetime (.str instant.iso) field = .ok instant') : instant' = instant := by
  unfold decodeDatetime at h
  dsimp only at h
  split at h
  · exact (Except.ok.inj h).symm
  · cases h

theorem requiredText_str (text : String) {text' : String}
    (h : requiredText (.str text) field = .ok text') :
    text' = text ∧ text ≠ "" := by
  unfold requiredText at h
  dsimp only at h
  split at h
  · cases h
  · next hne => exact ⟨(Except.ok.inj h).symm, hne⟩

theorem decodeOptionalText_optionalText (text : Option String) {text' : Option String}
    (h : decodeOptionalText (optionalText text) field = .ok text') : text' = text := by
  cases text with
  | none => exact (Except.ok.inj h).symm
  | some text =>
      unfold decodeOptionalText at h
      dsimp only [optionalText] at h
      split at h
      · cases h
      · exact (Except.ok.inj h).symm

theorem decodeCount_int (n : ℕ) {m : ℕ} (h : decodeCount (.int n) field = .ok m) : m = n := by
  unfold decodeCount at h
  dsimp only at h
  split at h
  · cases h
  · exact (Except.ok.inj h).symm

theorem decodeCount_nonneg (n : ℤ) {m : ℕ} (h : decodeCount (.int n) field = .ok m) :
    (m : ℤ) = n := by
  unfold decodeCount at h
  dsimp only at h
  split at h
  · cases h
  · obtain rfl := Except.ok.inj h
    omega

end Fields

theorem decodeObjective_str (text : String) {text' : String}
    (h : decodeObjective (.str text) = .ok text') :
    text' = text := by
  unfold decodeObjective at h
  obtain ⟨normalized, -, h⟩ := bind_eq_ok.mp h
  split at h
  · cases h
  · exact (Except.ok.inj h).symm

@[simp] theorem decodeStatus_text (status : GoalStatus) :
    decodeStatus (.str status.text) = .ok status := by
  cases status <;> rfl

@[simp] theorem decodeCoverage_text (coverage : UsageCoverage) :
    decodeCoverage (.str coverage.text) = .ok coverage := by
  cases coverage <;> rfl

theorem decodeBudget_optionalInt (budget : Option ℤ) {budget' : Option ℤ}
    (h : decodeBudget (optionalInt budget) = .ok budget') : budget' = budget := by
  cases budget with
  | none => exact (Except.ok.inj h).symm
  | some n =>
      have h : normalizeTokenBudget (some n) = .ok budget' := h
      exact (normalizeTokenBudget_eq_ok h).1

theorem decodeCursor_int (n : ℤ) {m : ℤ} (h : decodeCursor (.int n) = .ok m) : m = n ∧ -1 ≤ n := by
  unfold decodeCursor at h
  dsimp only at h
  split at h
  · cases h
  · exact ⟨(Except.ok.inj h).symm, by omega⟩

/-- What a goal whose dictionary decodes satisfies. -/
structure Goal.Encodable (g : Goal) : Prop where
  goalId : g.goalId ≠ ""
  settledThroughSeq : -1 ≤ g.settledThroughSeq

/-- A dictionary of a goal decodes to the goal, if it decodes. -/
theorem decodeGoal_goalDict {sessionId : String} {g g' : Goal}
    (h : decodeGoal sessionId (goalDict g) = .ok g') : g' = g ∧ g.Encodable := by
  unfold decodeGoal at h
  split at h
  · cases h
  split at h
  · cases h
  split at h
  · cases h
  next hsession =>
    have hsession : g.sessionId = sessionId := Json.str.inj (not_not.mp hsession)
    obtain ⟨goalId, hgoalId, h⟩ := bind_eq_ok.mp h
    obtain ⟨objective, hobjective, h⟩ := bind_eq_ok.mp h
    obtain ⟨status, hstatus, h⟩ := bind_eq_ok.mp h
    obtain ⟨tokenBudget, htokenBudget, h⟩ := bind_eq_ok.mp h
    obtain ⟨tokensUsed, htokensUsed, h⟩ := bind_eq_ok.mp h
    obtain ⟨continuations, hcontinuations, h⟩ := bind_eq_ok.mp h
    obtain ⟨consecutiveEmpty, hconsecutiveEmpty, h⟩ := bind_eq_ok.mp h
    obtain ⟨settledThroughSeq, hsettled, h⟩ := bind_eq_ok.mp h
    obtain ⟨usageCoverage, hcoverage, h⟩ := bind_eq_ok.mp h
    obtain ⟨lastSettled, hlast, h⟩ := bind_eq_ok.mp h
    obtain ⟨continuationId, hcontinuationId, h⟩ := bind_eq_ok.mp h
    obtain ⟨createdAt, hcreatedAt, h⟩ := bind_eq_ok.mp h
    obtain ⟨updatedAt, hupdatedAt, h⟩ := bind_eq_ok.mp h
    obtain ⟨lastReason, hlastReason, h⟩ := bind_eq_ok.mp h
    obtain rfl := Except.ok.inj h
    obtain ⟨rfl, hne⟩ := requiredText_str g.goalId hgoalId
    obtain ⟨rfl, hcursor⟩ := decodeCursor_int g.settledThroughSeq hsettled
    refine ⟨?_, hne, hcursor⟩
    obtain rfl := decodeObjective_str g.objective hobjective
    obtain rfl := Except.ok.inj ((decodeStatus_text g.status).symm.trans hstatus)
    obtain rfl := decodeBudget_optionalInt g.tokenBudget htokenBudget
    have hused := decodeCount_nonneg g.tokensUsed htokensUsed
    obtain rfl := decodeCount_int g.continuations hcontinuations
    obtain rfl := decodeCount_int g.consecutiveEmpty hconsecutiveEmpty
    obtain rfl := Except.ok.inj ((decodeCoverage_text g.usageCoverage).symm.trans hcoverage)
    obtain rfl := decodeOptionalText_optionalText g.lastSettledMessageId hlast
    obtain rfl := decodeOptionalText_optionalText g.continuationId hcontinuationId
    obtain rfl := decodeDatetime_str g.createdAt hcreatedAt
    obtain rfl := decodeDatetime_str g.updatedAt hupdatedAt
    obtain rfl := decodeOptionalText_optionalText g.lastReason hlastReason
    rw [← hsession, hused]

theorem decodeGoal_of_encodeGoal {g : Goal} {value : Json} (h : encodeGoal g = .ok value) :
    value = goalDict g ∧ decodeGoal g.sessionId value = .ok g ∧ g.Encodable := by
  unfold encodeGoal at h
  obtain ⟨g', hdecode, h⟩ := bind_eq_ok.mp h
  obtain rfl := Except.ok.inj h
  obtain ⟨rfl, hok⟩ := decodeGoal_goalDict hdecode
  exact ⟨rfl, hdecode, hok⟩

@[simp] theorem canonical_optionalText (text : Option String) :
    (optionalText text).Canonical := by
  cases text <;> rfl

@[simp] theorem canonical_optionalInt (n : Option ℤ) : (optionalInt n).Canonical := by
  cases n <;> rfl

theorem canonical_goalDict (g : Goal) : (goalDict g).Canonical := by
  refine Json.canonical_obj.mpr ⟨(by decide : goalFields.Pairwise (· < ·)), ?_⟩
  simp

theorem canonical_operationDict (o : Operation) : (operationDict o).Canonical := by
  refine Json.canonical_obj.mpr ⟨(by decide : operationFields.Pairwise (· < ·)), ?_⟩
  cases o.goal with
  | none => simp
  | some g => simp [canonical_goalDict]

theorem decodeOperationGoal_dict {goal goal' : Option Goal}
    (h : decodeOperationGoal ((goal.map goalDict).getD .null) = .ok goal') : goal' = goal := by
  cases goal with
  | none => exact (Except.ok.inj h).symm
  | some g =>
      have h : (decodeGoal g.sessionId (goalDict g)).map some = .ok goal' := h
      cases hdecode : decodeGoal g.sessionId (goalDict g) with
      | error e =>
          rw [hdecode] at h
          cases h
      | ok g' =>
          rw [hdecode] at h
          obtain rfl := Except.ok.inj h
          rw [(decodeGoal_goalDict hdecode).1]

theorem decodeDigest_str {digest digest' : String} (h : decodeDigest (.str digest) = .ok digest') :
    digest' = digest := by
  unfold decodeDigest at h
  dsimp only at h
  split at h
  · exact (Except.ok.inj h).symm
  · cases h

theorem decodeKind_str {kind kind' : String} (h : decodeKind (.str kind) = .ok kind') :
    kind' = kind := by
  unfold decodeKind at h
  dsimp only at h
  split at h
  · exact (Except.ok.inj h).symm
  · cases h

theorem decodeOperation_operationDict {o o' : Operation}
    (h : decodeOperation (operationDict o) = .ok o') : o' = o := by
  unfold decodeOperation at h
  split at h
  · cases h
  split at h
  · cases h
  obtain ⟨kind, hkind, h⟩ := bind_eq_ok.mp h
  obtain ⟨digest, hdigest, h⟩ := bind_eq_ok.mp h
  obtain ⟨response, hresponse, h⟩ := bind_eq_ok.mp h
  obtain ⟨goal, hgoal, h⟩ := bind_eq_ok.mp h
  obtain ⟨createdAt, hcreatedAt, h⟩ := bind_eq_ok.mp h
  obtain rfl := Except.ok.inj h
  obtain rfl : kind = o.kind := decodeKind_str hkind
  obtain rfl : digest = o.digest := decodeDigest_str hdigest
  obtain ⟨rfl, -⟩ := requiredText_str o.response hresponse
  obtain rfl : goal = o.goal := decodeOperationGoal_dict hgoal
  obtain rfl := decodeDatetime_str o.createdAt hcreatedAt
  rfl

theorem decodeOperation_of_encodeOperation {o : Operation} {value : Json}
    (h : encodeOperation o = .ok value) :
    value = operationDict o ∧ decodeOperation value = .ok o := by
  have hlast : ∃ o', decodeOperation (operationDict o) = .ok o' ∧ value = operationDict o := by
    unfold encodeOperation at h
    cases hgoal : o.goal with
    | none =>
        rw [hgoal] at h
        obtain ⟨o', hdecode, h⟩ := bind_eq_ok.mp h
        exact ⟨o', hdecode, (Except.ok.inj h).symm⟩
    | some g =>
        rw [hgoal] at h
        obtain ⟨_, -, h⟩ := bind_eq_ok.mp h
        obtain ⟨o', hdecode, h⟩ := bind_eq_ok.mp h
        exact ⟨o', hdecode, (Except.ok.inj h).symm⟩
  obtain ⟨o', hdecode, rfl⟩ := hlast
  exact ⟨rfl, by rw [hdecode, decodeOperation_operationDict hdecode]⟩

end Kirakira
