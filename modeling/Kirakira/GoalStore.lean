import Kirakira.GoalCodec
import Kirakira.Ledger
import Kirakira.Lib.Delimited

/-!
# The Goal Store

`GoalStore` of `plugins/goal/store.py`: the transactions that change the goal of a
session — `start`, `settle` and `apply` — and the receipts that make `apply` idempotent.
The goal and the receipts are owner records of `goal`; a continuation is appended in the
same transaction that counts it.

## Main results

* `operationKey_separates` — when two operations have receipts of their own.
* `start_eq_ok`, `settle_eq_ok`, `apply_eq_ok` — what each transaction checked and changed
  when it returned.
* `budget_gate` — no continuation is appended for a goal whose budget is used up, unless it
  was resumed with its budget used up.
-/

namespace Kirakira

open Exceptions Delimited

/-! ### Keys -/

/-- `GOAL_PREFIX`. -/
def goalPrefix : String := "goal:"

/-- `OPERATION_PREFIX`. -/
def operationPrefix : String := "goalop:"

/-- `MAX_OPERATIONS`. -/
def maxOperations : ℕ := 1024

/-- The owner of the goal records. -/
def goalOwner : String := "goal"

/-- The record of the goal of a session. -/
def goalRecord (sessionId : String) : String :=
  goalPrefix ++ sessionId

/-- `goal_key`. -/
def goalKey (sessionId : String) : Except PyError String :=
  if sessionId = "" then valueError "目标记录需要 Session" else .ok (goalRecord sessionId)

/-- `operation_key`. -/
def operationKey (kind sessionId operationId : String) : Except PyError String :=
  if operationKinds.contains kind = false then valueError s!"未知的目标操作 kind: {kind}"
  else if sessionId = "" ∨ operationId = "" then
    valueError "目标操作需要 Session 与 operation_id"
  else .ok (operationPrefix ++ (kind ++ ":" ++ sessionId ++ ":" ++ operationId))

/-- Whether a record is a receipt. -/
def isReceipt (key : String) : Bool :=
  operationPrefix.toList.isPrefixOf key.toList

variable {kind operationId sessionId : String} {allowInactive : Bool}

theorem isReceipt_of_operationKey {key : String}
    (h : operationKey kind sessionId operationId = .ok key) : isReceipt key = true := by
  unfold operationKey at h
  split at h
  · cases h
  · split at h
    · cases h
    · obtain rfl := Except.ok.inj h
      rw [isReceipt, List.isPrefixOf_iff_prefix, String.toList_append]
      exact List.prefix_append _ _

theorem operationKey_eq (hkind : operationKinds.contains kind = true) (hsession : sessionId ≠ "")
    (hid : operationId ≠ "") :
    operationKey kind sessionId operationId =
      .ok (operationPrefix ++ (kind ++ ":" ++ sessionId ++ ":" ++ operationId)) := by
  rw [operationKey, if_neg (by rw [hkind]; exact Bool.noConfusion),
    if_neg (not_or.mpr ⟨hsession, hid⟩)]

theorem colon_not_mem_kind (h : operationKinds.contains kind = true) : ':' ∉ kind.toList := by
  have hall : ∀ kind ∈ operationKinds, ':' ∉ kind.toList := by decide
  exact hall kind (List.contains_iff_mem.mp h)

/-- Two operations, one of which has the beginning of its identity in its session where the other
has it in its operation. -/
def KeyOverlap (sessionId operationId sessionId' operationId' : String) : Prop :=
  ∃ t, sessionId' = sessionId ++ ":" ++ t ∧ operationId = t ++ ":" ++ operationId'

/-- **When two operations have one key.** -/
theorem operationKey_eq_iff {kind' sessionId' operationId' : String}
    (hkind : operationKinds.contains kind = true) (hsession : sessionId ≠ "")
    (hid : operationId ≠ "") (hkind' : operationKinds.contains kind' = true)
    (hsession' : sessionId' ≠ "") (hid' : operationId' ≠ "") :
    operationKey kind sessionId operationId = operationKey kind' sessionId' operationId' ↔
      kind = kind' ∧ ((sessionId = sessionId' ∧ operationId = operationId') ∨
        KeyOverlap sessionId operationId sessionId' operationId' ∨
        KeyOverlap sessionId' operationId' sessionId operationId) := by
  have hoverlap : ∀ s i s' i' : String, KeyOverlap s i s' i' ↔
      ∃ t, s'.toList = s.toList ++ ':' :: t ∧ i.toList = t ++ ':' :: i'.toList := by
    intro s i s' i'
    constructor
    · rintro ⟨t, rfl, rfl⟩
      exact ⟨t.toList, by simp, by simp⟩
    · rintro ⟨t, hs, hi⟩
      refine ⟨String.ofList t, String.toList_inj.mp ?_, String.toList_inj.mp ?_⟩
      · simp [hs]
      · simp [hi]
  have htail : ':' ∉ kind.toList ∧ ':' ∉ kind'.toList :=
    ⟨colon_not_mem_kind hkind, colon_not_mem_kind hkind'⟩
  rw [operationKey_eq hkind hsession hid, operationKey_eq hkind' hsession' hid', Except.ok.injEq,
    ← String.toList_inj, hoverlap, hoverlap, ← String.toList_inj, ← String.toList_inj,
    ← String.toList_inj]
  simp only [String.toList_append, List.append_assoc, List.append_cancel_left_eq]
  change kind.toList ++ ':' :: (sessionId.toList ++ ':' :: operationId.toList)
    = kind'.toList ++ ':' :: (sessionId'.toList ++ ':' :: operationId'.toList) ↔ _
  rw [append_cons_inj_iff, append_cons_inj_iff]
  constructor
  · rintro (h | ⟨t, h, -⟩ | ⟨t, h, -⟩)
    · exact h
    -- The colon after a kind is the first one.
    · exact absurd (h ▸ List.mem_append_right _ List.mem_cons_self) htail.2
    · exact absurd (h ▸ List.mem_append_right _ List.mem_cons_self) htail.1
  · exact .inl

theorem KeyOverlap.ne {sessionId' operationId' : String}
    (h : KeyOverlap sessionId operationId sessionId' operationId') : sessionId ≠ sessionId' := by
  obtain ⟨t, rfl, -⟩ := h
  intro heq
  have hlength := congrArg String.length heq
  simp only [String.length_append, show ":".length = 1 from rfl] at hlength
  omega

/-- **Operations have keys of their own** unless they overlap. -/
theorem operationKey_separates {kind sessionId operationId kind' sessionId' operationId' : String}
    (hkind : operationKinds.contains kind = true) (hsession : sessionId ≠ "")
    (hid : operationId ≠ "") (hkind' : operationKinds.contains kind' = true)
    (hsession' : sessionId' ≠ "") (hid' : operationId' ≠ "") :
    (operationKey kind sessionId operationId = operationKey kind' sessionId' operationId' →
      kind = kind' ∧ sessionId = sessionId' ∧ operationId = operationId') ↔
      ¬(kind = kind' ∧ (KeyOverlap sessionId operationId sessionId' operationId' ∨
        KeyOverlap sessionId' operationId' sessionId operationId)) := by
  rw [operationKey_eq_iff hkind hsession hid hkind' hsession' hid']
  constructor
  · rintro hseparate ⟨hkinds, hoverlap⟩
    have hsame := (hseparate ⟨hkinds, .inr hoverlap⟩).2.1
    rcases hoverlap with hoverlap | hoverlap
    · exact hoverlap.ne hsame
    · exact hoverlap.ne hsame.symm
  · rintro hno ⟨hkinds, hsame | hoverlap⟩
    · exact ⟨hkinds, hsame⟩
    · exact absurd ⟨hkinds, hoverlap⟩ hno

theorem operationKey_separates_web :
    operationKey "create" "web:a" "1" ≠ operationKey "create" "web:b" "1" := by
  refine fun hkeys => absurd ((operationKey_separates (by decide) (by decide) (by decide)
    (by decide) (by decide) (by decide)).mpr ?_ hkeys).2.1 (by decide : "web:a" ≠ "web:b")
  rintro ⟨-, ⟨t, h, -⟩ | ⟨t, h, -⟩⟩
  all_goals
    have hlength := congrArg String.length h
    simp only [String.length_append] at hlength
    change 5 = 5 + 1 + t.length at hlength
    omega

/-- The session of one operation continues in the operation of the other. -/
theorem operationKey_collides :
    operationKey "create" "web" "a:1" = .ok "goalop:create:web:a:1" ∧
      operationKey "create" "web:a" "1" = .ok "goalop:create:web:a:1" ∧ "web" ≠ "web:a" :=
  ⟨rfl, rfl, by decide⟩

theorem isReceipt_goalRecord (sessionId : String) : isReceipt (goalRecord sessionId) = false := by
  rw [isReceipt, goalRecord, String.toList_append]
  rfl

/-! ### Transactions -/

/-- What a call of the store finds around it: the readings of the clock, the state of the
writer, and the check of the text content. -/
structure GoalEnv where
  clock : ℕ → Instant
  ambient : Ambient
  checkText : ContentPart → Except PyError ContentReferences

/-- The writer of `_access`. -/
def goalWriter (env : GoalEnv) (sessionId : String) : Writer where
  sessionId := sessionId
  author := "goal"
  source := "conversation"
  bodyTypes := [.input]
  content := fun kind => if kind = "text" then some env.checkText else none
  callRef := none
  checkCall := none
  metadataKeys := []
  updateMetadata := none
  messageMetadataKeys := []
  checkMetadata := none

/-- `Input((ContentPart("text", text),))`. -/
def textInput (text : String) : Body :=
  .input ⟨[⟨"text", ⟨.str text, text_canonical text⟩, textKind_ok⟩]⟩

/-- The arguments `start` and `settle` share. -/
structure GoalCall where
  sessionId : String
  expectedGoalId : String
  expectedVersion : ℤ
  expectedHead : ℤ

/-- The checks `start` and `settle` begin with: the record is the expected one, and nobody
has put anything into the conversation. -/
def checkCurrent (c : GoalCall) (allowInactive : Bool) (refusal : String) :
    Callback (OwnerRecord × Goal) := do
  let key ← Program.ofExcept (goalKey c.sessionId)
  match ← Program.perform (.read key) with
  | none => Program.ofExcept (messageConflict "目标记录已变化")
  | some record =>
      if (record.version : ℤ) ≠ c.expectedVersion then
        Program.ofExcept (messageConflict "目标记录已变化")
      else do
        let goal ← Program.ofExcept (decodeGoal c.sessionId record.value.json)
        if goal.goalId ≠ c.expectedGoalId then
          Program.ofExcept (messageConflict "目标已被替换")
        else if goal.active = false ∧ allowInactive = false then
          Program.ofExcept (messageConflict "目标不是 active")
        else do
          let changed ← Program.perform
            (.sourceChanged true c.sessionId "conversation" c.expectedHead)
          if changed then Program.ofExcept (messageConflict refusal)
          else return (record, goal)

/-- The save of a goal over its record. -/
def saveGoal (sessionId : String) (goal : Goal) (expectedVersion : Option ℤ) :
    Callback Unit := do
  let value ← Program.ofExcept (encodeGoal goal)
  let _ ← Program.perform (.save (goalRecord sessionId) value expectedVersion)
  return ()

/-- The append of a continuation. -/
def appendContinuation (env : GoalEnv) (c : GoalCall) (messageId text : String) :
    Callback Unit := do
  let _ ← Program.perform (.append true (goalWriter env c.sessionId) env.ambient messageId
    (textInput text) (some c.expectedHead) none)
  return ()

/-- `GoalStore.start`. -/
def GoalCall.start (c : GoalCall) (env : GoalEnv) (messageId text : String) :
    Callback Goal := do
  let (record, goal) ← checkCurrent c false "对话来源在续跑前已有新消息"
  let updated ← Program.ofExcept (markContinuation goal messageId (env.clock 0))
  appendContinuation env c messageId text
  saveGoal c.sessionId updated (some record.version)
  return updated

/-- `settlement.reason or "用户停止目标轮次"`. -/
def RoundSettlement.pauseReason (r : RoundSettlement) : String :=
  match r.reason with
  | some reason => if reason = "" then "用户停止目标轮次" else reason
  | none => "用户停止目标轮次"

/-- The pause `settle` adds to a settlement that asks for one. -/
def pauseSettled (goal : Goal) (r : RoundSettlement) (now : Instant) : Except PyError Goal :=
  if r.pauseAfter ∧ goal.active then pause goal r.pauseReason now else .ok goal

/-- `GoalStore.settle`. -/
def GoalCall.settle (c : GoalCall) (env : GoalEnv) (r : RoundSettlement)
    (nextMessageId nextText : Option (Goal → String)) (allowInactive : Bool) :
    Callback Goal := do
  let (record, goal) ← checkCurrent c allowInactive "对话来源在结算前已有新消息"
  let settled ← Program.ofExcept (settleRound goal r allowInactive (env.clock 0))
  let updated ← Program.ofExcept (pauseSettled settled r (env.clock 1))
  if r.append ∧ updated.active then
    match nextMessageId, nextText with
    | some messageId, some text => do
        let marked ← Program.ofExcept
          (markContinuation updated (messageId updated) (env.clock 2))
        appendContinuation env c (messageId updated) (text updated)
        saveGoal c.sessionId marked (some record.version)
        return marked
    | _, _ => Program.ofExcept (valueError "续跑输入缺少消息身份或正文")
  else do
    saveGoal c.sessionId updated (some record.version)
    return updated

/-- The arguments of `apply`. -/
structure GoalRequest where
  sessionId : String
  operationId : String
  kind : String
  requestDigest : String
  action : Option Goal → Except PyError (Option Goal × String)
  expectedHead : Option ℤ
  expectedGoal : Option (String × ℤ)

/-- The check of the conversation. -/
def GoalRequest.checkHead (q : GoalRequest) : Callback Unit :=
  match q.expectedHead with
  | none => return ()
  | some head => do
      let changed ← Program.perform (.sourceChanged true q.sessionId "conversation" head)
      if changed then Program.ofExcept (messageConflict "目标操作前对话来源已有新消息")
      else return ()

/-- `raise GoalStale(text)`. -/
def goalStale {α : Type} (text : String) : Except PyError α :=
  .error ⟨.goalStale, text⟩

/-- The check of the goal that was prepared. -/
def GoalRequest.checkGoal (q : GoalRequest) (current : Option (OwnerRecord × Goal)) :
    Except PyError Unit :=
  match q.expectedGoal, current with
  | none, _ => .ok ()
  | some _, none => goalStale "目标已不存在；请重新读取目标"
  | some expected, some (record, goal) =>
      if (goal.goalId, (record.version : ℤ)) ≠ expected then
        goalStale "目标已变化；请重新读取目标"
      else .ok ()

/-- The record of the goal with the goal it holds. -/
def decodeCurrent (sessionId : String) (record : Option OwnerRecord) :
    Except PyError (Option (OwnerRecord × Goal)) :=
  match record with
  | none => .ok none
  | some record => do
      let goal ← decodeGoal sessionId record.value.json
      return some (record, goal)

/-- The write of what the action returned. -/
def GoalRequest.write (q : GoalRequest) (current : Option (OwnerRecord × Goal))
    (goal : Option Goal) : Callback Unit :=
  match goal with
  | none =>
      match current with
      | none => return ()
      | some (record, _) => Program.perform (.delete (goalRecord q.sessionId) record.version)
  | some goal =>
      if goal.sessionId ≠ q.sessionId then
        Program.ofExcept (valueError "目标操作返回了其他 Session 的目标")
      else saveGoal q.sessionId goal (current.map fun c => (c.1.version : ℤ))

/-- The deletion of stale receipts. -/
def deleteStale : List (String × ℕ) → Callback Unit
  | [] => return ()
  | (key, version) :: rest => do
      Program.perform (.delete key version)
      deleteStale rest

/-- `transact` of `GoalStore.apply`. -/
def GoalRequest.apply (q : GoalRequest) (key : String) (stale : List (String × ℕ))
    (now : Instant) : Callback (Option Goal × String) := do
  match ← Program.perform (.read key) with
  | some previous => do
      let operation ← Program.ofExcept (decodeOperation previous.value.json)
      if (operation.kind, operation.digest) ≠ (q.kind, q.requestDigest) then
        Program.ofExcept (messageConflict "目标操作 key 已用于不同请求")
      else return (operation.goal, operation.response)
  | none => do
      q.checkHead
      let record ← Program.perform (.read (goalRecord q.sessionId))
      let current ← Program.ofExcept (decodeCurrent q.sessionId record)
      Program.ofExcept (q.checkGoal current)
      let result ← Program.ofExcept (q.action (current.map Prod.snd))
      q.write current result.1
      let receipt ← Program.ofExcept
        (encodeOperation ⟨q.kind, q.requestDigest, result.2, result.1, now⟩)
      let _ ← Program.perform (.save key receipt none)
      deleteStale stale
      return result

/-! ### What the transactions do -/

/-- The goal a session has in the database. -/
def Stored (db : Db) (sessionId : String) (goal : Goal) : Prop :=
  ∃ record, db.ownerRecords.lookup (goalOwner, goalRecord sessionId) = some record ∧
    decodeGoal sessionId record.value.json = .ok goal

variable {g : Goal} {c : GoalCall} {now : Instant}

theorem Stored.unique {db : Db} {g' : Goal} (h : Stored db sessionId g)
    (h' : Stored db sessionId g') : g = g' := by
  obtain ⟨record, hrecord, hgoal⟩ := h
  obtain ⟨record', hrecord', hgoal'⟩ := h'
  obtain rfl := Option.some.inj (hrecord.symm.trans hrecord')
  exact Except.ok.inj (hgoal.symm.trans hgoal')

/-- What the checks of `start` and `settle` have found. -/
structure Checked (db : Db) (c : GoalCall) (allowInactive : Bool) (record : OwnerRecord)
    (goal : Goal) : Prop where
  lookup : db.ownerRecords.lookup (goalOwner, goalRecord c.sessionId) = some record
  version : (record.version : ℤ) = c.expectedVersion
  decoded : decodeGoal c.sessionId record.value.json = .ok goal
  goalId : goal.goalId = c.expectedGoalId
  active : goal.active = true ∨ allowInactive = true
  unchanged : db.sourceChanged c.sessionId "conversation" c.expectedHead = false

theorem Checked.stored {db : Db} {record : OwnerRecord} {goal : Goal}
    (h : Checked db c allowInactive record goal) : Stored db c.sessionId goal :=
  ⟨record, h.lookup, h.decoded⟩

/-- A record that holds a goal as it was saved. -/
structure Holds (record : OwnerRecord) (goal : Goal) : Prop where
  decoded : decodeGoal goal.sessionId record.value.json = .ok goal
  encodable : goal.Encodable

section Specs

variable {t t' : OwnerTransaction}

theorem checkCurrent_eq_ok {c : GoalCall} {refusal : String} {r : OwnerRecord × Goal}
    (h : (checkCurrent c allowInactive refusal).run (execute goalOwner) t = (.ok r, t')) :
    t' = t ∧ Checked t.tx.db c allowInactive r.1 r.2 := by
  unfold checkCurrent at h
  obtain ⟨key, hkey, h⟩ := Program.run_ofExcept_bind_eq_ok.mp h
  obtain ⟨current, t₁, hread, h⟩ := Program.run_perform_bind_eq_ok.mp h
  obtain ⟨-, hcurrent, ht₁⟩ := execute_read_eq_ok hread
  rw [ht₁] at h
  have hkey : key = goalRecord c.sessionId := by
    unfold goalKey at hkey
    split at hkey
    · cases hkey
    · exact (Except.ok.inj hkey).symm
  rw [hkey] at hcurrent
  cases current with
  | none => cases h
  | some record =>
      dsimp only at h
      split at h
      · cases h
      next hversion =>
        obtain ⟨goal, hgoal, h⟩ := Program.run_ofExcept_bind_eq_ok.mp h
        split at h
        · cases h
        next hid =>
          split at h
          · cases h
          next hactive =>
            obtain ⟨changed, t₂, hchanged, h⟩ := Program.run_perform_bind_eq_ok.mp h
            obtain ⟨hanswer, ht₂⟩ := execute_sourceChanged_eq_ok hchanged
            rw [ht₂] at h
            split at h
            · cases h
            next hsame =>
              obtain ⟨hr, ht'⟩ := Prod.mk.inj h
              obtain rfl := Except.ok.inj hr
              refine ⟨ht'.symm, hcurrent.symm, not_not.mp hversion, hgoal, not_not.mp hid, ?_, ?_⟩
              · cases hgoalActive : goal.active with
                | true => exact .inl rfl
                | false =>
                    refine .inr ?_
                    cases hallow : allowInactive with
                    | true => rfl
                    | false => exact absurd ⟨hgoalActive, hallow⟩ hactive
              · rw [← hanswer]
                exact Bool.eq_false_iff.mpr hsame

theorem saveGoal_eq_ok {goal : Goal} {expected : Option ℤ} {u : Unit}
    (h : (saveGoal sessionId goal expected).run (execute goalOwner) t = (.ok u, t')) :
    ∃ record, Holds record goal ∧ (record.version : ℤ) = expected.elim 0 (· + 1) ∧
      t' = ⟨false, { t.tx with db := { t.tx.db with
        ownerRecords := t.tx.db.ownerRecords.insert (goalOwner, goalRecord sessionId) record } }⟩ := by
  unfold saveGoal at h
  obtain ⟨value, hvalue, h⟩ := Program.run_ofExcept_bind_eq_ok.mp h
  obtain ⟨record, _, hsave, h⟩ := Program.run_perform_bind_eq_ok.mp h
  obtain ⟨db, hsaved, rfl⟩ := execute_save_eq_ok hsave
  obtain ⟨hfreeze, hversion, -, rfl⟩ := saveRecord_eq_ok hsaved
  obtain ⟨-, rfl⟩ := Prod.mk.inj h
  obtain ⟨rfl, hdecode, hok⟩ := decodeGoal_of_encodeGoal hvalue
  have hjson : record.value.json = goalDict goal := by
    have hfrozen := freezeJson_json ⟨goalDict goal, canonical_goalDict goal⟩
    rw [hfreeze] at hfrozen
    rw [Except.ok.inj hfrozen]
  exact ⟨record, ⟨by rw [hjson]; exact hdecode, hok⟩, hversion, rfl⟩

theorem appendContinuation_eq_ok {env : GoalEnv} {c : GoalCall} {messageId text : String}
    {u : Unit}
    (h : (appendContinuation env c messageId text).run (execute goalOwner) t = (.ok u, t')) :
    ∃ metadata m tx, Appended (goalWriter env c.sessionId) messageId (textInput text) metadata
      (some c.expectedHead) t.tx m tx ∧ t' = ⟨false, tx⟩ := by
  unfold appendContinuation at h
  obtain ⟨m, _, happend, h⟩ := Program.run_perform_bind_eq_ok.mp h
  obtain ⟨metadata, tx, -, happended, rfl⟩ := execute_append_eq_ok happend
  obtain ⟨-, rfl⟩ := Prod.mk.inj h
  exact ⟨metadata, m, tx, happended, rfl⟩

end Specs

/-- A transaction that appended a continuation and saved the goal that counts it. -/
structure Continued (log log' : Log) (env : GoalEnv) (c : GoalCall) (messageId text : String)
    (record : OwnerRecord) (goal : Goal) : Prop where
  appended : ∃ metadata m tx, Appended (goalWriter env c.sessionId) messageId (textInput text)
    metadata (some c.expectedHead) (Tx.start log.db) m tx ∧
    ∃ record', Holds record' goal ∧ (record'.version : ℤ) = record.version + 1 ∧
      log'.db = { tx.db with
        ownerRecords := tx.db.ownerRecords.insert (goalOwner, goalRecord c.sessionId) record' }

/-- A transaction that saved a goal and appended nothing. -/
structure Resaved (log log' : Log) (sessionId : String) (record : OwnerRecord)
    (goal : Goal) : Prop where
  saved : ∃ record', Holds record' goal ∧ (record'.version : ℤ) = record.version + 1 ∧
    log'.db = { log.db with
      ownerRecords := log.db.ownerRecords.insert (goalOwner, goalRecord sessionId) record' }

/-- **What `start` checked and changed.** -/
theorem start_eq_ok {env : GoalEnv} {messageId text : String} {log log' : Log} {updated : Goal}
    (h : transact goalOwner (c.start env messageId text) log = (.ok updated, log')) :
    ∃ record goal, Checked log.db c false record goal ∧
      markContinuation goal messageId (env.clock 0) = .ok updated ∧
      Continued log log' env c messageId text record updated := by
  obtain ⟨t, hrun, -, hdb⟩ := transact_eq_ok h
  unfold GoalCall.start at hrun
  obtain ⟨⟨record, goal⟩, _, hcheck, hrun⟩ := Program.run_bind_eq_ok.mp hrun
  obtain ⟨rfl, hchecked⟩ := checkCurrent_eq_ok hcheck
  obtain ⟨marked, hmark, hrun⟩ := Program.run_ofExcept_bind_eq_ok.mp hrun
  obtain ⟨_, _, happend, hrun⟩ := Program.run_bind_eq_ok.mp hrun
  obtain ⟨metadata, m, tx, happended, rfl⟩ := appendContinuation_eq_ok happend
  obtain ⟨_, _, hsave, hrun⟩ := Program.run_bind_eq_ok.mp hrun
  obtain ⟨record', hholds, hversion, rfl⟩ := saveGoal_eq_ok hsave
  obtain ⟨hupdated, rfl⟩ := Prod.mk.inj hrun
  obtain rfl := Except.ok.inj hupdated
  exact ⟨record, goal, hchecked, hmark, ⟨metadata, m, tx, happended, record', hholds, hversion,
    hdb⟩⟩

/-- **What `settle` checked and changed.** -/
theorem settle_eq_ok {env : GoalEnv} {r : RoundSettlement}
    {nextMessageId nextText : Option (Goal → String)} {log log' : Log} {updated : Goal}
    (h : transact goalOwner (c.settle env r nextMessageId nextText allowInactive) log
      = (.ok updated, log')) :
    ∃ record goal settled paused, Checked log.db c allowInactive record goal ∧
      settleRound goal r allowInactive (env.clock 0) = .ok settled ∧
      pauseSettled settled r (env.clock 1) = .ok paused ∧
      ((r.append = true ∧ paused.active = true ∧
          ∃ messageId text, nextMessageId = some messageId ∧ nextText = some text ∧
            markContinuation paused (messageId paused) (env.clock 2) = .ok updated ∧
            Continued log log' env c (messageId paused) (text paused) record updated) ∨
        (¬ (r.append = true ∧ paused.active = true) ∧ updated = paused ∧
          Resaved log log' c.sessionId record updated)) := by
  obtain ⟨t, hrun, -, hdb⟩ := transact_eq_ok h
  unfold GoalCall.settle at hrun
  obtain ⟨⟨record, goal⟩, _, hcheck, hrun⟩ := Program.run_bind_eq_ok.mp hrun
  obtain ⟨rfl, hchecked⟩ := checkCurrent_eq_ok hcheck
  obtain ⟨settled, hsettle, hrun⟩ := Program.run_ofExcept_bind_eq_ok.mp hrun
  obtain ⟨paused, hpause, hrun⟩ := Program.run_ofExcept_bind_eq_ok.mp hrun
  refine ⟨record, goal, settled, paused, hchecked, hsettle, hpause, ?_⟩
  split at hrun
  · next happ =>
      cases nextMessageId with
      | none => cases hrun
      | some messageId =>
          cases nextText with
          | none => cases hrun
          | some text =>
              obtain ⟨marked, hmark, hrun⟩ := Program.run_ofExcept_bind_eq_ok.mp hrun
              obtain ⟨_, _, happend, hrun⟩ := Program.run_bind_eq_ok.mp hrun
              obtain ⟨metadata, m, tx, happended, rfl⟩ := appendContinuation_eq_ok happend
              obtain ⟨_, _, hsave, hrun⟩ := Program.run_bind_eq_ok.mp hrun
              obtain ⟨record', hholds, hversion, rfl⟩ := saveGoal_eq_ok hsave
              obtain ⟨hupdated, rfl⟩ := Prod.mk.inj hrun
              obtain rfl := Except.ok.inj hupdated
              exact .inl ⟨happ.1, happ.2, messageId, text, rfl, rfl, hmark,
                ⟨metadata, m, tx, happended, record', hholds, hversion, hdb⟩⟩
  · next happ =>
      obtain ⟨_, _, hsave, hrun⟩ := Program.run_bind_eq_ok.mp hrun
      obtain ⟨record', hholds, hversion, rfl⟩ := saveGoal_eq_ok hsave
      obtain ⟨hupdated, rfl⟩ := Prod.mk.inj hrun
      obtain rfl := Except.ok.inj hupdated
      exact .inr ⟨happ, rfl, ⟨record', hholds, hversion, hdb⟩⟩

/-! ### What `apply` does -/

/-- The goal that `apply` gives to its action. -/
def Current (db : Db) (sessionId : String) (current : Option Goal) : Prop :=
  match current with
  | none => db.ownerRecords.lookup (goalOwner, goalRecord sessionId) = none
  | some goal => Stored db sessionId goal

/-- The records of all owners. -/
abbrev OwnerRecords := AList fun _ : String × String => OwnerRecord

/-- Records after the goal of a session was written. -/
structure GoalWritten (before after : OwnerRecords) (sessionId : String)
    (goal : Option Goal) : Prop where
  other : ∀ key, key ≠ (goalOwner, goalRecord sessionId) → after.lookup key = before.lookup key
  none : goal = none → after.lookup (goalOwner, goalRecord sessionId) = none
  some : ∀ g, goal = some g → g.sessionId = sessionId ∧
    ∃ record, after.lookup (goalOwner, goalRecord sessionId) = some record ∧ Holds record g

/-- Records after stale receipts were deleted. -/
structure Deleted (before after : OwnerRecords) (stale : List (String × ℕ)) : Prop where
  nodup : (stale.map Prod.fst).Nodup
  present : ∀ key ∈ stale.map Prod.fst, (before.lookup (goalOwner, key)).isSome = true
  gone : ∀ key ∈ stale.map Prod.fst, after.lookup (goalOwner, key) = none
  other : ∀ key : String × String, (key.1 = goalOwner → key.2 ∉ stale.map Prod.fst) →
    after.lookup key = before.lookup key

/-- What `apply` did when it ran its action. -/
structure Applied (log log' : Log) (q : GoalRequest) (key : String) (stale : List (String × ℕ))
    (now : Instant) (result : Option Goal × String) : Prop where
  fresh : log.db.ownerRecords.lookup (goalOwner, key) = none
  unchanged : ∀ head, q.expectedHead = some head →
    log.db.sourceChanged q.sessionId "conversation" head = false
  action : ∃ current, Current log.db q.sessionId current ∧ q.action current = .ok result
  records : ∃ written receipt, GoalWritten log.db.ownerRecords written q.sessionId result.1 ∧
    decodeOperation receipt.value.json
      = .ok ⟨q.kind, q.requestDigest, result.2, result.1, now⟩ ∧
    Deleted (written.insert (goalOwner, key) receipt) log'.db.ownerRecords stale
  db : log'.db = { log.db with ownerRecords := log'.db.ownerRecords }

section Apply

variable {t t' : OwnerTransaction}

theorem checkHead_eq_ok {q : GoalRequest} {u : Unit}
    (h : q.checkHead.run (execute goalOwner) t = (.ok u, t')) :
    t' = t ∧ ∀ head, q.expectedHead = some head →
      t.tx.db.sourceChanged q.sessionId "conversation" head = false := by
  unfold GoalRequest.checkHead at h
  cases hexpected : q.expectedHead with
  | none =>
      rw [hexpected] at h
      exact ⟨(Prod.mk.inj h).2.symm, fun head hhead => by cases hhead⟩
  | some head =>
      rw [hexpected] at h
      obtain ⟨changed, t₁, hchanged, h⟩ := Program.run_perform_bind_eq_ok.mp h
      obtain ⟨hanswer, ht₁⟩ := execute_sourceChanged_eq_ok hchanged
      rw [ht₁] at h
      split at h
      · cases h
      · next hsame =>
          refine ⟨(Prod.mk.inj h).2.symm, fun head' hhead => ?_⟩
          obtain rfl := Option.some.inj hhead
          rw [← hanswer]
          exact Bool.eq_false_iff.mpr hsame

theorem decodeCurrent_eq_ok {db : Db} {record : Option OwnerRecord}
    {current : Option (OwnerRecord × Goal)}
    (hrecord : record = db.ownerRecords.lookup (goalOwner, goalRecord sessionId))
    (h : decodeCurrent sessionId record = .ok current) :
    Current db sessionId (current.map Prod.snd) ∧
      (current = none → db.ownerRecords.lookup (goalOwner, goalRecord sessionId) = none) := by
  unfold decodeCurrent at h
  cases record with
  | none =>
      obtain rfl := Except.ok.inj h
      exact ⟨hrecord.symm, fun _ => hrecord.symm⟩
  | some record =>
      obtain ⟨goal, hgoal, h⟩ := bind_eq_ok.mp h
      obtain rfl := Except.ok.inj h
      exact ⟨⟨record, hrecord.symm, hgoal⟩, fun hnone => by cases hnone⟩

theorem write_eq_ok {q : GoalRequest} {current : Option (OwnerRecord × Goal)}
    {goal : Option Goal} {u : Unit}
    (hcurrent : current = none →
      t.tx.db.ownerRecords.lookup (goalOwner, goalRecord q.sessionId) = none)
    (h : (q.write current goal).run (execute goalOwner) t = (.ok u, t')) :
    ∃ records, GoalWritten t.tx.db.ownerRecords records q.sessionId goal ∧
      (t' = t ∨ t'.failed = false) ∧ t'.tx = { t.tx with
        db := { t.tx.db with ownerRecords := records } } := by
  unfold GoalRequest.write at h
  cases goal with
  | none =>
      cases current with
      | none =>
          obtain ⟨-, rfl⟩ := Prod.mk.inj h
          exact ⟨t.tx.db.ownerRecords, ⟨fun _ _ => rfl, fun _ => hcurrent rfl,
            fun g hg => nomatch hg⟩, .inl rfl, rfl⟩
      | some c =>
          rw [Program.run_perform] at h
          obtain ⟨-, rfl⟩ := execute_delete_eq_ok h
          refine ⟨t.tx.db.ownerRecords.erase (goalOwner, goalRecord q.sessionId), ?_, .inr rfl,
            rfl⟩
          exact ⟨fun key hkey => AList.lookup_erase_ne hkey, fun _ => AList.lookup_erase _ _,
            fun g hg => nomatch hg⟩
  | some goal =>
      dsimp only at h
      split at h
      · cases h
      · next hsession =>
          obtain ⟨record, hholds, -, rfl⟩ := saveGoal_eq_ok h
          refine ⟨t.tx.db.ownerRecords.insert (goalOwner, goalRecord q.sessionId) record, ?_,
            .inr rfl, rfl⟩
          refine ⟨fun key hkey => AList.lookup_insert_ne hkey, (fun hnone => nomatch hnone), ?_⟩
          intro g hg
          obtain rfl := Option.some.inj hg
          exact ⟨not_not.mp hsession, record, AList.lookup_insert _, hholds⟩

theorem deleteStale_eq_ok {stale : List (String × ℕ)} {u : Unit}
    (h : (deleteStale stale).run (execute goalOwner) t = (.ok u, t')) :
    ∃ records, Deleted t.tx.db.ownerRecords records stale ∧
      t'.tx = { t.tx with db := { t.tx.db with ownerRecords := records } } := by
  induction stale generalizing t with
  | nil =>
      obtain ⟨-, rfl⟩ := Prod.mk.inj h
      exact ⟨t.tx.db.ownerRecords, ⟨List.nodup_nil, (fun _ hkey => nomatch hkey),
        (fun _ hkey => nomatch hkey), fun _ _ => rfl⟩, rfl⟩
  | cons entry rest ih =>
      unfold deleteStale at h
      obtain ⟨_, t₁, hdelete, h⟩ := Program.run_perform_bind_eq_ok.mp h
      obtain ⟨hsome, rfl⟩ := execute_delete_eq_ok hdelete
      obtain ⟨records, hdeleted, htx⟩ := ih h
      dsimp only at hdeleted htx
      have hnot : entry.1 ∉ rest.map Prod.fst := by
        intro hmem
        have := hdeleted.present entry.1 hmem
        rw [AList.lookup_erase] at this
        cases this
      refine ⟨records, ⟨List.nodup_cons.mpr ⟨hnot, hdeleted.nodup⟩, ?_, ?_, ?_⟩, htx⟩
      · intro key hkey
        rcases List.mem_cons.mp hkey with rfl | hkey
        · exact hsome
        · have hpresent := hdeleted.present key hkey
          have hne : (goalOwner, key) ≠ (goalOwner, entry.1) := by
            intro heq
            exact hnot ((Prod.mk.inj heq).2 ▸ hkey)
          rwa [AList.lookup_erase_ne hne] at hpresent
      · intro key hkey
        rcases List.mem_cons.mp hkey with rfl | hkey
        · rw [hdeleted.other _ fun _ => hnot]
          exact AList.lookup_erase _ _
        · exact hdeleted.gone key hkey
      · intro key hkey
        have hne : key ≠ (goalOwner, entry.1) := by
          rintro rfl
          exact hkey rfl List.mem_cons_self
        rw [hdeleted.other key fun howner hmem => hkey howner (List.mem_cons_of_mem _ hmem)]
        exact AList.lookup_erase_ne hne

end Apply

/-- **What `apply` did when it returned**: it found the receipt of the same request and
returned what it says, or it ran the action on the goal of the session and stored the
receipt. -/
theorem apply_eq_ok {q : GoalRequest} {key : String} {stale : List (String × ℕ)} {log log' : Log}
    {result : Option Goal × String}
    (h : transact goalOwner (q.apply key stale now) log = (.ok result, log')) :
    (∃ record o, log.db.ownerRecords.lookup (goalOwner, key) = some record ∧
        decodeOperation record.value.json = .ok o ∧
        (o.kind, o.digest) = (q.kind, q.requestDigest) ∧ result = (o.goal, o.response) ∧
        log'.db = log.db) ∨
      Applied log log' q key stale now result := by
  obtain ⟨t, hrun, -, hdb⟩ := transact_eq_ok h
  unfold GoalRequest.apply at hrun
  obtain ⟨previous, t₁, hread, hrun⟩ := Program.run_perform_bind_eq_ok.mp hrun
  obtain ⟨-, hprevious, rfl⟩ := execute_read_eq_ok hread
  cases previous with
  | some record =>
      obtain ⟨o, ho, hrun⟩ := Program.run_ofExcept_bind_eq_ok.mp hrun
      split at hrun
      · cases hrun
      · next hsame =>
          obtain ⟨hresult, rfl⟩ := Prod.mk.inj hrun
          exact .inl ⟨record, o, hprevious.symm, ho, not_not.mp hsame,
            (Except.ok.inj hresult).symm, hdb⟩
  | none =>
      refine .inr ?_
      obtain ⟨_, t₂, hhead, hrun⟩ := Program.run_bind_eq_ok.mp hrun
      obtain ⟨rfl, hunchanged⟩ := checkHead_eq_ok hhead
      obtain ⟨record, t₃, hread', hrun⟩ := Program.run_perform_bind_eq_ok.mp hrun
      obtain ⟨-, hrecord, rfl⟩ := execute_read_eq_ok hread'
      obtain ⟨current, hdecode, hrun⟩ := Program.run_ofExcept_bind_eq_ok.mp hrun
      obtain ⟨hcurrent, hnone⟩ := decodeCurrent_eq_ok hrecord hdecode
      obtain ⟨_, -, hrun⟩ := Program.run_ofExcept_bind_eq_ok.mp hrun
      obtain ⟨r, haction, hrun⟩ := Program.run_ofExcept_bind_eq_ok.mp hrun
      obtain ⟨_, t₄, hwrite, hrun⟩ := Program.run_bind_eq_ok.mp hrun
      obtain ⟨written, hwritten, -, htx₄⟩ := write_eq_ok hnone hwrite
      obtain ⟨value, hvalue, hrun⟩ := Program.run_ofExcept_bind_eq_ok.mp hrun
      obtain ⟨receipt, t₅, hsave, hrun⟩ := Program.run_perform_bind_eq_ok.mp hrun
      obtain ⟨db, hsaved, rfl⟩ := execute_save_eq_ok hsave
      obtain ⟨hfreeze, -, -, rfl⟩ := saveRecord_eq_ok hsaved
      obtain ⟨_, t₆, hdelete, hrun⟩ := Program.run_bind_eq_ok.mp hrun
      obtain ⟨records, hdeleted, htx₆⟩ := deleteStale_eq_ok hdelete
      obtain ⟨hresult, rfl⟩ := Prod.mk.inj hrun
      obtain rfl := Except.ok.inj hresult
      rw [htx₄] at hdeleted htx₆
      rw [htx₆] at hdb
      have hrecords : log'.db.ownerRecords = records := by rw [hdb]
      obtain ⟨rfl, hoperation⟩ := decodeOperation_of_encodeOperation hvalue
      have hjson := freezeJson_json ⟨_, canonical_operationDict
        ⟨q.kind, q.requestDigest, r.2, r.1, now⟩⟩
      rw [hfreeze] at hjson
      refine ⟨hprevious.symm, hunchanged, ⟨_, hcurrent, haction⟩,
        ⟨written, receipt, hwritten, ?_, ?_⟩, ?_⟩
      · rw [Except.ok.inj hjson]
        exact hoperation
      · rw [hrecords]
        exact hdeleted
      · rw [hrecords]
        exact hdb

/-! ### The budget gate -/

theorem within_pauseSettled {settled paused : Goal} {r : RoundSettlement} {now' : Instant}
    (hg : g.Within) (hsettle : settleRound g r allowInactive now = .ok settled)
    (hpause : pauseSettled settled r now' = .ok paused) : paused.Within := by
  have hsettled : settled.Within :=
    @within_run g settled now (.settle r allowInactive) hg (fun h => nomatch h) hsettle
  rw [pauseSettled] at hpause
  split at hpause
  · exact @within_run settled paused now' (.pause r.pauseReason) hsettled (fun h => nomatch h)
      hpause
  · obtain rfl := Except.ok.inj hpause
    exact hsettled

theorem exhausted_markContinuation {g' : Goal} {messageId : String} (hg : g.Within)
    (h : markContinuation g messageId now = .ok g') : g'.exhausted = false := by
  obtain ⟨hactive, -, -, rfl⟩ := markContinuation_eq_ok h
  exact hg hactive

/-- The time of the steps below. -/
def goalTime : Instant :=
  ⟨"2026-01-01T00:00:00+00:00"⟩

/-- A goal with a budget, as it was created. -/
def budgetedGoal : Goal where
  sessionId := "s"
  goalId := "g"
  objective := "objective"
  status := .active
  tokenBudget := some 100
  tokensUsed := 0
  continuations := 0
  consecutiveEmpty := 0
  settledThroughSeq := -1
  lastSettledMessageId := none
  continuationId := none
  usageCoverage := .exact
  createdAt := goalTime
  updatedAt := goalTime
  lastReason := none

theorem reachable_budgetedGoal {G : Goal → GoalOp × Instant → Prop} :
    goalMachine.ReachableVia G budgetedGoal :=
  .init ⟨"s", "g", "objective", some 100, -1, goalTime, rfl⟩

/-- The log in which a goal of the session is the only record. -/
def goalLog (g : Goal) : Log where
  db := { Db.fresh with
    ownerRecords := (∅ : OwnerRecords).insert (goalOwner, goalRecord "s")
      ⟨0, ⟨goalDict g, canonical_goalDict g⟩, rfl⟩ }
  memory := .empty

/-- A call for the goal of that log. -/
def goalCall : GoalCall :=
  ⟨"s", "g", 0, -1⟩

/-- The surroundings of the call. -/
def goalEnv : GoalEnv where
  clock := fun _ => goalTime
  ambient := ⟨goalTime, true, true, []⟩
  checkText := fun _ => .ok ⟨[], []⟩

/-- **The budget gate.** A goal that was never resumed with its budget used up is not
active with its budget used up, and neither `start` nor `settle` appends a continuation
for it when its budget is. -/
theorem budget_gate {g : Goal} (h : goalMachine.ReachableVia Affordable g) :
    (g.active = true → g.exhausted = false) ∧
    (∀ (log : Log) (c : GoalCall) env messageId text updated log', Stored log.db c.sessionId g →
      transact goalOwner (c.start env messageId text) log = (.ok updated, log') →
        updated.exhausted = false) ∧
    (∀ (log : Log) (c : GoalCall) env r nextMessageId nextText allowInactive updated log',
      Stored log.db c.sessionId g →
      transact goalOwner (c.settle env r nextMessageId nextText allowInactive) log
        = (.ok updated, log') →
      log'.db.messages ≠ log.db.messages → updated.exhausted = false) := by
  have hwithin := within_of_reachable h
  refine ⟨hwithin, ?_, ?_⟩
  · intro log c env messageId text updated log' hstored hrun
    obtain ⟨record, goal, hchecked, hmark, -⟩ := start_eq_ok hrun
    obtain rfl := hstored.unique hchecked.stored
    exact exhausted_markContinuation hwithin hmark
  · intro log c env r nextMessageId nextText allowInactive updated log' hstored hrun happended
    obtain ⟨record, goal, settled, paused, hchecked, hsettle, hpause,
      ⟨-, -, messageId, text, -, -, hmark, -⟩ | ⟨-, -, ⟨record', -, -, hdb⟩⟩⟩ := settle_eq_ok hrun
    · obtain rfl := hstored.unique hchecked.stored
      exact exhausted_markContinuation (within_pauseSettled hwithin hsettle hpause) hmark
    · rw [hdb] at happended
      exact absurd rfl happended

/-- The gate for a new goal, whose first continuation `start` appends. -/
theorem budget_gate_new : budgetedGoal.exhausted = false ∧
    ∃ updated log', transact goalOwner (goalCall.start goalEnv "goal-continuation:g:1" "text")
      (goalLog budgetedGoal) = (.ok updated, log') ∧ updated.exhausted = false := by
  obtain ⟨hactive, hstart, -⟩ := budget_gate (g := budgetedGoal) reachable_budgetedGoal
  have hrun : ∃ log', transact goalOwner (goalCall.start goalEnv "goal-continuation:g:1" "text")
      (goalLog budgetedGoal) = (.ok { budgetedGoal with
        continuations := 1
        continuationId := some "goal-continuation:g:1" }, log') := ⟨_, rfl⟩
  obtain ⟨log', hrun⟩ := hrun
  exact ⟨hactive rfl, _, log', hrun, hstart _ _ _ _ _ _ _ ⟨_, AList.lookup_insert _, rfl⟩ hrun⟩

/-- The settlement of a round that used the whole budget, after the goal was paused. -/
def usedUp : RoundSettlement where
  activity := true
  tokens := 100
  coverage := .exact
  settledThroughSeq := 0
  lastSettledMessageId := none
  reason := none
  append := false
  pauseAfter := false
  preempted := false

/-- The goal that was resumed after that. -/
def resumedGoal : Goal :=
  { budgetedGoal with tokensUsed := 100, continuations := 1, settledThroughSeq := 0 }

/-- The goal while its round is in flight. -/
def inFlightGoal : Goal :=
  { budgetedGoal with continuations := 1, continuationId := some "goal-continuation:g:1" }

/-- The resumed goal is reachable: a continuation, a pause while the round is in flight,
the settlement of the round, and `resume`. -/
theorem reachable_resumedGoal : goalMachine.Reachable resumedGoal := by
  have hmark : goalMachine.step budgetedGoal (.mark "goal-continuation:g:1", goalTime)
      inFlightGoal := rfl
  have hpause : goalMachine.step inFlightGoal (.pause "user", goalTime)
      (inFlightGoal.stop .paused "user" goalTime) := rfl
  have hsettle : goalMachine.step (inFlightGoal.stop .paused "user" goalTime)
      (.settle usedUp true, goalTime) (resumedGoal.stop .paused "user" goalTime) := rfl
  have hresume : goalMachine.step (resumedGoal.stop .paused "user" goalTime)
      (.resume, goalTime) resumedGoal := rfl
  exact (((reachable_budgetedGoal.step trivial hmark).step trivial hpause).step trivial
    hsettle).step trivial hresume

/-- **The resumed goal gets a continuation** although its budget is used up. -/
theorem budget_gate_resumed :
    ¬ ∀ g, goalMachine.Reachable g → ∀ (log : Log) (c : GoalCall) env messageId text updated log',
      Stored log.db c.sessionId g →
      transact goalOwner (c.start env messageId text) log = (.ok updated, log') →
        updated.exhausted = false := by
  intro hgate
  have hrun : ∃ log', transact goalOwner (goalCall.start goalEnv "goal-continuation:g:2" "text")
      (goalLog resumedGoal) = (.ok { resumedGoal with
        continuations := 2
        continuationId := some "goal-continuation:g:2" }, log') := ⟨_, rfl⟩
  obtain ⟨log', hrun⟩ := hrun
  have hexhausted := hgate resumedGoal reachable_resumedGoal _ _ _ _ _ _ _
    ⟨_, AList.lookup_insert _, rfl⟩ hrun
  exact absurd hexhausted (by decide)

end Kirakira
