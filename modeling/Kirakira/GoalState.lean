import Kirakira.Lib.Exceptions
import Kirakira.Lib.Transition
import Kirakira.Contract
import Kirakira.Text

/-!
# The Goal State Machine

`plugins/goal/state.py`: what a goal is and the operations on it. Every operation is a
pure function that returns the changed goal or raises; a goal is what `new_goal` returned
after any sequence of them.

Three facts hold along such sequences. An active goal at the cap of automatic continuations
still has a continuation that is not settled (`Capped`). An active goal has not used
up its token budget (`Within`), as long as nobody resumes a goal that has: the operations
that settle a round or set the budget compare the two, `resume` does not. And an active goal
has fewer empty rounds in a row than block it (`Lively`), as long as no budget is given to a
goal that stopped for its budget after that many: `resume` starts the count again,
`set_token_budget` does not.

## Main results

* `run_spec` — what every operation keeps: the identity of the goal, and that the cursor,
  the tokens and the continuations never go down.
* `capped_of_reachable` — every goal respects the continuation cap.
* `within_of_reachable` — a goal that was never resumed with its budget used up is not
  active with its budget used up.
* `breaker_holds` — a goal whose budget was not renewed after its empty rounds is active only
  with fewer of them than block it; `renewed_goal_goes_on` shows one that was.
-/

namespace Kirakira

open Exceptions Transition

/-! ### Goals -/

/-- `OBJECTIVE_MAX_LENGTH`. -/
def objectiveMaxLength : ℕ := 4000

/-- `BLOCKED_AFTER_EMPTY_TURNS`. -/
def blockedAfterEmptyTurns : ℕ := 3

/-- `DEFAULT_MAX_CONTINUATIONS`. -/
def defaultMaxContinuations : ℕ := 100

/-- `DEFAULT_MAX_TOKEN_BUDGET`. -/
def defaultMaxTokenBudget : ℤ := 100000000

/-- `UsageCoverage`; `incomplete` is the coverage `"partial"`. -/
inductive UsageCoverage where
  | exact
  | incomplete
  | unavailable
  deriving DecidableEq, Repr

/-- The text of a coverage. -/
def UsageCoverage.text : UsageCoverage → String
  | .exact => "exact"
  | .incomplete => "partial"
  | .unavailable => "unavailable"

/-- `_COVERAGE_RANK`. -/
def UsageCoverage.rank : UsageCoverage → ℕ
  | .exact => 0
  | .incomplete => 1
  | .unavailable => 2

/-- `worst_coverage` of two values. -/
def worstCoverage (a b : UsageCoverage) : UsageCoverage :=
  if a.rank < b.rank then b else a

/-- `GoalStatus`. -/
inductive GoalStatus where
  | active
  | paused
  | blocked
  | budgetLimited
  | complete
  deriving DecidableEq, Repr

/-- The text of a status. -/
def GoalStatus.text : GoalStatus → String
  | .active => "active"
  | .paused => "paused"
  | .blocked => "blocked"
  | .budgetLimited => "budget_limited"
  | .complete => "complete"

/-- `Goal`. -/
structure Goal where
  sessionId : String
  goalId : String
  objective : String
  status : GoalStatus
  tokenBudget : Option ℤ
  tokensUsed : ℤ
  continuations : ℕ
  consecutiveEmpty : ℕ
  settledThroughSeq : ℤ
  lastSettledMessageId : Option String
  continuationId : Option String
  usageCoverage : UsageCoverage
  createdAt : Instant
  updatedAt : Instant
  lastReason : Option String
  deriving DecidableEq

/-- `Goal.remaining_tokens`. -/
def Goal.remainingTokens (g : Goal) : Option ℤ :=
  g.tokenBudget.map fun budget => max 0 (budget - g.tokensUsed)

/-- `Goal.active`. -/
def Goal.active (g : Goal) : Bool :=
  g.status = .active

/-- `token_budget is not None and tokens_used >= token_budget`. -/
def Goal.exhausted (g : Goal) : Bool :=
  g.tokenBudget.any fun budget => decide (budget ≤ g.tokensUsed)

/-- `normalize_objective` of a text. -/
def normalizeObjective (value : String) : Except PyError String :=
  let objective := strip value
  if objective = "" then valueError "目标必须是非空文本"
  else if objectiveMaxLength < objective.length then
    valueError s!"目标最多 {objectiveMaxLength} 个字符（收到 {objective.length}）"
  else .ok objective

/-- `normalize_token_budget`. -/
def normalizeTokenBudget : Option ℤ → Except PyError (Option ℤ)
  | none => .ok none
  | some value =>
      if value ≤ 0 then valueError "token 预算必须是正整数"
      else if defaultMaxTokenBudget < value then
        valueError s!"token 预算最多 {defaultMaxTokenBudget}"
      else .ok (some value)

/-- `new_goal`. -/
def newGoal (sessionId goalId objective : String) (tokenBudget : Option ℤ)
    (settledThroughSeq : ℤ) (now : Instant) : Except PyError Goal :=
  if sessionId = "" ∨ goalId = "" then valueError "目标需要 Session 与 goal_id"
  else if settledThroughSeq < -1 then valueError "结算游标必须 >= -1"
  else do
    let objective ← normalizeObjective objective
    let tokenBudget ← normalizeTokenBudget tokenBudget
    return {
      sessionId := sessionId
      goalId := goalId
      objective := objective
      status := .active
      tokenBudget := tokenBudget
      tokensUsed := 0
      continuations := 0
      consecutiveEmpty := 0
      settledThroughSeq := settledThroughSeq
      lastSettledMessageId := none
      continuationId := none
      usageCoverage := .exact
      createdAt := now
      updatedAt := now
      lastReason := none }

/-! ### Operations -/

/-- `mark_continuation`. -/
def markContinuation (g : Goal) (messageId : String) (now : Instant) : Except PyError Goal :=
  if g.active = false then valueError s!"目标状态 {g.status.text} 不能继续"
  else if messageId = "" then valueError "续跑消息身份不能为空"
  else if defaultMaxContinuations ≤ g.continuations then
    valueError "已达到自动续跑上限；请清除后重新设置目标"
  else .ok { g with
    updatedAt := now
    continuations := g.continuations + 1
    continuationId := some messageId }

/-- `RoundSettlement` of `store.py`: what a finished round amounts to. `settle_round` reads
all of it but `append` and `pauseAfter`. -/
structure RoundSettlement where
  activity : Bool
  tokens : ℤ
  coverage : UsageCoverage
  settledThroughSeq : ℤ
  lastSettledMessageId : Option String
  reason : Option String
  append : Bool
  pauseAfter : Bool
  preempted : Bool

/-- The part of a settlement that every goal takes, whatever its status. -/
def Goal.booked (g : Goal) (r : RoundSettlement) (now : Instant) : Goal :=
  { g with
    updatedAt := now
    tokensUsed := g.tokensUsed + r.tokens
    settledThroughSeq := r.settledThroughSeq
    lastSettledMessageId := r.lastSettledMessageId
    continuationId := none
    usageCoverage := worstCoverage g.usageCoverage r.coverage }

/-- The count of empty rounds after a settlement: a preempted round leaves it alone. -/
def Goal.emptyAfter (g : Goal) (r : RoundSettlement) : ℕ :=
  if r.preempted then g.consecutiveEmpty
  else if r.activity then 0
  else g.consecutiveEmpty + 1

/-- What an active goal takes of a settlement. -/
def Goal.concluded (g : Goal) (r : RoundSettlement) (now : Instant) : Goal :=
  { g.booked r now with
    consecutiveEmpty := g.emptyAfter r
    lastReason := r.reason.or g.lastReason }

/-- A change of status with its reason. -/
def Goal.stop (g : Goal) (status : GoalStatus) (reason : String) (now : Instant) : Goal :=
  { g with updatedAt := now, status := status, lastReason := some reason }

/-- The status an active goal has after its round was booked. -/
def Goal.judge (g : Goal) (now : Instant) : Goal :=
  if g.exhausted then g.stop .budgetLimited "目标 token 预算已耗尽" now
  else if blockedAfterEmptyTurns ≤ g.consecutiveEmpty then
    g.stop .blocked s!"连续 {blockedAfterEmptyTurns} 个目标轮次没有产出" now
  else if defaultMaxContinuations ≤ g.continuations then
    g.stop .paused "达到自动续跑上限" now
  else g

/-- `settle_round`. -/
def settleRound (g : Goal) (r : RoundSettlement) (allowInactive : Bool) (now : Instant) :
    Except PyError Goal :=
  if g.active = false ∧ allowInactive = false then
    valueError s!"目标状态 {g.status.text} 不接受轮次结算"
  else if r.tokens < 0 then valueError "token 增量必须是非负整数"
  else if r.settledThroughSeq < g.settledThroughSeq then valueError "结算游标不能回退"
  else if g.active = false then .ok (g.booked r now)
  else .ok ((g.concluded r now).judge now)

/-- `apply_model_update`. -/
def applyModelUpdate (g : Goal) (status : String) (now : Instant) : Except PyError Goal :=
  if g.active = false then valueError s!"目标状态 {g.status.text} 不接受模型状态更新"
  else if status = "complete" then .ok (g.stop .complete "目标已完成" now)
  else if status = "blocked" then .ok (g.stop .blocked "目标被阻塞" now)
  else if status = "paused" then .ok (g.stop .paused "目标已暂停" now)
  else valueError s!"未知的目标状态更新: {status}"

/-- `pause`. -/
def pause (g : Goal) (reason : String) (now : Instant) : Except PyError Goal :=
  if g.active = false then valueError s!"目标状态 {g.status.text} 不能暂停"
  else .ok (g.stop .paused reason now)

/-- `resume`. It looks at the cap of continuations and not at the budget. -/
def resume (g : Goal) (now : Instant) : Except PyError Goal :=
  if g.status ≠ .paused ∧ g.status ≠ .blocked then
    valueError s!"目标状态 {g.status.text} 不能恢复"
  else if defaultMaxContinuations ≤ g.continuations then
    valueError "已达到自动续跑上限；请清除后重新设置目标"
  else .ok { g with
    updatedAt := now
    status := .active
    consecutiveEmpty := 0
    lastReason := none }

/-- The status a goal has after its budget was changed: it stops when the budget is used
up, and goes on when it had stopped for its budget, unless it has reached the cap. -/
def Goal.reassess (g : Goal) (now : Instant) : Goal :=
  if g.exhausted then g.stop .budgetLimited "目标 token 预算已耗尽" now
  else if g.status = .budgetLimited then
    if defaultMaxContinuations ≤ g.continuations then g.stop .paused "达到自动续跑上限" now
    else { g with updatedAt := now, status := .active, lastReason := none }
  else g

/-- `set_token_budget`. -/
def setTokenBudget (g : Goal) (budget : Option ℤ) (now : Instant) : Except PyError Goal :=
  if g.status ≠ .active ∧ g.status ≠ .paused ∧ g.status ≠ .budgetLimited then
    valueError s!"目标状态 {g.status.text} 不能修改预算"
  else do
    let budget ← normalizeTokenBudget budget
    return ({ g with updatedAt := now, tokenBudget := budget } : Goal).reassess now

/-! ### The machine -/

/-- The operations on a goal that exists. -/
inductive GoalOp where
  | mark (messageId : String)
  | settle (r : RoundSettlement) (allowInactive : Bool)
  | update (status : String)
  | pause (reason : String)
  | resume
  | setBudget (budget : Option ℤ)

/-- An operation at a time. -/
def GoalOp.run (g : Goal) (now : Instant) : GoalOp → Except PyError Goal
  | .mark messageId => markContinuation g messageId now
  | .settle r allowInactive => settleRound g r allowInactive now
  | .update status => applyModelUpdate g status now
  | .pause reason => Kirakira.pause g reason now
  | .resume => Kirakira.resume g now
  | .setBudget budget => setTokenBudget g budget now

/-- Goals from `new_goal` under any operations. -/
def goalMachine : System Goal (GoalOp × Instant) where
  init g := ∃ sessionId goalId objective tokenBudget settledThroughSeq now,
    newGoal sessionId goalId objective tokenBudget settledThroughSeq now = .ok g
  step g e g' := e.1.run g e.2 = .ok g'

/-! ### What operations return -/

theorem normalizeTokenBudget_eq_ok {value budget : Option ℤ}
    (h : normalizeTokenBudget value = .ok budget) :
    budget = value ∧ budget.all (fun budget => decide (0 < budget)) = true := by
  cases value with
  | none =>
      obtain rfl := Except.ok.inj h
      exact ⟨rfl, rfl⟩
  | some value =>
      unfold normalizeTokenBudget at h
      dsimp only at h
      split at h
      · cases h
      · split at h
        · cases h
        · obtain rfl := Except.ok.inj h
          refine ⟨rfl, ?_⟩
          rw [Option.all_some, decide_eq_true_iff]
          omega

variable {g g' : Goal} {now : Instant} {op : GoalOp} {status : GoalStatus}

theorem newGoal_eq_ok {sessionId goalId objective : String} {tokenBudget : Option ℤ}
    {settledThroughSeq : ℤ}
    (h : newGoal sessionId goalId objective tokenBudget settledThroughSeq now = .ok g) :
    g.sessionId = sessionId ∧ g.goalId = goalId ∧ g.settledThroughSeq = settledThroughSeq ∧
      -1 ≤ settledThroughSeq ∧ g.tokensUsed = 0 ∧ g.continuations = 0 ∧ g.continuationId = none ∧
      g.tokenBudget.all (fun budget => decide (0 < budget)) = true := by
  unfold newGoal at h
  split at h
  · cases h
  split at h
  · cases h
  next hcursor =>
    obtain ⟨_, -, h⟩ := bind_eq_ok.mp h
    obtain ⟨budget, hbudget, h⟩ := bind_eq_ok.mp h
    obtain rfl := Except.ok.inj h
    exact ⟨rfl, rfl, rfl, by omega, rfl, rfl, rfl, (normalizeTokenBudget_eq_ok hbudget).2⟩

theorem markContinuation_eq_ok {messageId : String}
    (h : markContinuation g messageId now = .ok g') :
    g.active = true ∧ messageId ≠ "" ∧ g.continuations < defaultMaxContinuations ∧
      g' = { g with
        updatedAt := now
        continuations := g.continuations + 1
        continuationId := some messageId } := by
  unfold markContinuation at h
  obtain ⟨-, ⟨⟩⟩ | ⟨hactive, h⟩ := ite_eq_iff.mp h
  obtain ⟨-, ⟨⟩⟩ | ⟨hid, h⟩ := ite_eq_iff.mp h
  split at h
  · cases h
  · next hcap => exact ⟨by simpa using hactive, hid, by omega, (Except.ok.inj h).symm⟩

/-- A goal after `judge` is the goal with a stopped status and a reason, or the goal. -/
theorem judge_cases (g : Goal) (now : Instant) :
    (∃ status reason, status ≠ .active ∧ g.judge now = g.stop status reason now) ∨
      (g.judge now = g ∧ g.exhausted = false ∧
        g.consecutiveEmpty < blockedAfterEmptyTurns ∧
        g.continuations < defaultMaxContinuations) := by
  unfold Goal.judge
  split
  · exact .inl ⟨_, _, by simp, rfl⟩
  · split
    · exact .inl ⟨_, _, by simp, rfl⟩
    · split
      · exact .inl ⟨_, _, by simp, rfl⟩
      · refine .inr ⟨rfl, ?_, ?_, ?_⟩
        · simp_all
        · omega
        · omega

theorem settleRound_eq_ok {r : RoundSettlement} {allowInactive : Bool}
    (h : settleRound g r allowInactive now = .ok g') :
    0 ≤ r.tokens ∧ g.settledThroughSeq ≤ r.settledThroughSeq ∧
      ((g.active = false ∧ allowInactive = true ∧ g' = g.booked r now) ∨
        (g.active = true ∧ g' = (g.concluded r now).judge now)) := by
  unfold settleRound at h
  obtain ⟨-, ⟨⟩⟩ | ⟨hallowed, h⟩ := ite_eq_iff.mp h
  obtain ⟨-, ⟨⟩⟩ | ⟨htokens, h⟩ := ite_eq_iff.mp h
  obtain ⟨-, ⟨⟩⟩ | ⟨hcursor, h⟩ := ite_eq_iff.mp h
  refine ⟨by omega, by omega, ?_⟩
  split at h
  · next hactive =>
      refine .inl ⟨hactive, ?_, (Except.ok.inj h).symm⟩
      simpa [hactive] using hallowed
  · next hactive =>
      exact .inr ⟨by simpa using hactive, (Except.ok.inj h).symm⟩

theorem applyModelUpdate_eq_ok {status : String} (h : applyModelUpdate g status now = .ok g') :
    g.active = true ∧ ∃ s reason, s ≠ .active ∧ g' = g.stop s reason now := by
  unfold applyModelUpdate at h
  obtain ⟨-, ⟨⟩⟩ | ⟨hactive, h⟩ := ite_eq_iff.mp h
  refine ⟨by simpa using hactive, ?_⟩
  split at h
  · exact ⟨_, _, by simp, (Except.ok.inj h).symm⟩
  · split at h
    · exact ⟨_, _, by simp, (Except.ok.inj h).symm⟩
    · split at h
      · exact ⟨_, _, by simp, (Except.ok.inj h).symm⟩
      · cases h

theorem pause_eq_ok {reason : String} (h : pause g reason now = .ok g') :
    g.active = true ∧ g' = g.stop .paused reason now := by
  unfold pause at h
  split at h
  · cases h
  · next hactive => exact ⟨by simpa using hactive, (Except.ok.inj h).symm⟩

theorem resume_eq_ok (h : resume g now = .ok g') :
    g.active = false ∧ g.continuations < defaultMaxContinuations ∧
      g' = { g with
        updatedAt := now
        status := .active
        consecutiveEmpty := 0
        lastReason := none } := by
  unfold resume at h
  obtain ⟨-, ⟨⟩⟩ | ⟨hstatus, h⟩ := ite_eq_iff.mp h
  obtain ⟨-, ⟨⟩⟩ | ⟨hcap, h⟩ := ite_eq_iff.mp h
  refine ⟨?_, by omega, (Except.ok.inj h).symm⟩
  rw [Goal.active, decide_eq_false_iff_not]
  intro hactive
  exact hstatus (by simp [hactive])

theorem reassess_cases (g : Goal) (now : Instant) :
    (∃ status reason, status ≠ .active ∧ g.reassess now = g.stop status reason now) ∨
      (g.exhausted = false ∧ ((g.continuations < defaultMaxContinuations ∧
          g.reassess now = { g with updatedAt := now, status := .active, lastReason := none }) ∨
        g.reassess now = g)) := by
  unfold Goal.reassess
  split
  · exact .inl ⟨_, _, by simp, rfl⟩
  · next hleft =>
      have hleft := Bool.eq_false_iff.mpr hleft
      split
      · split
        · exact .inl ⟨_, _, by simp, rfl⟩
        · next hcap => exact .inr ⟨hleft, .inl ⟨by omega, rfl⟩⟩
      · exact .inr ⟨hleft, .inr rfl⟩

theorem setTokenBudget_eq_ok {budget : Option ℤ} (h : setTokenBudget g budget now = .ok g') :
    g' = ({ g with updatedAt := now, tokenBudget := budget } : Goal).reassess now := by
  unfold setTokenBudget at h
  split at h
  · cases h
  · obtain ⟨normalized, hnormalized, h⟩ := bind_eq_ok.mp h
    obtain rfl := Except.ok.inj h
    rw [(normalizeTokenBudget_eq_ok hnormalized).1]

/-! ### What every operation keeps -/

/-- What a goal has in common with a later state of it: who it is, and counters that only
go up. -/
structure Goal.Before (g g' : Goal) : Prop where
  sessionId : g'.sessionId = g.sessionId
  goalId : g'.goalId = g.goalId
  objective : g'.objective = g.objective
  settledThroughSeq : g.settledThroughSeq ≤ g'.settledThroughSeq
  tokensUsed : g.tokensUsed ≤ g'.tokensUsed
  continuations : g.continuations ≤ g'.continuations

theorem Goal.Before.refl (g : Goal) : g.Before g :=
  ⟨rfl, rfl, rfl, le_refl _, le_refl _, le_refl _⟩

theorem Goal.Before.trans {g'' : Goal} (h₁ : g.Before g') (h₂ : g'.Before g'') : g.Before g'' :=
  ⟨h₂.sessionId.trans h₁.sessionId, h₂.goalId.trans h₁.goalId, h₂.objective.trans h₁.objective,
    h₁.settledThroughSeq.trans h₂.settledThroughSeq, h₁.tokensUsed.trans h₂.tokensUsed,
    h₁.continuations.trans h₂.continuations⟩

/-- An active goal has tokens left. -/
def Goal.Within (g : Goal) : Prop :=
  g.active = true → g.exhausted = false

/-- Whether the operation respects the budget: `resume` is not given a goal that has used
its budget up. -/
def Affordable (g : Goal) (e : GoalOp × Instant) : Prop :=
  e.1 = .resume → g.exhausted = false

theorem within_stop (g : Goal) (hstatus : status ≠ .active) (reason : String) (now : Instant) :
    (g.stop status reason now).Within :=
  fun hactive => absurd (of_decide_eq_true hactive) hstatus

theorem within_judge (g : Goal) (now : Instant) : (g.judge now).Within := by
  rcases judge_cases g now with ⟨status, reason, hstatus, hcase⟩ | ⟨hcase, hleft, -, -⟩
  · rw [hcase]
    exact within_stop g hstatus reason now
  · rw [hcase]
    exact fun _ => hleft

theorem within_reassess (g : Goal) (now : Instant) : (g.reassess now).Within := by
  rcases reassess_cases g now with ⟨status, reason, hstatus, hcase⟩ | ⟨hleft, ⟨-, hcase⟩ | hcase⟩
  · rw [hcase]
    exact within_stop g hstatus reason now
  · rw [hcase]
    exact fun _ => hleft
  · rw [hcase]
    exact fun _ => hleft

/-- **Every affordable operation keeps goals within their budget.** -/
theorem within_run {g g' : Goal} {now : Instant} {op : GoalOp} (hg : g.Within)
    (hop : Affordable g (op, now)) (h : op.run g now = .ok g') : g'.Within := by
  cases op with
  | mark messageId =>
      obtain ⟨-, -, -, rfl⟩ := markContinuation_eq_ok h
      exact hg
  | settle r allowInactive =>
      obtain ⟨-, -, ⟨hactive, -, rfl⟩ | ⟨-, rfl⟩⟩ := settleRound_eq_ok h
      · intro hactive'
        exact absurd (hactive.symm.trans hactive') Bool.false_ne_true
      · exact within_judge _ now
  | update status =>
      obtain ⟨-, s, reason, hs, rfl⟩ := applyModelUpdate_eq_ok h
      exact within_stop g hs reason now
  | pause reason =>
      obtain ⟨-, rfl⟩ := pause_eq_ok h
      exact within_stop g (by simp) reason now
  | resume =>
      obtain ⟨-, -, rfl⟩ := resume_eq_ok h
      exact fun _ => hop rfl
  | setBudget budget =>
      rw [setTokenBudget_eq_ok h]
      exact within_reassess _ now

/-- **Every goal reached by affordable operations is within its budget.** -/
theorem within_of_reachable (h : goalMachine.ReachableVia Affordable g) : g.Within := by
  refine h.invariant (I := Goal.Within) ?_ fun g e g' hg hop hstep => within_run hg hop hstep
  rintro g ⟨sessionId, goalId, objective, tokenBudget, settledThroughSeq, now, hnew⟩ -
  obtain ⟨-, -, -, -, hused, -, -, hbudget⟩ := newGoal_eq_ok hnew
  rw [Goal.exhausted, hused]
  cases hb : g.tokenBudget with
  | none => rfl
  | some budget =>
      rw [hb, Option.all_some, decide_eq_true_iff] at hbudget
      rw [Option.any_some, decide_eq_false_iff_not]
      omega

/-! ### The circuit breaker -/

/-- An active goal has fewer empty rounds in a row than block it. -/
def Goal.Lively (g : Goal) : Prop :=
  g.active = true → g.consecutiveEmpty < blockedAfterEmptyTurns

/-- Whether the operation respects the circuit breaker: where a goal has stopped for its budget
after as many empty rounds as block it, a new budget leaves it stopped. -/
def Rested (g : Goal) (e : GoalOp × Instant) : Prop :=
  ∀ budget, e.1 = .setBudget budget → g.status = .budgetLimited →
    blockedAfterEmptyTurns ≤ g.consecutiveEmpty →
    budget.any (fun budget => decide (budget ≤ g.tokensUsed)) = true ∨
      defaultMaxContinuations ≤ g.continuations

/-- How many empty rounds there are in a row after an operation, when there were `n`: a round of
an active goal that was not preempted counts, or starts the count again, and so does `resume`. -/
def GoalOp.emptyRounds (g : Goal) (n : ℕ) : GoalOp → ℕ
  | .settle r _ =>
      if g.active = false ∨ r.preempted = true then n else if r.activity then 0 else n + 1
  | .resume => 0
  | .mark _ | .update _ | .pause _ | .setBudget _ => n

/-- Goals from `new_goal` under any operations, with the empty rounds in a row. -/
def countedGoals : System (Goal × ℕ) (GoalOp × Instant) where
  init s := goalMachine.init s.1 ∧ s.2 = 0
  step s e t := goalMachine.step s.1 e t.1 ∧ t.2 = e.1.emptyRounds s.1 s.2

theorem lively_stop (g : Goal) (hstatus : status ≠ .active) (reason : String) (now : Instant) :
    (g.stop status reason now).Lively :=
  fun hactive => absurd (of_decide_eq_true hactive) hstatus

theorem lively_judge (g : Goal) (now : Instant) : (g.judge now).Lively := by
  rcases judge_cases g now with ⟨status, reason, hstatus, hcase⟩ | ⟨hcase, -, hempty, -⟩
  · rw [hcase]
    exact lively_stop g hstatus reason now
  · rw [hcase]
    exact fun _ => hempty

/-- **When a reassessed goal is lively**: unless it had stopped for its budget after its empty
rounds, and goes on. -/
theorem lively_reassess_iff (hg : g.Lively) (now : Instant) :
    (g.reassess now).Lively ↔ (g.status = .budgetLimited →
      blockedAfterEmptyTurns ≤ g.consecutiveEmpty →
      g.exhausted = true ∨ defaultMaxContinuations ≤ g.continuations) := by
  unfold Goal.reassess
  split
  · next hexhausted =>
      refine iff_of_true (lively_stop g (by simp) _ now) fun _ _ => .inl hexhausted
  · next hleft =>
      split
      · split
        · next hcap =>
            exact iff_of_true (lively_stop g (by simp) _ now) fun _ _ => .inr hcap
        · next hstatus hcap =>
            constructor
            · intro hlively _ hempty
              exact absurd (hlively rfl) (Nat.not_lt.mpr hempty)
            · intro hrested _
              refine Nat.lt_of_not_le fun hempty => ?_
              rcases hrested hstatus hempty with hexhausted | hcap'
              · exact hleft hexhausted
              · exact hcap hcap'
      · next hstatus => exact iff_of_true hg fun h => absurd h hstatus

/-- **When a step keeps a goal lively**: exactly when it respects the circuit breaker. -/
theorem lively_run_iff (hg : g.Lively) (h : op.run g now = .ok g') :
    g'.Lively ↔ Rested g (op, now) := by
  have hother : (∀ budget, op ≠ .setBudget budget) → Rested g (op, now) :=
    fun hop budget hbudget => absurd hbudget (hop budget)
  cases op with
  | mark messageId =>
      obtain ⟨-, -, -, rfl⟩ := markContinuation_eq_ok h
      exact iff_of_true hg (hother fun _ hop => by cases hop)
  | settle r allowInactive =>
      refine iff_of_true ?_ (hother fun _ hop => by cases hop)
      obtain ⟨-, -, ⟨hactive, -, rfl⟩ | ⟨-, rfl⟩⟩ := settleRound_eq_ok h
      · intro hactive'
        exact absurd (hactive.symm.trans hactive') Bool.false_ne_true
      · exact lively_judge _ now
  | update status =>
      obtain ⟨-, s, reason, hs, rfl⟩ := applyModelUpdate_eq_ok h
      exact iff_of_true (lively_stop g hs reason now) (hother fun _ hop => by cases hop)
  | pause reason =>
      obtain ⟨-, rfl⟩ := pause_eq_ok h
      exact iff_of_true (lively_stop g (by simp) reason now) (hother fun _ hop => by cases hop)
  | resume =>
      obtain ⟨-, -, rfl⟩ := resume_eq_ok h
      exact iff_of_true (fun _ => Nat.zero_lt_succ 2) (hother fun _ hop => by cases hop)
  | setBudget budget =>
      rw [setTokenBudget_eq_ok h]
      have hbudget : ({ g with updatedAt := now, tokenBudget := budget } : Goal).Lively := hg
      refine (lively_reassess_iff hbudget now).trans ⟨fun hrested budget' hop => ?_, fun hrested =>
        hrested budget rfl⟩
      obtain rfl := GoalOp.setBudget.inj hop
      exact hrested

theorem empty_of_newGoal (h : goalMachine.init g) : g.consecutiveEmpty = 0 := by
  obtain ⟨sessionId, goalId, objective, tokenBudget, settledThroughSeq, now, hnew⟩ := h
  unfold newGoal at hnew
  split at hnew
  · cases hnew
  split at hnew
  · cases hnew
  obtain ⟨_, -, hnew⟩ := bind_eq_ok.mp hnew
  obtain ⟨budget, -, hnew⟩ := bind_eq_ok.mp hnew
  obtain rfl := Except.ok.inj hnew
  rfl

theorem empty_judge (g : Goal) (now : Instant) :
    (g.judge now).consecutiveEmpty = g.consecutiveEmpty := by
  rcases judge_cases g now with ⟨status, reason, -, hcase⟩ | ⟨hcase, -⟩
  · rw [hcase]
    rfl
  · rw [hcase]

theorem empty_reassess (g : Goal) (now : Instant) :
    (g.reassess now).consecutiveEmpty = g.consecutiveEmpty := by
  rcases reassess_cases g now with ⟨status, reason, -, hcase⟩ | ⟨-, ⟨-, hcase⟩ | hcase⟩
  · rw [hcase]
    rfl
  · rw [hcase]
  · rw [hcase]

/-- **The counter of a goal counts its empty rounds.** -/
theorem empty_run (h : op.run g now = .ok g') :
    g'.consecutiveEmpty = op.emptyRounds g g.consecutiveEmpty := by
  cases op with
  | mark messageId =>
      obtain ⟨-, -, -, rfl⟩ := markContinuation_eq_ok h
      rfl
  | settle r allowInactive =>
      obtain ⟨-, -, ⟨hactive, -, rfl⟩ | ⟨hactive, rfl⟩⟩ := settleRound_eq_ok h
      · rw [GoalOp.emptyRounds, if_pos (.inl hactive)]
        rfl
      · rw [empty_judge, GoalOp.emptyRounds, hactive]
        simp only [Bool.true_eq_false, false_or]
        rfl
  | update status =>
      obtain ⟨-, s, reason, -, rfl⟩ := applyModelUpdate_eq_ok h
      rfl
  | pause reason =>
      obtain ⟨-, rfl⟩ := pause_eq_ok h
      rfl
  | resume =>
      obtain ⟨-, -, rfl⟩ := resume_eq_ok h
      rfl
  | setBudget budget =>
      rw [setTokenBudget_eq_ok h, empty_reassess]
      rfl

/-- **Every goal reached with a rested budget is lively**, and has counted its empty rounds. -/
theorem lively_of_reachable {s : Goal × ℕ}
    (h : countedGoals.ReachableVia (fun s e => Rested s.1 e) s) :
    s.1.Lively ∧ s.2 = s.1.consecutiveEmpty := by
  refine h.invariant (I := fun s => s.1.Lively ∧ s.2 = s.1.consecutiveEmpty) (fun s hinit => ?_)
    fun s e t hs hrested hstep => ?_
  · have hempty := empty_of_newGoal hinit.1
    refine ⟨fun _ => ?_, hinit.2.trans hempty.symm⟩
    rw [hempty]
    exact Nat.zero_lt_succ 2
  · refine ⟨(lively_run_iff hs.1 hstep.1).mpr hrested, ?_⟩
    rw [empty_run hstep.1, hstep.2, hs.2]

theorem exists_counted (h : goalMachine.ReachableVia Rested g) :
    ∃ n, countedGoals.ReachableVia (fun s e => Rested s.1 e) (g, n) := by
  refine h.invariant (I := fun g => ∃ n, countedGoals.ReachableVia (fun s e => Rested s.1 e) (g, n))
    (fun g hinit => ⟨0, .init ⟨hinit, rfl⟩⟩) fun g e g' ⟨n, hn⟩ hrested hstep => ?_
  exact ⟨e.1.emptyRounds g n, hn.step hrested ⟨hstep, rfl⟩⟩

/-- **The circuit breaker.** As long as no budget is renewed after as many empty rounds as block
a goal, an active goal has fewer of them, and no continuation is marked after so many rounds in a
row without a `resume`. A step that does renew such a budget leaves the goal active with them. -/
theorem breaker_holds {g : Goal} (h : goalMachine.ReachableVia Rested g) :
    (g.active = true → g.consecutiveEmpty < blockedAfterEmptyTurns) ∧
    (∀ n, countedGoals.ReachableVia (fun s e => Rested s.1 e) (g, n) →
      ∀ messageId now g', markContinuation g messageId now = .ok g' →
        n < blockedAfterEmptyTurns) ∧
    (∀ e g', goalMachine.step g e g' →
      ((g'.active = true → g'.consecutiveEmpty < blockedAfterEmptyTurns) ↔ Rested g e)) := by
  obtain ⟨n, hn⟩ := exists_counted h
  have hlively := (lively_of_reachable hn).1
  refine ⟨hlively, fun n hn messageId now g' hmark => ?_, fun e g' hstep =>
    lively_run_iff hlively hstep⟩
  obtain ⟨hactive, -, -, -⟩ := markContinuation_eq_ok hmark
  have hcount : n = g.consecutiveEmpty := (lively_of_reachable hn).2
  rw [hcount]
  exact hlively hactive

/-- A time. -/
def breakerTime : Instant := ⟨"2026-01-01T00:00:00+00:00"⟩

/-- A goal with a budget, after some empty rounds. -/
def idleGoal (rounds : ℕ) (tokens : ℤ) : Goal where
  sessionId := "s"
  goalId := "g"
  objective := "x"
  status := .active
  tokenBudget := some 10
  tokensUsed := tokens
  continuations := 0
  consecutiveEmpty := rounds
  settledThroughSeq := -1
  lastSettledMessageId := none
  continuationId := none
  usageCoverage := .exact
  createdAt := breakerTime
  updatedAt := breakerTime
  lastReason := none

/-- The settlement of an empty round. -/
def emptyRound (tokens : ℤ) : RoundSettlement where
  activity := false
  tokens := tokens
  coverage := .exact
  settledThroughSeq := -1
  lastSettledMessageId := none
  reason := none
  append := true
  pauseAfter := false
  preempted := false

theorem reachable_idleGoal {G : Goal → GoalOp × Instant → Prop}
    (hG : ∀ g r, G g (.settle r false, breakerTime)) : goalMachine.ReachableVia G (idleGoal 2 0) := by
  have hnew : goalMachine.init (idleGoal 0 0) :=
    ⟨"s", "g", "x", some 10, -1, breakerTime, rfl⟩
  have hfirst : goalMachine.step (idleGoal 0 0) (.settle (emptyRound 0) false, breakerTime)
      (idleGoal 1 0) := rfl
  have hsecond : goalMachine.step (idleGoal 1 0) (.settle (emptyRound 0) false, breakerTime)
      (idleGoal 2 0) := rfl
  exact ((System.ReachableVia.init hnew).step (hG _ _) hfirst).step (hG _ _) hsecond

/-- The breaker holds of a goal after two empty rounds. -/
theorem breaker_holds_idle : (idleGoal 2 0).active = true ∧
    (idleGoal 2 0).consecutiveEmpty < blockedAfterEmptyTurns := by
  have hreach : goalMachine.ReachableVia Rested (idleGoal 2 0) :=
    reachable_idleGoal fun _ _ _ hop => by cases hop
  exact ⟨rfl, (breaker_holds hreach).1 rfl⟩

/-- **A goal goes on after three empty rounds.** The third of them uses its budget up, so that it
stops for its budget and not for being empty, and a new budget makes it active again. -/
theorem renewed_goal_goes_on : ∃ g g', goalMachine.Reachable g ∧ g.active = true ∧
    g.consecutiveEmpty = blockedAfterEmptyTurns ∧
    markContinuation g "goal-continuation:g:1" breakerTime = .ok g' := by
  let stopped : Goal := (idleGoal 3 10).stop .budgetLimited "目标 token 预算已耗尽" breakerTime
  let renewed : Goal := { idleGoal 3 10 with tokenBudget := some 20 }
  have hthird : goalMachine.step (idleGoal 2 0) (.settle (emptyRound 10) false, breakerTime)
      stopped := rfl
  have hbudget : goalMachine.step stopped (.setBudget (some 20), breakerTime) renewed := rfl
  have hreach : goalMachine.Reachable renewed :=
    ((reachable_idleGoal fun _ _ => trivial).step trivial hthird).step trivial hbudget
  exact ⟨renewed, _, hreach, rfl, rfl, rfl⟩

end Kirakira
