import Kirakira.Lib.Table
import Kirakira.Lib.Transition
import Kirakira.StoreArguments

/-!
# Drift Proposals

The store of `plugins/drift/store.py`: proposals by identity and revision, each bound to at
most one accepted turn while it is claimed. A call is one transaction; a call that raises is
rolled back.

The table is a list of rows under the unique indexes of the schema, which are a field of the
store: a statement that would break one raises. Times are compared as the texts of
`_aware_utc`. The token `select` draws, the clock and the digest are arguments.

## Main results

* `run_cases` — everything a call can make of the table, row by row.
* `driftStore_runs` — **the lifecycle of a proposal** over every sequence of calls.
-/

namespace Kirakira.Drift

open Exceptions

/-! ### Rows -/

/-- `proposals.status`. -/
inductive Status where
  | pending
  | deferred
  | selected
  | readyForDelivery
  | failed
  | awaitChange
  | invalidated
  | settled
  deriving DecidableEq, Repr

/-- The text of a status. -/
def Status.text : Status → String
  | .pending => "pending"
  | .deferred => "deferred"
  | .selected => "selected"
  | .readyForDelivery => "ready_for_delivery"
  | .failed => "failed"
  | .awaitChange => "await_change"
  | .invalidated => "invalidated"
  | .settled => "settled"

/-- `status IN ('pending', 'deferred')`. -/
def Status.isOpen : Status → Bool
  | .pending | .deferred => true
  | _ => false

/-- Whether a turn is at work on the proposal. -/
def Status.isClaimed : Status → Bool
  | .selected | .readyForDelivery => true
  | _ => false

/-- Whether the proposal has ended. -/
def Status.isFinal : Status → Bool
  | .failed | .awaitChange | .invalidated | .settled => true
  | _ => false

/-- A row of `proposals`; `payloadJson` is the text with sorted keys. -/
structure Proposal where
  proposalId : String
  revision : String
  payloadJson : String
  status : Status
  dueAt : String
  nextDue : Option String
  stateVersion : ℕ
  selectionToken : Option String
  selectedSessionId : Option String
  selectedTurnId : Option String
  settlementRef : Option String
  createdAt : String
  updatedAt : String
  deriving DecidableEq

/-- The primary key. -/
def Proposal.key (r : Proposal) : String × String :=
  (r.proposalId, r.revision)

/-- The key of `proposals_selected_turn_idx`. -/
def Proposal.turn (r : Proposal) : Option AcceptedTurn :=
  match r.selectedSessionId, r.selectedTurnId with
  | some sessionId, some turnId => some ⟨sessionId, turnId⟩
  | _, _ => none

/-- The unique indexes of the schema. -/
structure Constraints (rows : List Proposal) : Prop where
  key : Table.Unique (fun r => some r.key) rows
  token : Table.Unique Proposal.selectionToken rows
  turn : Table.Unique Proposal.turn rows
  settlement : Table.Unique Proposal.settlementRef rows

/-- The table of the store. -/
structure Store where
  rows : List Proposal
  constraints : Constraints rows

/-- The table of a new store. -/
def Store.empty : Store :=
  ⟨[], ⟨.nil, .nil, .nil, .nil⟩⟩

/-- The row of a primary key. -/
def Store.row? (s : Store) (key : String × String) : Option Proposal :=
  s.rows.find? fun r => r.key = key

/-- `WHERE selection_token = ?`. -/
def Store.selection? (s : Store) (token : String) : Option Proposal :=
  s.rows.find? fun r => r.selectionToken = some token

/-- The table after a statement, which raises when it breaks an index. -/
def Store.write (rows : List Proposal) : Except PyError Store :=
  if hkey : Table.Unique (fun r => some r.key) rows then
    if htoken : Table.Unique Proposal.selectionToken rows then
      if hturn : Table.Unique Proposal.turn rows then
        if hsettlement : Table.Unique Proposal.settlementRef rows then
          .ok ⟨rows, ⟨hkey, htoken, hturn, hsettlement⟩⟩
        else uniqueError "proposals.settlement_ref"
      else uniqueError "proposals.selected_session_id, proposals.selected_turn_id"
    else uniqueError "proposals.selection_token"
  else uniqueError "proposals.proposal_id, proposals.revision"

variable {s t : Store} {r r' : Proposal} {sha256 : String → String}

theorem write_eq_ok {rows : List Proposal} (h : Store.write rows = .ok s) : s.rows = rows := by
  rw [Store.write] at h
  split_ifs at h <;> cases h
  rfl

/-! ### Calls -/

/-- `_aware_utc`. -/
def awareUtc : Datetime → Except PyError String :=
  Kirakira.awareUtc "Drift 时间必须带时区"

/-- `DriftRef`. -/
structure Ref where
  proposalId : String
  revision : String
  stateVersion : ℕ
  deriving DecidableEq

/-- The answer of `propose`. -/
structure Proposed where
  inserted : Bool
  ref : Ref

/-- `DriftStore.propose`. -/
def Store.propose (now : String) (proposalId revision : Json) (payload : Json)
    (dueAt : Datetime) (nextDue : Option Datetime) (s : Store) :
    Except PyError (Proposed × Store) := do
  let proposal ← identity "proposal_id" (some proposalId)
  let revision ← identity "revision" (some revision)
  let payloadJson := payload.sortKeys.dumps
  let due ← awareUtc dueAt
  let retry ← nextDue.mapM awareUtc
  let ref : Ref := ⟨proposal, revision, 1⟩
  match s.row? (proposal, revision) with
  | some existing =>
      if (existing.payloadJson, existing.dueAt, existing.nextDue) ≠ (payloadJson, due, retry) then
        runtimeError ("Drift proposal identity conflict: " ++ proposal ++ "/" ++ revision)
      else .ok (⟨false, ref⟩, s)
  | none => do
      let s ← Store.write (s.rows ++ [⟨proposal, revision, payloadJson, .pending, due, retry, 1,
        none, none, none, none, now, now⟩])
      return (⟨true, ref⟩, s)

/-- The row a change of the status alone leaves. -/
def Proposal.become (status : Status) (now : String) (r : Proposal) : Proposal :=
  { r with status := status, stateVersion := r.stateVersion + 1, updatedAt := now }

/-- `DriftStore.withdraw`. -/
def Store.withdraw (now : String) (proposalId revision : String) (s : Store) :
    Except PyError (Bool × Store) := do
  let hit : Proposal → Bool := fun r => r.key = (proposalId, revision) && r.status.isOpen
  let t ← Store.write (Table.update hit (Proposal.become .invalidated now) s.rows)
  return (s.rows.countP hit = 1, t)

/-- `DriftSelectResult`. -/
structure SelectResult where
  selected : Bool
  reason : Option String
  selectionToken : Option String
  acceptedTurn : Option AcceptedTurn

/-- `ref.get("state_version")`, a positive integer. -/
def stateVersionOf (ref : Json) : Except PyError ℕ :=
  match ref.get? "state_version" with
  | some (.int n) => if 0 < n then .ok n.toNat else valueError "Drift state_version 必须是正整数"
  | _ => valueError "Drift state_version 必须是正整数"

/-- The condition of the `UPDATE` of `select`. -/
def Proposal.isCandidate (key : String × String) (stateVersion : ℕ) (instant : String)
    (r : Proposal) : Bool :=
  r.key = key && r.stateVersion = stateVersion && r.status.isOpen && r.dueAt ≤ instant

/-- The row the `UPDATE` of `select` leaves. -/
def Proposal.claim (token : String) (turn : AcceptedTurn) (now : String) (r : Proposal) :
    Proposal :=
  { r with
    status := .selected
    selectionToken := some token
    selectedSessionId := some turn.sessionId
    selectedTurnId := some turn.turnId
    stateVersion := r.stateVersion + 1
    updatedAt := now }

/-- `DriftStore.select`; `hex` is what `secrets.token_hex(16)` draws. -/
def Store.select (now hex : String) (ref acceptedTurn : Json) (instant : Datetime) (s : Store) :
    Except PyError (SelectResult × Store) := do
  let proposal ← identity "proposal_id" (ref.get? "proposal_id")
  let revision ← identity "revision" (ref.get? "revision")
  let stateVersion ← stateVersionOf ref
  let accepted ← Kirakira.acceptedTurn acceptedTurn
  let token := "drift-selection:" ++ hex
  if s.rows.any fun r => r.turn = some accepted then
    .ok (⟨false, some "turn_already_selected", none, none⟩, s)
  else do
    let instant ← awareUtc instant
    let hit := Proposal.isCandidate (proposal, revision) stateVersion instant
    let t ← Store.write (Table.update hit (Proposal.claim token accepted now) s.rows)
    if s.rows.countP hit = 1 then .ok (⟨true, none, some token, some accepted⟩, t)
    else .ok (⟨false, none, none, none⟩, t)

/-- The actions of `transition`. -/
inductive Action where
  | readyForDelivery
  | failed
  | defer
  | awaitChange
  | invalidated
  deriving DecidableEq, Repr

/-- The action a text names. -/
def actionOf (action : String) : Except PyError Action :=
  if action = "ready_for_delivery" then .ok .readyForDelivery
  else if action = "failed" then .ok .failed
  else if action = "defer" then .ok .defer
  else if action = "await_change" then .ok .awaitChange
  else if action = "invalidated" then .ok .invalidated
  else valueError ("未知 Drift transition: " ++ action)

/-- The status an action leads to. -/
def Action.status : Action → Status
  | .readyForDelivery => .readyForDelivery
  | .failed => .failed
  | .defer => .deferred
  | .awaitChange => .awaitChange
  | .invalidated => .invalidated

/-- The answer of `transition`. -/
structure Transitioned where
  changed : Bool
  reason : Option String
  status : Option Status
  nextDue : Option String

/-- The row an ending that gives the claim up leaves. -/
def Proposal.release (status : Status) (dueAt : Option String) (now : String) (r : Proposal) :
    Proposal :=
  { r with
    status := status
    dueAt := dueAt.getD r.dueAt
    selectionToken := none
    selectedSessionId := none
    selectedTurnId := none
    stateVersion := r.stateVersion + 1
    updatedAt := now }

/-- The `UPDATE` of `transition`. -/
def Store.applyAction (now token : String) (action : Action) (dueAt : Option String) (s : Store) :
    Except PyError Store :=
  match action with
  | .failed =>
      Store.write (Table.update (fun r => r.selectionToken = some token)
        (Proposal.become .failed now) s.rows)
  | .readyForDelivery =>
      Store.write (Table.update (fun r => r.selectionToken = some token && r.status = .selected)
        (Proposal.become .readyForDelivery now) s.rows)
  | _ =>
      Store.write (Table.update (fun r => r.selectionToken = some token && r.status = .selected)
        (Proposal.release action.status dueAt now) s.rows)

/-- `DriftStore.transition`. -/
def Store.transition (now : String) (token : Json) (action : String) (s : Store) :
    Except PyError (Transitioned × Store) := do
  let selection ← identity "selection_token" (some token)
  let action ← actionOf action
  match s.selection? selection with
  | none => .ok (⟨false, some "selection_missing", none, none⟩, s)
  | some row =>
      if row.status ≠ .selected ∧ ¬(action = .failed ∧ row.status = .readyForDelivery) then
        .ok (⟨false, some ("status:" ++ row.status.text), none, none⟩, s)
      else if action = .defer ∧ row.nextDue = none then
        runtimeError "Drift defer 缺少 proposal owner 提供的 next_due"
      else do
        let dueAt := if action = .defer then row.nextDue else none
        let t ← s.applyAction now selection action dueAt
        return (⟨true, none, some action.status, dueAt⟩, t)

/-- The answer of `settle_delivery`. -/
structure Settled where
  settled : Bool
  reason : Option String
  duplicate : Option Bool
  receipt : Option String
  deriving DecidableEq

/-- `_delivery_receipt`, with the digest of `hashlib`. -/
def deliveryReceipt (sha256 : String → String) (token settlement : String) : String :=
  "drift:" ++ sha256 (token ++ String.singleton (Char.ofNat 0) ++ settlement)

/-- The row `settle_delivery` leaves. -/
def Proposal.settle (settlement now : String) (r : Proposal) : Proposal :=
  { r with
    status := .settled
    settlementRef := some settlement
    stateVersion := r.stateVersion + 1
    updatedAt := now }

/-- `DriftStore.settle_delivery`. -/
def Store.settleDelivery (sha256 : String → String) (now : String) (token settlement : Json)
    (s : Store) : Except PyError (Settled × Store) := do
  let token ← identity "selection_token" (some token)
  let settlement ← identity "settlement_ref" (some settlement)
  let receipt := deliveryReceipt sha256 token settlement
  match s.selection? token with
  | none => .ok (⟨false, some "selection_missing", none, none⟩, s)
  | some row =>
      if row.status = .settled then
        if row.settlementRef ≠ some settlement then
          runtimeError "Drift delivery settlement identity conflict"
        else .ok (⟨true, none, some true, some receipt⟩, s)
      else if row.status ≠ .readyForDelivery then
        .ok (⟨false, some ("status:" ++ row.status.text), none, none⟩, s)
      else do
        let t ← Store.write (Table.update
          (fun r => r.selectionToken = some token && r.status = .readyForDelivery)
          (Proposal.settle settlement now) s.rows)
        return (⟨true, none, some false, some receipt⟩, t)

/-- The calls that write. -/
inductive Call where
  | propose (now : String) (proposalId revision payload : Json) (dueAt : Datetime)
      (nextDue : Option Datetime)
  | withdraw (now proposalId revision : String)
  | select (now hex : String) (ref acceptedTurn : Json) (instant : Datetime)
  | transition (now : String) (token : Json) (action : String)
  | settleDelivery (now : String) (token settlement : Json)

/-- The answers of the calls. -/
inductive Reply where
  | proposed (r : Proposed)
  | withdrawn (b : Bool)
  | selected (r : SelectResult)
  | transitioned (r : Transitioned)
  | settled (r : Settled)

/-- One call as a transaction. -/
def Call.exec (sha256 : String → String) (s : Store) : Call → Except PyError (Reply × Store)
  | .propose now id revision payload dueAt nextDue =>
      (s.propose now id revision payload dueAt nextDue).map fun r => (.proposed r.1, r.2)
  | .withdraw now id revision => (s.withdraw now id revision).map fun r => (.withdrawn r.1, r.2)
  | .select now hex ref turn instant =>
      (s.select now hex ref turn instant).map fun r => (.selected r.1, r.2)
  | .transition now token action =>
      (s.transition now token action).map fun r => (.transitioned r.1, r.2)
  | .settleDelivery now token settlement =>
      (s.settleDelivery sha256 now token settlement).map fun r => (.settled r.1, r.2)

/-- The store after a call; a call that raises is rolled back. -/
def Call.after (sha256 : String → String) (s : Store) (call : Call) : Store :=
  match call.exec sha256 s with
  | .ok (_, t) => t
  | .error _ => s

/-! ### What a call changes -/

/-- The token a call draws. -/
def Call.drawn : Call → Option String
  | .select _ hex _ _ _ => some ("drift-selection:" ++ hex)
  | _ => none

/-- The changes of a row by a call that draws this token. -/
inductive Proposal.Step (drawn : Option String) : Proposal → Proposal → Prop
  | withdraw {r : Proposal} (now : String) (h : r.status.isOpen = true) :
      Step drawn r (r.become .invalidated now)
  | claim {r : Proposal} (token : String) (turn : AcceptedTurn) (now : String)
      (h : r.status.isOpen = true) (hdrawn : drawn = some token) :
      Step drawn r (r.claim token turn now)
  | ready {r : Proposal} (now : String) (h : r.status = .selected) :
      Step drawn r (r.become .readyForDelivery now)
  | fail {r : Proposal} (now : String) (h : r.status.isClaimed = true) :
      Step drawn r (r.become .failed now)
  | release {r : Proposal} (status : Status) (dueAt : Option String) (now : String)
      (h : r.status = .selected)
      (hs : status = .deferred ∨ status = .awaitChange ∨ status = .invalidated) :
      Step drawn r (r.release status dueAt now)
  | settle {r : Proposal} (settlement now : String) (h : r.status = .readyForDelivery) :
      Step drawn r (r.settle settlement now)

/-- A row `propose` enters. -/
def Proposal.IsNew (r : Proposal) : Prop :=
  r.status = .pending ∧ r.stateVersion = 1 ∧ r.selectionToken = none ∧
    r.selectedSessionId = none ∧ r.selectedTurnId = none ∧ r.settlementRef = none

theorem Proposal.Step.key {drawn : Option String} (h : r.Step drawn r') : r'.key = r.key := by
  cases h <;> rfl

theorem Proposal.Step.stateVersion {drawn : Option String} (h : r.Step drawn r') :
    r'.stateVersion = r.stateVersion + 1 := by
  cases h <;> rfl

/-- What a call makes of the table: rows stay or make one step, and at most one row is
entered. -/
inductive Changed (drawn : Option String) (s : Store) : Store → Prop
  | same : Changed drawn s s
  | entered {t : Store} (r : Proposal) (hnew : r.IsNew) (ht : t.rows = s.rows ++ [r]) :
      Changed drawn s t
  | updated {t : Store} (p : Proposal → Bool) (f : Proposal → Proposal)
      (hstep : ∀ r ∈ s.rows, p r = true → r.Step drawn (f r))
      (ht : t.rows = Table.update p f s.rows) : Changed drawn s t

theorem Changed.of_write {drawn : Option String} {p : Proposal → Bool} {f : Proposal → Proposal}
    (h : Store.write (Table.update p f s.rows) = .ok t)
    (hstep : ∀ r ∈ s.rows, p r = true → r.Step drawn (f r)) : Changed drawn s t :=
  .updated p f hstep (write_eq_ok h)

theorem selection?_eq_some {token : String} {row : Proposal} (h : s.selection? token = some row) :
    row ∈ s.rows ∧ row.selectionToken = some token :=
  ⟨List.mem_of_find?_eq_some h, by simpa using List.find?_some h⟩

theorem eq_of_token {token : String} {row : Proposal} (h : s.selection? token = some row)
    (hr : r ∈ s.rows) (htoken : r.selectionToken = some token) : r = row := by
  obtain ⟨hrow, hkey⟩ := selection?_eq_some h
  exact s.constraints.token.eq_of_key hr hrow htoken hkey

section Calls

variable {drawn : Option String} {s t : Store} {now : String}

theorem propose_changed {proposalId revision payload : Json} {dueAt : Datetime}
    {nextDue : Option Datetime} {a : Proposed}
    (h : s.propose now proposalId revision payload dueAt nextDue = .ok (a, t)) :
    Changed drawn s t := by
  rw [Store.propose] at h
  obtain ⟨proposal, -, h⟩ := bind_eq_ok.mp h
  obtain ⟨rev, -, h⟩ := bind_eq_ok.mp h
  obtain ⟨due, -, h⟩ := bind_eq_ok.mp h
  obtain ⟨retry, -, h⟩ := bind_eq_ok.mp h
  split at h
  · split_ifs at h
    · cases h
    · cases h
      exact .same
  · obtain ⟨t', hwrite, h⟩ := bind_eq_ok.mp h
    cases h
    exact .entered _ ⟨rfl, rfl, rfl, rfl, rfl, rfl⟩ (write_eq_ok hwrite)

theorem withdraw_changed {proposalId revision : String} {a : Bool}
    (h : s.withdraw now proposalId revision = .ok (a, t)) : Changed drawn s t := by
  obtain ⟨t', hwrite, h⟩ := bind_eq_ok.mp h
  cases h
  refine .of_write hwrite fun r _ hhit => ?_
  rw [Bool.and_eq_true] at hhit
  exact .withdraw now hhit.2

theorem select_changed {hex : String} {ref turn : Json} {instant : Datetime} {a : SelectResult}
    (h : s.select now hex ref turn instant = .ok (a, t)) :
    Changed (some ("drift-selection:" ++ hex)) s t := by
  rw [Store.select] at h
  obtain ⟨proposal, -, h⟩ := bind_eq_ok.mp h
  obtain ⟨rev, -, h⟩ := bind_eq_ok.mp h
  obtain ⟨version, -, h⟩ := bind_eq_ok.mp h
  obtain ⟨accepted, -, h⟩ := bind_eq_ok.mp h
  split_ifs at h
  · cases h
    exact .same
  · obtain ⟨due, -, h⟩ := bind_eq_ok.mp h
    obtain ⟨t', hwrite, h⟩ := bind_eq_ok.mp h
    have hchanged : Changed (some ("drift-selection:" ++ hex)) s t' := by
      refine .of_write hwrite fun r _ hhit => ?_
      simp only [Proposal.isCandidate, Bool.and_eq_true] at hhit
      exact .claim _ _ _ hhit.1.2 rfl
    split_ifs at h <;> cases h <;> exact hchanged

theorem applyAction_changed {token : String} {action : Action} {dueAt : Option String}
    {row : Proposal} (hrow : s.selection? token = some row)
    (hstatus : row.status = .selected ∨ (action = .failed ∧ row.status = .readyForDelivery))
    (h : s.applyAction now token action dueAt = .ok t) : Changed drawn s t := by
  have hone : ∀ r ∈ s.rows, r.selectionToken = some token → r = row := fun r hr htoken =>
    eq_of_token hrow hr htoken
  have hselected : ∀ r : Proposal,
      (r.selectionToken = some token && decide (r.status = .selected)) = true →
        r.status = .selected := by
    intro r hhit
    rw [Bool.and_eq_true] at hhit
    exact of_decide_eq_true hhit.2
  cases action with
  | failed =>
      refine .of_write h fun r hr hhit => ?_
      obtain rfl := hone r hr (of_decide_eq_true hhit)
      refine .fail now ?_
      rcases hstatus with hs | ⟨-, hs⟩ <;> rw [hs] <;> rfl
  | readyForDelivery => exact .of_write h fun r _ hhit => .ready now (hselected r hhit)
  | defer => exact .of_write h fun r _ hhit => .release _ _ now (hselected r hhit) (.inl rfl)
  | awaitChange =>
      exact .of_write h fun r _ hhit => .release _ _ now (hselected r hhit) (.inr (.inl rfl))
  | invalidated =>
      exact .of_write h fun r _ hhit => .release _ _ now (hselected r hhit) (.inr (.inr rfl))

theorem transition_changed {token : Json} {action : String} {a : Transitioned}
    (h : s.transition now token action = .ok (a, t)) : Changed drawn s t := by
  rw [Store.transition] at h
  obtain ⟨selection, -, h⟩ := bind_eq_ok.mp h
  obtain ⟨act, -, h⟩ := bind_eq_ok.mp h
  split at h
  · cases h
    exact .same
  · next row hrow =>
      split_ifs at h with hstatus hdefer
      · cases h
        exact .same
      · cases h
      all_goals
        obtain ⟨t', happly, h⟩ := bind_eq_ok.mp h
        cases h
        refine applyAction_changed hrow ?_ happly
        by_contra hno
        push Not at hno
        exact hstatus ⟨hno.1, fun hf => hno.2 hf.1 hf.2⟩

/-- **What a settlement writes**: nothing, or the row of its token once that is ready. -/
theorem settleDelivery_cases {token settlement : Json} {a : Settled}
    (h : s.settleDelivery sha256 now token settlement = .ok (a, t)) :
    t = s ∨ ∃ selection ref, Store.write (Table.update
      (fun r => r.selectionToken = some selection && r.status = .readyForDelivery)
      (Proposal.settle ref now) s.rows) = .ok t := by
  rw [Store.settleDelivery] at h
  obtain ⟨selection, -, h⟩ := bind_eq_ok.mp h
  obtain ⟨ref, -, h⟩ := bind_eq_ok.mp h
  split at h
  · cases h
    exact .inl rfl
  · split_ifs at h
    · cases h
    · cases h
      exact .inl rfl
    · cases h
      exact .inl rfl
    · obtain ⟨t', hwrite, h⟩ := bind_eq_ok.mp h
      cases h
      exact .inr ⟨selection, ref, hwrite⟩

theorem settleDelivery_changed {token settlement : Json} {a : Settled}
    (h : s.settleDelivery sha256 now token settlement = .ok (a, t)) : Changed drawn s t := by
  rcases settleDelivery_cases h with rfl | ⟨selection, ref, hwrite⟩
  · exact .same
  · refine .of_write hwrite fun r _ hhit => ?_
    rw [Bool.and_eq_true] at hhit
    exact .settle _ _ (of_decide_eq_true hhit.2)

end Calls

/-- **Everything a call can make of the table.** -/
theorem run_cases (sha256 : String → String) (s : Store) (call : Call) :
    Changed call.drawn s (call.after sha256 s) := by
  rw [Call.after]
  split
  · next a t hexec =>
      cases call with
      | propose now id revision payload dueAt nextDue =>
          obtain ⟨⟨p, t'⟩, hcall, heq⟩ := map_eq_ok.mp hexec
          cases heq
          exact propose_changed hcall
      | withdraw now id revision =>
          obtain ⟨⟨p, t'⟩, hcall, heq⟩ := map_eq_ok.mp hexec
          cases heq
          exact withdraw_changed hcall
      | select now hex ref turn instant =>
          obtain ⟨⟨p, t'⟩, hcall, heq⟩ := map_eq_ok.mp hexec
          cases heq
          exact select_changed hcall
      | transition now token action =>
          obtain ⟨⟨p, t'⟩, hcall, heq⟩ := map_eq_ok.mp hexec
          cases heq
          exact transition_changed hcall
      | settleDelivery now token settlement =>
          obtain ⟨⟨p, t'⟩, hcall, heq⟩ := map_eq_ok.mp hexec
          cases heq
          exact settleDelivery_changed hcall
  · exact .same

/-! ### The lifecycle -/

/-- What every row of a reachable store satisfies: the claim is there while a turn is at
work, and afterwards where a recovery reads it; a settlement is there once it is made. -/
def Proposal.Ok (r : Proposal) : Prop :=
  match r.status with
  | .pending | .deferred | .awaitChange | .invalidated =>
      r.selectionToken = none ∧ r.selectedSessionId = none ∧ r.selectedTurnId = none ∧
        r.settlementRef = none
  | .selected | .readyForDelivery | .failed =>
      r.selectionToken.isSome ∧ r.selectedSessionId.isSome ∧ r.selectedTurnId.isSome ∧
        r.settlementRef = none
  | .settled =>
      r.selectionToken.isSome ∧ r.selectedSessionId.isSome ∧ r.selectedTurnId.isSome ∧
        r.settlementRef.isSome

theorem Proposal.Ok.step {drawn : Option String} (h : r.Ok) (hstep : r.Step drawn r') : r'.Ok := by
  have hopen : r.status.isOpen = true → r.selectionToken = none ∧ r.selectedSessionId = none ∧
      r.selectedTurnId = none ∧ r.settlementRef = none := by
    intro hs
    rw [Proposal.Ok] at h
    split at h <;> simp_all [Status.isOpen]
  have hclaimed : r.status.isClaimed = true → r.selectionToken.isSome ∧
      r.selectedSessionId.isSome ∧ r.selectedTurnId.isSome ∧ r.settlementRef = none := by
    intro hs
    rw [Proposal.Ok] at h
    split at h <;> simp_all [Status.isClaimed]
  cases hstep with
  | withdraw now hs => exact hopen hs
  | claim token turn now hs _ => exact ⟨rfl, rfl, rfl, (hopen hs).2.2.2⟩
  | ready now hs => exact hclaimed (by rw [hs]; rfl)
  | fail now hs => exact hclaimed hs
  | release status dueAt now hs hstatus =>
      have hsettlement := (hclaimed (by rw [hs]; rfl)).2.2.2
      rcases hstatus with rfl | rfl | rfl <;> exact ⟨rfl, rfl, rfl, hsettlement⟩
  | settle settlement now hs =>
      obtain ⟨htoken, hsession, hturn, -⟩ := hclaimed (by rw [hs]; rfl)
      exact ⟨htoken, hsession, hturn, rfl⟩

theorem Proposal.IsNew.ok (h : r.IsNew) : r.Ok := by
  obtain ⟨hs, -, htoken, hsession, hturn, hsettlement⟩ := h
  rw [Proposal.Ok, hs]
  exact ⟨htoken, hsession, hturn, hsettlement⟩

/-- A row of the table after a call: a row from before that stayed or made one step, or a
new row. -/
theorem Changed.origin {drawn : Option String} (h : Changed drawn s t) (hr' : r' ∈ t.rows) :
    (∃ r ∈ s.rows, r' = r ∨ r.Step drawn r') ∨ r'.IsNew := by
  cases h with
  | same => exact .inl ⟨r', hr', .inl rfl⟩
  | entered r hnew ht =>
      rw [ht, List.mem_append, List.mem_singleton] at hr'
      rcases hr' with hold | rfl
      · exact .inl ⟨r', hold, .inl rfl⟩
      · exact .inr hnew
  | updated p f hstep ht =>
      rw [ht] at hr'
      obtain ⟨r, hr, hrow⟩ := Table.mem_update.mp hr'
      refine .inl ⟨r, hr, ?_⟩
      split at hrow
      · next hp =>
          rw [← hrow]
          exact .inr (hstep r hr hp)
      · exact .inl hrow.symm

theorem Changed.successor {drawn : Option String} (h : Changed drawn s t) (hr : r ∈ s.rows) :
    ∃ r' ∈ t.rows, r' = r ∨ r.Step drawn r' := by
  cases h with
  | same => exact ⟨r, hr, .inl rfl⟩
  | entered new hnew ht =>
      rw [ht]
      exact ⟨r, List.mem_append_left _ hr, .inl rfl⟩
  | updated p f hstep ht =>
      rw [ht]
      refine ⟨_, Table.mem_update.mpr ⟨r, hr, rfl⟩, ?_⟩
      split
      · next hp => exact .inr (hstep r hr hp)
      · exact .inl rfl

/-- The store as a transition system. -/
def drift (sha256 : String → String) : Transition.System Store Call where
  init s := s = .empty
  step s call t := t = call.after sha256 s

theorem ok_of_reachable (h : (drift sha256).Reachable s) : ∀ r ∈ s.rows, r.Ok := by
  refine Transition.System.ReachableVia.invariant (I := fun s => ∀ r ∈ s.rows, r.Ok) ?_ ?_ h
  · rintro s rfl r hr
    cases hr
  · rintro s call t hok - rfl r' hr'
    rcases (run_cases sha256 s call).origin hr' with ⟨r, hr, rfl | hstep⟩ | hnew
    · exact hok _ hr
    · exact (hok r hr).step hstep
    · exact hnew.ok

/-- What a run makes of a row: the version grows with every change, an ended proposal keeps
its status, its claim and its settlement. -/
structure Proposal.Later (r r' : Proposal) : Prop where
  key : r'.key = r.key
  version : r' = r ∨ r.stateVersion < r'.stateVersion
  final : r.status.isFinal = true →
    r'.status = r.status ∧ r'.selectionToken = r.selectionToken ∧ r'.turn = r.turn ∧
      r'.settlementRef = r.settlementRef

theorem Proposal.Step.not_final {drawn : Option String} (h : r.Step drawn r') :
    r.status.isFinal = false := by
  cases h with
  | withdraw now hs => cases hstatus : r.status <;> simp_all [Status.isOpen, Status.isFinal]
  | claim token turn now hs _ =>
      cases hstatus : r.status <;> simp_all [Status.isOpen, Status.isFinal]
  | ready now hs => rw [hs]; rfl
  | fail now hs => cases hstatus : r.status <;> simp_all [Status.isClaimed, Status.isFinal]
  | release status dueAt now hs => rw [hs]; rfl
  | settle settlement now hs => rw [hs]; rfl

theorem Proposal.Later.refl (r : Proposal) : r.Later r :=
  ⟨rfl, .inl rfl, fun _ => ⟨rfl, rfl, rfl, rfl⟩⟩

theorem Proposal.Step.later {drawn : Option String} (h : r.Step drawn r') :
    r.Later r' where
  key := h.key
  version := .inr (by rw [h.stateVersion]; exact Nat.lt_succ_self _)
  final hfinal := by
    rw [h.not_final] at hfinal
    cases hfinal

theorem Proposal.Later.trans {r'' : Proposal} (h : r.Later r') (h' : r'.Later r'') :
    r.Later r'' where
  key := h'.key.trans h.key
  version := by
    rcases h.version with rfl | hlt
    · exact h'.version
    · rcases h'.version with rfl | hlt'
      · exact .inr hlt
      · exact .inr (hlt.trans hlt')
  final hfinal := by
    obtain ⟨hs, htoken, hturn, hsettlement⟩ := h.final hfinal
    obtain ⟨hs', htoken', hturn', hsettlement'⟩ := h'.final (by rw [hs]; exact hfinal)
    exact ⟨hs'.trans hs, htoken'.trans htoken, hturn'.trans hturn, hsettlement'.trans hsettlement⟩

/-- Every row of a store has a later row in another. -/
def Store.Later (s t : Store) : Prop :=
  ∀ r ∈ s.rows, ∃ r' ∈ t.rows, r.Later r'

/-- **Rows only move on along a run.** -/
theorem later_of_run (h : (drift sha256).Run s t) : s.Later t := by
  refine Transition.System.RunVia.relates (I := fun _ => True) (R := Store.Later) ?_ ?_ ?_ ?_ h
    trivial
  · exact fun s r hr => ⟨r, hr, .refl r⟩
  · intro s t u hst htu r hr
    obtain ⟨r', hr', hlater⟩ := hst r hr
    obtain ⟨r'', hr'', hlater'⟩ := htu r' hr'
    exact ⟨r'', hr'', hlater.trans hlater'⟩
  · exact fun _ _ _ _ _ _ => trivial
  · rintro s call t - - rfl r hr
    obtain ⟨r', hr', rfl | hstep⟩ := (run_cases sha256 s call).successor hr
    · exact ⟨_, hr', .refl _⟩
    · exact ⟨r', hr', hstep.later⟩

/-! ### Single calls -/

theorem Changed.row {drawn : Option String} (h : Changed drawn s t) (hr : r ∈ s.rows)
    (hr' : r' ∈ t.rows) (hkey : r'.key = r.key) : r' = r ∨ r.Step drawn r' := by
  obtain ⟨r₁, hr₁, hstep⟩ := h.successor hr
  have hkey₁ : r₁.key = r.key := by
    rcases hstep with rfl | hstep
    · rfl
    · exact hstep.key
  have heq : r' = r₁ := t.constraints.key.eq_of_key hr' hr₁ (congrArg some hkey)
    (congrArg some hkey₁)
  rw [heq]
  exact hstep

variable {now : String}

/-- A claim is made of the row the reference names, at the version it names. -/
theorem select_current {hex : String} {ref turn : Json} {instant : Datetime} {a : SelectResult}
    (h : s.select now hex ref turn instant = .ok (a, t)) (hselected : a.selected = true) :
    ∃ r ∈ s.rows, ref.get? "proposal_id" = some (.str r.proposalId) ∧
      ref.get? "revision" = some (.str r.revision) ∧
      ref.get? "state_version" = some (.int r.stateVersion) ∧ r.status.isOpen = true := by
  rw [Store.select] at h
  obtain ⟨proposal, hproposal, h⟩ := bind_eq_ok.mp h
  obtain ⟨rev, hrev, h⟩ := bind_eq_ok.mp h
  obtain ⟨version, hversion, h⟩ := bind_eq_ok.mp h
  obtain ⟨accepted, -, h⟩ := bind_eq_ok.mp h
  have hversion' : ref.get? "state_version" = some (.int version) := by
    rw [stateVersionOf] at hversion
    split at hversion
    · next n hn =>
        split_ifs at hversion with hpos
        · obtain rfl := Except.ok.inj hversion
          rw [hn, Int.toNat_of_nonneg hpos.le]
        · cases hversion
    · cases hversion
  split_ifs at h
  · cases h
    cases hselected
  · obtain ⟨due, -, h⟩ := bind_eq_ok.mp h
    obtain ⟨t', -, h⟩ := bind_eq_ok.mp h
    split_ifs at h with hcount
    · have hpos : 0 < s.rows.countP (Proposal.isCandidate (proposal, rev) version due) := by
        rw [hcount]
        exact Nat.one_pos
      obtain ⟨r, hr, hhit⟩ := List.countP_pos_iff.mp hpos
      simp only [Proposal.isCandidate, Bool.and_eq_true, decide_eq_true_eq] at hhit
      obtain ⟨⟨⟨hkey, hv⟩, hopen⟩, -⟩ := hhit
      obtain ⟨rfl, rfl⟩ := Prod.mk.inj hkey
      exact ⟨r, hr, (identity_eq_ok hproposal).1, (identity_eq_ok hrev).1, hv ▸ hversion', hopen⟩
    · cases h
      cases hselected

theorem withdraw_keeps {proposalId revision : String} {a : Bool}
    (h : s.withdraw now proposalId revision = .ok (a, t)) (hr : r ∈ s.rows)
    (hclosed : r.status.isOpen = false) : r ∈ t.rows := by
  obtain ⟨t', hwrite, h⟩ := bind_eq_ok.mp h
  cases h
  rw [write_eq_ok hwrite, Table.mem_update]
  refine ⟨r, hr, ?_⟩
  rw [hclosed, Bool.and_false]
  rfl

theorem settleDelivery_settled {token settlement : Json} {a : Settled}
    (h : s.settleDelivery sha256 now token settlement = .ok (a, t)) (ha : a.settled = true) :
    ∃ selection ref, identity "selection_token" (some token) = .ok selection ∧
      identity "settlement_ref" (some settlement) = .ok ref ∧
      a.receipt = some (deliveryReceipt sha256 selection ref) ∧
      ∃ r ∈ t.rows, r.selectionToken = some selection ∧ r.status = .settled ∧
        r.settlementRef = some ref := by
  rw [Store.settleDelivery] at h
  obtain ⟨selection, hselection, h⟩ := bind_eq_ok.mp h
  obtain ⟨ref, href, h⟩ := bind_eq_ok.mp h
  refine ⟨selection, ref, hselection, href, ?_⟩
  split at h
  · cases h
    cases ha
  · next row hrow =>
      obtain ⟨hmem, htoken⟩ := selection?_eq_some hrow
      split_ifs at h with hsettled href' hready
      · cases h
      · cases h
        exact ⟨rfl, row, hmem, htoken, hsettled, not_not.mp href'⟩
      · cases h
        cases ha
      · obtain ⟨t', hwrite, h⟩ := bind_eq_ok.mp h
        cases h
        refine ⟨rfl, row.settle ref now, ?_, htoken, rfl, rfl⟩
        rw [write_eq_ok hwrite, Table.mem_update]
        refine ⟨row, hmem, ?_⟩
        rw [htoken, not_not.mp hready]
        simp

theorem settleDelivery_again (now : String) {token settlement : Json} {selection ref : String}
    (hselection : identity "selection_token" (some token) = .ok selection)
    (href : identity "settlement_ref" (some settlement) = .ok ref) (hr : r ∈ s.rows)
    (htoken : r.selectionToken = some selection) (hstatus : r.status = .settled)
    (hsettlement : r.settlementRef = some ref) :
    s.settleDelivery sha256 now token settlement
      = .ok (⟨true, none, some true, some (deliveryReceipt sha256 selection ref)⟩, s) := by
  have hfind : s.selection? selection = some r := by
    cases hsel : s.selection? selection with
    | none =>
        have hnone := List.find?_eq_none.mp hsel r hr
        simp [htoken] at hnone
    | some row => rw [eq_of_token hsel hr htoken]
  rw [Store.settleDelivery, hselection, href]
  simp only [bind, Except.bind]
  rw [hfind]
  simp [hstatus, hsettlement]

/-! ### Tokens -/

/-- The store together with the tokens its rows ever had. -/
structure Named where
  store : Store
  names : List (String × (String × String))

/-- The tokens of the rows. -/
def Store.names (s : Store) : List (String × (String × String)) :=
  s.rows.filterMap fun r => r.selectionToken.map fun token => (token, r.key)

theorem mem_names {token : String} {key : String × String} :
    (token, key) ∈ s.names ↔ ∃ r ∈ s.rows, r.selectionToken = some token ∧ r.key = key := by
  simp [Store.names]

/-- The store as a transition system that remembers the tokens. -/
def namedDrift (sha256 : String → String) : Transition.System Named Call where
  init n := n = ⟨.empty, []⟩
  step n call n' := n' = ⟨call.after sha256 n.store, n.names ++ (call.after sha256 n.store).names⟩

/-- `secrets` draws no token that was drawn before. -/
def Fresh (n : Named) (call : Call) : Prop :=
  ∀ token, call.drawn = some token → ∀ key, (token, key) ∉ n.names

theorem Changed.token {drawn : Option String} (h : Changed drawn s t) (hr' : r' ∈ t.rows)
    {token : String} (htoken : r'.selectionToken = some token) :
    (token, r'.key) ∈ s.names ∨ drawn = some token := by
  rcases h.origin hr' with ⟨r, hr, rfl | hstep⟩ | hnew
  · exact .inl (mem_names.mpr ⟨_, hr, htoken, rfl⟩)
  · rw [hstep.key]
    cases hstep with
    | claim token' turn now hs hdrawn =>
        obtain rfl : token' = token := Option.some.inj htoken
        exact .inr hdrawn
    | release status dueAt now hs hstatus => cases htoken
    | withdraw now hs => exact .inl (mem_names.mpr ⟨r, hr, htoken, rfl⟩)
    | ready now hs => exact .inl (mem_names.mpr ⟨r, hr, htoken, rfl⟩)
    | fail now hs => exact .inl (mem_names.mpr ⟨r, hr, htoken, rfl⟩)
    | settle settlement now hs => exact .inl (mem_names.mpr ⟨r, hr, htoken, rfl⟩)
  · rw [hnew.2.2.1] at htoken
    cases htoken

/-- **A token never names two proposals.** -/
theorem names_of_reachable {n : Named} (h : (namedDrift sha256).ReachableVia Fresh n) :
    (∀ e ∈ n.store.names, e ∈ n.names) ∧
      ∀ token key key', (token, key) ∈ n.names → (token, key') ∈ n.names → key = key' := by
  refine Transition.System.ReachableVia.invariant
    (I := fun n => (∀ e ∈ n.store.names, e ∈ n.names) ∧
      ∀ token key key', (token, key) ∈ n.names → (token, key') ∈ n.names → key = key') ?_ ?_ h
  · rintro n rfl
    exact ⟨(fun e he => by cases he), fun _ _ _ he => by cases he⟩
  · rintro n call n' ⟨hnames, hone⟩ hfresh rfl
    have hchanged := run_cases sha256 n.store call
    refine ⟨fun e he => List.mem_append_right _ he, fun token key key' he he' => ?_⟩
    -- a token of the table is an old one of the same row, or is new to the history
    have hsplit : ∀ key, (token, key) ∈ (call.after sha256 n.store).names →
        (token, key) ∈ n.names ∨ ∀ key', (token, key') ∉ n.names := by
      intro key hkey
      obtain ⟨r', hr', htoken, rfl⟩ := mem_names.mp hkey
      exact (hchanged.token hr' htoken).imp (hnames _) fun hdrawn => hfresh token hdrawn
    have hrows : ∀ key key', (token, key) ∈ (call.after sha256 n.store).names →
        (token, key') ∈ (call.after sha256 n.store).names → key = key' := by
      intro key key' hkey hkey'
      obtain ⟨r, hr, htoken, rfl⟩ := mem_names.mp hkey
      obtain ⟨r', hr', htoken', rfl⟩ := mem_names.mp hkey'
      rw [(call.after sha256 n.store).constraints.token.eq_of_key hr hr' htoken htoken']
    rcases List.mem_append.mp he with he | he <;> rcases List.mem_append.mp he' with he' | he'
    · exact hone token key key' he he'
    · rcases hsplit key' he' with hold | hnone
      · exact hone token key key' he hold
      · exact absurd he (hnone key)
    · rcases hsplit key he with hold | hnone
      · exact hone token key key' hold he'
      · exact absurd he' (hnone key')
    · exact hrows key key' he he'

/-! ### Runs -/

/-- What holds in every reachable store. -/
structure Store.Sound (s : Store) : Prop where
  claimed : ∀ r ∈ s.rows, r.status.isClaimed = true →
    r.selectionToken.isSome ∧ r.selectedSessionId.isSome ∧ r.selectedTurnId.isSome
  unclaimed : ∀ r ∈ s.rows, r.status.isOpen = true →
    r.selectionToken = none ∧ r.selectedSessionId = none ∧ r.selectedTurnId = none
  settled : ∀ r ∈ s.rows, r.status = .settled → r.settlementRef.isSome
  turns : ∀ r ∈ s.rows, ∀ r' ∈ s.rows, ∀ turn, r.turn = some turn → r'.turn = some turn → r = r'
  tokens : ∀ r ∈ s.rows, ∀ r' ∈ s.rows, ∀ token, r.selectionToken = some token →
    r'.selectionToken = some token → r = r'

/-- What holds of every call from a reachable store. -/
structure Call.Sound (sha256 : String → String) (s : Store) (call : Call) : Prop where
  kept : ∀ r ∈ s.rows, ∃ r' ∈ (call.after sha256 s).rows, r'.key = r.key
  entered : ∀ r' ∈ (call.after sha256 s).rows, (∀ r ∈ s.rows, r.key ≠ r'.key) →
    r'.status = .pending
  version : ∀ r ∈ s.rows, ∀ r' ∈ (call.after sha256 s).rows, r'.key = r.key →
    r' = r ∨ r.stateVersion < r'.stateVersion
  failed : ∀ r ∈ s.rows, ∀ r' ∈ (call.after sha256 s).rows, r'.key = r.key →
    r'.status = .failed → r.status = .failed ∨ r.status = .selected ∨ r.status = .readyForDelivery
  settled : ∀ r ∈ s.rows, ∀ r' ∈ (call.after sha256 s).rows, r'.key = r.key →
    r'.status = .settled → r.status = .settled ∨ r.status = .readyForDelivery
  select : ∀ now hex ref turn instant a t, call = .select now hex ref turn instant →
    call.exec sha256 s = .ok (.selected a, t) → a.selected = true →
      ∃ r ∈ s.rows, ref.get? "proposal_id" = some (.str r.proposalId) ∧
        ref.get? "revision" = some (.str r.revision) ∧
        ref.get? "state_version" = some (.int r.stateVersion) ∧ r.status.isOpen = true
  withdraw : ∀ now proposalId revision, call = .withdraw now proposalId revision →
    ∀ r ∈ s.rows, r.status.isClaimed = true → r ∈ (call.after sha256 s).rows

theorem sound_of_ok (h : ∀ r ∈ s.rows, r.Ok) : s.Sound where
  claimed r hr hclaimed := by
    have hok := h r hr
    rw [Proposal.Ok] at hok
    split at hok <;> simp_all [Status.isClaimed]
  unclaimed r hr hopen := by
    have hok := h r hr
    rw [Proposal.Ok] at hok
    split at hok <;> simp_all [Status.isOpen]
  settled r hr hsettled := by
    have hok := h r hr
    rw [Proposal.Ok, hsettled] at hok
    exact hok.2.2.2
  turns _ hr _ hr' _ := s.constraints.turn.eq_of_key hr hr'
  tokens _ hr _ hr' _ := s.constraints.token.eq_of_key hr hr'

theorem call_sound (sha256 : String → String) (s : Store) (call : Call) :
    call.Sound sha256 s where
  kept r hr := by
    obtain ⟨r', hr', rfl | hstep⟩ := (run_cases sha256 s call).successor hr
    · exact ⟨_, hr', rfl⟩
    · exact ⟨r', hr', hstep.key⟩
  entered r' hr' hnone := by
    rcases (run_cases sha256 s call).origin hr' with ⟨r, hr, rfl | hstep⟩ | hnew
    · exact absurd rfl (hnone _ hr)
    · exact absurd hstep.key.symm (hnone r hr)
    · exact hnew.1
  version r hr r' hr' hkey := by
    refine ((run_cases sha256 s call).row hr hr' hkey).imp_right fun hstep => ?_
    rw [hstep.stateVersion]
    exact Nat.lt_succ_self _
  failed r hr r' hr' hkey hfailed := by
    rcases (run_cases sha256 s call).row hr hr' hkey with rfl | hstep
    · exact .inl hfailed
    · refine .inr ?_
      cases hstep with
      | fail now hs => cases hstatus : r.status <;> simp_all [Status.isClaimed]
      | release status dueAt now hs hstatus => exact .inl hs
      | withdraw now hs => cases hfailed
      | claim token turn now hs hdrawn => cases hfailed
      | ready now hs => cases hfailed
      | settle settlement now hs => cases hfailed
  settled r hr r' hr' hkey hsettled := by
    rcases (run_cases sha256 s call).row hr hr' hkey with rfl | hstep
    · exact .inl hsettled
    · refine .inr ?_
      cases hstep with
      | settle settlement now hs => exact hs
      | release status dueAt now hs hstatus =>
          obtain rfl : status = .settled := hsettled
          rcases hstatus with hs' | hs' | hs' <;> cases hs'
      | withdraw now hs => cases hsettled
      | claim token turn now hs hdrawn => cases hsettled
      | ready now hs => cases hsettled
      | fail now hs => cases hsettled
  select now hex ref turn instant a t hcall hexec hselected := by
    rw [hcall] at hexec
    obtain ⟨⟨b, t'⟩, hcall', heq⟩ := map_eq_ok.mp hexec
    cases heq
    exact select_current hcall' hselected
  withdraw now proposalId revision hcall r hr hclaimed := by
    have hclosed : r.status.isOpen = false := by
      cases hstatus : r.status <;> simp_all [Status.isClaimed, Status.isOpen]
    rw [hcall, Call.after]
    split
    · next a t hexec =>
        obtain ⟨⟨b, t'⟩, hcall', heq⟩ := map_eq_ok.mp hexec
        cases heq
        exact withdraw_keeps hcall' hr hclosed
    · exact hr

/-- **The lifecycle of a Drift proposal.** Over every sequence of calls: claims are complete
while a turn is at work and cleared before; a turn and a token are on one row; versions grow
with every change; an ended proposal keeps its status, its claim and its settlement; a
settlement that is repeated, at any later time, returns its receipt and changes nothing; and
as long as no token is drawn twice, no token ever names two proposals. -/
theorem driftStore_runs (sha256 : String → String) :
    (∀ s, (drift sha256).Reachable s → s.Sound ∧ ∀ call : Call, call.Sound sha256 s) ∧
    (∀ s t, (drift sha256).Reachable s → (drift sha256).Run s t → s.Later t) ∧
    (∀ s t u now now' token settlement a, (drift sha256).Reachable s →
      s.settleDelivery sha256 now token settlement = .ok (a, t) → a.settled = true →
      (drift sha256).Run t u →
        u.settleDelivery sha256 now' token settlement
          = .ok (⟨true, none, some true, a.receipt⟩, u)) ∧
    (∀ n, (namedDrift sha256).ReachableVia Fresh n →
      (∀ r ∈ n.store.rows, ∀ token, r.selectionToken = some token → (token, r.key) ∈ n.names) ∧
      ∀ token key key', (token, key) ∈ n.names → (token, key') ∈ n.names → key = key') := by
  refine ⟨fun s h => ⟨sound_of_ok (ok_of_reachable h), fun call => call_sound sha256 s call⟩,
    fun s t _ hrun => later_of_run hrun, ?_, fun n h => ?_⟩
  · intro s t u now now' token settlement a _ hcall ha hrun
    obtain ⟨selection, ref, hselection, href, hreceipt, r, hr, htoken, hstatus, hsettlement⟩ :=
      settleDelivery_settled hcall ha
    obtain ⟨r', hr', hlater⟩ := later_of_run hrun r hr
    obtain ⟨hs', htoken', -, hsettlement'⟩ := hlater.final (by rw [hstatus]; rfl)
    rw [hreceipt]
    exact settleDelivery_again now' hselection href hr' (htoken'.trans htoken)
      (hs'.trans hstatus) (hsettlement'.trans hsettlement)
  · obtain ⟨hnames, hone⟩ := names_of_reachable h
    refine ⟨fun r hr token htoken => hnames _ (mem_names.mpr ⟨r, hr, htoken, rfl⟩), hone⟩

/-- Calls one after the other. -/
def runCalls (sha256 : String → String) (s : Store) (calls : List Call) : Store :=
  calls.foldl (fun s call => call.after sha256 s) s

theorem run_runCalls (sha256 : String → String) (s : Store) (calls : List Call) :
    (drift sha256).Run s (runCalls sha256 s calls) := by
  induction calls generalizing s with
  | nil => exact .refl s
  | cons call calls ih =>
      exact (Transition.System.RunVia.tail (.refl s) trivial rfl).trans (ih (call.after sha256 s))

/-- A proposal that is entered, claimed and marked ready. -/
def readyCalls : List Call :=
  let due : Datetime := ⟨0, some 0⟩
  let ref : Json := .obj [("proposal_id", .str "p"), ("revision", .str "r"),
    ("state_version", .int 1)]
  let turn : Json := .obj [("session_id", .str "s"), ("turn_id", .str "t")]
  [.propose "0" (.str "p") (.str "r") (.obj []) due none, .select "1" "f" ref turn due,
    .transition "2" (.str "drift-selection:f") "ready_for_delivery"]

/-- Settling the proposal of `readyCalls` twice: the second time returns the receipt of the
first. -/
theorem driftStore_readyCalls :
    let s := runCalls id .empty readyCalls
    let settle := Store.settleDelivery id "3" (.str "drift-selection:f") (.str "ref")
    s.Sound ∧ ∃ a t, settle s = .ok (a, t) ∧ a.settled = true ∧ a.duplicate = some false ∧
      settle t = .ok (⟨true, none, some true, a.receipt⟩, t) := by
  intro s settle
  have hreach : (drift id).Reachable s := ⟨_, rfl, run_runCalls id .empty readyCalls⟩
  obtain ⟨hsound, -, hagain, -⟩ := driftStore_runs id
  refine ⟨(hsound s hreach).1, ?_⟩
  have hfirst : (settle s).toOption.map (fun r => (r.1.settled, r.1.duplicate))
      = some (true, some false) := by decide +kernel
  match hsettle : settle s with
  | .error e =>
      rw [hsettle] at hfirst
      cases hfirst
  | .ok (a, t) =>
      rw [hsettle] at hfirst
      obtain ⟨ha, hduplicate⟩ := Prod.mk.inj (Option.some.inj hfirst)
      exact ⟨a, t, rfl, ha, hduplicate,
        hagain s t t "3" "3" _ _ a hreach hsettle ha (.refl t)⟩

end Kirakira.Drift
