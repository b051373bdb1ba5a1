import Mathlib.Data.List.Pairwise
import Kirakira.Contract
import Kirakira.Lib.Exceptions
import Kirakira.Lib.Transition
import Kirakira.Text

/-!
# The Durable Delivery Store

`DurableDeliveryStore` of `plugins/ledger/durable_delivery_store.py`: one table of
deliveries, one immediate transaction for each operation. The two JSON columns are kept
as the trees their texts are the sorted compact text of; a text and its tree determine
each other, so comparing columns and reading them back is done on trees. The schema
checks, which concern the file and not its rows, are left out.

## Main results

* `Advance` — what a committed transaction can do to the table.
* `Op.advance` — every operation advances the table, and one that raises leaves it alone.
* `Distinct.advance` — what identifies a row stays unique.
* `durableDelivery_runs` — the state machine, over runs with crashes.
-/

namespace Kirakira.DurableDelivery

open Exceptions Transition

/-! ### Arguments -/

/-- A string-key mapping. -/
inductive Mapping where
  /-- One that `json.dumps` prints. -/
  | fields (entries : List (String × Json))
  /-- One that holds a value of a class that `json.dumps` refuses. -/
  | refused (cls : String)
  deriving DecidableEq

/-- A Python object, as far as the store tells objects apart. -/
inductive PyObject where
  | str (text : String)
  | mapping (mapping : Mapping)
  | other
  deriving DecidableEq

/-- `json.dumps(dict(mapping), sort_keys=True, separators=(",", ":"))`. -/
def Mapping.dumps : Mapping → Except PyError Json
  | .fields entries => .ok (Json.obj entries).sortKeys
  | .refused cls => typeError s!"Object of type {cls} is not JSON serializable"

/-- `_identity`. -/
def identity (field : String) : Option PyObject → Except PyError String
  | some (.str value) =>
      if value = "" ∨ strip value ≠ value then
        valueError s!"{field} must be non-empty without surrounding whitespace"
      else .ok value
  | _ => valueError s!"{field} must be non-empty without surrounding whitespace"

/-! ### Rows -/

/-- The states of a delivery. -/
inductive DeliveryState where
  | prepared
  | providerStarted
  | delivered
  | projected
  | settled
  | rejected
  | failed
  deriving DecidableEq, Repr

/-- The text of a state. -/
def DeliveryState.text : DeliveryState → String
  | .prepared => "prepared"
  | .providerStarted => "provider_started"
  | .delivered => "delivered"
  | .projected => "projected"
  | .settled => "settled"
  | .rejected => "rejected"
  | .failed => "failed"

/-- The envelope of a delivery. -/
structure Envelope where
  logicalDeliveryId : String
  acceptedSessionId : String
  acceptedTurnId : String
  targetService : String
  channel : String
  recipient : String
  projectionSessionId : String
  body : String
  metadataJson : Json
  deriving DecidableEq

/-- A row of `deliveries`. -/
structure Row where
  envelope : Envelope
  state : DeliveryState
  attemptId : Option String
  snapshotId : Option String
  generationId : Option String
  bindingToken : Option String
  providerReceiptJson : Option Json
  projectionMessageId : Option String
  domainReceipt : Option String
  createdAt : String
  updatedAt : String
  deriving DecidableEq

/-- The logical delivery id of a row. -/
abbrev Row.id (row : Row) : String := row.envelope.logicalDeliveryId

/-- The accepted session and turn of a row. -/
def Envelope.accepted (envelope : Envelope) : String × String :=
  (envelope.acceptedSessionId, envelope.acceptedTurnId)

/-- `_normalize_envelope`. -/
def normalizeEnvelope (envelope : List (String × PyObject)) : Except PyError Envelope :=
  match envelope.lookup "metadata" with
  | some (.mapping metadata) => do
      let field := fun name => identity name (envelope.lookup name)
      let logicalDeliveryId ← field "logical_delivery_id"
      let acceptedSessionId ← field "accepted_session_id"
      let acceptedTurnId ← field "accepted_turn_id"
      let targetService ← field "target_service"
      let channel ← field "channel"
      let recipient ← field "recipient"
      let projectionSessionId ← field "projection_session_id"
      match envelope.lookup "body" with
      | some (.str body) =>
          if body = "" then valueError "body must be a non-empty string"
          else do
            let metadataJson ← metadata.dumps
            return ⟨logicalDeliveryId, acceptedSessionId, acceptedTurnId, targetService, channel,
              recipient, projectionSessionId, body, metadataJson⟩
      | _ => valueError "body must be a non-empty string"
  | _ => valueError "delivery metadata must be a string-key mapping"

/-- The columns of an envelope, in the order they are compared in. -/
def Envelope.columns (envelope : Envelope) : List (String × Json) :=
  [("logical_delivery_id", .str envelope.logicalDeliveryId),
   ("accepted_session_id", .str envelope.acceptedSessionId),
   ("accepted_turn_id", .str envelope.acceptedTurnId),
   ("target_service", .str envelope.targetService),
   ("channel", .str envelope.channel),
   ("recipient", .str envelope.recipient),
   ("projection_session_id", .str envelope.projectionSessionId),
   ("body", .str envelope.body),
   ("metadata_json", envelope.metadataJson)]

/-- `_assert_same_envelope`: the first column that differs is named. -/
def assertSameEnvelope (row : Row) (envelope : Envelope) : Except PyError Unit :=
  match (row.envelope.columns.zip envelope.columns).find? fun c => c.1 ≠ c.2 with
  | some c => .error ⟨.runtimeError, s!"durable delivery immutable envelope conflict: {c.1.1}"⟩
  | none => .ok ()

/-- A column that may be null. -/
def nullable : Option String → Json
  | none => .null
  | some text => .str text

/-- `_view`. -/
def Row.view (row : Row) : Json :=
  .obj (row.envelope.columns.take 8 ++
    [("state", .str row.state.text),
     ("attempt_id", nullable row.attemptId),
     ("snapshot_id", nullable row.snapshotId),
     ("generation_id", nullable row.generationId),
     ("binding_token", nullable row.bindingToken),
     ("projection_message_id", nullable row.projectionMessageId),
     ("domain_receipt", nullable row.domainReceipt),
     ("created_at", .str row.createdAt),
     ("updated_at", .str row.updatedAt),
     ("metadata", row.envelope.metadataJson),
     ("provider_receipt", row.providerReceiptJson.getD .null)])

/-! ### Statements -/

/-- The table. -/
abbrev Table := List Row

/-- What runs inside a transaction. -/
abbrev Body := Table → Except PyError (Json × Table)

/-- `UPDATE deliveries SET … WHERE …`, with the number of rows it changed. -/
def update (found : Row → Bool) (set : Row → Row) (table : Table) : ℕ × Table :=
  (table.countP found, table.map fun row => if found row then set row else row)

/-- `INSERT INTO deliveries`. -/
def insert (row : Row) (table : Table) : Except PyError Table :=
  if table.any fun other => other.id = row.id then
    .error ⟨.integrityError, "UNIQUE constraint failed: deliveries.logical_delivery_id"⟩
  else if table.any fun other => other.envelope.accepted = row.envelope.accepted then
    .error ⟨.integrityError,
      "UNIQUE constraint failed: deliveries.accepted_session_id, deliveries.accepted_turn_id"⟩
  else .ok (table ++ [row])

/-- `_required`. -/
def required (table : Table) (logicalId : String) : Except PyError Row :=
  match table.find? fun row => row.id = logicalId with
  | none => .error ⟨.runtimeError, s!"durable delivery missing: {logicalId}"⟩
  | some row => .ok row

/-- `_lookup_identity`. -/
def lookupIdentity (table : Table) (envelope : Envelope) : Except PyError (Option Row) :=
  match table.filter fun row =>
      row.id = envelope.logicalDeliveryId || row.envelope.accepted = envelope.accepted with
  | [] => .ok none
  | [row] => .ok (some row)
  | _ => .error ⟨.runtimeError, "logical delivery 与 accepted Turn identity 分裂"⟩

/-- An update that must change exactly one row, and the row it changed. -/
def transition (logicalId : String) (invalid : String) (found : Row → Bool)
    (set : Row → Row) : Body := fun table =>
  let (rowcount, table) := update found set table
  if rowcount ≠ 1 then .error ⟨.runtimeError, invalid⟩
  else do
    let row ← required table logicalId
    return (row.view, table)

/-- `_transaction(write=True)`: an exception rolls back. -/
def transact (readOnly : Bool) (body : Body) (table : Table) : Except PyError Json × Table :=
  if readOnly then
    (.error ⟨.permissionError, "durable delivery candidate store is read-only"⟩, table)
  else match body table with
    | .ok (result, table) => (.ok result, table)
    | .error e => (.error e, table)

/-! ### Operations -/

/-- A row at its creation. -/
def Row.new (envelope : Envelope) (now : String) : Row where
  envelope := envelope
  state := .prepared
  attemptId := none
  snapshotId := none
  generationId := none
  bindingToken := none
  providerReceiptJson := none
  projectionMessageId := none
  domainReceipt := none
  createdAt := now
  updatedAt := now

/-- `prepare`. -/
def prepare (envelope : List (String × PyObject)) (now : String) : Except PyError Body := do
  let normalized ← normalizeEnvelope envelope
  return fun table => do
    match ← lookupIdentity table normalized with
    | some existing =>
        assertSameEnvelope existing normalized
        return (existing.view, table)
    | none =>
        let table ← insert (.new normalized now) table
        let row ← required table normalized.logicalDeliveryId
        return (row.view, table)

/-- `mark_provider_started`. -/
def markProviderStarted
    (logicalDeliveryId attemptId snapshotId generationId bindingToken : PyObject) (now : String) :
    Except PyError Body := do
  let logicalId ← identity "logical_delivery_id" (some logicalDeliveryId)
  let attemptId ← identity "attempt_id" (some attemptId)
  let snapshotId ← identity "snapshot_id" (some snapshotId)
  let generationId ← identity "generation_id" (some generationId)
  let bindingToken ← identity "binding_token" (some bindingToken)
  return transition logicalId s!"delivery provider_started transition invalid: {logicalId}"
    (fun row => row.id = logicalId && row.state = .prepared)
    (fun row => { row with
      state := .providerStarted
      attemptId := some attemptId
      snapshotId := some snapshotId
      generationId := some generationId
      bindingToken := some bindingToken
      updatedAt := now })

/-- `cancel_prepared`. -/
def cancelPrepared (logicalDeliveryId : PyObject) (reason now : String) : Except PyError Body := do
  let logicalId ← identity "logical_delivery_id" (some logicalDeliveryId)
  if reason = "" ∨ strip reason ≠ reason then
    valueError "delivery cancel reason 必须非空且无首尾空白"
  else
    let receipt := Json.obj
      [("error", .str reason), ("provider_started", .bool false), ("status", .str "rejected")]
    return transition logicalId s!"delivery prepared cancel transition invalid: {logicalId}"
      (fun row => row.id = logicalId && row.state = .prepared)
      (fun row => { row with
        state := .rejected
        providerReceiptJson := some receipt
        updatedAt := now })

/-- The outcome that a provider may report under that text. -/
def resultState : String → Option DeliveryState
  | "delivered" => some .delivered
  | "rejected" => some .rejected
  | "failed" => some .failed
  | _ => none

/-- `mark_provider_result`. -/
def markProviderResult (logicalDeliveryId : PyObject) (state : String) (receipt : Mapping)
    (now : String) : Except PyError Body :=
  match resultState state with
  | none => valueError s!"provider result state invalid: {state}"
  | some state => do
      let logicalId ← identity "logical_delivery_id" (some logicalDeliveryId)
      let receipt ← receipt.dumps
      return transition logicalId s!"delivery provider result transition invalid: {logicalId}"
        (fun row => row.id = logicalId && row.state = .providerStarted)
        (fun row => { row with
          state := state
          providerReceiptJson := some receipt
          updatedAt := now })

/-- `mark_projected`. -/
def markProjected (logicalDeliveryId messageId : PyObject) (now : String) :
    Except PyError Body := do
  let logicalId ← identity "logical_delivery_id" (some logicalDeliveryId)
  let projected ← identity "message_id" (some messageId)
  return transition logicalId s!"delivery projected transition invalid: {logicalId}"
    (fun row => row.id = logicalId && row.state = .delivered)
    (fun row => { row with
      state := .projected
      projectionMessageId := some projected
      updatedAt := now })

/-- `confirm_settled`. -/
def confirmSettled (settlementRef domainReceipt : PyObject) (now : String) :
    Except PyError Body := do
  let logicalId ← identity "settlement_ref" (some settlementRef)
  let opaqueReceipt ← identity "domain_receipt" (some domainReceipt)
  return fun table => do
    let row ← required table logicalId
    if row.state = .settled then
      if row.domainReceipt ≠ some opaqueReceipt then
        .error ⟨.runtimeError, s!"delivery settlement receipt conflict: {logicalId}"⟩
      else return (row.view, table)
    else
      transition logicalId s!"delivery settled transition invalid: {logicalId}"
        (fun row => row.id = logicalId && row.state = .projected)
        (fun row => { row with
          state := .settled
          domainReceipt := some opaqueReceipt
          updatedAt := now }) table

/-- The receipt of an interrupted call. -/
def interruptedReceipt : Json := .obj
  [("error", .str "provider call interrupted; delivery may have occurred"),
   ("status", .str "failed")]

/-- `recover_interrupted_provider_calls`. -/
def recoverInterruptedProviderCalls (now : String) : Body := fun table =>
  let (rowcount, table) := update
    (fun row => row.state = .providerStarted && row.envelope.channel ≠ "akashic")
    (fun row => { row with
      state := .failed
      providerReceiptJson := some interruptedReceipt
      updatedAt := now }) table
  .ok (.int rowcount, table)

/-- `mark_akashic_session_recovered`. -/
def markAkashicSessionRecovered (logicalDeliveryId messageId : PyObject) (now : String) :
    Except PyError Body := do
  let logicalId ← identity "logical_delivery_id" (some logicalDeliveryId)
  let projected ← identity "message_id" (some messageId)
  let receipt := Json.obj
    [("delivery_id", .str logicalId), ("recovered_from", .str "session"),
     ("status", .str "delivered")]
  return transition logicalId s!"Kirakira delivery recovery transition invalid: {logicalId}"
    (fun row => row.id = logicalId && row.state = .providerStarted &&
      row.envelope.channel = "akashic")
    (fun row => { row with
      state := .projected
      providerReceiptJson := some receipt
      projectionMessageId := some projected
      updatedAt := now })

/-- A call of an operation; `now` is what `_utc_now()` returns in it. -/
inductive Op where
  | prepare (envelope : List (String × PyObject))
  | markProviderStarted
      (logicalDeliveryId attemptId snapshotId generationId bindingToken : PyObject)
  | cancelPrepared (logicalDeliveryId : PyObject) (reason : String)
  | markProviderResult (logicalDeliveryId : PyObject) (state : String) (receipt : Mapping)
  | markProjected (logicalDeliveryId messageId : PyObject)
  | confirmSettled (settlementRef domainReceipt : PyObject)
  | recoverInterruptedProviderCalls
  | markAkashicSessionRecovered (logicalDeliveryId messageId : PyObject)

/-- The transaction a call runs, once its arguments are accepted. -/
def Op.body (now : String) : Op → Except PyError Body
  | .prepare envelope => DurableDelivery.prepare envelope now
  | .markProviderStarted logicalDeliveryId attemptId snapshotId generationId bindingToken =>
      DurableDelivery.markProviderStarted logicalDeliveryId attemptId snapshotId generationId
        bindingToken now
  | .cancelPrepared logicalDeliveryId reason =>
      DurableDelivery.cancelPrepared logicalDeliveryId reason now
  | .markProviderResult logicalDeliveryId state receipt =>
      DurableDelivery.markProviderResult logicalDeliveryId state receipt now
  | .markProjected logicalDeliveryId messageId =>
      DurableDelivery.markProjected logicalDeliveryId messageId now
  | .confirmSettled settlementRef domainReceipt =>
      DurableDelivery.confirmSettled settlementRef domainReceipt now
  | .recoverInterruptedProviderCalls => .ok (DurableDelivery.recoverInterruptedProviderCalls now)
  | .markAkashicSessionRecovered logicalDeliveryId messageId =>
      DurableDelivery.markAkashicSessionRecovered logicalDeliveryId messageId now

/-- A call of a store opened for writing or read-only. -/
def Op.call (readOnly : Bool) (now : String) (op : Op) (table : Table) :
    Except PyError Json × Table :=
  match op.body now with
  | .ok body => transact readOnly body table
  | .error e => (.error e, table)

/-! ### The system -/

/-- What happens to the table. -/
inductive Event where
  /-- A call returns or raises. -/
  | call (readOnly : Bool) (now : String) (op : Op)
  /-- The process dies in a call, before its commit or after it. -/
  | crash (readOnly : Bool) (now : String) (op : Op) (committed : Bool)

/-- The table after an event. -/
def Event.apply (table : Table) : Event → Table
  | .call readOnly now op => (op.call readOnly now table).2
  | .crash readOnly now op committed => if committed then (op.call readOnly now table).2 else table

/-- Calls and crashes, from an empty table. -/
def durableDelivery : System Table Event where
  init table := table = []
  step table event table' := table' = event.apply table

/-! ### What a transaction can do -/

/-- The transitions of the state machine, on one channel. -/
inductive Edge (channel : String) : DeliveryState → DeliveryState → Prop
  | start : Edge channel .prepared .providerStarted
  | cancel : Edge channel .prepared .rejected
  | deliver : Edge channel .providerStarted .delivered
  | reject : Edge channel .providerStarted .rejected
  | fail : Edge channel .providerStarted .failed
  | recover (h : channel = "akashic") : Edge channel .providerStarted .projected
  | project : Edge channel .delivered .projected
  | settle : Edge channel .projected .settled

/-- A row is left alone or takes one transition; its envelope stays. -/
def Moved (row row' : Row) : Prop :=
  row'.envelope = row.envelope ∧
    (row' = row ∨ Edge row.envelope.channel row.state row'.state)

/-- What identifies the one row is not what identifies the other. -/
def Apart (row other : Row) : Prop :=
  row.id ≠ other.id ∧ row.envelope.accepted ≠ other.envelope.accepted

/-- What a transaction does to the table: its rows move, or a prepared row is added that
stands apart from all of them. -/
inductive Advance (table : Table) : Table → Prop
  | moved (f : Row → Row) (h : ∀ row ∈ table, Moved row (f row)) : Advance table (table.map f)
  | inserted (row : Row) (hstate : row.state = .prepared)
      (hnew : ∀ other ∈ table, Apart other row) : Advance table (table ++ [row])

/-- What identifies a row identifies one row only. -/
def Distinct (table : Table) : Prop :=
  table.Pairwise Apart

/-- A transaction that commits advances the table. -/
def Safe (body : Body) : Prop :=
  ∀ table result table', body table = .ok (result, table') → Advance table table'

theorem Moved.refl (row : Row) : Moved row row :=
  ⟨rfl, .inl rfl⟩

theorem Advance.refl (table : Table) : Advance table table := by
  have h := @Advance.moved table id fun row _ => Moved.refl row
  rwa [List.map_id] at h

variable {row : Row} {table table' : Table} {logicalId now : String} {state : DeliveryState}

theorem Apart.moved {row' other other' : Row} (h : Apart row other) (hrow : Moved row row')
    (hother : Moved other other') : Apart row' other' := by
  rw [Apart, Row.id, Row.id, hrow.1, hother.1]
  exact h

/-- **Identities stay unique.** -/
theorem Distinct.advance (h : Distinct table) (hadvance : Advance table table') :
    Distinct table' := by
  cases hadvance with
  | moved f hf =>
      refine List.pairwise_map.mpr (List.Pairwise.imp_of_mem ?_ h)
      intro row other hrow hother hapart
      exact hapart.moved (hf row hrow) (hf other hother)
  | inserted row _ hnew =>
      refine List.pairwise_append.mpr ⟨h, List.pairwise_singleton _ _, ?_⟩
      intro other hother row' hrow'
      obtain rfl := List.mem_singleton.mp hrow'
      exact hnew other hother

theorem Advance.mem_left (h : Advance table table') (hrow : row ∈ table) :
    ∃ row' ∈ table', Moved row row' := by
  cases h with
  | moved f hf => exact ⟨f row, List.mem_map_of_mem hrow, hf row hrow⟩
  | inserted _ _ _ => exact ⟨row, List.mem_append_left _ hrow, Moved.refl row⟩

/-! ### Every operation advances the table -/

variable {found : Row → Bool} {set : Row → Row} {a b g s : PyObject}

theorem advance_update (hset : ∀ row, found row = true → Moved row (set row)) (table : Table) :
    Advance table (update found set table).2 := by
  refine .moved _ fun row _ => ?_
  by_cases hfound : found row = true
  · rw [if_pos hfound]
    exact hset row hfound
  · rw [if_neg hfound]
    exact Moved.refl row

theorem transition_eq_ok {invalid : String} {result : Json}
    (h : transition logicalId invalid found set table = .ok (result, table')) :
    table.countP found = 1 ∧ table' = (update found set table).2 := by
  rw [transition] at h
  split at h
  next rowcount updated hupdate =>
  obtain ⟨-, ⟨⟩⟩ | ⟨hcount, h⟩ := ite_eq_iff.mp h
  obtain ⟨row, -, h⟩ := bind_eq_ok.mp h
  obtain ⟨-, rfl⟩ := Prod.mk.inj (Except.ok.inj h)
  rw [hupdate]
  exact ⟨(congrArg Prod.fst hupdate).trans (not_not.mp hcount), rfl⟩

theorem safe_transition {invalid : String} (hset : ∀ row, found row = true → Moved row (set row)) :
    Safe (transition logicalId invalid found set) := by
  intro table result table' h
  obtain ⟨-, rfl⟩ := transition_eq_ok h
  exact advance_update hset table

theorem insert_eq_ok (h : insert row table = .ok table') :
    table' = table ++ [row] ∧ ∀ other ∈ table, Apart other row := by
  rw [insert] at h
  obtain ⟨-, ⟨⟩⟩ | ⟨hid, h⟩ := ite_eq_iff.mp h
  obtain ⟨-, ⟨⟩⟩ | ⟨haccepted, h⟩ := ite_eq_iff.mp h
  refine ⟨(Except.ok.inj h).symm, fun other hother => ⟨fun heq => ?_, fun heq => ?_⟩⟩
  · exact hid (List.any_eq_true.mpr ⟨other, hother, decide_eq_true heq⟩)
  · exact haccepted (List.any_eq_true.mpr ⟨other, hother, decide_eq_true heq⟩)

/-- `prepare` inserts a prepared row or returns the row there is. -/
theorem safe_prepare {envelope : List (String × PyObject)} {body : Body}
    (h : prepare envelope now = .ok body) : Safe body := by
  rw [prepare] at h
  obtain ⟨normalized, -, h⟩ := bind_eq_ok.mp h
  obtain rfl := Except.ok.inj h
  intro table result table' h
  obtain ⟨existing, -, h⟩ := bind_eq_ok.mp h
  cases existing with
  | some row =>
      obtain ⟨_, -, h⟩ := bind_eq_ok.mp h
      obtain ⟨-, rfl⟩ := Prod.mk.inj (Except.ok.inj h)
      exact Advance.refl table
  | none =>
      obtain ⟨table₁, hinsert, h⟩ := bind_eq_ok.mp h
      obtain ⟨row, -, h⟩ := bind_eq_ok.mp h
      obtain ⟨-, rfl⟩ := Prod.mk.inj (Except.ok.inj h)
      obtain ⟨rfl, hnew⟩ := insert_eq_ok hinsert
      exact .inserted _ rfl hnew

theorem state_of_found (h : (decide (row.id = logicalId) && decide (row.state = state)) = true) :
    row.state = state :=
  of_decide_eq_true (Bool.and_eq_true_iff.mp h).2

/-- `mark_provider_started` takes a prepared row to its provider. -/
theorem markProviderStarted_eq_ok {id : PyObject} {body : Body}
    (h : markProviderStarted id a s g b now = .ok body) :
    ∃ logicalId set invalid, id = .str logicalId ∧
      (∀ row : Row, (set row).envelope = row.envelope ∧ (set row).state = .providerStarted) ∧
      body = transition logicalId invalid
        (fun row => row.id = logicalId && row.state = .prepared) set := by
  rw [markProviderStarted] at h
  obtain ⟨logicalId, hid, h⟩ := bind_eq_ok.mp h
  obtain ⟨_, -, h⟩ := bind_eq_ok.mp h
  obtain ⟨_, -, h⟩ := bind_eq_ok.mp h
  obtain ⟨_, -, h⟩ := bind_eq_ok.mp h
  obtain ⟨_, -, h⟩ := bind_eq_ok.mp h
  obtain rfl := Except.ok.inj h
  refine ⟨logicalId, _, _, ?_, ?_, rfl⟩
  · cases id with
    | str text =>
        rw [identity] at hid
        split at hid
        · cases hid
        · rw [Except.ok.inj hid]
    | mapping _ => cases hid
    | other => cases hid
  · exact fun _ => ⟨rfl, rfl⟩

theorem moved_of_edge {row' : Row} (henvelope : row'.envelope = row.envelope)
    (hedge : Edge row.envelope.channel row.state row'.state) : Moved row row' :=
  ⟨henvelope, .inr hedge⟩

theorem edge_of_resultState {text channel : String} (h : resultState text = some state) :
    Edge channel .providerStarted state := by
  unfold resultState at h
  split at h
  · exact Option.some.inj h ▸ .deliver
  · exact Option.some.inj h ▸ .reject
  · exact Option.some.inj h ▸ .fail
  · cases h

/-- **Every transaction is safe.** -/
theorem Op.safe {op : Op} {body : Body} (h : op.body now = .ok body) : Safe body := by
  cases op with
  | prepare envelope => exact safe_prepare h
  | markProviderStarted id a s g b =>
      obtain ⟨logicalId, set, _, -, hset, rfl⟩ := markProviderStarted_eq_ok h
      refine safe_transition fun row hfound => moved_of_edge (hset row).1 ?_
      rw [state_of_found hfound, (hset row).2]
      exact .start
  | cancelPrepared id reason =>
      obtain ⟨logicalId, -, h⟩ := bind_eq_ok.mp h
      split at h
      · cases h
      · obtain rfl := Except.ok.inj h
        refine safe_transition fun row hfound => moved_of_edge rfl ?_
        rw [state_of_found hfound]
        exact .cancel
  | markProviderResult id state receipt =>
      rw [Op.body, DurableDelivery.markProviderResult] at h
      split at h
      · cases h
      · next outcome houtcome =>
          obtain ⟨logicalId, -, h⟩ := bind_eq_ok.mp h
          obtain ⟨_, -, h⟩ := bind_eq_ok.mp h
          obtain rfl := Except.ok.inj h
          refine safe_transition fun row hfound => moved_of_edge rfl ?_
          rw [state_of_found hfound]
          exact edge_of_resultState houtcome
  | markProjected id messageId =>
      obtain ⟨logicalId, -, h⟩ := bind_eq_ok.mp h
      obtain ⟨_, -, h⟩ := bind_eq_ok.mp h
      obtain rfl := Except.ok.inj h
      refine safe_transition fun row hfound => moved_of_edge rfl ?_
      rw [state_of_found hfound]
      exact .project
  | confirmSettled settlementRef domainReceipt =>
      obtain ⟨logicalId, -, h⟩ := bind_eq_ok.mp h
      obtain ⟨_, -, h⟩ := bind_eq_ok.mp h
      obtain rfl := Except.ok.inj h
      intro table result table' h
      obtain ⟨row, -, h⟩ := bind_eq_ok.mp h
      split at h
      · split at h
        · cases h
        · obtain ⟨-, rfl⟩ := Prod.mk.inj (Except.ok.inj h)
          exact Advance.refl table
      · refine safe_transition ?_ table result table' h
        intro row hfound
        refine moved_of_edge rfl ?_
        rw [state_of_found hfound]
        exact .settle
  | recoverInterruptedProviderCalls =>
      obtain rfl := Except.ok.inj h
      intro table result table' h
      obtain ⟨-, rfl⟩ := Prod.mk.inj (Except.ok.inj h)
      refine advance_update ?_ table
      intro row hfound
      refine moved_of_edge rfl ?_
      rw [of_decide_eq_true (Bool.and_eq_true_iff.mp hfound).1]
      exact .fail
  | markAkashicSessionRecovered id messageId =>
      obtain ⟨logicalId, -, h⟩ := bind_eq_ok.mp h
      obtain ⟨_, -, h⟩ := bind_eq_ok.mp h
      obtain rfl := Except.ok.inj h
      refine safe_transition fun row hfound => moved_of_edge rfl ?_
      obtain ⟨hstarted, hchannel⟩ := Bool.and_eq_true_iff.mp hfound
      rw [state_of_found hstarted]
      exact .recover (of_decide_eq_true hchannel)

theorem Op.call_cases (readOnly : Bool) (now : String) (op : Op) (table : Table) :
    (∃ body result table', op.body now = .ok body ∧ body table = .ok (result, table') ∧
      op.call readOnly now table = (.ok result, table')) ∨
    ∃ e, op.call readOnly now table = (.error e, table) := by
  rw [Op.call]
  cases hbody : op.body now with
  | error e => exact .inr ⟨e, rfl⟩
  | ok body =>
      cases readOnly with
      | true => exact .inr ⟨_, rfl⟩
      | false =>
          cases hrun : body table with
          | error e =>
              refine .inr ⟨e, ?_⟩
              simp only [transact, hrun]
              rfl
          | ok r =>
              refine .inl ⟨body, r.1, r.2, rfl, hrun, ?_⟩
              simp only [transact, hrun]
              rfl

/-- **Every call advances the table.** -/
theorem Op.advance (readOnly : Bool) (now : String) (op : Op) (table : Table) :
    Advance table (op.call readOnly now table).2 := by
  rcases op.call_cases readOnly now table with
    ⟨body, result, table', hbody, hrun, hcall⟩ | ⟨e, hcall⟩
  · rw [hcall]
    exact Op.safe hbody table result table' hrun
  · rw [hcall]
    exact Advance.refl table

theorem Event.advance (event : Event) (table : Table) : Advance table (event.apply table) := by
  cases event with
  | call readOnly now op => exact op.advance readOnly now table
  | crash readOnly now op committed =>
      cases committed with
      | true => exact op.advance readOnly now table
      | false => exact Advance.refl table

/-! ### Runs -/

/-- A path of the state machine. -/
abbrev Path (channel : String) : DeliveryState → DeliveryState → Prop :=
  Relation.ReflTransGen (Edge channel)

theorem Moved.path {row' : Row} (h : Moved row row') :
    Path row.envelope.channel row.state row'.state := by
  rcases h.2 with rfl | hedge
  · exact .refl
  · exact .single hedge

theorem Edge.ne_prepared {channel : String} {state' : DeliveryState}
    (h : Edge channel state state') : state' ≠ .prepared := by
  cases h <;> simp

/-- The rows of one table are followed to another. -/
def Followed (table table' : Table) : Prop :=
  ∀ row ∈ table, ∃ row' ∈ table', row'.envelope = row.envelope ∧
    Path row.envelope.channel row.state row'.state

/-- **Rows are followed along a run.** -/
theorem followed_of_run (h : durableDelivery.Run table table') : Followed table table' := by
  refine System.RunVia.relates (I := fun _ => True) (R := Followed) (fun table row hrow =>
    ⟨row, hrow, rfl, .refl⟩) ?_ (fun _ _ _ _ _ _ => trivial) ?_ h trivial
  · intro table₁ table₂ table₃ h₁ h₂ row hrow
    obtain ⟨row₂, hrow₂, henvelope, hpath⟩ := h₁ row hrow
    obtain ⟨row₃, hrow₃, henvelope', hpath'⟩ := h₂ row₂ hrow₂
    refine ⟨row₃, hrow₃, henvelope'.trans henvelope, hpath.trans ?_⟩
    rwa [henvelope] at hpath'
  · rintro table event table' - - rfl row hrow
    obtain ⟨row', hrow', hmoved⟩ := (event.advance table).mem_left hrow
    exact ⟨row', hrow', hmoved.1, hmoved.path⟩

theorem distinct_of_reachable (h : durableDelivery.Reachable table) : Distinct table := by
  refine System.ReachableVia.invariant ?_ ?_ h
  · rintro table rfl
    exact List.Pairwise.nil
  · rintro table event table' hdistinct - rfl
    exact hdistinct.advance (event.advance table)

/-! ### One start for each row -/

/-- The row of that id has left `prepared`. -/
def Begun (logicalId : String) (table : Table) : Prop :=
  ∃ row ∈ table, row.id = logicalId ∧ row.state ≠ .prepared

theorem Begun.advance (h : Begun logicalId table) (hadvance : Advance table table') :
    Begun logicalId table' := by
  obtain ⟨row, hrow, hid, hstate⟩ := h
  obtain ⟨row', hrow', henvelope, hmoved⟩ := hadvance.mem_left hrow
  refine ⟨row', hrow', ?_, ?_⟩
  · rw [Row.id, henvelope]
    exact hid
  · rcases hmoved with rfl | hedge
    · exact hstate
    · exact hedge.ne_prepared

theorem Distinct.eq_of_id (h : Distinct table) {other : Row} (hrow : row ∈ table)
    (hother : other ∈ table) (hid : row.id = other.id) : row = other := by
  by_contra hne
  have hsymm : Std.Symm Apart := ⟨fun _ _ hapart => ⟨hapart.1.symm, hapart.2.symm⟩⟩
  exact (List.Pairwise.forall h hrow hother hne).1 hid

theorem begun_of_start {id : PyObject} {readOnly : Bool} {result : Json}
    (h : (Op.markProviderStarted id a s g b).call readOnly now table = (.ok result, table')) :
    ∃ logicalId, id = .str logicalId ∧ Begun logicalId table' := by
  rcases Op.call_cases readOnly now (.markProviderStarted id a s g b) table with
    ⟨body, result₁, table₁, hbody, hrun, hcall⟩ | ⟨e, hcall⟩
  · obtain ⟨-, rfl⟩ := Prod.mk.inj (hcall.symm.trans h)
    obtain ⟨logicalId, set, invalid, rfl, hset, rfl⟩ := markProviderStarted_eq_ok hbody
    obtain ⟨hcount, rfl⟩ := transition_eq_ok hrun
    obtain ⟨row, hrow, hfound⟩ := List.countP_pos_iff.mp (hcount ▸ Nat.one_pos)
    refine ⟨logicalId, rfl, set row, ?_, ?_, ?_⟩
    · exact List.mem_map.mpr ⟨row, hrow, if_pos hfound⟩
    · rw [Row.id, (hset row).1]
      exact of_decide_eq_true (Bool.and_eq_true_iff.mp hfound).1
    · rw [(hset row).2]
      simp
  · cases (Prod.mk.inj (hcall.symm.trans h)).1

/-- **A begun row is not started again.** -/
theorem no_second_start {readOnly : Bool} (hdistinct : Distinct table)
    (hbegun : Begun logicalId table) :
    ∃ e, (Op.markProviderStarted (.str logicalId) a s g b).call readOnly now table =
      (.error e, table) := by
  rcases Op.call_cases readOnly now (.markProviderStarted (.str logicalId) a s g b) table with
    ⟨body, result, table', hbody, hrun, -⟩ | herror
  · exfalso
    obtain ⟨_, set, invalid, hid, -, rfl⟩ := markProviderStarted_eq_ok hbody
    obtain rfl := PyObject.str.inj hid
    obtain ⟨hcount, -⟩ := transition_eq_ok hrun
    obtain ⟨row, hrow, hfound⟩ := List.countP_pos_iff.mp (hcount ▸ Nat.one_pos)
    obtain ⟨begun, hbegun, hbegunId, hstate⟩ := hbegun
    have hrowId : row.id = logicalId := of_decide_eq_true (Bool.and_eq_true_iff.mp hfound).1
    obtain rfl := hdistinct.eq_of_id hrow hbegun (hrowId.trans hbegunId.symm)
    exact hstate (state_of_found hfound)
  · exact herror

/-- **The delivery state machine.** Whatever is called with whatever arguments, and wherever
the process dies: an id and an accepted session and turn identify one row at most; an event
moves rows along the edges of the machine, keeps their envelopes, and adds prepared rows
only; the rows of a table are found again, with their envelopes, in every later one; a row
whose start committed is never started again; and an operation that raises leaves the table
alone. -/
theorem durableDelivery_runs :
    (∀ table, durableDelivery.Reachable table → Distinct table) ∧
    (∀ table event table', durableDelivery.Reachable table →
      durableDelivery.step table event table' → Advance table table') ∧
    (∀ table table', durableDelivery.Reachable table → durableDelivery.Run table table' →
      Followed table table') ∧
    (∀ id a s g b readOnly now table result table₁, durableDelivery.Reachable table →
      (Op.markProviderStarted id a s g b).call readOnly now table = (.ok result, table₁) →
      ∀ table₂, durableDelivery.Run table₁ table₂ → ∀ a' s' g' b' readOnly' now',
        ∃ e, (Op.markProviderStarted id a' s' g' b').call readOnly' now' table₂ =
          (.error e, table₂)) ∧
    (∀ (op : Op) readOnly now table e, (op.call readOnly now table).1 = .error e →
      (op.call readOnly now table).2 = table) := by
  refine ⟨fun _ => distinct_of_reachable, ?_, fun _ _ _ => followed_of_run, ?_, ?_⟩
  · rintro table event table' - rfl
    exact event.advance table
  · intro id a s g b readOnly now table result table₁ hreachable hstart table₂ hrun
      a' s' g' b' readOnly' now'
    obtain ⟨logicalId, rfl, hbegun⟩ := begun_of_start hstart
    have hstep : durableDelivery.step table
        (.call readOnly now (.markProviderStarted (.str logicalId) a s g b)) table₁ :=
      (congrArg Prod.snd hstart).symm
    have hreachable₁ := System.ReachableVia.step hreachable trivial hstep
    have hbegun₂ : Begun logicalId table₂ :=
      System.RunVia.preserves (I := Begun logicalId)
        (by rintro table event _ hb - rfl; exact hb.advance (event.advance table)) hrun hbegun
    exact no_second_start (distinct_of_reachable (hreachable₁.run hrun)) hbegun₂
  · intro op readOnly now table e herror
    rcases op.call_cases readOnly now table with ⟨_, _, _, _, _, hcall⟩ | ⟨_, hcall⟩
    · rw [hcall] at herror
      cases herror
    · rw [hcall]

end Kirakira.DurableDelivery
