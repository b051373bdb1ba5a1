import Kirakira.Lib.Table
import Kirakira.StoreArguments

/-!
# The Tables of the Event Mail

The tables of `plugins/eventmail/store.py` and the operations every call goes through: mail
envelopes, which never change, the log of transitions, which only grows, and the projections
and content tables, which are read from them.

* A table is a list of rows under the unique indexes of its schema, in the order of the
  rows' `seq` where it has one. A statement that would break an index raises.
* A transition's detail is a value of `Detail` for the JSON object it stands for. Its
  identity joins the mail, the action and a digest of the detail with colons; neither an
  action nor a hexadecimal digest has one, so the joined text is the triple.
* The clock is one text a call, and the digest of a detail is an argument.
-/

namespace Kirakira.EventMail

/-! ### Rows -/

/-- The kinds of mail. -/
inductive Kind where
  | content
  | alert
  | context
  deriving DecidableEq, Repr

/-- The text of a kind. -/
def Kind.text : Kind → String
  | .content => "content"
  | .alert => "alert"
  | .context => "context"

/-- A row of `mail_envelopes`. -/
structure Envelope where
  mailId : String
  kind : Kind
  sourceId : String
  itemId : String
  revision : String
  payloadJson : String
  observedAt : String
  notBefore : Option String
  expiresAt : Option String
  createdAt : String
  deriving DecidableEq

/-- The status of an alert, with the turn that has selected it: the `CHECK` of the table. -/
inductive AlertStatus where
  | pending
  | selected (turn : AcceptedTurn)
  | delivered
  | skipped
  | expired
  deriving DecidableEq

/-- A row of `alert_projection`. -/
structure Alert where
  sourceId : String
  eventId : String
  mailId : String
  status : AlertStatus
  notBefore : String
  expiresAt : Option String
  deriving DecidableEq

/-- A row of `context_projection`. -/
structure ContextMail where
  sourceId : String
  eventId : String
  mailId : String
  expiresAt : Option String
  deriving DecidableEq

/-- The primary key of an item. -/
structure ItemKey where
  sourceId : String
  itemId : String
  revision : String
  deriving DecidableEq

/-- `items.status`. -/
inductive ItemStatus where
  | pending
  | deferred
  | selected
  | readyForDelivery
  | awaitChange
  | invalidated
  | abandoned
  | failed
  | expired
  | delivered
  | settled
  deriving DecidableEq, Repr

/-- A row of `items`. -/
structure Item where
  key : ItemKey
  payloadJson : String
  snapshotSeq : ℕ
  status : ItemStatus
  notBefore : String
  requiresAck : Bool
  itemStateVersion : ℕ
  selectionToken : Option String
  selectedTurn : Option AcceptedTurn
  settlementRef : Option String
  createdAt : String
  updatedAt : String
  deriving DecidableEq

/-- `content_selections.status`. -/
inductive SelectionStatus where
  | selected
  | readyForDelivery
  | released
  | deferred
  | awaitChange
  | invalidated
  | abandoned
  | failed
  | expired
  | delivered
  | settled
  deriving DecidableEq, Repr

/-- A row of `content_selections`. -/
structure Selection where
  token : String
  acceptedTurn : AcceptedTurn
  snapshotSeq : ℕ
  status : SelectionStatus
  driver : ItemKey
  decisionFormat : String
  settlementRef : Option String
  createdAt : String
  updatedAt : String
  deriving DecidableEq

/-- A row of `content_selection_members`. -/
structure Member where
  token : String
  position : ℕ
  item : ItemKey
  selectedForDelivery : Bool
  settlementRef : Option String
  deriving DecidableEq

/-- The row of `content_state`. -/
structure ContentState where
  nextSeq : ℕ
  stateVersion : ℕ
  wakeNeeded : Bool
  earliestNotBefore : Option String
  deriving DecidableEq

/-! ### Transitions -/

/-- The actions of the log. -/
inductive Action where
  | received
  | superseded
  | selected
  | deferred
  | delivered
  | skipped
  | expired
  | projected
  | readyForDelivery
  | release
  | defer
  | awaitChange
  | invalidated
  | abandoned
  | failed
  | settled
  | acknowledged
  deriving DecidableEq, Repr

/-- The details of the log. -/
inductive Detail where
  /-- `{}` -/
  | empty
  /-- `{"by": …}` -/
  | by (mailId : String)
  /-- `{"accepted_turn": …}` -/
  | turn (acceptedTurn : AcceptedTurn)
  /-- `{"not_before": …}` -/
  | notBefore (text : String)
  /-- `{"reason": "wake_decay_floor", "expired_at": …}` -/
  | expired (expiredAt : String)
  /-- `{"selection_token": …, "accepted_turn": …}` -/
  | claim (token : String) (acceptedTurn : AcceptedTurn)
  /-- `{"selection_token": …}`, with a `not_before` for a deferral -/
  | selection (token : String) (notBefore : Option String)
  /-- `{"settlement_ref": …}` -/
  | settlement (ref : String)
  /-- `{"item": …, "content_state": …, "selections": …}` -/
  | projected (item : Item) (state : ContentState) (selections : List (Selection × List Member))
  deriving DecidableEq

/-- A row of `mail_transitions`. -/
structure MailTransition where
  mailId : String
  kind : Kind
  action : Action
  detail : Detail
  createdAt : String
  deriving DecidableEq

/-! ### Submissions -/

/-- `_NormalizedItem`. -/
structure NormalizedItem where
  itemId : String
  revision : String
  payloadJson : String
  notBefore : String
  requiresAck : Bool
  deriving DecidableEq

/-- `SubmissionReceipt`; the receipt id is made of the source and the batch. -/
structure SubmissionReceipt where
  sourceId : String
  batchId : String
  inserted : List ItemKey
  duplicates : List ItemKey
  highWatermark : ℕ
  stateVersion : ℕ
  wakeNeeded : Bool
  deriving DecidableEq

/-- A row of `submissions`. -/
structure Submission where
  sourceId : String
  batchId : String
  fingerprint : String
  receipt : SubmissionReceipt
  submittedAt : String
  deriving DecidableEq

/-! ### Tables -/

/-- A unique index on one key. -/
def onKey {α κ : Type} [inst : DecidableEq κ] (columns : String) (key : α → κ) : Table.Index α :=
  ⟨columns, κ, inst, fun r => some (key r)⟩

/-- A unique index on a key that may be missing. -/
def onOption {α κ : Type} [inst : DecidableEq κ] (columns : String) (key : α → Option κ) :
    Table.Index α :=
  ⟨columns, κ, inst, key⟩

/-- The indexes of `mail_envelopes`. -/
def envelopeIndexes : List (Table.Index Envelope) :=
  [onKey "mail_envelopes.mail_id" Envelope.mailId,
    onKey
      ("mail_envelopes.kind, mail_envelopes.source_id, mail_envelopes.item_id, "
        ++ "mail_envelopes.revision")
      fun e => (e.kind, e.sourceId, e.itemId, e.revision)]

/-- The indexes of `alert_projection`. -/
def alertIndexes : List (Table.Index Alert) :=
  [onKey "alert_projection.source_id, alert_projection.event_id" fun a => (a.sourceId, a.eventId),
    onKey "alert_projection.mail_id" Alert.mailId]

/-- The indexes of `context_projection`. -/
def contextIndexes : List (Table.Index ContextMail) :=
  [onKey "context_projection.source_id, context_projection.event_id"
      fun c => (c.sourceId, c.eventId),
    onKey "context_projection.mail_id" ContextMail.mailId]

/-- The indexes of `items`. -/
def itemIndexes : List (Table.Index Item) :=
  [onKey "items.source_id, items.item_id, items.revision" Item.key,
    onKey "items.snapshot_seq" Item.snapshotSeq,
    onOption "items.selection_token" Item.selectionToken,
    onOption "items.settlement_ref" Item.settlementRef,
    onOption "items.selected_session_id, items.selected_turn_id" Item.selectedTurn]

/-- The indexes of `content_selections`. -/
def selectionIndexes : List (Table.Index Selection) :=
  [onKey "content_selections.selection_token" Selection.token,
    onOption "content_selections.settlement_ref" Selection.settlementRef,
    onKey "content_selections.accepted_session_id, content_selections.accepted_turn_id"
      Selection.acceptedTurn]

/-- The indexes of `content_selection_members`. -/
def memberIndexes : List (Table.Index Member) :=
  [onKey
      ("content_selection_members.selection_token, content_selection_members.source_id, "
        ++ "content_selection_members.item_id, content_selection_members.revision")
      fun m => (m.token, m.item),
    onOption "content_selection_members.settlement_ref" Member.settlementRef]

/-- The indexes of `submissions`. -/
def submissionIndexes : List (Table.Index Submission) :=
  [onKey "submissions.source_id, submissions.batch_id" fun b => (b.sourceId, b.batchId)]

/-- The tables of the store. -/
structure Store where
  mailEnvelopes : Table.Rows envelopeIndexes
  mailTransitions : List MailTransition
  alertProjection : Table.Rows alertIndexes
  contextProjection : Table.Rows contextIndexes
  contentState : ContentState
  items : Table.Rows itemIndexes
  submissions : Table.Rows submissionIndexes
  contentSelections : Table.Rows selectionIndexes
  contentSelectionMembers : Table.Rows memberIndexes

/-- The tables `_ensure_schema` creates. -/
def Store.empty : Store where
  mailEnvelopes := .empty _
  mailTransitions := []
  alertProjection := .empty _
  contextProjection := .empty _
  contentState := ⟨0, 0, false, none⟩
  items := .empty _
  submissions := .empty _
  contentSelections := .empty _
  contentSelectionMembers := .empty _

/-- A statement on a table. -/
def write {α : Type} (indexes : List (Table.Index α)) (rows : List α) :
    Except PyError (Table.Rows indexes) :=
  match Table.Rows.write indexes rows with
  | .ok t => .ok t
  | .error columns => uniqueError columns

theorem write_eq_ok {α : Type} {indexes : List (Table.Index α)} {rows : List α}
    {t : Table.Rows indexes} : write indexes rows = .ok t ↔ t.rows = rows := by
  rw [← Table.Rows.write_eq_ok, write]
  cases Table.Rows.write indexes rows with
  | ok t' => simp only [Except.ok.injEq]
  | error columns =>
      simp only [reduceCtorEq, iff_false]
      rintro ⟨⟩

theorem map_write_eq_ok {α β : Type} {indexes : List (Table.Index α)} {rows : List α}
    {f : Table.Rows indexes → β} {t : β} :
    (do let p ← write indexes rows; return f p) = Except.ok (ε := PyError) t ↔
      ∃ p : Table.Rows indexes, p.rows = rows ∧ t = f p := by
  rw [Exceptions.bind_eq_ok]
  exact exists_congr fun p => and_congr write_eq_ok
    ⟨fun h => (Except.ok.inj h).symm, fun h => congrArg Except.ok h.symm⟩

/-! ### The log -/

/-- `_aware_utc`. -/
def awareUtc : Datetime → Except PyError String :=
  Kirakira.awareUtc "Content 时间必须带时区"

/-- `_normalize_accepted_turn`. -/
def normalizeAcceptedTurn (value : Json) : Except PyError AcceptedTurn :=
  if isMapping value = false then valueError "accepted_turn 必须是 Mapping"
  else acceptedTurn value

/-- `_payload_json`. -/
def payloadJson (payload : Json) : Except PyError String :=
  if isMapping payload = false then valueError "EventMail payload 必须是 Mapping"
  else if payload.Finite then .ok payload.sortKeys.dumps
  else valueError "Out of range float values are not JSON compliant"

/-- `_mail_id`. -/
def mailId (kind : Kind) (sourceId itemId revision : String) : String :=
  kind.text ++ ":" ++ sourceId ++ ":" ++ itemId ++ ":" ++ revision

/-- The envelope of a mail id. -/
def Store.envelope? (s : Store) (id : String) : Option Envelope :=
  s.mailEnvelopes.rows.find? fun e => e.mailId = id

/-- Whether an envelope has the contents a replay of it has. -/
def Envelope.sameContents (e e' : Envelope) : Bool :=
  (e.payloadJson, e.observedAt, e.notBefore, e.expiresAt)
    = (e'.payloadJson, e'.observedAt, e'.notBefore, e'.expiresAt)

/-- `_append_envelope`; the envelope carries its own mail id. Whether it was inserted. -/
def Store.appendEnvelope (e : Envelope) (s : Store) : Except PyError (Bool × Store) :=
  match s.envelope? e.mailId with
  | some row =>
      if row.sameContents e then .ok (false, s)
      else runtimeError ("EventMail envelope identity conflict: " ++ e.mailId)
  | none => do
      let mailEnvelopes ← write envelopeIndexes (s.mailEnvelopes.rows ++ [e])
      return (true, { s with mailEnvelopes := mailEnvelopes })

theorem Store.envelopes_unique (s : Store) :
    Table.Unique (fun e => some e.mailId) s.mailEnvelopes.rows :=
  s.mailEnvelopes.holds (onKey _ Envelope.mailId) List.mem_cons_self

theorem Store.envelope?_eq_some {s : Store} {id : String} {e : Envelope} :
    s.envelope? id = some e ↔ e ∈ s.mailEnvelopes.rows ∧ e.mailId = id :=
  Table.find?_eq_some_iff s.envelopes_unique

theorem Store.appendEnvelope_cases {s t : Store} {e : Envelope} {inserted : Bool}
    (h : s.appendEnvelope e = .ok (inserted, t)) :
    (inserted = false ∧ t = s ∧ ∃ row ∈ s.mailEnvelopes.rows, row.mailId = e.mailId ∧
      row.sameContents e = true) ∨
    (inserted = true ∧ (∀ row ∈ s.mailEnvelopes.rows, row.mailId ≠ e.mailId) ∧
      ∃ envelopes : Table.Rows envelopeIndexes,
        envelopes.rows = s.mailEnvelopes.rows ++ [e] ∧
          t = { s with mailEnvelopes := envelopes }) := by
  rw [Store.appendEnvelope] at h
  split at h
  · next row hrow =>
      obtain ⟨hmem, hid⟩ := Store.envelope?_eq_some.mp hrow
      split_ifs at h with hsame
      · cases h
        exact .inl ⟨rfl, rfl, row, hmem, hid, hsame⟩
      · cases h
  · next hnone =>
      obtain ⟨envelopes, hwrite, h⟩ := Exceptions.bind_eq_ok.mp h
      cases h
      refine .inr ⟨rfl, fun row hrow hid => ?_, envelopes, write_eq_ok.mp hwrite, rfl⟩
      rw [Store.envelope?_eq_some.mpr ⟨hrow, hid⟩] at hnone
      cases hnone

/-- Whether a transition with this identity is in the log. -/
def logged (digest : Detail → String) (log : List MailTransition) (mailId : String)
    (action : Action) (detail : Detail) : Bool :=
  log.any fun t => t.mailId = mailId && t.action = action && digest t.detail = digest detail

/-- `_append_transition`: `INSERT OR IGNORE`. -/
def appendTransition (digest : Detail → String) (now mailId : String) (kind : Kind)
    (action : Action) (detail : Detail) (log : List MailTransition) : List MailTransition :=
  if logged digest log mailId action detail then log
  else log ++ [⟨mailId, kind, action, detail, now⟩]

/-- `_append_transition` on the store. -/
def Store.appendTransition (digest : Detail → String) (now mailId : String) (kind : Kind)
    (action : Action) (detail : Detail) (s : Store) : Store :=
  { s with
    mailTransitions :=
      EventMail.appendTransition digest now mailId kind action detail s.mailTransitions }

end Kirakira.EventMail
