import Kirakira.Lib.Dict
import Kirakira.MailAlerts
import Kirakira.MailContent

/-!
# Rebuilding the Event Mail

The rest of `plugins/eventmail/store.py` that changes its tables: `report_context`, and
`rebuild_mail_projections`, which replaces every projection by what the log of transitions
and the envelopes say. Content is read back from the last projected fact of each item, an
alert is its newest envelope after all its transitions, a context is its newest envelope.

* The rows inserted into one table stand as one statement.
* A detail is the JSON object that was written, so its decoding does not fail.
-/

namespace Kirakira.EventMail

/-- `raise KeyError(key)`. -/
def keyError {α : Type} (key : String) : Except PyError α :=
  .error ⟨.keyError, key⟩

/-! ### Context -/

/-- `(source_id, event_id)`. -/
def ContextMail.key (c : ContextMail) : String × String :=
  (c.sourceId, c.eventId)

/-- The projection of an event. -/
def Store.context? (s : Store) (key : String × String) : Option ContextMail :=
  s.contextProjection.rows.find? fun c => c.key = key

/-- The mail and the observation time of an event's projection, joined with its envelope. -/
def Store.currentContext? (s : Store) (key : String × String) : Option (String × String) := do
  let c ← s.context? key
  let e ← s.envelope? c.mailId
  return (c.mailId, e.observedAt)

/-- A statement on `context_projection`. -/
def Store.writeContexts (rows : List ContextMail) (s : Store) : Except PyError Store := do
  let contextProjection ← write contextIndexes rows
  return { s with contextProjection := contextProjection }

/-- `_append_transition` for a context. -/
def Store.logContext (digest : Detail → String) (now mailId : String) (action : Action)
    (detail : Detail) (s : Store) : Store :=
  s.appendTransition digest now mailId .context action detail

/-- `INSERT … ON CONFLICT(source_id, event_id) DO UPDATE`. -/
def upsertContext (c : ContextMail) (rows : List ContextMail) : List ContextMail :=
  if rows.any fun old => old.key = c.key then
    Table.update (fun old => old.key = c.key)
      (fun old => { old with mailId := c.mailId, expiresAt := c.expiresAt }) rows
  else rows ++ [c]

/-- The transition of a new envelope. -/
def Store.receivedContext (digest : Detail → String) (now mailId : String) (inserted : Bool)
    (s : Store) : Store :=
  if inserted then s.logContext digest now mailId .received .empty else s

/-- The statements of `report_context` after the envelope is there. -/
def Store.publishContext (digest : Detail → String) (now : String) (context : ContextMail)
    (observed : String) (inserted : Bool) (s : Store) :
    Except PyError (Option Bool × Bool × Store) :=
  match s.currentContext? context.key with
  | some (mailId, observedAt) =>
      if mailId = context.mailId then .ok (none, false, s)
      else if observed < observedAt then
        let t := s.receivedContext digest now context.mailId inserted
        .ok (some false, inserted,
          if inserted then t.logContext digest now context.mailId .superseded (.by mailId) else t)
      else do
        let s := s.logContext digest now mailId .superseded (.by context.mailId)
        let s ← s.writeContexts (upsertContext context s.contextProjection.rows)
        return (none, inserted, s.receivedContext digest now context.mailId inserted)
  | none => do
      let s ← s.writeContexts (upsertContext context s.contextProjection.rows)
      return (none, inserted, s.receivedContext digest now context.mailId inserted)

/-- `EventMailStore.report_context`. -/
def Store.reportContext (digest : Detail → String) (now : String)
    (sourceId eventId payload : Json) (observedAt : Datetime) (expiresAt : Option Datetime)
    (s : Store) : Except PyError (AlertReport × Store) := do
  let source ← identity "source_id" (some sourceId)
  let event ← identity "event_id" (some eventId)
  let observed ← awareUtc observedAt
  let expiry ← expiresAt.mapM awareUtc
  if expiry.any fun e => e ≤ observed then valueError "Context expires_at 必须晚于 observed_at"
  else do
    let encoded ← payloadJson payload
    let id := mailId .context source event observed
    let (inserted, s) ← s.appendEnvelope
      ⟨id, .context, source, event, observed, encoded, observed, none, expiry, now⟩
    let (projected, accepted, s) ←
      s.publishContext digest now ⟨source, event, id, expiry⟩ observed inserted
    return (⟨accepted, projected, source, event, id⟩, s)

/-! ### Content -/

/-- The transitions that carry a projected fact. -/
def Store.projections (s : Store) : List MailTransition :=
  s.mailTransitions.filter fun x => x.kind = .content && x.action = .projected

/-- What `_rebuild_content_projections` gathers from the facts. -/
structure Projected where
  items : Dict ItemKey Item
  selections : Dict String (Selection × List Member)
  state : Option ContentState

/-- Nothing gathered. -/
def Projected.empty : Projected :=
  ⟨.empty, .empty, none⟩

/-- The checked key of a projected item. -/
def checkKey (key : ItemKey) : Except PyError ItemKey := do
  let source ← identity "source_id" (some (.str key.sourceId))
  let item ← identity "item_id" (some (.str key.itemId))
  let revision ← identity "revision" (some (.str key.revision))
  return ⟨source, item, revision⟩

/-- The loop over the selections of a fact. -/
def addSelections (selections : List (Selection × List Member))
    (known : Dict String (Selection × List Member)) :
    Except PyError (Dict String (Selection × List Member)) :=
  selections.foldlM (fun known projected => do
    let token ← identity "selection_token" (some (.str projected.1.token))
    return known.set token projected) known

/-- One turn of the loop over the facts. -/
def Projected.add (p : Projected) (x : MailTransition) : Except PyError Projected :=
  match x.detail with
  | .projected item state selections => do
      let key ← checkKey item.key
      let selections ← addSelections selections p.selections
      return ⟨p.items.set key item, selections, some state⟩
  | _ => runtimeError "Content projected detail 结构无效"

/-- The facts of the log. -/
def Store.projected (s : Store) : Except PyError Projected :=
  s.projections.foldlM Projected.add .empty

/-- The projected items, `sorted` by `_projected_snapshot_seq`. -/
def Projected.sortedItems (p : Projected) : Except PyError (List Item) :=
  let items := p.items.entries.map Prod.snd
  if items.any fun i => i.snapshotSeq = 0 then
    runtimeError "Content projected snapshot_seq 无效"
  else .ok (items.insertionSort fun i j => i.snapshotSeq ≤ j.snapshotSeq)

/-- The number of content envelopes. -/
def Store.contentCount (s : Store) : ℕ :=
  s.mailEnvelopes.rows.countP fun e => e.kind = .content

/-- The statements of `_rebuild_content_projections`. -/
def Store.replaceContent (p : Projected) (s : Store) : Except PyError Store := do
  let rows ← p.sortedItems
  let selections := p.selections.entries.map Prod.snd
  let items ← write itemIndexes rows
  let contentSelections ← write selectionIndexes (selections.map Prod.fst)
  let contentSelectionMembers ← write memberIndexes (selections.flatMap Prod.snd)
  return { s with
    items := items
    contentSelections := contentSelections
    contentSelectionMembers := contentSelectionMembers
    contentState := p.state.getD s.contentState }

/-- `_rebuild_content_projections`. -/
def Store.rebuildContent (s : Store) : Except PyError Store :=
  if s.contentCount ≠ 0 ∧ s.projections = [] then
    runtimeError "Content ledger 缺少 projected transition"
  else do
    let p ← s.projected
    if p.items.entries.length ≠ s.contentCount then
      runtimeError ("Content projected item 数量与 envelope 不一致: items="
        ++ toString p.items.entries.length ++ " envelopes=" ++ toString s.contentCount)
    else s.replaceContent p

/-! ### Alerts and context -/

/-- The envelopes of a kind of which no newer one of the same event is there. -/
def Store.latestEnvelopes (s : Store) (kind : Kind) : List Envelope :=
  s.mailEnvelopes.rows.filter fun e => e.kind = kind && !s.mailEnvelopes.rows.any fun newer =>
    newer.kind = e.kind && newer.sourceId = e.sourceId && newer.itemId = e.itemId &&
      (e.observedAt < newer.observedAt ||
        (newer.observedAt = e.observedAt && s.mailSeq e.mailId < s.mailSeq newer.mailId))

/-- The status of an alert and its `not_before` while its transitions are read. -/
structure Replayed where
  status : AlertStatus
  notBefore : String
  deriving DecidableEq

/-- `detail["accepted_turn"]`. -/
def Detail.readTurn (detail : Detail) : Except PyError AcceptedTurn :=
  match detail.acceptedTurn? with
  | some accepted => normalizeAcceptedTurn
      (.obj [("session_id", .str accepted.sessionId), ("turn_id", .str accepted.turnId)])
  | none => keyError "accepted_turn"

/-- `detail["not_before"]`. -/
def Detail.readDeadline (detail : Detail) : Except PyError String :=
  match detail with
  | .notBefore text | .selection _ (some text) => identity "not_before" (some (.str text))
  | _ => keyError "not_before"

/-- One turn of the loop over the transitions of an alert. -/
def Replayed.next (r : Replayed) (action : Action) (detail : Detail) : Except PyError Replayed :=
  match action with
  | .selected => do
      let turn ← detail.readTurn
      return ⟨.selected turn, r.notBefore⟩
  | .deferred => do
      let text ← detail.readDeadline
      return ⟨.pending, text⟩
  | .delivered => .ok ⟨.delivered, r.notBefore⟩
  | .skipped => .ok ⟨.skipped, r.notBefore⟩
  | .expired => .ok ⟨.expired, r.notBefore⟩
  | _ => .ok r

/-- The transitions of a mail, after each other. -/
def replay (log : List MailTransition) (id : String) (r : Replayed) : Except PyError Replayed :=
  (log.filter fun x => x.mailId = id).foldlM (fun r x => r.next x.action x.detail) r

/-- The projection an envelope of an alert gets. -/
def Store.replayAlert (s : Store) (e : Envelope) : Except PyError Alert := do
  let r ← replay s.mailTransitions e.mailId ⟨.pending, e.notBefore.getD "None"⟩
  return ⟨e.sourceId, e.itemId, e.mailId, r.status, r.notBefore, e.expiresAt⟩

/-- The projection an envelope of a context gets. -/
def Envelope.context (e : Envelope) : ContextMail :=
  ⟨e.sourceId, e.itemId, e.mailId, e.expiresAt⟩

/-- `EventMailStore.rebuild_mail_projections`. -/
def Store.rebuildMailProjections (s : Store) : Except PyError Store := do
  let s ← s.rebuildContent
  let alerts ← (s.latestEnvelopes .alert).mapM s.replayAlert
  let alertProjection ← write alertIndexes alerts
  let contextProjection ← write contextIndexes ((s.latestEnvelopes .context).map Envelope.context)
  return { s with
    alertProjection := alertProjection
    contextProjection := contextProjection }

end Kirakira.EventMail
