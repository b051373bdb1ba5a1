import Kirakira.EventMail
import Kirakira.Lib.JsonReader
import Kirakira.Lib.Transition
import Mathlib.Data.List.MinMax
import Mathlib.Data.Prod.Lex

/-!
# Alerts of the Event Mail

The alert calls of `plugins/eventmail/store.py`: a report makes an immutable envelope and
publishes it as the projection of its event, a turn claims the projection, and the claim is
ended by a change, an expiry or a newer report.

Times are compared as the texts of `_aware_utc`. A call that raises is rolled back.

## Main results

* `Store.publishAlert_eq_ok`, `Store.changeAlert_eq_ok`, … — what each call makes of the projection.
* `Later` — along a run an event only moves on to later envelopes, and an ended alert stays
  as it ended.
-/

namespace Kirakira.EventMail

open Exceptions

/-! ### Projections -/

/-- `(source_id, event_id)`. -/
def Alert.key (a : Alert) : String × String :=
  (a.sourceId, a.eventId)

/-- The projection of an event. -/
def Store.alert? (s : Store) (key : String × String) : Option Alert :=
  s.alertProjection.rows.find? fun a => a.key = key

/-- The mail and the observation time of an event's projection, joined with its envelope. -/
def Store.currentAlert? (s : Store) (key : String × String) : Option (String × String) := do
  let a ← s.alert? key
  let e ← s.envelope? a.mailId
  return (a.mailId, e.observedAt)

/-- A statement on `alert_projection`. -/
def Store.writeAlerts (rows : List Alert) (s : Store) : Except PyError Store := do
  let alertProjection ← write alertIndexes rows
  return { s with alertProjection := alertProjection }

/-- `_append_transition` for an alert. -/
def Store.logAlert (digest : Detail → String) (now mailId : String) (action : Action)
    (detail : Detail) (s : Store) : Store :=
  s.appendTransition digest now mailId .alert action detail

/-! ### Reports -/

/-- The answer of `report_alert`. -/
structure AlertReport where
  accepted : Bool
  projected : Option Bool
  sourceId : String
  eventId : String
  mailId : String

/-- `INSERT … ON CONFLICT(source_id, event_id) DO UPDATE`. -/
def upsertAlert (a : Alert) (rows : List Alert) : List Alert :=
  if rows.any fun old => old.key = a.key then
    Table.update (fun old => old.key = a.key)
      (fun old => { old with
        mailId := a.mailId
        status := a.status
        notBefore := a.notBefore
        expiresAt := a.expiresAt })
      rows
  else rows ++ [a]

/-- The transition of a new envelope. -/
def Store.received (digest : Detail → String) (now mailId : String) (inserted : Bool) (s : Store) :
    Store :=
  if inserted then s.logAlert digest now mailId .received .empty else s

/-- The statements of `report_alert` after the envelope is there. -/
def Store.publishAlert (digest : Detail → String) (now : String) (alert : Alert) (inserted : Bool)
    (s : Store) : Except PyError (Option Bool × Bool × Store) :=
  match s.currentAlert? alert.key with
  | some (mailId, observedAt) =>
      if mailId = alert.mailId then .ok (none, false, s)
      else if alert.notBefore < observedAt then
        let t := s.received digest now alert.mailId inserted
        .ok (some false, inserted,
          if inserted then t.logAlert digest now alert.mailId .superseded (.by mailId) else t)
      else do
        let s := s.logAlert digest now mailId .superseded (.by alert.mailId)
        let s ← s.writeAlerts (upsertAlert alert s.alertProjection.rows)
        return (none, inserted, s.received digest now alert.mailId inserted)
  | none => do
      let s ← s.writeAlerts (upsertAlert alert s.alertProjection.rows)
      return (none, inserted, s.received digest now alert.mailId inserted)

/-- `EventMailStore.report_alert`. -/
def Store.reportAlert (digest : Detail → String) (now : String) (sourceId eventId payload : Json)
    (observedAt : Datetime) (expiresAt : Option Datetime) (s : Store) :
    Except PyError (AlertReport × Store) := do
  let source ← identity "source_id" (some sourceId)
  let event ← identity "event_id" (some eventId)
  let observed ← awareUtc observedAt
  let expiry ← expiresAt.mapM awareUtc
  if expiry.any fun e => e ≤ observed then valueError "Alert expires_at 必须晚于 observed_at"
  else do
    let encoded ← payloadJson payload
    let id := mailId .alert source event observed
    let (inserted, s) ← s.appendEnvelope
      ⟨id, .alert, source, event, observed, encoded, observed, some observed, expiry, now⟩
    let (projected, accepted, s) ←
      s.publishAlert digest now ⟨source, event, id, .pending, observed, expiry⟩ inserted
    return (⟨accepted, projected, source, event, id⟩, s)

/-! ### Expiries -/

/-- The condition of `_expire_alerts`. -/
def Alert.isOverdue (now : String) (a : Alert) : Bool :=
  a.status = .pending && a.expiresAt.any fun e => e ≤ now

/-- The row an expiry leaves. -/
def Alert.expire (a : Alert) : Alert :=
  { a with status := .expired }

/-- `ORDER BY source_id, event_id`. -/
def Alert.before (a b : Alert) : Bool :=
  a.sourceId < b.sourceId || (a.sourceId = b.sourceId && a.eventId ≤ b.eventId)

/-- `_expire_alerts`. -/
def Store.expireAlerts (digest : Detail → String) (now instant : String) (s : Store) :
    Except PyError Store :=
  let overdue := (s.alertProjection.rows.filter (Alert.isOverdue instant)).insertionSort
    fun a b => a.before b
  let s := overdue.foldl (fun s a => s.logAlert digest now a.mailId .expired .empty) s
  s.writeAlerts (Table.update (Alert.isOverdue instant) Alert.expire s.alertProjection.rows)

/-- The earliest of some texts. -/
def earliest (texts : List String) : Option String :=
  texts.argmin id

/-- `EventMailStore.alert_deadline`, which answers with the text of the deadline. -/
def Store.alertDeadline (digest : Detail → String) (now : String) (instant : Datetime)
    (s : Store) : Except PyError (Option String × Store) := do
  let instant ← awareUtc instant
  let s ← s.expireAlerts digest now instant
  let pending := s.alertProjection.rows.filter fun a => a.status = .pending
  return (earliest (pending.map Alert.notBefore), s)

/-- Whether `expire_alert` ends the alert. -/
def Alert.canExpire (instant : String) (a : Alert) : Bool :=
  match a.expiresAt, a.status with
  | some e, .pending | some e, .selected _ => e ≤ instant
  | _, _ => false

/-- `EventMailStore.expire_alert`. -/
def Store.expireAlert (digest : Detail → String) (now : String) (sourceId eventId : Json)
    (instant : Datetime) (s : Store) : Except PyError (Bool × Store) := do
  let source ← identity "source_id" (some sourceId)
  let event ← identity "event_id" (some eventId)
  let instant ← awareUtc instant
  match s.alert? (source, event) with
  | none => .ok (false, s)
  | some row =>
      if row.canExpire instant = false then .ok (false, s)
      else do
        let s ← s.writeAlerts
          (Table.update (fun a => a.key = (source, event)) Alert.expire s.alertProjection.rows)
        return (true, s.logAlert digest now row.mailId .expired .empty)

/-! ### Claims -/

/-- `_decode_payload` of a text that `_payload_json` wrote. -/
def decodePayload (text : String) : Except PyError Json :=
  match Json.loads text with
  | some (.obj fields) => .ok (.obj fields)
  | _ => runtimeError "EventMail payload_json 必须解码为 object"

/-- `_alert_view`. -/
structure AlertView where
  sourceId : String
  eventId : String
  mailId : String
  payload : Json
  observedAt : String
  notBefore : String
  expiresAt : Option String
  acceptedTurn : AcceptedTurn
  deriving DecidableEq

/-- `_alert_view` of a row joined with its envelope. -/
def alertView (accepted : AcceptedTurn) (row : Alert × Envelope) : Except PyError AlertView := do
  let payload ← decodePayload row.2.payloadJson
  return ⟨row.1.sourceId, row.1.eventId, row.1.mailId, payload, row.2.observedAt, row.1.notBefore,
    row.1.expiresAt, accepted⟩

/-- `alert_projection JOIN mail_envelopes`. -/
def Store.alertsWithEnvelopes (s : Store) : List (Alert × Envelope) :=
  s.alertProjection.rows.filterMap fun a => (s.envelope? a.mailId).map fun e => (a, e)

/-- The place of an envelope in the log: its `seq`. -/
def Store.mailSeq (s : Store) (id : String) : ℕ :=
  s.mailEnvelopes.rows.findIdx fun e => e.mailId = id

/-- The earliest due alert, `ORDER BY not_before, seq LIMIT 1`. -/
def Store.dueAlert (s : Store) (instant : String) : Option (Alert × Envelope) :=
  (s.alertsWithEnvelopes.filter fun r => r.1.status = .pending && r.1.notBefore ≤ instant).argmin
    fun r => toLex (r.1.notBefore, s.mailSeq r.1.mailId)

/-- `json_extract(detail_json, '$.accepted_turn')`. -/
def Detail.acceptedTurn? : Detail → Option AcceptedTurn
  | .turn t | .claim _ t => some t
  | _ => none

/-- Whether the log has a claim of the mail by the turn. -/
def Store.hasClaimed (s : Store) (mailId : String) (turn : AcceptedTurn) : Bool :=
  s.mailTransitions.any fun t => t.mailId = mailId && t.kind = .alert && t.action = .selected &&
    t.detail.acceptedTurn? = some turn

/-- What `select_alert` does with the row it has found. -/
inductive Found where
  | nothing
  | live (row : Alert × Envelope)
  | due (row : Alert × Envelope)

/-- `select_alert` with an `item_ref`: the row it may claim, or the claim that is live. -/
def Store.exactAlert (s : Store) (accepted : AcceptedTurn) (instant : String) (itemRef : Json) :
    Except PyError Found :=
  if (Json.keys (mappingFields itemRef)).Perm ["source_id", "event_id", "mail_id"] then do
    let source ← identity "source_id" (itemRef.get? "source_id")
    let event ← identity "event_id" (itemRef.get? "event_id")
    match s.alertsWithEnvelopes.find? fun r => r.1.key = (source, event) with
    | none => .ok .nothing
    | some row => do
        let mail ← identity "mail_id" (itemRef.get? "mail_id")
        if row.1.mailId ≠ mail then .ok .nothing
        else if row.1.status = .selected accepted then .ok (.live row)
        else if s.hasClaimed row.1.mailId accepted ∨ row.1.status ≠ .pending
            ∨ instant < row.1.notBefore then .ok .nothing
        else .ok (.due row)
  else valueError "Alert ref 必须包含 source_id/event_id/mail_id"

/-- The row `select_alert` looks at. -/
def Store.findAlert (s : Store) (accepted : AcceptedTurn) (instant : String) :
    Option Json → Except PyError Found
  | some itemRef => s.exactAlert accepted instant itemRef
  | none => .ok (match s.dueAlert instant with
      | some row => .due row
      | none => .nothing)

/-- The condition of the `UPDATE` of `select_alert`. -/
def Alert.isClaimable (row : Alert) (a : Alert) : Bool :=
  a.key = row.key && a.mailId = row.mailId && a.status = .pending

/-- The row a claim leaves. -/
def Alert.claim (turn : AcceptedTurn) (a : Alert) : Alert :=
  { a with status := .selected turn }

/-- `EventMailStore.select_alert`. -/
def Store.selectAlert (digest : Detail → String) (now : String) (acceptedTurn : Json)
    (instant : Datetime) (itemRef : Option Json) (s : Store) :
    Except PyError (Option AlertView × Store) := do
  let accepted ← normalizeAcceptedTurn acceptedTurn
  let instant ← awareUtc instant
  let s ← s.expireAlerts digest now instant
  match ← s.findAlert accepted instant itemRef with
  | .nothing => .ok (none, s)
  | .live row => do
      let view ← alertView accepted row
      return (some view, s)
  | .due row => do
      let t ← s.writeAlerts
        (Table.update (Alert.isClaimable row.1) (Alert.claim accepted) s.alertProjection.rows)
      if s.alertProjection.rows.countP (Alert.isClaimable row.1) ≠ 1 then .ok (none, t)
      else do
        let view ← alertView accepted row
        return (some view, t.logAlert digest now row.1.mailId .selected (.turn accepted))

/-! ### Endings -/

/-- The row `_transition_alert` leaves. -/
def Alert.finish (status : AlertStatus) (notBefore : Option String) (a : Alert) : Alert :=
  { a with status := status, notBefore := notBefore.getD a.notBefore }

/-- The projection of an event that a turn has claimed, with the turn. -/
def Store.claimedAlert? (s : Store) (key : String × String) : Option (Alert × AcceptedTurn) := do
  let a ← s.alert? key
  match a.status with
  | .selected turn => some (a, turn)
  | _ => none

/-- The detail of a change: `{}`, or the new `not_before`. -/
def deferral : Option String → Detail
  | none => .empty
  | some t => .notBefore t

/-- `_transition_alert` after its arguments are checked. -/
def Store.transitionAlert (digest : Detail → String) (now : String) (key : String × String)
    (status : AlertStatus) (action : Action) (notBefore : Option String)
    (expected : Option (String × AcceptedTurn)) (expiresBefore : Option String) (s : Store) :
    Except PyError (Bool × Store) :=
  match s.claimedAlert? key with
  | none =>
      if expected.isSome then .ok (false, s)
      else runtimeError "EventMail Alert transition 未命中 selected row"
  | some (row, turn) =>
      if expected.any fun e => (row.mailId, turn) ≠ e then .ok (false, s)
      else if expiresBefore.any fun instant => row.expiresAt.all fun e => instant < e then
        .ok (false, s)
      else do
        let s ← s.writeAlerts
          (Table.update (fun a => a.key = key) (Alert.finish status notBefore)
            s.alertProjection.rows)
        return (true, s.logAlert digest now row.mailId action (deferral notBefore))

/-- `EventMailStore.defer_alert`. -/
def Store.deferAlert (digest : Detail → String) (now : String) (sourceId eventId : Json)
    (notBefore : Datetime) (s : Store) : Except PyError Store := do
  let notBefore ← awareUtc notBefore
  let source ← identity "source_id" (some sourceId)
  let event ← identity "event_id" (some eventId)
  let (_, s) ← s.transitionAlert digest now (source, event) .pending .deferred (some notBefore)
    none none
  return s

/-- The status `close_alert` leads to, and the action it logs. -/
def closingOf (status : String) : Except PyError (AlertStatus × Action) :=
  if status = "delivered" then .ok (.delivered, .delivered)
  else if status = "skipped" then .ok (.skipped, .skipped)
  else valueError "Alert close status 必须是 delivered 或 skipped"

/-- `EventMailStore.close_alert`. -/
def Store.closeAlert (digest : Detail → String) (now : String) (sourceId eventId : Json)
    (status : String) (s : Store) : Except PyError Store := do
  let (status, action) ← closingOf status
  let source ← identity "source_id" (some sourceId)
  let event ← identity "event_id" (some eventId)
  let (_, s) ← s.transitionAlert digest now (source, event) status action none none none
  return s

/-- The status a change leads to, and the action it logs. -/
def changeOf (action : String) : Option (AlertStatus × Action) :=
  if action = "defer" then some (.pending, .deferred)
  else if action = "expire" then some (.expired, .expired)
  else if action = "deliver" then some (.delivered, .delivered)
  else if action = "skip" then some (.skipped, .skipped)
  else none

/-- The action and the reference of `change_alert`, checked. -/
def changeArguments (itemRef : Json) (action : String) (deferred : Bool) :
    Except PyError (AlertStatus × Action) :=
  match changeOf action with
  | none => valueError "Alert 原领取的结算参数无效"
  | some change =>
      if ¬(Json.keys (mappingFields itemRef)).Perm ["source_id", "event_id", "mail_id"] then
        valueError "Alert 原领取的结算参数无效"
      else if (action = "defer") ≠ deferred then valueError "只有 Alert defer 必须指定 not_before"
      else .ok change

/-- `EventMailStore.change_alert`. -/
def Store.changeAlert (digest : Detail → String) (now : String) (itemRef acceptedTurn : Json)
    (action : String) (instant : Datetime) (notBefore : Option Datetime) (s : Store) :
    Except PyError (Bool × Store) := do
  let (status, logged) ← changeArguments itemRef action notBefore.isSome
  let _ ← (mappingFields itemRef).mapM fun (key, value) => identity key (some value)
  let source ← identity "source_id" (itemRef.get? "source_id")
  let event ← identity "event_id" (itemRef.get? "event_id")
  let mail ← identity "mail_id" (itemRef.get? "mail_id")
  let accepted ← normalizeAcceptedTurn acceptedTurn
  let instant ← awareUtc instant
  let notBefore ← notBefore.mapM awareUtc
  s.transitionAlert digest now (source, event) status logged notBefore (some (mail, accepted))
    (if action = "expire" then some instant else none)

/-! ### The rows of the projection -/

theorem Store.alerts_unique (s : Store) :
    Table.Unique (fun a => some a.key) s.alertProjection.rows :=
  s.alertProjection.holds (onKey _ fun a => (a.sourceId, a.eventId)) List.mem_cons_self

variable {a : Alert} {s t : Store}

theorem Store.alert_ext {b : Alert} (ha : a ∈ s.alertProjection.rows)
    (hb : b ∈ s.alertProjection.rows) (hkey : a.key = b.key) : a = b :=
  s.alerts_unique.eq_of_key ha hb rfl (congrArg some hkey.symm)

theorem Store.alert_mail_ext {b : Alert} (ha : a ∈ s.alertProjection.rows)
    (hb : b ∈ s.alertProjection.rows) (hmail : a.mailId = b.mailId) : a = b := by
  have hindex := s.alertProjection.holds (onKey "alert_projection.mail_id" Alert.mailId)
    (List.mem_cons_of_mem _ List.mem_cons_self)
  exact Table.Unique.eq_of_key hindex ha hb rfl (congrArg some hmail.symm)

theorem Store.alert?_eq_some {key : String × String} :
    s.alert? key = some a ↔ a ∈ s.alertProjection.rows ∧ a.key = key :=
  Table.find?_eq_some_iff s.alerts_unique

theorem Store.writeAlerts_eq_ok {rows : List Alert} :
    s.writeAlerts rows = .ok t ↔
      ∃ p : Table.Rows alertIndexes, p.rows = rows ∧ t = { s with alertProjection := p } :=
  map_write_eq_ok

section Log

variable (digest : Detail → String) (now mail : String) (action : Action) (detail : Detail)
  (s : Store)

@[simp] theorem Store.logAlert_alerts :
    (s.logAlert digest now mail action detail).alertProjection = s.alertProjection := rfl

@[simp] theorem Store.logAlert_envelopes :
    (s.logAlert digest now mail action detail).mailEnvelopes = s.mailEnvelopes := rfl

end Log

/-- A log to which transitions of alerts were added. -/
def GrowsBy (kind : Kind) (log log' : List MailTransition) : Prop :=
  ∃ more, log' = log ++ more ∧ ∀ x ∈ more, x.kind = kind

theorem GrowsBy.refl (kind : Kind) (log : List MailTransition) : GrowsBy kind log log :=
  ⟨[], (List.append_nil _).symm, by simp⟩

theorem GrowsBy.trans {kind : Kind} {log log' log'' : List MailTransition}
    (h : GrowsBy kind log log') (h' : GrowsBy kind log' log'') : GrowsBy kind log log'' := by
  obtain ⟨more, rfl, hmore⟩ := h
  obtain ⟨more', rfl, hmore'⟩ := h'
  refine ⟨more ++ more', List.append_assoc .., fun x hx => ?_⟩
  rcases List.mem_append.mp hx with hx | hx
  · exact hmore x hx
  · exact hmore' x hx

theorem GrowsBy.mem {kind : Kind} {log log' : List MailTransition} (h : GrowsBy kind log log')
    {x : MailTransition} (hx : x ∈ log) : x ∈ log' := by
  obtain ⟨more, rfl, -⟩ := h
  exact List.mem_append_left _ hx

theorem growsBy_appendTransition (digest : Detail → String) (now mail : String) (kind : Kind)
    (action : Action) (detail : Detail) (log : List MailTransition) :
    GrowsBy kind log (appendTransition digest now mail kind action detail log) := by
  rw [appendTransition]
  split
  · exact .refl kind log
  · exact ⟨_, rfl, fun x hx => by rw [List.mem_singleton.mp hx]⟩

theorem foldl_logAlert (digest : Detail → String) (now : String) (overdue : List Alert)
    (s : Store) : ∃ log, GrowsBy .alert s.mailTransitions log ∧
      overdue.foldl (fun s a => s.logAlert digest now a.mailId .expired .empty) s
        = { s with mailTransitions := log } := by
  induction overdue generalizing s with
  | nil => exact ⟨_, .refl .alert _, rfl⟩
  | cons a overdue ih =>
      obtain ⟨log, hlog, heq⟩ := ih (s.logAlert digest now a.mailId .expired .empty)
      exact ⟨log, (growsBy_appendTransition ..).trans hlog, heq⟩

/-! ### Changes of rows -/

/-- Whether an alert has ended. -/
def AlertStatus.isFinal : AlertStatus → Bool
  | .delivered | .skipped | .expired => true
  | .pending | .selected _ => false

/-- What a statement other than a claim makes of a row under its envelope. -/
inductive Alert.Step (a : Alert) : Alert → Prop
  | expire (h : a.status.isFinal = false) : a.Step a.expire
  | finish (turn : AcceptedTurn) (status : AlertStatus) (notBefore : Option String)
      (h : a.status = .selected turn) (hstatus : ∀ turn, status ≠ .selected turn) :
      a.Step (a.finish status notBefore)

/-- What several statements make of a row under its envelope: an ended alert stays as it
is, and a claim that is still there is the one from before. -/
structure Alert.Steps (a a' : Alert) : Prop where
  key : a'.key = a.key
  mailId : a'.mailId = a.mailId
  final : a.status.isFinal = true → a' = a
  selected : ∀ turn, a'.status = .selected turn → a' = a

theorem Alert.Steps.refl (a : Alert) : a.Steps a :=
  ⟨rfl, rfl, fun _ => rfl, fun _ _ => rfl⟩

theorem Alert.Steps.trans {a' a'' : Alert} (h : a.Steps a') (h' : a'.Steps a'') :
    a.Steps a'' where
  key := h'.key.trans h.key
  mailId := h'.mailId.trans h.mailId
  final hfinal := by
    obtain rfl := h.final hfinal
    exact h'.final hfinal
  selected turn hturn := by
    obtain rfl := h'.selected turn hturn
    exact h.selected turn hturn

theorem Alert.Step.steps {a' : Alert} (h : a.Step a') : a.Steps a' := by
  cases h with
  | expire h =>
      refine ⟨rfl, rfl, fun hfinal => ?_, fun turn hturn => by cases hturn⟩
      rw [h] at hfinal
      cases hfinal
  | finish turn status notBefore h hstatus =>
      refine ⟨rfl, rfl, fun hfinal => ?_, fun turn' hturn' => absurd hturn' (hstatus turn')⟩
      rw [h] at hfinal
      cases hfinal

/-- A store after statements that change rows of the projection and add to the log. -/
structure Store.Updated (s t : Store) : Prop where
  envelopes : t.mailEnvelopes = s.mailEnvelopes
  log : GrowsBy .alert s.mailTransitions t.mailTransitions
  rows : ∃ f : Alert → Alert, t.alertProjection.rows = s.alertProjection.rows.map f ∧
    ∀ a ∈ s.alertProjection.rows, a.Steps (f a)

theorem Store.Updated.refl (s : Store) : s.Updated s :=
  ⟨rfl, .refl .alert _, id, (List.map_id _).symm, fun a _ => .refl a⟩

theorem Store.Updated.trans {u : Store} (h : s.Updated t) (h' : t.Updated u) : s.Updated u := by
  obtain ⟨f, hf, hsteps⟩ := h.rows
  obtain ⟨g, hg, hsteps'⟩ := h'.rows
  refine ⟨h'.envelopes.trans h.envelopes, h.log.trans h'.log, g ∘ f, ?_, fun a ha => ?_⟩
  · rw [hg, hf, List.map_map]
  · exact (hsteps a ha).trans (hsteps' (f a) (hf ▸ List.mem_map_of_mem ha))

theorem Store.updated_logAlert (digest : Detail → String) (now mail : String) (action : Action)
    (detail : Detail) (s : Store) : s.Updated (s.logAlert digest now mail action detail) :=
  ⟨rfl, growsBy_appendTransition .., id, (List.map_id _).symm, fun a _ => .refl a⟩

theorem Store.updated_writeAlerts {p : Alert → Bool} {f : Alert → Alert}
    (h : s.writeAlerts (Table.update p f s.alertProjection.rows) = .ok t)
    (hstep : ∀ a ∈ s.alertProjection.rows, p a = true → a.Step (f a)) : s.Updated t := by
  obtain ⟨rows, hrows, rfl⟩ := Store.writeAlerts_eq_ok.mp h
  refine ⟨rfl, .refl .alert _, _, hrows, fun a ha => ?_⟩
  split
  · next hp => exact (hstep a ha hp).steps
  · exact .refl a

theorem Store.Updated.origin (h : s.Updated t) {a' : Alert} (ha' : a' ∈ t.alertProjection.rows) :
    ∃ a ∈ s.alertProjection.rows, a.Steps a' := by
  obtain ⟨f, hf, hsteps⟩ := h.rows
  rw [hf, List.mem_map] at ha'
  obtain ⟨a, ha, rfl⟩ := ha'
  exact ⟨a, ha, hsteps a ha⟩

theorem Store.Updated.successor (h : s.Updated t) (ha : a ∈ s.alertProjection.rows) :
    ∃ a' ∈ t.alertProjection.rows, a.Steps a' := by
  obtain ⟨f, hf, hsteps⟩ := h.rows
  exact ⟨f a, hf ▸ List.mem_map_of_mem ha, hsteps a ha⟩

/-! ### Calls -/

section Calls

variable {digest : Detail → String} {now : String} {s t : Store}

theorem Alert.step_overdue {instant : String} (h : a.isOverdue instant = true) :
    a.Step a.expire := by
  rw [Alert.isOverdue, Bool.and_eq_true, decide_eq_true_eq] at h
  exact .expire (by rw [h.1]; rfl)

theorem Store.expireAlerts_updated {instant : String}
    (h : s.expireAlerts digest now instant = .ok t) : s.Updated t := by
  rw [Store.expireAlerts] at h
  obtain ⟨log, hlog, hfold⟩ := foldl_logAlert digest now
    ((s.alertProjection.rows.filter (Alert.isOverdue instant)).insertionSort
      fun a b => a.before b) s
  rw [hfold] at h
  have hstatement := Store.updated_writeAlerts h fun a _ => Alert.step_overdue
  exact ⟨hstatement.envelopes, hlog.trans hstatement.log, hstatement.rows⟩

theorem Store.alertDeadline_updated {instant : Datetime} {answer : Option String}
    (h : s.alertDeadline digest now instant = .ok (answer, t)) : s.Updated t := by
  obtain ⟨text, -, h⟩ := bind_eq_ok.mp h
  obtain ⟨t', hexpire, h⟩ := bind_eq_ok.mp h
  cases h
  exact expireAlerts_updated hexpire

variable {answer : Bool}

/-- `expire_alert` ends the alert it names, if it is open and past its end. -/
theorem Store.expireAlert_eq_ok {sourceId eventId : Json} {instant : Datetime}
    (h : s.expireAlert digest now sourceId eventId instant = .ok (answer, t)) :
    (answer = false ∧ t = s) ∨
      answer = true ∧ s.Updated t ∧ ∃ key a, s.alert? key = some a ∧ a.status.isFinal = false ∧
        t.alertProjection.rows
          = Table.update (fun a => a.key = key) Alert.expire s.alertProjection.rows := by
  rw [Store.expireAlert] at h
  obtain ⟨source, -, h⟩ := bind_eq_ok.mp h
  obtain ⟨event, -, h⟩ := bind_eq_ok.mp h
  obtain ⟨text, -, h⟩ := bind_eq_ok.mp h
  split at h
  · cases h
    exact .inl ⟨rfl, rfl⟩
  · next row hrow =>
      split_ifs at h with hcan
      · cases h
        exact .inl ⟨rfl, rfl⟩
      · obtain ⟨t', hwrite, h⟩ := bind_eq_ok.mp h
        cases h
        have hlive : row.status.isFinal = false := by
          rw [Bool.not_eq_false, Alert.canExpire] at hcan
          split at hcan <;> simp_all [AlertStatus.isFinal]
        refine .inr ⟨rfl, ?_, (source, event), row, hrow, hlive, ?_⟩
        · refine (Store.updated_writeAlerts hwrite fun a ha hkey => ?_).trans
            (Store.updated_logAlert ..)
          obtain ⟨hmem, hrowkey⟩ := Store.alert?_eq_some.mp hrow
          rw [Store.alert_ext ha hmem ((of_decide_eq_true hkey).trans hrowkey.symm)]
          exact .expire hlive
        · obtain ⟨rows, hrows, rfl⟩ := Store.writeAlerts_eq_ok.mp hwrite
          exact hrows

variable {key : String × String}

theorem Store.claimedAlert?_eq_some {turn : AcceptedTurn} :
    s.claimedAlert? key = some (a, turn) ↔ s.alert? key = some a ∧ a.status = .selected turn := by
  rw [Store.claimedAlert?]
  cases s.alert? key with
  | none => simp
  | some row =>
      simp only [Option.bind_eq_bind, Option.bind_some, Option.some.injEq]
      constructor
      · intro h
        split at h
        · next turn' hturn =>
            obtain ⟨rfl, rfl⟩ := Prod.mk.inj (Option.some.inj h)
            exact ⟨rfl, hturn⟩
        · cases h
      · rintro ⟨rfl, hturn⟩
        rw [hturn]

/-- `_transition_alert` ends the claim that is live, when it is the one expected. -/
theorem Store.transitionAlert_eq_ok {status : AlertStatus} {action : Action}
    {notBefore : Option String} {expected : Option (String × AcceptedTurn)}
    {expiresBefore : Option String}
    (h : s.transitionAlert digest now key status action notBefore expected expiresBefore
      = .ok (answer, t)) :
    (answer = false ∧ t = s) ∨
      answer = true ∧ ∃ a turn, s.alert? key = some a ∧ a.status = .selected turn ∧
        (∀ e, expected = some e → e = (a.mailId, turn)) ∧
        ∃ rows : Table.Rows alertIndexes,
          rows.rows = Table.update (fun a => a.key = key) (Alert.finish status notBefore)
            s.alertProjection.rows ∧
          t = Store.logAlert digest now a.mailId action (deferral notBefore)
            { s with alertProjection := rows } := by
  rw [Store.transitionAlert] at h
  split at h
  · split_ifs at h
    · cases h
      exact .inl ⟨rfl, rfl⟩
    · cases h
  · next row turn hclaimed =>
      obtain ⟨hrow, hturn⟩ := Store.claimedAlert?_eq_some.mp hclaimed
      split_ifs at h with hexpected hbefore
      · cases h
        exact .inl ⟨rfl, rfl⟩
      · cases h
        exact .inl ⟨rfl, rfl⟩
      · obtain ⟨t', hwrite, h⟩ := bind_eq_ok.mp h
        cases h
        obtain ⟨rows, hrows, rfl⟩ := Store.writeAlerts_eq_ok.mp hwrite
        refine .inr ⟨rfl, row, turn, hrow, hturn, ?_, rows, hrows, rfl⟩
        rintro e rfl
        simpa using (eq_comm.mp (not_not.mp fun hne => hexpected (by simpa using hne)) :
          e = (row.mailId, turn))

theorem Store.transitionAlert_updated {status : AlertStatus} {action : Action}
    {notBefore : Option String} {expected : Option (String × AcceptedTurn)}
    {expiresBefore : Option String} (hstatus : ∀ turn, status ≠ .selected turn)
    (h : s.transitionAlert digest now key status action notBefore expected expiresBefore
      = .ok (answer, t)) : s.Updated t := by
  rcases Store.transitionAlert_eq_ok h with ⟨-, rfl⟩ | ⟨-, a, turn, ha, hturn, -, rows, hrows, rfl⟩
  · exact .refl _
  · refine Store.Updated.trans (Store.updated_writeAlerts
      (Store.writeAlerts_eq_ok.mpr ⟨rows, hrows, rfl⟩) fun b hb hkey => ?_)
      (Store.updated_logAlert ..)
    obtain ⟨hmem, hakey⟩ := Store.alert?_eq_some.mp ha
    rw [Store.alert_ext hb hmem ((of_decide_eq_true hkey).trans hakey.symm)]
    exact .finish turn status notBefore hturn hstatus

end Calls

/-! ### Selections -/

/-- What `select_alert` may do with a row: the row is of the projection, and a call with an
`item_ref` finds the mail it names, live for its own turn or not yet claimed by it. -/
def Store.Finds (s : Store) (accepted : AcceptedTurn) (itemRef : Option Json) : Found → Prop
  | .nothing => True
  | .live row =>
      row.1 ∈ s.alertProjection.rows ∧ row.1.status = .selected accepted ∧
        ∃ ref, itemRef = some ref ∧ ref.get? "mail_id" = some (.str row.1.mailId)
  | .due row =>
      row.1 ∈ s.alertProjection.rows ∧ row.1.status = .pending ∧
        ∀ ref, itemRef = some ref → ref.get? "mail_id" = some (.str row.1.mailId) ∧
          s.hasClaimed row.1.mailId accepted = false

section Select

variable {digest : Detail → String} {now : String} {s t : Store} {accepted : AcceptedTurn}

variable {row : Alert × Envelope}

theorem Store.mem_alertsWithEnvelopes (h : row ∈ s.alertsWithEnvelopes) :
    row.1 ∈ s.alertProjection.rows ∧ s.envelope? row.1.mailId = some row.2 := by
  obtain ⟨a, ha, hrow⟩ := List.mem_filterMap.mp h
  obtain ⟨e, he, rfl⟩ := Option.map_eq_some_iff.mp hrow
  exact ⟨ha, he⟩

variable {instant : String}

theorem Store.dueAlert_eq_some (h : s.dueAlert instant = some row) :
    row.1 ∈ s.alertProjection.rows ∧ row.1.status = .pending := by
  have hmem := List.argmin_mem h
  rw [List.mem_filter, Bool.and_eq_true, decide_eq_true_eq] at hmem
  exact ⟨(mem_alertsWithEnvelopes hmem.1).1, hmem.2.1⟩

theorem Store.exactAlert_finds {itemRef : Json} {found : Found}
    (h : s.exactAlert accepted instant itemRef = .ok found) :
    s.Finds accepted (some itemRef) found := by
  rw [Store.exactAlert] at h
  split_ifs at h with hkeys
  · obtain ⟨source, -, h⟩ := bind_eq_ok.mp h
    obtain ⟨event, -, h⟩ := bind_eq_ok.mp h
    split at h
    · cases h
      trivial
    · next row hrow =>
        have hmem := (mem_alertsWithEnvelopes (List.mem_of_find?_eq_some hrow)).1
        obtain ⟨mail, hmail, h⟩ := bind_eq_ok.mp h
        have hname := (identity_eq_ok hmail).1
        split_ifs at h with hne hlive hclosed
        · cases h
          trivial
        · cases h
          rw [not_not] at hne
          exact ⟨hmem, hlive, itemRef, rfl, hne ▸ hname⟩
        · cases h
          trivial
        · cases h
          rw [not_not] at hne
          rw [not_or, not_or, not_not] at hclosed
          refine ⟨hmem, hclosed.2.1, fun ref href => ?_⟩
          obtain rfl := Option.some.inj href
          exact ⟨hne ▸ hname, Bool.not_eq_true _ ▸ hclosed.1⟩
  · cases h

theorem Store.findAlert_finds {itemRef : Option Json} {found : Found}
    (h : s.findAlert accepted instant itemRef = .ok found) : s.Finds accepted itemRef found := by
  cases itemRef with
  | some ref => exact exactAlert_finds h
  | none =>
      obtain rfl := Except.ok.inj h
      split
      · next row hrow =>
          obtain ⟨hmem, hpending⟩ := dueAlert_eq_some hrow
          exact ⟨hmem, hpending, fun ref href => by cases href⟩
      · trivial

theorem Store.isClaimable_iff {row : Alert} (hrow : row ∈ s.alertProjection.rows)
    (hpending : row.status = .pending) (ha : a ∈ s.alertProjection.rows) :
    row.isClaimable a = true ↔ a = row := by
  simp only [Alert.isClaimable, Bool.and_eq_true, decide_eq_true_eq]
  constructor
  · rintro ⟨⟨hkey, -⟩, -⟩
    exact Store.alert_ext ha hrow hkey
  · rintro rfl
    exact ⟨⟨rfl, rfl⟩, hpending⟩

theorem Store.countP_isClaimable {row : Alert} (hrow : row ∈ s.alertProjection.rows)
    (hpending : row.status = .pending) :
    s.alertProjection.rows.countP (Alert.isClaimable row) = 1 :=
  Table.countP_eq_one s.alerts_unique.nodup hrow fun _ ha => isClaimable_iff hrow hpending ha

/-- What a claim leaves: its row selected, and the claim in the log. -/
def Store.claimed (digest : Detail → String) (now : String) (accepted : AcceptedTurn)
    (row : Alert) (rows : Table.Rows alertIndexes) (s : Store) : Store :=
  Store.logAlert digest now row.mailId .selected (.turn accepted) { s with alertProjection := rows }

/-- **What `select_alert` does.** It ends overdue alerts, and then finds nothing, shows a live
claim of the turn, or claims a pending alert. -/
theorem Store.selectAlert_eq_ok {acceptedTurn : Json} {instant : Datetime}
    {itemRef : Option Json} {answer : Option AlertView}
    (h : s.selectAlert digest now acceptedTurn instant itemRef = .ok (answer, t)) :
    ∃ accepted s₁, normalizeAcceptedTurn acceptedTurn = .ok accepted ∧ s.Updated s₁ ∧
      ((answer = none ∧ t = s₁) ∨
        (∃ row view, alertView accepted row = .ok view ∧ answer = some view ∧ t = s₁ ∧
          s₁.Finds accepted itemRef (.live row)) ∨
        ∃ row view rows, alertView accepted row = .ok view ∧ answer = some view ∧
          s₁.Finds accepted itemRef (.due row) ∧
          rows.rows = Table.update (Alert.isClaimable row.1) (Alert.claim accepted)
            s₁.alertProjection.rows ∧
          t = s₁.claimed digest now accepted row.1 rows) := by
  rw [Store.selectAlert] at h
  obtain ⟨accepted, haccepted, h⟩ := bind_eq_ok.mp h
  obtain ⟨text, -, h⟩ := bind_eq_ok.mp h
  obtain ⟨s₁, hexpire, h⟩ := bind_eq_ok.mp h
  obtain ⟨found, hfound, h⟩ := bind_eq_ok.mp h
  have hfinds := findAlert_finds hfound
  refine ⟨accepted, s₁, haccepted, expireAlerts_updated hexpire, ?_⟩
  cases found with
  | nothing =>
      cases h
      exact .inl ⟨rfl, rfl⟩
  | live row =>
      obtain ⟨view, hview, h⟩ := bind_eq_ok.mp h
      cases h
      exact .inr (.inl ⟨row, view, hview, rfl, rfl, hfinds⟩)
  | due row =>
      obtain ⟨t', hwrite, h⟩ := bind_eq_ok.mp h
      obtain ⟨rows, hrows, rfl⟩ := Store.writeAlerts_eq_ok.mp hwrite
      rw [countP_isClaimable hfinds.1 hfinds.2.1, if_neg (not_not.mpr rfl)] at h
      obtain ⟨view, hview, h⟩ := bind_eq_ok.mp h
      cases h
      exact .inr (.inr ⟨row, view, rows, hview, rfl, hfinds, hrows, rfl⟩)

end Select

/-! ### Publications -/

/-- Every projection points to the envelope of a report of its event. -/
def Store.Sound (s : Store) : Prop :=
  ∀ a ∈ s.alertProjection.rows, ∃ e, s.envelope? a.mailId = some e ∧
    a.mailId = mailId .alert a.sourceId a.eventId e.observedAt

section Report

variable {digest : Detail → String} {now : String} {s t : Store}

variable {e : Envelope}

theorem Store.envelope?_mono (h : s.mailEnvelopes.rows <+: t.mailEnvelopes.rows) {id : String}
    (he : s.envelope? id = some e) : t.envelope? id = some e := by
  obtain ⟨more, hmore⟩ := h
  rw [Store.envelope?, ← hmore, List.find?_append]
  rw [Store.envelope?] at he
  rw [he, Option.some_or]

/-- `_append_envelope` leaves an envelope of the contents, and only appends. -/
theorem Store.appendEnvelope_eq_ok {inserted : Bool} (h : s.appendEnvelope e = .ok (inserted, t)) :
    ∃ envelopes : Table.Rows envelopeIndexes, t = { s with mailEnvelopes := envelopes } ∧
      s.mailEnvelopes.rows <+: envelopes.rows ∧
      ∃ row, t.envelope? e.mailId = some row ∧ row.sameContents e = true := by
  rcases Store.appendEnvelope_cases h with ⟨-, rfl, row, hrow, hid, hsame⟩ |
    ⟨-, -, envelopes, hrows, rfl⟩
  · exact ⟨t.mailEnvelopes, rfl, List.prefix_rfl, row,
      Store.envelope?_eq_some.mpr ⟨hrow, hid⟩, hsame⟩
  · refine ⟨envelopes, rfl, hrows ▸ List.prefix_append _ _, e, ?_, ?_⟩
    · rw [Store.envelope?_eq_some, hrows]
      exact ⟨List.mem_append_right _ (List.mem_singleton_self e), rfl⟩
    · simp [Envelope.sameContents]

theorem Envelope.observedAt_eq {e' : Envelope} (h : e.sameContents e' = true) :
    e.observedAt = e'.observedAt := by
  rw [Envelope.sameContents, decide_eq_true_eq] at h
  injection h with _ h
  injection h

/-- The row of an event after an `UPSERT` is the new one; the other rows stay. -/
theorem mem_upsertAlert {alert : Alert} {rows : List Alert} :
    a ∈ upsertAlert alert rows ↔ a = alert ∨ a ∈ rows ∧ a.key ≠ alert.key := by
  rw [upsertAlert]
  split_ifs with hany
  · rw [List.any_eq_true] at hany
    obtain ⟨old, hold, hkey⟩ := hany
    rw [decide_eq_true_eq] at hkey
    have hrow : ∀ b : Alert, b.key = alert.key → { b with
        mailId := alert.mailId, status := alert.status, notBefore := alert.notBefore,
        expiresAt := alert.expiresAt } = alert := by
      rintro b hb
      obtain ⟨hsource, hevent⟩ := Prod.mk.inj hb
      cases alert
      simp_all
    rw [Table.mem_update]
    constructor
    · rintro ⟨b, hb, rfl⟩
      split
      · next hkey' => exact .inl (hrow b (of_decide_eq_true hkey'))
      · next hkey' => exact .inr ⟨hb, fun heq => hkey' (decide_eq_true heq)⟩
    · rintro (rfl | ⟨ha, hne⟩)
      · exact ⟨old, hold, by rw [if_pos (decide_eq_true hkey), hrow old hkey]⟩
      · exact ⟨a, ha, if_neg fun heq => hne (of_decide_eq_true heq)⟩
  · rw [List.mem_append, List.mem_singleton, or_comm]
    refine or_congr_right (iff_self_and.mpr fun ha hkey => hany ?_)
    exact List.any_eq_true.mpr ⟨a, ha, decide_eq_true hkey⟩

section Received

variable (digest : Detail → String) (now mail : String) (inserted : Bool) (s : Store)

@[simp] theorem Store.received_alerts :
    (s.received digest now mail inserted).alertProjection = s.alertProjection := by
  rw [Store.received]
  split <;> rfl

@[simp] theorem Store.received_envelopes :
    (s.received digest now mail inserted).mailEnvelopes = s.mailEnvelopes := by
  rw [Store.received]
  split <;> rfl

theorem Store.received_updated : s.Updated (s.received digest now mail inserted) := by
  rw [Store.received]
  split
  · exact Store.updated_logAlert ..
  · exact .refl s

end Received

theorem Store.currentAlert?_eq_some {key : String × String} {mail observed : String} :
    s.currentAlert? key = some (mail, observed) ↔
      ∃ a e, s.alert? key = some a ∧ s.envelope? a.mailId = some e ∧ a.mailId = mail ∧
        e.observedAt = observed := by
  simp [Store.currentAlert?, Option.bind_eq_some_iff]

/-- **What a publication makes of the projection.** The alert is the row of its event, unless
the event has a row of a later time, or of this mail. -/
inductive Store.Publishes (s t : Store) (alert : Alert) : Prop
  | older (a : Alert) (e : Envelope) (ha : s.alert? alert.key = some a)
      (he : s.envelope? a.mailId = some e) (hle : alert.notBefore ≤ e.observedAt)
      (h : t.alertProjection = s.alertProjection)
  | newer (hlt : ∀ a e, s.alert? alert.key = some a → s.envelope? a.mailId = some e →
        e.observedAt < alert.notBefore)
      (h : t.alertProjection.rows = upsertAlert alert s.alertProjection.rows)

theorem Store.publishAlert_eq_ok {alert : Alert} {inserted accepted : Bool}
    {projected : Option Bool} (hsound : s.Sound)
    (hmail : alert.mailId = mailId .alert alert.sourceId alert.eventId alert.notBefore)
    (henvelope : ∃ e, s.envelope? alert.mailId = some e ∧ e.observedAt = alert.notBefore)
    (h : s.publishAlert digest now alert inserted = .ok (projected, accepted, t)) :
    t.mailEnvelopes = s.mailEnvelopes ∧ GrowsBy .alert s.mailTransitions t.mailTransitions ∧
      s.Publishes t alert := by
  rw [Store.publishAlert] at h
  split at h
  · next mail observed hcurrent =>
      obtain ⟨a, e, ha, he, rfl, rfl⟩ := Store.currentAlert?_eq_some.mp hcurrent
      split_ifs at h with hsame hlt
      · cases h
        obtain ⟨e', he', hobserved⟩ := henvelope
        rw [← hsame, he] at he'
        obtain rfl := Option.some.inj he'
        exact ⟨rfl, .refl .alert _, .older a e ha he hobserved.ge rfl⟩
      · cases h
        exact ⟨by simp, (received_updated ..).log.trans (growsBy_appendTransition ..),
          .older a e ha he hlt.le (by simp)⟩
      · cases h
        exact ⟨by simp, (received_updated ..).log, .older a e ha he hlt.le (by simp)⟩
      · obtain ⟨t', hwrite, h⟩ := bind_eq_ok.mp h
        cases h
        obtain ⟨rows, hrows, rfl⟩ := Store.writeAlerts_eq_ok.mp hwrite
        refine ⟨by simp, .trans ?_ (received_updated ..).log, .newer ?_ ?_⟩
        · exact growsBy_appendTransition ..
        · rintro b e' hb he'
          obtain rfl := Option.some.inj (ha.symm.trans hb)
          obtain rfl := Option.some.inj (he.symm.trans he')
          refine lt_of_le_of_ne (not_lt.mp hlt) fun hobserved => hsame ?_
          obtain ⟨hmem, hkey⟩ := Store.alert?_eq_some.mp ha
          obtain ⟨e₁, he₁, hid⟩ := hsound a hmem
          obtain rfl := Option.some.inj (he.symm.trans he₁)
          obtain ⟨hsource, hevent⟩ := Prod.mk.inj hkey
          rw [hid, hmail, hobserved, hsource, hevent]
        · rw [received_alerts]
          exact hrows
  · next hcurrent =>
      obtain ⟨t', hwrite, h⟩ := bind_eq_ok.mp h
      cases h
      obtain ⟨rows, hrows, rfl⟩ := Store.writeAlerts_eq_ok.mp hwrite
      refine ⟨by simp, .trans ?_ (received_updated ..).log, .newer ?_ ?_⟩
      · exact .refl .alert _
      · intro a e ha he
        have hsome := Store.currentAlert?_eq_some.mpr ⟨a, e, ha, he, rfl, rfl⟩
        rw [hcurrent] at hsome
        cases hsome
      · rw [received_alerts]
        exact hrows

/-- A store after a report of an event at a time: the envelope of the report is there, and
its event has a row of this time or a later one. -/
structure Store.Reported (s t : Store) (key : String × String) (mail observed : String) : Prop where
  envelopes : s.mailEnvelopes.rows <+: t.mailEnvelopes.rows
  log : GrowsBy .alert s.mailTransitions t.mailTransitions
  envelope : ∃ e, t.envelope? mail = some e ∧ e.observedAt = observed
  alert :
    (t.alertProjection = s.alertProjection ∧ ∃ a ∈ s.alertProjection.rows, a.key = key ∧
      ∃ e, t.envelope? a.mailId = some e ∧ observed ≤ e.observedAt) ∨
    ((∀ a ∈ s.alertProjection.rows, a.key = key → ∀ e, t.envelope? a.mailId = some e →
        e.observedAt < observed) ∧
      ∃ alert : Alert, alert.key = key ∧ alert.mailId = mail ∧ alert.status = .pending ∧
        t.alertProjection.rows = upsertAlert alert s.alertProjection.rows)

/-- **What `report_alert` does.** -/
theorem Store.reportAlert_eq_ok {sourceId eventId payload : Json} {observedAt : Datetime}
    {expiresAt : Option Datetime} {r : AlertReport} (hsound : s.Sound)
    (h : s.reportAlert digest now sourceId eventId payload observedAt expiresAt = .ok (r, t)) :
    ∃ observed, awareUtc observedAt = .ok observed ∧
      r.mailId = mailId .alert r.sourceId r.eventId observed ∧
      s.Reported t (r.sourceId, r.eventId) r.mailId observed := by
  rw [Store.reportAlert] at h
  obtain ⟨source, -, h⟩ := bind_eq_ok.mp h
  obtain ⟨event, -, h⟩ := bind_eq_ok.mp h
  obtain ⟨observed, hobserved, h⟩ := bind_eq_ok.mp h
  obtain ⟨expiry, -, h⟩ := bind_eq_ok.mp h
  split_ifs at h with hexpiry
  · cases h
  · obtain ⟨encoded, -, h⟩ := bind_eq_ok.mp h
    obtain ⟨⟨inserted, s₁⟩, happend, h⟩ := bind_eq_ok.mp h
    obtain ⟨⟨projected, accepted, t'⟩, hpublish, h⟩ := bind_eq_ok.mp h
    cases h
    obtain ⟨envelopes, rfl, hprefix, row, hrow, hsame⟩ := appendEnvelope_eq_ok happend
    have hobs := Envelope.observedAt_eq hsame
    have hsound₁ : Store.Sound { s with mailEnvelopes := envelopes } := by
      intro a ha
      obtain ⟨e, he, hid⟩ := hsound a ha
      exact ⟨e, Store.envelope?_mono (t := { s with mailEnvelopes := envelopes }) hprefix he, hid⟩
    obtain ⟨henvelopes, hlog, hpublishes⟩ :=
      publishAlert_eq_ok hsound₁ rfl ⟨row, hrow, hobs⟩ hpublish
    have hfind : ∀ id,
        t.envelope? id = Store.envelope? { s with mailEnvelopes := envelopes } id := by
      intro id
      rw [Store.envelope?, henvelopes]
      rfl
    refine ⟨observed, hobserved, rfl, henvelopes ▸ hprefix, hlog, ⟨row, (hfind _).trans hrow, hobs⟩,
      ?_⟩
    cases hpublishes with
    | older a e ha he hle h =>
        obtain ⟨hmem, hkey⟩ := Store.alert?_eq_some.mp ha
        exact .inl ⟨h, a, hmem, hkey, e, (hfind _).trans he, hle⟩
    | newer hlt h =>
        refine .inr ⟨fun a ha hkey e he => hlt a e ?_ ((hfind _).symm.trans he), _, rfl, rfl, rfl,
          h⟩
        exact Store.alert?_eq_some.mpr ⟨ha, hkey⟩

end Report

/-! ### Runs -/

/-- A call on the alerts. -/
inductive AlertCall where
  | report (now : String) (sourceId eventId payload : Json) (observedAt : Datetime)
      (expiresAt : Option Datetime)
  | deadline (now : String) (instant : Datetime)
  | select (now : String) (acceptedTurn : Json) (instant : Datetime) (itemRef : Option Json)
  | expire (now : String) (sourceId eventId : Json) (instant : Datetime)
  | change (now : String) (itemRef acceptedTurn : Json) (action : String) (instant : Datetime)
      (notBefore : Option Datetime)
  | defer (now : String) (sourceId eventId : Json) (notBefore : Datetime)
  | close (now : String) (sourceId eventId : Json) (status : String)

/-- What a call answers. -/
inductive AlertAnswer where
  | reported (r : AlertReport)
  | deadline (text : Option String)
  | selected (view : Option AlertView)
  | changed (answer : Bool)
  | done

/-- A call. -/
def AlertCall.exec (digest : Detail → String) (s : Store) :
    AlertCall → Except PyError (AlertAnswer × Store)
  | .report now sourceId eventId payload observedAt expiresAt =>
      (s.reportAlert digest now sourceId eventId payload observedAt expiresAt).map
        (Prod.map .reported id)
  | .deadline now instant => (s.alertDeadline digest now instant).map (Prod.map .deadline id)
  | .select now acceptedTurn instant itemRef =>
      (s.selectAlert digest now acceptedTurn instant itemRef).map (Prod.map .selected id)
  | .expire now sourceId eventId instant =>
      (s.expireAlert digest now sourceId eventId instant).map (Prod.map .changed id)
  | .change now itemRef acceptedTurn action instant notBefore =>
      (s.changeAlert digest now itemRef acceptedTurn action instant notBefore).map
        (Prod.map .changed id)
  | .defer now sourceId eventId notBefore =>
      (s.deferAlert digest now sourceId eventId notBefore).map (.done, ·)
  | .close now sourceId eventId status =>
      (s.closeAlert digest now sourceId eventId status).map (.done, ·)

/-- The store after a call: a call that raises is rolled back. -/
def AlertCall.after (digest : Detail → String) (s : Store) (call : AlertCall) : Store :=
  match call.exec digest s with
  | .ok (_, t) => t
  | .error _ => s

/-- The turn a selection is for. -/
def AlertCall.turn? : AlertCall → Option AcceptedTurn
  | .select _ acceptedTurn _ _ => (normalizeAcceptedTurn acceptedTurn).toOption
  | _ => none

/-- A report that was taken. -/
structure Report where
  key : String × String
  mailId : String
  observedAt : Datetime
  deriving DecidableEq

/-- The report a call has made. -/
def AlertCall.report? (digest : Detail → String) (s : Store) (call : AlertCall) : Option Report :=
  match call, call.exec digest s with
  | .report _ _ _ _ observedAt _, .ok (.reported r, _) =>
      some ⟨(r.sourceId, r.eventId), r.mailId, observedAt⟩
  | _, _ => none

/-- A store after a call that claims an alert, the others being ended where overdue. -/
structure Store.Claimed (digest : Detail → String) (s t : Store) (accepted : AcceptedTurn)
    (row : Alert) : Prop where
  claims : ∃ s₁ now rows, s.Updated s₁ ∧ row ∈ s₁.alertProjection.rows ∧ row.status = .pending ∧
    rows.rows = Table.update (Alert.isClaimable row) (Alert.claim accepted)
      s₁.alertProjection.rows ∧
    t = s₁.claimed digest now accepted row rows

/-- **Everything a call can make of the alerts.** -/
inductive Store.AlertMove (digest : Detail → String) (s t : Store) (call : AlertCall) : Prop
  | updated (hquiet : call.report? digest s = none) (h : s.Updated t)
  | claimed (accepted : AcceptedTurn) (row : Alert) (hquiet : call.report? digest s = none)
      (hturn : call.turn? = some accepted) (h : s.Claimed digest t accepted row)
  | reported (r : Report) (observed : String) (hreport : call.report? digest s = some r)
      (hobserved : awareUtc r.observedAt = .ok observed)
      (hmail : r.mailId = mailId .alert r.key.1 r.key.2 observed)
      (h : s.Reported t r.key r.mailId observed)

section Moves

variable {digest : Detail → String} {now : String} {s t : Store}

variable {action : String}

theorem changeOf_status {status : AlertStatus} {logged : Action}
    (h : changeOf action = some (status, logged)) : ∀ turn, status ≠ .selected turn := by
  rw [changeOf] at h
  split_ifs at h <;> cases h <;> exact fun _ h => by cases h

theorem changeArguments_eq_ok {itemRef : Json} {deferred : Bool} {change : AlertStatus × Action}
    (h : changeArguments itemRef action deferred = .ok change) : changeOf action = some change := by
  rw [changeArguments] at h
  split at h
  · cases h
  · next change' hchange =>
      split_ifs at h <;> cases h
      exact hchange

theorem Store.deferAlert_updated {sourceId eventId : Json} {notBefore : Datetime}
    (h : s.deferAlert digest now sourceId eventId notBefore = .ok t) : s.Updated t := by
  obtain ⟨text, -, h⟩ := bind_eq_ok.mp h
  obtain ⟨source, -, h⟩ := bind_eq_ok.mp h
  obtain ⟨event, -, h⟩ := bind_eq_ok.mp h
  obtain ⟨⟨answer, t'⟩, htransition, h⟩ := bind_eq_ok.mp h
  cases h
  exact transitionAlert_updated (fun _ h => by cases h) htransition

theorem Store.closeAlert_updated {sourceId eventId : Json} {status : String}
    (h : s.closeAlert digest now sourceId eventId status = .ok t) : s.Updated t := by
  obtain ⟨⟨status', action⟩, hstatus, h⟩ := bind_eq_ok.mp h
  obtain ⟨source, -, h⟩ := bind_eq_ok.mp h
  obtain ⟨event, -, h⟩ := bind_eq_ok.mp h
  obtain ⟨⟨answer, t'⟩, htransition, h⟩ := bind_eq_ok.mp h
  cases h
  refine transitionAlert_updated ?_ htransition
  rw [closingOf] at hstatus
  split_ifs at hstatus <;> cases hstatus <;> exact fun _ h => by cases h

theorem Store.changeAlert_eq_ok {itemRef acceptedTurn : Json} {instant : Datetime}
    {notBefore : Option Datetime} {answer : Bool}
    (h : s.changeAlert digest now itemRef acceptedTurn action instant notBefore
      = .ok (answer, t)) :
    s.Updated t ∧ (answer = true → ∃ a accepted, normalizeAcceptedTurn acceptedTurn = .ok accepted ∧
      itemRef.get? "source_id" = some (.str a.sourceId) ∧
      itemRef.get? "event_id" = some (.str a.eventId) ∧
      itemRef.get? "mail_id" = some (.str a.mailId) ∧
      a ∈ s.alertProjection.rows ∧ a.status = .selected accepted ∧
      ∃ a' ∈ t.alertProjection.rows, a'.mailId = a.mailId ∧
        ∀ turn, a'.status ≠ .selected turn) := by
  rw [Store.changeAlert] at h
  obtain ⟨⟨status, logged⟩, hchange, h⟩ := bind_eq_ok.mp h
  obtain ⟨_, -, h⟩ := bind_eq_ok.mp h
  obtain ⟨source, hsource, h⟩ := bind_eq_ok.mp h
  obtain ⟨event, hevent, h⟩ := bind_eq_ok.mp h
  obtain ⟨mail, hmail, h⟩ := bind_eq_ok.mp h
  obtain ⟨accepted, haccepted, h⟩ := bind_eq_ok.mp h
  obtain ⟨text, -, h⟩ := bind_eq_ok.mp h
  obtain ⟨later, -, h⟩ := bind_eq_ok.mp h
  have hstatus := changeOf_status (changeArguments_eq_ok hchange)
  refine ⟨transitionAlert_updated hstatus h, ?_⟩
  rintro rfl
  rcases transitionAlert_eq_ok h with ⟨habsurd, -⟩
    | ⟨-, a, turn, ha, hturn, hexpected, rows, hrows, rfl⟩
  · cases habsurd
  · obtain ⟨hmem, hkey⟩ := Store.alert?_eq_some.mp ha
    obtain ⟨rfl, rfl⟩ := Prod.mk.inj (hexpected _ rfl)
    obtain ⟨hs, he⟩ := Prod.mk.inj hkey
    refine ⟨a, accepted, haccepted, ?_, ?_, (identity_eq_ok hmail).1, hmem, hturn,
      a.finish status later, ?_, rfl, hstatus⟩
    · rw [hs]
      exact (identity_eq_ok hsource).1
    · rw [he]
      exact (identity_eq_ok hevent).1
    · change _ ∈ rows.rows
      rw [hrows, Table.mem_update]
      exact ⟨a, hmem, if_pos (decide_eq_true hkey)⟩

theorem AlertCall.moves (digest : Detail → String) (hsound : s.Sound) (call : AlertCall) :
    s.AlertMove digest (call.after digest s) call := by
  rw [AlertCall.after]
  split
  · next answer t hexec =>
      cases call with
      | report now sourceId eventId payload observedAt expiresAt =>
          obtain ⟨⟨r, t'⟩, hcall, heq⟩ := map_eq_ok.mp hexec
          cases heq
          obtain ⟨observed, hobserved, hmail, h⟩ := Store.reportAlert_eq_ok hsound hcall
          refine .reported ⟨(r.sourceId, r.eventId), r.mailId, observedAt⟩ observed ?_ hobserved
            hmail h
          simp only [AlertCall.report?, hexec]
      | deadline now instant =>
          obtain ⟨⟨r, t'⟩, hcall, heq⟩ := map_eq_ok.mp hexec
          cases heq
          exact .updated rfl (Store.alertDeadline_updated hcall)
      | select now acceptedTurn instant itemRef =>
          obtain ⟨⟨r, t'⟩, hcall, heq⟩ := map_eq_ok.mp hexec
          cases heq
          obtain ⟨accepted, s₁, haccepted, hs₁, hcases⟩ := Store.selectAlert_eq_ok hcall
          rcases hcases with ⟨-, rfl⟩ | ⟨row, view, -, -, rfl, -⟩
            | ⟨row, view, rows, -, -, ⟨hmem, hpending, -⟩, hrows, rfl⟩
          · exact .updated rfl hs₁
          · exact .updated rfl hs₁
          · refine .claimed accepted row.1 rfl ?_ ⟨s₁, now, rows, hs₁, hmem, hpending, hrows, rfl⟩
            rw [AlertCall.turn?, haccepted]
            rfl
      | expire now sourceId eventId instant =>
          obtain ⟨⟨r, t'⟩, hcall, heq⟩ := map_eq_ok.mp hexec
          cases heq
          rcases Store.expireAlert_eq_ok hcall with ⟨-, rfl⟩ | ⟨-, h, -⟩
          · exact .updated rfl (.refl _)
          · exact .updated rfl h
      | change now itemRef acceptedTurn action instant notBefore =>
          obtain ⟨⟨r, t'⟩, hcall, heq⟩ := map_eq_ok.mp hexec
          cases heq
          exact .updated rfl (Store.changeAlert_eq_ok hcall).1
      | defer now sourceId eventId notBefore =>
          obtain ⟨t', hcall, heq⟩ := map_eq_ok.mp hexec
          cases heq
          exact .updated rfl (Store.deferAlert_updated hcall)
      | close now sourceId eventId status =>
          obtain ⟨t', hcall, heq⟩ := map_eq_ok.mp hexec
          cases heq
          exact .updated rfl (Store.closeAlert_updated hcall)
  · next e hexec =>
      refine .updated ?_ (.refl s)
      simp only [AlertCall.report?, hexec]

end Moves

end Kirakira.EventMail
