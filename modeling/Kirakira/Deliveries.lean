import Kirakira.DeliveryConfirmation

/-!
# Deliveries

`Deliveries` of `plugins/delivery/execution.py` for one delivery: the task that sends it, the
admissions of its key, explicit retries, withdrawals, and crashes with a restart. A step is
what runs between two points where the code waits: a task at such a point is at a `Stage`,
with the locals it still needs.

Whatever waits may raise instead: a cancellation that arrives, a failing store, a sender or
guard that fails. A worker thread performs a read or a save at one step and the task goes on
at a later one. A start guard passes on the exceptions of its body. The task service admits
one task at a time, and its admissions of the key one at a time.

## Main results

* `Inv` — where the task stands, and what is stored.
* `inv_step` — every step keeps the invariant.
* `deliveries_runs` — at most one send, the moves of the phase, and no send after a withdrawal.
-/

namespace Kirakira.Deliveries

open DeliveryRecords Exceptions Transition

/-! ### States -/

/-- What identifies a delivery, and who recovers it. -/
structure DeliveryKey where
  recoveryOwner : String
  messageId : String
  sink : String

/-- How `begin` ends: with what it returns, or with an exception. -/
inductive Outcome where
  | returned (rejected : Option Receipt)
  | raising

/-- Where a task of `_send` waits. The locals are the record, whether the sender is idempotent,
and what was found or decided. -/
inductive Stage where
  /-- Admitted, and not run yet. -/
  | created
  | firstRead
  | firstDone (found : Except PyError (OwnerRow Delivery))
  /-- Waiting for the exclusive use of the target. -/
  | queueing
  | secondRead
  | secondDone (found : Except PyError (OwnerRow Delivery))
  | opening (record : OwnerRow Delivery)
  | querying (record : OwnerRow Delivery) (idempotent : Bool)
  /-- Waiting for the admission of `begin`. -/
  | admission (record : OwnerRow Delivery) (idempotent : Bool)
  | beginRead (record : OwnerRow Delivery) (idempotent : Bool)
  | beginDone (record : OwnerRow Delivery) (idempotent : Bool)
      (found : Except PyError (OwnerRow Delivery))
  | guarding (record : OwnerRow Delivery) (idempotent : Bool)
  | starting (record : OwnerRow Delivery) (idempotent : Bool) (rejected : Option Receipt)
  | committed (record : OwnerRow Delivery) (idempotent : Bool) (rejected : Option Receipt)
  /-- The guard ends, and with it the admission. -/
  | leaving (record : OwnerRow Delivery) (idempotent : Bool) (outcome : Outcome)
  | sending (record : OwnerRow Delivery) (idempotent : Bool)
  /-- The last save. -/
  | settling (record : OwnerRow Delivery) (value : Delivery)
  /-- Closing what the task holds. -/
  | closing

/-- The task of a key: whether it is still active, and where it waits. -/
structure SendTask where
  active : Bool
  stage : Stage

/-- Who holds the admission of the key. -/
inductive Admission where
  | free
  | begin
  | rearming
  | rearmed (found : Except PyError (OwnerRow Delivery))
  | rearm (record : OwnerRow Delivery)
  | cancelling (receipt : Receipt)
  | cancelled (result : Bool)
  /-- Whoever holds it has nothing left to do but to give it back. -/
  | returning

/-- What happened: the sender was asked, a rejection was recorded, a withdrawal was committed, a
retry made the delivery ready again. -/
inductive Entry where
  | asked (idempotent : Bool)
  | rejected
  | withdrawn
  | rearmed
  deriving DecidableEq

/-- What is stored, the task, the admission, and what happened, the latest first. -/
structure Lane where
  store : Store
  task : Option SendTask
  admission : Admission
  trace : List Entry

/-- The stored delivery. -/
def DeliveryKey.row (key : DeliveryKey) (store : Store) : Option (OwnerRow Delivery) :=
  store.deliveries.get? (key.messageId, key.sink)

/-- `self._records.read(message_id, sink)`. -/
def DeliveryKey.read (key : DeliveryKey) (store : Store) : Except PyError (OwnerRow Delivery) :=
  store.read key.recoveryOwner key.messageId key.sink

/-- The trace after a delivery was stored. -/
def recorded (value : Delivery) (trace : List Entry) : List Entry :=
  if value.phase = .rejected then .rejected :: trace else trace

/-- `self._records.save_async(message_id, record, value)`, as far as it reaches the store. -/
def Lane.write (w : Lane) (key : DeliveryKey) (record : OwnerRow Delivery) (value : Delivery)
    (now : ℤ) : Except PyError (OwnerRow Delivery) × Lane :=
  match save key.recoveryOwner key.messageId record value now w.store with
  | (.ok row, store) => (.ok row, { w with store := store, trace := recorded value w.trace })
  | (.error e, _) => (.error e, w)

/-- The task at another stage. -/
def Lane.goto (w : Lane) (task : SendTask) (stage : Stage) : Lane :=
  { w with task := some { task with stage := stage } }

/-! ### The code between the waits -/

/-- `Receipt(status="failed", error="原发送中断…")`. -/
def interrupted : Receipt :=
  ⟨.failed, [], some "原发送中断且没有可查询回执；可能已送达，不自动重发"⟩

/-- `Receipt(status="failed", error="发送已开始…")`. -/
def unconfirmed : Receipt :=
  ⟨.failed, [], some "发送已开始但未取得可确认回执"⟩

/-- After the first read: what is settled is returned. -/
def afterFirstRead : Except PyError (OwnerRow Delivery) → Stage
  | .error _ => .closing
  | .ok record => if record.value.phase.isSettled then .closing else .queueing

/-- After the second read. -/
def afterSecondRead (active : Bool) : Except PyError (OwnerRow Delivery) → Stage
  | .error _ => .closing
  | .ok record => if active = false ∨ record.value.phase.isSettled then .closing
      else .opening record

/-- With the sender open: a delivery that was started is queried. -/
def afterOpen (record : OwnerRow Delivery) (idempotent : Bool) : Stage :=
  if record.value.phase = .started then .querying record idempotent
  else .admission record idempotent

/-- After the query: only an idempotent sender may send again. -/
def afterQuery (record : OwnerRow Delivery) (idempotent : Bool) : Option Receipt → Stage
  | some found => .settling record (.settled record.value.sink found)
  | none => if idempotent then .admission record idempotent
      else .settling record (.settled record.value.sink interrupted)

/-- After the read of `begin`; the guard is for a prepared delivery. -/
def afterBeginRead (active : Bool) (record : OwnerRow Delivery) (idempotent : Bool) :
    Except PyError (OwnerRow Delivery) → Stage
  | .error _ => .leaving record idempotent .raising
  | .ok found =>
      if found.value.phase.isSettled then .leaving found idempotent (.returned found.value.receipt)
      else if active = false then .leaving found idempotent .raising
      else if found.value.phase = .prepared then .guarding found idempotent
      else .starting found idempotent none

/-- `_rejection`, of what the guard answered. -/
def afterGuard (record : OwnerRow Delivery) (idempotent : Bool) : Option String → Stage
  | none => .starting record idempotent none
  | some reason =>
      if reason = "" then .leaving record idempotent .raising
      else .starting record idempotent (some ⟨.rejected, [], some reason⟩)

/-- What `begin` stores. -/
def startValue (record : OwnerRow Delivery) : Option Receipt → Delivery
  | none => .started record.value.sink
  | some rejected => .settled record.value.sink rejected

/-- `except BaseException`: a delivery that was started failed. -/
def afterRaise (record : OwnerRow Delivery) : Stage :=
  if record.value.phase = .started then
    .settling record (.settled record.value.sink unconfirmed)
  else .closing

/-- The save of `begin`. -/
def Lane.commitStart (w : Lane) (key : DeliveryKey) (task : SendTask)
    (record : OwnerRow Delivery) (idempotent : Bool) (rejected : Option Receipt) (now : ℤ) :
    Lane :=
  match w.write key record (startValue record rejected) now with
  | (.ok row, w) => w.goto task (.committed row idempotent rejected)
  | (.error _, w) => w.goto task (.leaving record idempotent .raising)

/-- After the admission of `begin`: an active task asks the sender. -/
def Lane.leave (w : Lane) (task : SendTask) (record : OwnerRow Delivery) (idempotent : Bool) :
    Outcome → Lane
  | .raising => { w.goto task (afterRaise record) with admission := .free }
  | .returned (some _) => { w.goto task .closing with admission := .free }
  | .returned none =>
      if task.active = false then { w.goto task (afterRaise record) with admission := .free }
      else { w.goto task (.sending record idempotent) with
        admission := .free, trace := .asked idempotent :: w.trace }

/-- An exception where the task waits. -/
def Lane.fail (w : Lane) (task : SendTask) : Stage → Lane
  | .admission record _ | .sending record _ => w.goto task (afterRaise record)
  | .beginRead record idempotent | .beginDone record idempotent _ | .guarding record idempotent
  | .starting record idempotent _ | .committed record idempotent _ =>
      w.goto task (.leaving record idempotent .raising)
  | .leaving record _ _ => { w.goto task (afterRaise record) with admission := .free }
  | _ => w.goto task .closing

/-- What a task may wait for. -/
inductive Input where
  | perform (now : ℤ)
  | resume
  | opened (idempotent : Bool)
  | queried (found : Option Receipt)
  | guarded (reason : Option String)
  | answered (receipt : Receipt)
  | raise

/-- `_send`, from one wait to the next. -/
def Lane.advance (w : Lane) (key : DeliveryKey) (task : SendTask) : Stage → Input → Option Lane
  | stage, .raise => some (w.fail task stage)
  | .created, .resume => some (w.goto task (if task.active then .firstRead else .closing))
  | .firstRead, .perform _ => some (w.goto task (.firstDone (key.read w.store)))
  | .firstDone found, .resume => some (w.goto task (afterFirstRead found))
  | .queueing, .resume => some (w.goto task (if task.active then .secondRead else .closing))
  | .secondRead, .perform _ => some (w.goto task (.secondDone (key.read w.store)))
  | .secondDone found, .resume => some (w.goto task (afterSecondRead task.active found))
  | .opening record, .opened idempotent => some (w.goto task (afterOpen record idempotent))
  | .querying record idempotent, .queried found =>
      some (w.goto task (afterQuery record idempotent found))
  | .admission record idempotent, .resume =>
      match w.admission with
      | .free => some { w.goto task (.beginRead record idempotent) with admission := .begin }
      | _ => none
  | .beginRead record idempotent, .perform _ =>
      some (w.goto task (.beginDone record idempotent (key.read w.store)))
  | .beginDone record idempotent found, .resume =>
      some (w.goto task (afterBeginRead task.active record idempotent found))
  | .guarding record idempotent, .guarded reason =>
      some (w.goto task (afterGuard record idempotent reason))
  | .starting record idempotent rejected, .perform now =>
      some (w.commitStart key task record idempotent rejected now)
  | .committed record idempotent rejected, .resume =>
      some (w.goto task (.leaving record idempotent (.returned rejected)))
  | .leaving record idempotent outcome, .resume => some (w.leave task record idempotent outcome)
  | .sending record _, .answered receipt =>
      some (w.goto task (.settling record (.settled record.value.sink receipt)))
  | .settling record value, .perform now =>
      some ((w.write key record value now).2.goto task .closing)
  | .closing, .resume => some { w with task := none }
  | _, _ => none

/-- The read of a retry: what is not rejected, or has a task, is left alone. -/
def Lane.rearmed (w : Lane) : Except PyError (OwnerRow Delivery) → Admission
  | .error _ => .returning
  | .ok record =>
      if record.value.phase ≠ .rejected then .returning
      else if w.task.isSome then .returning
      else .rearm record

/-- The save of a retry. -/
def Lane.rearm (w : Lane) (key : DeliveryKey) (record : OwnerRow Delivery) (now : ℤ) : Lane :=
  match w.write key record (.prepared record.value.sink) now with
  | (.ok _, w) => { w with admission := .returning, trace := .rearmed :: w.trace }
  | (.error _, w) => { w with admission := .returning }

/-- The transaction of `cancel_prepared`. -/
def Lane.cancel (w : Lane) (key : DeliveryKey) (receipt : Receipt) (now : ℤ) : Lane :=
  match cancelPrepared key.recoveryOwner key.messageId key.sink receipt now w.store with
  | (.ok true, store) =>
      { w with store := store, admission := .cancelled true
               trace := .withdrawn :: .rejected :: w.trace }
  | (.ok false, store) => { w with store := store, admission := .cancelled false }
  | (.error _, store) => { w with store := store, admission := .returning }

/-- `committed` of `cancel_prepared`: the task is cancelled. -/
def Lane.revoke (w : Lane) (result : Bool) : Lane :=
  { w with
    admission := .free
    task := if result then w.task.map fun task => { task with active := false } else w.task }

/-! ### The system -/

/-- What may happen to a delivery: its task is started, cancelled, or goes on; a retry and a
withdrawal go through their admission; the process crashes and starts again; other operations
use the store. -/
inductive Event where
  | start
  | revoke
  | task (input : Input)
  | retry
  | retryRead
  | retryResume
  | retrySave (now : ℤ)
  | cancel (reason : String)
  | cancelCommit (now : ℤ)
  | cancelResume
  /-- An exception where a retry or a withdrawal waits. -/
  | giveUp
  | release
  | crash
  | other (store : Store)

/-- The state after what happens to a delivery, if it can happen. -/
def Lane.after (w : Lane) (key : DeliveryKey) : Event → Option Lane
  | .start =>
      match w.admission, w.task with
      | .free, none => some { w with task := some ⟨true, .created⟩ }
      | .free, some _ => some w
      | _, _ => none
  | .revoke => some { w with task := w.task.map fun task => { task with active := false } }
  | .task input =>
      match w.task with
      | none => none
      | some task => w.advance key task task.stage input
  | .retry =>
      match w.admission with
      | .free => some { w with admission := .rearming }
      | _ => none
  | .retryRead =>
      match w.admission with
      | .rearming => some { w with admission := .rearmed (key.read w.store) }
      | _ => none
  | .retryResume =>
      match w.admission with
      | .rearmed found => some { w with admission := w.rearmed found }
      | _ => none
  | .retrySave now =>
      match w.admission with
      | .rearm record => some (w.rearm key record now)
      | _ => none
  | .cancel reason =>
      match w.admission with
      | .free =>
          if reason = "" then none
          else some { w with admission := .cancelling ⟨.rejected, [], some reason⟩ }
      | _ => none
  | .cancelCommit now =>
      match w.admission with
      | .cancelling receipt => some (w.cancel key receipt now)
      | _ => none
  | .cancelResume =>
      match w.admission with
      | .cancelled result => some (w.revoke result)
      | _ => none
  | .giveUp =>
      match w.admission with
      | .rearming | .rearmed _ | .rearm _ | .cancelling _ => some { w with admission := .free }
      | _ => none
  | .release =>
      match w.admission with
      | .returning => some { w with admission := .free }
      | _ => none
  | .crash => some { w with task := none, admission := .free }
  | .other store => some { w with store := store }

/-- What other operations leave of a delivery: a stored one stays, and a new one is prepared. -/
structure Elsewhere (key : DeliveryKey) (store store' : Store) : Prop where
  kept : ∀ row, key.row store = some row → key.row store' = some row
  prepared : ∀ row, key.row store' = some row →
    key.row store = some row ∨ row.value.phase = .prepared

/-- A delivery, from any store and before anything happened to it. -/
def deliveries (key : DeliveryKey) : System Lane Event where
  init w := w.task = none ∧ w.admission = .free ∧ w.trace = []
  step w e w' := w.after key e = some w' ∧
    ∀ store, e = .other store → Elsewhere key w.store store

/-- Whether the sender was asked and no rejection has been recorded since. -/
def outstanding : List Entry → Bool
  | [] => false
  | .asked _ :: _ => true
  | .rejected :: _ => false
  | _ :: older => outstanding older

/-- Whether the delivery was withdrawn and no retry has made it ready since. -/
def isWithdrawn : List Entry → Bool
  | [] => false
  | .withdrawn :: _ => true
  | .rearmed :: _ => false
  | _ :: older => isWithdrawn older

/-- The moves of the phase; `retried` is for an explicit retry. -/
def Moves (retried : Prop) (old new : Phase) : Prop :=
  (old = .prepared ∧ (new = .started ∨ new = .rejected)) ∨
    (old = .started ∧ (new = .started ∨ new.isSettled = true)) ∨
    (retried ∧ old = .rejected ∧ new = .prepared)

/-- How a step moves the stored delivery. -/
inductive RowStep (e : Event) : Option (OwnerRow Delivery) → Option (OwnerRow Delivery) → Prop where
  | same (row : Option (OwnerRow Delivery)) : RowStep e row row
  | created {row : OwnerRow Delivery} (h : row.value.phase = .prepared) : RowStep e none (some row)
  | moved {old new : OwnerRow Delivery}
      (h : Moves (∃ now, e = .retrySave now) old.value.phase new.value.phase) :
      RowStep e (some old) (some new)

/-! ### Other operations -/

section Others

variable {key : DeliveryKey} {store store' : Store}

theorem deliveries_of_saveDelivery {recoveryOwner messageId : String} {now : ℤ}
    {previous row : OwnerRow Delivery} {delivery : Delivery}
    (h : saveDelivery recoveryOwner messageId previous delivery now store = .ok (row, store')) :
    store'.deliveries = store.deliveries.set (messageId, delivery.sink.name) row := by
  obtain ⟨-, -, -, selection, -, hconfirm⟩ := saveDelivery_eq_ok h
  rcases confirm_eq_ok hconfirm with ⟨_, -, -, rfl⟩ | ⟨-, rfl⟩ <;> rfl

theorem cancelPrepared_result (recoveryOwner messageId sink : String) (receipt : Receipt) (now : ℤ)
    (store : Store) :
    cancelPrepared recoveryOwner messageId sink receipt now store = (.ok false, store) ∨
    (∃ e, cancelPrepared recoveryOwner messageId sink receipt now store = (.error e, store)) ∨
    ∃ previous row store',
      cancelPrepared recoveryOwner messageId sink receipt now store = (.ok true, store') ∧
      store.read recoveryOwner messageId sink = .ok previous ∧ previous.value.phase = .prepared ∧
      receipt.status = .rejected ∧
      saveDelivery recoveryOwner messageId previous (.settled previous.value.sink receipt) now
        store = .ok (row, store') := by
  rw [cancelPrepared, transact]
  split
  · next result after hcommit =>
      obtain ⟨previous, hread, hcommit⟩ := bind_eq_ok.mp hcommit
      split at hcommit
      · obtain ⟨rfl, rfl⟩ := Prod.mk.inj (Except.ok.inj hcommit)
        exact .inl rfl
      · next hprepared =>
          obtain ⟨-, ⟨⟩⟩ | ⟨hstatus, hcommit⟩ := ite_eq_iff.mp hcommit
          obtain ⟨⟨row, middle⟩, hsave, hcommit⟩ := bind_eq_ok.mp hcommit
          obtain ⟨rfl, rfl⟩ := Prod.mk.inj (Except.ok.inj hcommit)
          exact .inr (.inr ⟨previous, row, middle, rfl, hread, not_not.mp hprepared,
            not_not.mp hstatus, hsave⟩)
  · exact .inr (.inl ⟨_, rfl⟩)

end Others

/-! ### The invariant -/

/-- A record that a task has read: it is stored, or it was prepared and has been withdrawn. -/
def Snap (key : DeliveryKey) (row : Option (OwnerRow Delivery)) (record : OwnerRow Delivery) :
    Prop :=
  record.value.sink.name = key.sink ∧ ∃ current, row = some current ∧
    (current = record ∨ (record.version < current.version ∧ record.value.phase = .prepared ∧
      current.value.phase = .rejected))

/-- A record that `begin` may start: it is prepared, or the sender is idempotent. -/
def Pending (key : DeliveryKey) (row : Option (OwnerRow Delivery)) (record : OwnerRow Delivery)
    (idempotent : Bool) : Prop :=
  Snap key row record ∧
    (record.value.phase = .prepared ∨ (record.value.phase = .started ∧ idempotent = true))

/-- A record that `begin` has started: it is stored, and nothing is outstanding unless the sender
is idempotent. -/
def Begun (key : DeliveryKey) (row : Option (OwnerRow Delivery)) (trace : List Entry)
    (record : OwnerRow Delivery) (idempotent : Bool) : Prop :=
  Snap key row record ∧ record.value.phase = .started ∧
    (idempotent = true ∨ outstanding trace = false)

/-- What is known where a task waits. -/
def StageOk (key : DeliveryKey) (row : Option (OwnerRow Delivery)) (trace : List Entry) :
    Stage → Prop
  | .secondDone found => ∀ record, found = .ok record → Snap key row record
  | .opening record =>
      Snap key row record ∧ (record.value.phase = .prepared ∨ record.value.phase = .started)
  | .querying record _ => Snap key row record ∧ record.value.phase = .started
  | .admission record idempotent | .beginRead record idempotent =>
      Pending key row record idempotent
  | .beginDone record idempotent found => Pending key row record idempotent ∧
      ∀ record, found = .ok record → Snap key row record ∧
        (record.value.phase = .started → idempotent = true)
  | .guarding record _ => Snap key row record ∧ record.value.phase = .prepared
  | .starting record idempotent rejected => Pending key row record idempotent ∧
      ∀ receipt, rejected = some receipt →
        record.value.phase = .prepared ∧ receipt.status = .rejected
  | .committed record idempotent rejected =>
      (record.value.phase = .started → Snap key row record) ∧
        (rejected = none → Begun key row trace record idempotent)
  | .leaving record idempotent outcome =>
      (record.value.phase = .started → Snap key row record) ∧
        (outcome = .returned none → Begun key row trace record idempotent)
  | .sending record _ => Snap key row record ∧ record.value.phase = .started
  | .settling record value => Snap key row record ∧ record.value.phase = .started ∧
      value.phase.isSettled = true ∧ value.sink = record.value.sink
  | _ => True

/-- The invariant: an outstanding send is started, delivered or failed; a withdrawn delivery is
rejected; the task stands where its stage says; a retry that goes on has no task beside it; and
the sender was asked as it may be. -/
structure Inv (key : DeliveryKey) (w : Lane) : Prop where
  sent : outstanding w.trace = true → ∃ row, key.row w.store = some row ∧
    (row.value.phase = .started ∨ row.value.phase = .delivered ∨ row.value.phase = .failed)
  cancelled : isWithdrawn w.trace = true →
    ∃ row, key.row w.store = some row ∧ row.value.phase = .rejected
  stage : ∀ task, w.task = some task → StageOk key (key.row w.store) w.trace task.stage
  rearmed : ∀ record, w.admission = .rearmed (.ok record) → record.value.phase = .rejected →
    key.row w.store = some record ∧ record.value.sink.name = key.sink
  rearm : ∀ record, w.admission = .rearm record → w.task = none ∧
    record.value.phase = .rejected ∧ key.row w.store = some record ∧
    record.value.sink.name = key.sink
  asked : ∀ idempotent older, (.asked idempotent :: older) <:+ w.trace →
    (idempotent = false → outstanding older = false) ∧ isWithdrawn older = false

section Rows

variable {key : DeliveryKey} {row row' : Option (OwnerRow Delivery)} {trace trace' : List Entry}
  {record : OwnerRow Delivery} {idempotent : Bool}

theorem Snap.eq (h : Snap key row record) (hphase : record.value.phase ≠ .prepared) :
    row = some record := by
  obtain ⟨-, current, hrow, heq | ⟨-, hprepared, -⟩⟩ := h
  · rw [hrow, heq]
  · exact absurd hprepared hphase

theorem snap_self (hname : record.value.sink.name = key.sink) : Snap key (some record) record :=
  ⟨hname, record, rfl, .inl rfl⟩

theorem snap_read {store : Store} (h : key.read store = .ok record) :
    Snap key (key.row store) record := by
  obtain ⟨hrow, hname⟩ := read_eq_ok h
  exact ⟨hname, record, hrow, .inl rfl⟩

/-- What has to stay for a stage to stay as it is. -/
structure Carries (key : DeliveryKey) (row row' : Option (OwnerRow Delivery))
    (trace trace' : List Entry) : Prop where
  snap : ∀ record, Snap key row record → Snap key row' record
  outstanding : outstanding trace = false → outstanding trace' = false

theorem Pending.carry (h : Pending key row record idempotent)
    (hcarry : Carries key row row' trace trace') : Pending key row' record idempotent :=
  ⟨hcarry.snap record h.1, h.2⟩

theorem Begun.carry (h : Begun key row trace record idempotent)
    (hcarry : Carries key row row' trace trace') : Begun key row' trace' record idempotent := by
  obtain ⟨hsnap, hphase, hidempotent | hnone⟩ := h
  · exact ⟨hcarry.snap record hsnap, hphase, .inl hidempotent⟩
  · exact ⟨hcarry.snap record hsnap, hphase, .inr (hcarry.outstanding hnone)⟩

theorem StageOk.carry {stage : Stage} (h : StageOk key row trace stage)
    (hcarry : Carries key row row' trace trace') : StageOk key row' trace' stage := by
  cases stage with
  | secondDone found => exact fun record hfound => hcarry.snap record (h record hfound)
  | opening record => exact ⟨hcarry.snap record h.1, h.2⟩
  | querying record idempotent => exact ⟨hcarry.snap record h.1, h.2⟩
  | admission record idempotent => exact Pending.carry h hcarry
  | beginRead record idempotent => exact Pending.carry h hcarry
  | beginDone record idempotent found =>
      refine ⟨h.1.carry hcarry, fun record hfound => ?_⟩
      obtain ⟨hsnap, hidempotent⟩ := h.2 record hfound
      exact ⟨hcarry.snap record hsnap, hidempotent⟩
  | guarding record idempotent => exact ⟨hcarry.snap record h.1, h.2⟩
  | starting record idempotent rejected => exact ⟨h.1.carry hcarry, h.2⟩
  | committed record idempotent rejected =>
      exact ⟨fun hphase => hcarry.snap record (h.1 hphase),
        fun hnone => (h.2 hnone).carry hcarry⟩
  | leaving record idempotent outcome =>
      exact ⟨fun hphase => hcarry.snap record (h.1 hphase),
        fun hnone => (h.2 hnone).carry hcarry⟩
  | sending record idempotent => exact ⟨hcarry.snap record h.1, h.2⟩
  | settling record value => exact ⟨hcarry.snap record h.1, h.2⟩
  | created | firstRead | firstDone found | queueing | secondRead | closing => exact h

/-! ### The code keeps what is known -/

theorem receipt_of_isSettled {delivery : Delivery} (h : delivery.phase.isSettled = true) :
    ∃ receipt, delivery.receipt = some receipt := by
  have hreceipt := delivery.receipt_ok.1
  rw [if_pos h] at hreceipt
  obtain ⟨receipt, hreceipt, -⟩ := Option.map_eq_some_iff.mp hreceipt
  exact ⟨receipt, hreceipt⟩

theorem phase_of_not_isSettled {phase : Phase} (h : ¬ phase.isSettled = true) :
    phase = .prepared ∨ phase = .started := by
  cases phase with
  | prepared => exact .inl rfl
  | started => exact .inr rfl
  | delivered | rejected | failed => exact absurd rfl h

theorem stageOk_afterFirstRead (found : Except PyError (OwnerRow Delivery)) :
    StageOk key row trace (afterFirstRead found) := by
  cases found with
  | error e => trivial
  | ok record =>
      rw [afterFirstRead]
      split <;> trivial

theorem stageOk_afterSecondRead {active : Bool} {found : Except PyError (OwnerRow Delivery)}
    (h : StageOk key row trace (.secondDone found)) :
    StageOk key row trace (afterSecondRead active found) := by
  cases found with
  | error e => trivial
  | ok record =>
      rw [afterSecondRead]
      split
      · trivial
      · next hnot => exact ⟨h record rfl, phase_of_not_isSettled fun hset => hnot (.inr hset)⟩

theorem stageOk_afterOpen (h : StageOk key row trace (.opening record)) (idempotent : Bool) :
    StageOk key row trace (afterOpen record idempotent) := by
  rw [afterOpen]
  split
  · next hphase => exact ⟨h.1, hphase⟩
  · next hphase => exact ⟨h.1, .inl (h.2.resolve_right hphase)⟩

theorem stageOk_afterQuery (h : StageOk key row trace (.querying record idempotent))
    (found : Option Receipt) : StageOk key row trace (afterQuery record idempotent found) := by
  cases found with
  | some receipt => exact ⟨h.1, h.2, isSettled_phase receipt.status, rfl⟩
  | none =>
      rw [afterQuery]
      split
      · next hidempotent => exact ⟨h.1, .inr ⟨h.2, hidempotent⟩⟩
      · exact ⟨h.1, h.2, rfl, rfl⟩

/-- After its read `begin` returns, raises, or goes on with what it read. -/
theorem stageOk_afterBeginRead {active : Bool} {found : Except PyError (OwnerRow Delivery)}
    (h : StageOk key row trace (.beginDone record idempotent found)) :
    StageOk key row trace (afterBeginRead active record idempotent found) := by
  cases found with
  | error e => exact ⟨fun _ => h.1.1, fun hnot => nomatch hnot⟩
  | ok found =>
      obtain ⟨hsnap, hidempotent⟩ := h.2 found rfl
      rw [afterBeginRead]
      split
      · next hsettled =>
          obtain ⟨receipt, hreceipt⟩ := receipt_of_isSettled hsettled
          refine ⟨fun _ => hsnap, fun hnot => ?_⟩
          rw [hreceipt] at hnot
          cases hnot
      · next hunsettled =>
          split
          · exact ⟨fun _ => hsnap, fun hnot => nomatch hnot⟩
          · split
            · next hprepared => exact ⟨hsnap, hprepared⟩
            · next hnot =>
                have hstarted := (phase_of_not_isSettled hunsettled).resolve_left hnot
                exact ⟨⟨hsnap, .inr ⟨hstarted, hidempotent hstarted⟩⟩, fun _ h => nomatch h⟩

theorem stageOk_afterGuard (h : StageOk key row trace (.guarding record idempotent))
    (reason : Option String) : StageOk key row trace (afterGuard record idempotent reason) := by
  cases reason with
  | none => exact ⟨⟨h.1, .inl h.2⟩, fun _ h => nomatch h⟩
  | some reason =>
      rw [afterGuard]
      split
      · exact ⟨fun _ => h.1, fun hnot => nomatch hnot⟩
      · refine ⟨⟨h.1, .inl h.2⟩, fun receipt hreceipt => ⟨h.2, ?_⟩⟩
        rw [← Option.some.inj hreceipt]

theorem stageOk_afterRaise (h : record.value.phase = .started → Snap key row record) :
    StageOk key row trace (afterRaise record) := by
  rw [afterRaise]
  split
  · next hphase => exact ⟨h hphase, hphase, rfl, rfl⟩
  · trivial

end Rows

/-! ### Saves -/

section Writes

variable {key : DeliveryKey} {w w' : Lane} {record : OwnerRow Delivery} {value : Delivery}
  {now : ℤ}

/-- A save that reached the store: it replaced the record by the next version. -/
structure Written (key : DeliveryKey) (w : Lane) (record : OwnerRow Delivery) (value : Delivery)
    (new : OwnerRow Delivery) (w' : Lane) : Prop where
  before : key.row w.store = some record
  after : key.row w'.store = some new
  sink : new.value.sink.name = key.sink
  version : record.version < new.version
  phase : new.value.phase = value.phase
  task : w'.task = w.task
  admission : w'.admission = w.admission
  trace : w'.trace = recorded value w.trace

theorem Snap.current {store : Store} (h : Snap key (key.row store) record)
    (hversion : (key.row store).map OwnerRow.version = some record.version) :
    key.row store = some record := by
  obtain ⟨-, current, hrow, heq | ⟨hlt, -, -⟩⟩ := h
  · rw [hrow, heq]
  · rw [hrow] at hversion
    have := Option.some.inj hversion
    omega

/-- **What a save does** over a snapshot: it wrote, or it raised and changed nothing. -/
theorem write_cases (hsnap : Snap key (key.row w.store) record) (value : Delivery)
    (hsink : value.sink = record.value.sink) (now : ℤ) :
    (∃ new w', w.write key record value now = (.ok new, w') ∧ Written key w record value new w') ∨
      ∃ e, w.write key record value now = (.error e, w) := by
  rw [Lane.write, save, transact]
  cases hsave : saveDelivery key.recoveryOwner key.messageId record value now w.store with
  | error e => exact .inr ⟨e, rfl⟩
  | ok result =>
      obtain ⟨new, store⟩ := result
      obtain ⟨-, hversion, hnew, -⟩ := saveDelivery_eq_ok hsave
      have hdeliveries := deliveries_of_saveDelivery hsave
      have hname : value.sink.name = key.sink := by
        rw [hsink]
        exact hsnap.1
      rw [hname] at hversion hdeliveries
      obtain ⟨hkept, hphase⟩ := stamped_keeps record.value value now
      refine .inl ⟨new, _, rfl, hsnap.current hversion, ?_, ?_, ?_, ?_, rfl, rfl, rfl⟩
      · rw [DeliveryKey.row, hdeliveries]
        exact Dict.get?_set_self _ _ _
      · rw [hnew]
        exact (congrArg Sink.name hkept).trans hname
      · rw [hnew]
        exact Nat.lt_succ_self _
      · rw [hnew]
        exact hphase

variable {trace : List Entry}

theorem outstanding_recorded (h : outstanding (recorded value trace) = true) :
    outstanding trace = true ∧ value.phase ≠ .rejected := by
  rw [recorded] at h
  split at h
  · cases h
  · next hphase => exact ⟨h, hphase⟩

theorem isWithdrawn_recorded (trace : List Entry) :
    isWithdrawn (recorded value trace) = isWithdrawn trace := by
  rw [recorded]
  split <;> rfl

theorem asked_of_cons {entry : Entry} {idempotent : Bool} {older : List Entry}
    (h : (.asked idempotent :: older) <:+ (entry :: trace)) (hne : entry ≠ .asked idempotent) :
    (.asked idempotent :: older) <:+ trace := by
  rcases List.suffix_cons_iff.mp h with heq | hsuffix
  · exact absurd (List.cons.inj heq).1.symm hne
  · exact hsuffix

theorem asked_of_recorded {idempotent : Bool} {older : List Entry}
    (h : (.asked idempotent :: older) <:+ recorded value trace) :
    (.asked idempotent :: older) <:+ trace := by
  rw [recorded] at h
  split at h
  · exact asked_of_cons h Entry.noConfusion
  · exact h

theorem Inv.moved (h : Inv key w) (w' : Lane) {old new : OwnerRow Delivery}
    (hold : key.row w.store = some old) (hne : old.value.phase ≠ .rejected)
    (hnew : key.row w'.store = some new) (hadmission : w'.admission = w.admission ∨
      (∀ found, w'.admission ≠ .rearmed found) ∧ ∀ record, w'.admission ≠ .rearm record)
    (houtstanding : outstanding w'.trace = true →
      new.value.phase = .started ∨ new.value.phase = .delivered ∨ new.value.phase = .failed)
    (hwithdrawn : isWithdrawn w'.trace = true → new.value.phase = .rejected)
    (hasked : ∀ idempotent older, (.asked idempotent :: older) <:+ w'.trace →
      (.asked idempotent :: older) <:+ w.trace)
    (hstage : ∀ task, w'.task = some task →
      StageOk key (key.row w'.store) w'.trace task.stage) : Inv key w' := by
  refine ⟨fun hout => ⟨new, hnew, houtstanding hout⟩, fun hout => ⟨new, hnew, hwithdrawn hout⟩,
    hstage, fun record hrearmed hphase => ?_, fun record hrearm => ?_,
    fun idempotent older hsuffix => h.asked idempotent older (hasked idempotent older hsuffix)⟩
  · rcases hadmission with hsame | ⟨hnot, -⟩
    · obtain ⟨hrow, -⟩ := h.rearmed record (hsame.symm.trans hrearmed) hphase
      obtain rfl := Option.some.inj (hold.symm.trans hrow)
      exact absurd hphase hne
    · exact absurd hrearmed (hnot _)
  · rcases hadmission with hsame | ⟨-, hnot⟩
    · obtain ⟨-, hphase, hrow, -⟩ := h.rearm record (hsame.symm.trans hrearm)
      obtain rfl := Option.some.inj (hold.symm.trans hrow)
      exact absurd hphase hne
    · exact absurd hrearm (hnot _)

theorem Inv.goto (h : Inv key w) {task : SendTask} (htask : w.task = some task) {stage : Stage}
    (hstage : StageOk key (key.row w.store) w.trace stage) : Inv key (w.goto task stage) := by
  refine ⟨h.sent, h.cancelled, fun other hother => ?_, h.rearmed, fun record hrearm => ?_,
    h.asked⟩
  · obtain rfl := Option.some.inj hother
    exact hstage
  · have hnone := (h.rearm record hrearm).1
    rw [htask] at hnone
    cases hnone

theorem Inv.close (h : Inv key w) {task : SendTask} (htask : w.task = some task) :
    Inv key (w.goto task .closing) := by
  have hclosing : StageOk key (key.row w.store) w.trace .closing := trivial
  exact h.goto htask hclosing

theorem Inv.hold (h : Inv key w) {admission : Admission}
    (hrearmed : ∀ found, admission ≠ .rearmed found) (hrearm : ∀ record, admission ≠ .rearm record) :
    Inv key { w with admission := admission } :=
  ⟨h.sent, h.cancelled, h.stage, fun _ hnot => absurd hnot (hrearmed _),
    fun _ hnot => absurd hnot (hrearm _), h.asked⟩

theorem Inv.free (h : Inv key w) : Inv key { w with admission := .free } :=
  h.hold (fun _ => Admission.noConfusion) (fun _ => Admission.noConfusion)

end Writes

/-! ### Steps of the task -/

section Tasks

variable {key : DeliveryKey} {w w' : Lane} {task : SendTask}

variable {record : OwnerRow Delivery}

theorem inv_settle (h : Inv key w) (htask : w.task = some task) {value : Delivery} {e : Event}
    (hstage : StageOk key (key.row w.store) w.trace (.settling record value)) (now : ℤ) :
    Inv key ((w.write key record value now).2.goto task .closing) ∧
      RowStep e (key.row w.store) (key.row (w.write key record value now).2.store) := by
  obtain ⟨hsnap, hphase, hsettled, hsink⟩ := hstage
  have hne : record.value.phase ≠ .rejected := by
    rw [hphase]
    exact Phase.noConfusion
  rcases write_cases hsnap _ hsink now with ⟨new, written, heq, hwritten⟩ | ⟨error, heq⟩
  · rw [heq]
    refine ⟨h.moved (written.goto task .closing) hwritten.before hne hwritten.after
      (.inl hwritten.admission) (fun hout => ?_) (fun hout => ?_) (fun idempotent older hsuffix =>
        ?_) (fun other hother => ?_), ?_⟩
    · change outstanding written.trace = true at hout
      rw [hwritten.trace] at hout
      have hrejected := (outstanding_recorded hout).2
      rw [hwritten.phase]
      revert hsettled hrejected
      cases value.phase <;> simp [Phase.isSettled]
    · change isWithdrawn written.trace = true at hout
      rw [hwritten.trace, isWithdrawn_recorded] at hout
      obtain ⟨row, hrow, hrejected⟩ := h.cancelled hout
      obtain rfl := Option.some.inj (hwritten.before.symm.trans hrow)
      exact absurd hrejected hne
    · change _ <:+ written.trace at hsuffix
      rw [hwritten.trace] at hsuffix
      exact asked_of_recorded hsuffix
    · obtain rfl := Option.some.inj hother
      trivial
    · rw [hwritten.before, hwritten.after]
      refine .moved (.inr (.inl ⟨hphase, .inr ?_⟩))
      rw [hwritten.phase]
      exact hsettled
  · rw [heq]
    exact ⟨h.goto htask trivial, .same _⟩

theorem inv_commitStart (h : Inv key w) (htask : w.task = some task) {idempotent : Bool}
    {rejected : Option Receipt} {e : Event}
    (hstage : StageOk key (key.row w.store) w.trace (.starting record idempotent rejected))
    (now : ℤ) : Inv key (w.commitStart key task record idempotent rejected now) ∧
      RowStep e (key.row w.store)
        (key.row (w.commitStart key task record idempotent rejected now).store) := by
  obtain ⟨⟨hsnap, hpending⟩, hrejected⟩ := hstage
  have hne : record.value.phase ≠ .rejected := by
    rcases hpending with hphase | ⟨hphase, -⟩ <;>
      · rw [hphase]
        exact Phase.noConfusion
  have hsink : (startValue record rejected).sink = record.value.sink := by
    cases rejected <;> rfl
  rw [Lane.commitStart]
  rcases write_cases hsnap _ hsink now with ⟨new, written, heq, hwritten⟩ | ⟨error, heq⟩
  · rw [heq]
    have hnew : Snap key (key.row written.store) new := by
      rw [hwritten.after]
      exact snap_self hwritten.sink
    cases rejected with
    | none =>
        have hphase : new.value.phase = .started := hwritten.phase
        have htrace : written.trace = w.trace := hwritten.trace
        refine ⟨h.moved (written.goto task (.committed new idempotent none)) hwritten.before hne
          hwritten.after (.inl hwritten.admission) (fun _ => .inl hphase) (fun hout => ?_)
          (fun idempotent older hsuffix => ?_) (fun other hother => ?_), ?_⟩
        · change isWithdrawn written.trace = true at hout
          rw [htrace] at hout
          obtain ⟨row, hrow, hwithdrawn⟩ := h.cancelled hout
          obtain rfl := Option.some.inj (hwritten.before.symm.trans hrow)
          exact absurd hwithdrawn hne
        · change _ <:+ written.trace at hsuffix
          rw [htrace] at hsuffix
          exact hsuffix
        · obtain rfl := Option.some.inj hother
          refine ⟨fun _ => hnew, fun _ => ⟨hnew, hphase, ?_⟩⟩
          rcases hpending with hprepared | ⟨-, hidempotent⟩
          · -- nothing is outstanding before the first start
            right
            change outstanding written.trace = false
            rw [htrace]
            by_contra hout
            obtain ⟨row, hrow, hphases⟩ := h.sent (eq_true_of_ne_false hout)
            obtain rfl := Option.some.inj (hwritten.before.symm.trans hrow)
            rw [hprepared] at hphases
            rcases hphases with hphases | hphases | hphases <;> cases hphases
          · exact .inl hidempotent
        · change RowStep e _ (key.row written.store)
          rw [hwritten.before, hwritten.after]
          refine .moved ?_
          rw [hphase]
          rcases hpending with hprepared | ⟨hstarted, -⟩
          · exact .inl ⟨hprepared, .inl rfl⟩
          · exact .inr (.inl ⟨hstarted, .inl rfl⟩)
    | some receipt =>
        obtain ⟨hprepared, hstatus⟩ := hrejected receipt rfl
        have hphase : new.value.phase = .rejected := by
          rw [hwritten.phase]
          change receipt.status.phase = .rejected
          rw [hstatus]
          rfl
        have htrace : written.trace = .rejected :: w.trace := by
          rw [hwritten.trace, recorded, if_pos (hwritten.phase.symm.trans hphase)]
        refine ⟨h.moved (written.goto task (.committed new idempotent (some receipt)))
          hwritten.before hne hwritten.after (.inl hwritten.admission) (fun hout => ?_)
          (fun _ => hphase)
          (fun idempotent older hsuffix => ?_) (fun other hother => ?_), ?_⟩
        · change outstanding written.trace = true at hout
          rw [htrace] at hout
          cases hout
        · change _ <:+ written.trace at hsuffix
          rw [htrace] at hsuffix
          exact asked_of_cons hsuffix Entry.noConfusion
        · obtain rfl := Option.some.inj hother
          exact ⟨fun _ => hnew, fun hnot => nomatch hnot⟩
        · change RowStep e _ (key.row written.store)
          rw [hwritten.before, hwritten.after]
          exact .moved (.inl ⟨hprepared, .inr hphase⟩)
  · rw [heq]
    exact ⟨h.goto htask ⟨fun _ => hsnap, fun hnot => nomatch hnot⟩, .same _⟩

/-- The end of `begin` keeps the invariant: a sender is asked when it may be. -/
theorem inv_leave (h : Inv key w) (htask : w.task = some task) {idempotent : Bool}
    {outcome : Outcome}
    (hstage : StageOk key (key.row w.store) w.trace (.leaving record idempotent outcome)) :
    Inv key (w.leave task record idempotent outcome) ∧
      (w.leave task record idempotent outcome).store = w.store := by
  obtain ⟨hsnap, hbegun⟩ := hstage
  have hraise := (h.goto htask (stageOk_afterRaise hsnap)).free
  cases outcome with
  | raising => exact ⟨hraise, rfl⟩
  | returned rejected =>
      cases rejected with
      | some receipt =>
          exact ⟨(h.close htask).free, rfl⟩
      | none =>
          obtain ⟨hnew, hphase, hmay⟩ := hbegun rfl
          rw [Lane.leave]
          split
          · exact ⟨hraise, rfl⟩
          · have hrow : key.row w.store = some record := by
              refine hnew.eq ?_
              rw [hphase]
              exact Phase.noConfusion
            have hnot : isWithdrawn w.trace = false := by
              by_contra hout
              obtain ⟨row, hother, hrejected⟩ := h.cancelled (eq_true_of_ne_false hout)
              obtain rfl := Option.some.inj (hrow.symm.trans hother)
              rw [hphase] at hrejected
              cases hrejected
            refine ⟨⟨fun _ => ⟨record, hrow, .inl hphase⟩, fun hout => ?_, fun other hother => ?_,
              (fun _ hnot => nomatch hnot), (fun _ hnot => nomatch hnot),
              fun other older hsuffix => ?_⟩, rfl⟩
            · change isWithdrawn w.trace = true at hout
              rw [hnot] at hout
              cases hout
            · obtain rfl := Option.some.inj hother
              exact ⟨hnew, hphase⟩
            · rcases List.suffix_cons_iff.mp hsuffix with heq | hsuffix
              · obtain ⟨hsame, rfl⟩ := List.cons.inj heq
                obtain rfl := Entry.asked.inj hsame
                refine ⟨fun hfalse => ?_, hnot⟩
                rcases hmay with htrue | hnone
                · rw [hfalse] at htrue
                  cases htrue
                · exact hnone
              · exact h.asked other older hsuffix

theorem inv_fail (h : Inv key w) (htask : w.task = some task) {stage : Stage}
    (hstage : StageOk key (key.row w.store) w.trace stage) :
    Inv key (w.fail task stage) ∧ (w.fail task stage).store = w.store := by
  have hclosing := h.close htask
  cases stage with
  | admission record idempotent =>
      exact ⟨h.goto htask (stageOk_afterRaise fun _ => hstage.1), rfl⟩
  | sending record idempotent =>
      exact ⟨h.goto htask (stageOk_afterRaise fun _ => hstage.1), rfl⟩
  | beginRead record idempotent =>
      exact ⟨h.goto htask ⟨fun _ => hstage.1, fun hnot => nomatch hnot⟩, rfl⟩
  | beginDone record idempotent found =>
      exact ⟨h.goto htask ⟨fun _ => hstage.1.1, fun hnot => nomatch hnot⟩, rfl⟩
  | guarding record idempotent =>
      exact ⟨h.goto htask ⟨fun _ => hstage.1, fun hnot => nomatch hnot⟩, rfl⟩
  | starting record idempotent rejected =>
      exact ⟨h.goto htask ⟨fun _ => hstage.1.1, fun hnot => nomatch hnot⟩, rfl⟩
  | committed record idempotent rejected =>
      exact ⟨h.goto htask ⟨hstage.1, fun hnot => nomatch hnot⟩, rfl⟩
  | leaving record idempotent outcome =>
      exact ⟨(h.goto htask (stageOk_afterRaise hstage.1)).free, rfl⟩
  | created | firstRead | firstDone found | queueing | secondRead | secondDone found
  | opening record | querying record idempotent | settling record value | closing =>
      exact ⟨hclosing, rfl⟩

/-- **Every step of the task** keeps the invariant, and moves the stored delivery as it may. -/
theorem inv_advance (h : Inv key w) (htask : w.task = some task) {stage : Stage} {input : Input}
    {e : Event} (hstage : StageOk key (key.row w.store) w.trace stage)
    (hstep : w.advance key task stage input = some w') :
    Inv key w' ∧ RowStep e (key.row w.store) (key.row w'.store) := by
  -- what only moves the task on
  have hgoto {next : Stage} (hnext : StageOk key (key.row w.store) w.trace next) :
      Inv key (w.goto task next) ∧
        RowStep e (key.row w.store) (key.row (w.goto task next).store) :=
    ⟨h.goto htask hnext, .same _⟩
  rw [Lane.advance.eq_def] at hstep
  split at hstep
  · obtain rfl := Option.some.inj hstep
    obtain ⟨hinv, hstore⟩ := inv_fail h htask hstage
    rw [hstore]
    exact ⟨hinv, .same _⟩
  · obtain rfl := Option.some.inj hstep
    refine hgoto ?_
    split <;> trivial
  · obtain rfl := Option.some.inj hstep
    exact hgoto trivial
  · obtain rfl := Option.some.inj hstep
    exact hgoto (stageOk_afterFirstRead _)
  · obtain rfl := Option.some.inj hstep
    refine hgoto ?_
    split <;> trivial
  · obtain rfl := Option.some.inj hstep
    exact hgoto fun record hread => snap_read hread
  · obtain rfl := Option.some.inj hstep
    exact hgoto (stageOk_afterSecondRead hstage)
  · obtain rfl := Option.some.inj hstep
    exact hgoto (stageOk_afterOpen hstage _)
  · obtain rfl := Option.some.inj hstep
    exact hgoto (stageOk_afterQuery hstage _)
  · split at hstep
    · obtain rfl := Option.some.inj hstep
      have hread : StageOk key (key.row w.store) w.trace (.beginRead _ _) := hstage
      exact ⟨(h.goto htask hread).hold (fun _ => Admission.noConfusion)
        (fun _ => Admission.noConfusion), .same _⟩
    · cases hstep
  · next record idempotent now =>
      obtain rfl := Option.some.inj hstep
      refine hgoto ⟨hstage, fun found hread => ⟨snap_read hread, fun hstarted => ?_⟩⟩
      rcases hstage with ⟨⟨-, current, hrow, heq⟩, hprepared | ⟨-, hidempotent⟩⟩
      · -- a delivery that was prepared has not been started by anyone else
        obtain rfl := Option.some.inj (hrow.symm.trans (read_eq_ok hread).1)
        rcases heq with rfl | ⟨-, -, hrejected⟩
        · rw [hprepared] at hstarted
          cases hstarted
        · rw [hrejected] at hstarted
          cases hstarted
      · exact hidempotent
  · obtain rfl := Option.some.inj hstep
    exact hgoto (stageOk_afterBeginRead hstage)
  · obtain rfl := Option.some.inj hstep
    exact hgoto (stageOk_afterGuard hstage _)
  · obtain rfl := Option.some.inj hstep
    exact inv_commitStart h htask hstage _
  · obtain rfl := Option.some.inj hstep
    exact hgoto ⟨hstage.1, fun hnone => hstage.2 (Outcome.returned.inj hnone)⟩
  · obtain rfl := Option.some.inj hstep
    obtain ⟨hinv, hstore⟩ := inv_leave h htask hstage
    rw [hstore]
    exact ⟨hinv, .same _⟩
  · next record idempotent receipt =>
      obtain rfl := Option.some.inj hstep
      exact hgoto ⟨hstage.1, hstage.2, isSettled_phase receipt.status, rfl⟩
  · obtain rfl := Option.some.inj hstep
    exact inv_settle h htask hstage _
  · obtain rfl := Option.some.inj hstep
    exact ⟨⟨h.sent, h.cancelled, (fun _ hnone => nomatch hnone), h.rearmed, fun record hrearm =>
      ⟨rfl, (h.rearm record hrearm).2⟩, h.asked⟩, .same _⟩
  · cases hstep

end Tasks

/-! ### Steps of the others -/

section Steps

variable {key : DeliveryKey} {w w' : Lane}

theorem Inv.revoke (h : Inv key w) {task : Option SendTask}
    (htask : ∀ next, task = some next → ∃ old, w.task = some old ∧ next.stage = old.stage) :
    Inv key { w with task := task } := by
  refine ⟨h.sent, h.cancelled, fun next hnext => ?_, h.rearmed, fun record hrearm => ?_, h.asked⟩
  · obtain ⟨old, hold, hsame⟩ := htask next hnext
    rw [hsame]
    exact h.stage old hold
  · obtain ⟨hnone, hrest⟩ := h.rearm record hrearm
    refine ⟨?_, hrest⟩
    cases task with
    | none => rfl
    | some next =>
        obtain ⟨old, hold, -⟩ := htask next rfl
        rw [hnone] at hold
        cases hold

theorem stage_of_inactive {task : Option SendTask} {next : SendTask}
    (h : (task.map fun task => { task with active := false }) = some next) :
    ∃ old, task = some old ∧ next.stage = old.stage := by
  obtain ⟨old, hold, rfl⟩ := Option.map_eq_some_iff.mp h
  exact ⟨old, hold, rfl⟩

theorem inv_rearm (h : Inv key w) {record : OwnerRow Delivery} (hrearm : w.admission = .rearm record)
    (now : ℤ) : Inv key (w.rearm key record now) ∧
      RowStep (.retrySave now) (key.row w.store) (key.row (w.rearm key record now).store) := by
  obtain ⟨hnone, hphase, hrow, hname⟩ := h.rearm record hrearm
  have hsnap : Snap key (key.row w.store) record := ⟨hname, record, hrow, .inl rfl⟩
  have hquiet : outstanding w.trace = false := by
    by_contra hout
    obtain ⟨row, hother, hphases⟩ := h.sent (eq_true_of_ne_false hout)
    obtain rfl := Option.some.inj (hrow.symm.trans hother)
    rw [hphase] at hphases
    rcases hphases with hphases | hphases | hphases <;> cases hphases
  rw [Lane.rearm]
  rcases write_cases hsnap (.prepared record.value.sink) rfl now with
    ⟨new, written, heq, hwritten⟩ | ⟨error, heq⟩
  · rw [heq]
    have htrace : written.trace = w.trace := hwritten.trace
    refine ⟨⟨fun hout => ?_, (fun hout => nomatch hout), fun task htask => ?_,
      (fun _ hnot => nomatch hnot), (fun _ hnot => nomatch hnot), fun idempotent older hsuffix =>
        ?_⟩, ?_⟩
    · change outstanding written.trace = true at hout
      rw [htrace, hquiet] at hout
      cases hout
    · change written.task = some task at htask
      rw [hwritten.task, hnone] at htask
      cases htask
    · have hold := asked_of_cons hsuffix Entry.noConfusion
      rw [htrace] at hold
      exact h.asked idempotent older hold
    · change RowStep _ _ (key.row written.store)
      rw [hrow, hwritten.after]
      exact .moved (.inr (.inr ⟨⟨now, rfl⟩, hphase, hwritten.phase⟩))
  · rw [heq]
    exact ⟨h.hold (fun _ => Admission.noConfusion) (fun _ => Admission.noConfusion), .same _⟩

theorem inv_cancel (h : Inv key w) {receipt : Receipt} {now : ℤ} {e : Event} :
    Inv key (w.cancel key receipt now) ∧
      RowStep e (key.row w.store) (key.row (w.cancel key receipt now).store) := by
  have hidle {admission : Admission} (hrearmed : ∀ found, admission ≠ .rearmed found)
      (hrearm : ∀ record, admission ≠ .rearm record) :
      Inv key { w with admission := admission } ∧ RowStep e (key.row w.store) (key.row w.store) :=
    ⟨h.hold hrearmed hrearm, .same _⟩
  rw [Lane.cancel]
  rcases cancelPrepared_result key.recoveryOwner key.messageId key.sink receipt now w.store with
    hfalse | ⟨error, herror⟩ | ⟨previous, new, store, htrue, hread, hprepared, hstatus, hsave⟩
  · rw [hfalse]
    exact hidle (fun _ => Admission.noConfusion) (fun _ => Admission.noConfusion)
  · rw [herror]
    exact hidle (fun _ => Admission.noConfusion) (fun _ => Admission.noConfusion)
  · rw [htrue]
    obtain ⟨hrow, hname⟩ := read_eq_ok hread
    have hne : previous.value.phase ≠ .rejected := by
      rw [hprepared]
      exact Phase.noConfusion
    obtain ⟨-, -, hnew, -⟩ := saveDelivery_eq_ok hsave
    have hdeliveries := deliveries_of_saveDelivery hsave
    have hafter : key.row store = some new := by
      rw [DeliveryKey.row, hdeliveries]
      change (w.store.deliveries.set (key.messageId, previous.value.sink.name) new).get? _ = _
      rw [hname]
      exact Dict.get?_set_self _ _ _
    have hphase : new.value.phase = .rejected := by
      rw [hnew]
      refine (stamped_keeps previous.value _ now).2.trans ?_
      change receipt.status.phase = .rejected
      rw [hstatus]
      rfl
    have hversion : previous.version < new.version := by
      rw [hnew]
      exact Nat.lt_succ_self _
    have hcarry : Carries key (key.row w.store) (key.row store) w.trace
        (.withdrawn :: .rejected :: w.trace) := by
      refine ⟨fun record hsnap => ?_, fun _ => rfl⟩
      obtain ⟨hsink, current, hcurrent, heq⟩ := hsnap
      obtain rfl := Option.some.inj (hcurrent.symm.trans hrow)
      rcases heq with rfl | ⟨-, -, hrejected⟩
      · exact ⟨hsink, new, hafter, .inr ⟨hversion, hprepared, hphase⟩⟩
      · exact absurd hrejected hne
    refine ⟨h.moved ⟨store, w.task, .cancelled true, .withdrawn :: .rejected :: w.trace⟩ hrow hne
      hafter (.inr ⟨fun _ => Admission.noConfusion, fun _ => Admission.noConfusion⟩)
      (fun hout => nomatch hout) (fun _ => hphase) (fun idempotent older hsuffix =>
        asked_of_cons (asked_of_cons hsuffix Entry.noConfusion) Entry.noConfusion)
      (fun task htask => (h.stage task htask).carry hcarry), ?_⟩
    change RowStep e _ (key.row store)
    rw [show key.row w.store = some previous from hrow, hafter]
    exact .moved (.inl ⟨hprepared, .inr hphase⟩)

/-- The read of a retry keeps the invariant: it goes on when the delivery is rejected and no task
is there. -/
theorem inv_rearmed (h : Inv key w) {found : Except PyError (OwnerRow Delivery)}
    (hadmission : w.admission = .rearmed found) :
    Inv key { w with admission := w.rearmed found } := by
  have hreturning : Inv key { w with admission := .returning } :=
    h.hold (fun _ => Admission.noConfusion) (fun _ => Admission.noConfusion)
  cases found with
  | error e => exact hreturning
  | ok record =>
      rw [Lane.rearmed]
      split
      · exact hreturning
      · next hrejected =>
          split
          · exact hreturning
          · next hnone =>
              have hphase := not_not.mp hrejected
              obtain ⟨hrow, hname⟩ := h.rearmed record hadmission hphase
              refine ⟨h.sent, h.cancelled, h.stage, (fun _ hnot => nomatch hnot),
                fun other hother => ?_, h.asked⟩
              obtain rfl := Admission.rearm.inj hother
              exact ⟨Option.not_isSome_iff_eq_none.mp hnone, hphase, hrow, hname⟩

theorem inv_other (h : Inv key w) {store : Store} {e : Event}
    (helsewhere : Elsewhere key w.store store) :
    Inv key { w with store := store } ∧ RowStep e (key.row w.store) (key.row store) := by
  have hcarry : Carries key (key.row w.store) (key.row store) w.trace w.trace := by
    refine ⟨fun record hsnap => ?_, fun h => h⟩
    obtain ⟨hname, current, hcurrent, heq⟩ := hsnap
    exact ⟨hname, current, helsewhere.kept current hcurrent, heq⟩
  refine ⟨⟨fun hout => ?_, fun hout => ?_, fun task htask => (h.stage task htask).carry hcarry,
    fun record hrearmed hphase => ?_, fun record hrearm => ?_, h.asked⟩, ?_⟩
  · obtain ⟨row, hrow, hphase⟩ := h.sent hout
    exact ⟨row, helsewhere.kept row hrow, hphase⟩
  · obtain ⟨row, hrow, hphase⟩ := h.cancelled hout
    exact ⟨row, helsewhere.kept row hrow, hphase⟩
  · obtain ⟨hrow, hname⟩ := h.rearmed record hrearmed hphase
    exact ⟨helsewhere.kept record hrow, hname⟩
  · obtain ⟨hnone, hphase, hrow, hname⟩ := h.rearm record hrearm
    exact ⟨hnone, hphase, helsewhere.kept record hrow, hname⟩
  · cases hrow : key.row w.store with
    | some row =>
        rw [helsewhere.kept row hrow]
        exact .same _
    | none =>
        cases hafter : key.row store with
        | none => exact .same _
        | some row =>
            rcases helsewhere.prepared row hafter with hold | hprepared
            · rw [hrow] at hold
              cases hold
            · exact .created hprepared

/-- **Every step** keeps the invariant, and moves the stored delivery as it may. -/
theorem inv_step (h : Inv key w) {e : Event} (hstep : (deliveries key).step w e w') :
    Inv key w' ∧ RowStep e (key.row w.store) (key.row w'.store) := by
  obtain ⟨hafter, hother⟩ := hstep
  have hidle {admission : Admission} (hrearmed : ∀ found, admission ≠ .rearmed found)
      (hrearm : ∀ record, admission ≠ .rearm record) :
      Inv key { w with admission := admission } ∧ RowStep e (key.row w.store) (key.row w.store) :=
    ⟨h.hold hrearmed hrearm, .same _⟩
  have hfree : Inv key { w with admission := .free } ∧
      RowStep e (key.row w.store) (key.row w.store) := ⟨h.free, .same _⟩
  cases e with
  | start =>
      rw [Lane.after] at hafter
      split at hafter
      · next hadmission hnone =>
          obtain rfl := Option.some.inj hafter
          refine ⟨⟨h.sent, h.cancelled, fun task htask => ?_, h.rearmed, fun record hrearm => ?_,
            h.asked⟩, .same _⟩
          · obtain rfl := Option.some.inj htask
            trivial
          · rw [hadmission] at hrearm
            cases hrearm
      · obtain rfl := Option.some.inj hafter
        exact ⟨h, .same _⟩
      · cases hafter
  | revoke =>
      obtain rfl := Option.some.inj hafter
      exact ⟨h.revoke fun _ => stage_of_inactive, .same _⟩
  | task input =>
      rw [Lane.after] at hafter
      split at hafter
      · cases hafter
      · next task htask => exact inv_advance h htask (h.stage task htask) hafter
  | retry =>
      rw [Lane.after] at hafter
      split at hafter
      · obtain rfl := Option.some.inj hafter
        exact hidle (fun _ => Admission.noConfusion) (fun _ => Admission.noConfusion)
      · cases hafter
  | retryRead =>
      rw [Lane.after] at hafter
      split at hafter
      · obtain rfl := Option.some.inj hafter
        refine ⟨⟨h.sent, h.cancelled, h.stage, fun record hrearmed _ => ?_,
          (fun _ hnot => nomatch hnot), h.asked⟩, .same _⟩
        exact read_eq_ok (Admission.rearmed.inj hrearmed)
      · cases hafter
  | retryResume =>
      rw [Lane.after] at hafter
      split at hafter
      · next found hadmission =>
          obtain rfl := Option.some.inj hafter
          exact ⟨inv_rearmed h hadmission, .same _⟩
      · cases hafter
  | retrySave now =>
      rw [Lane.after] at hafter
      split at hafter
      · next record hadmission =>
          obtain rfl := Option.some.inj hafter
          exact inv_rearm h hadmission now
      · cases hafter
  | cancel reason =>
      rw [Lane.after] at hafter
      split at hafter
      · split at hafter
        · cases hafter
        · obtain rfl := Option.some.inj hafter
          exact hidle (fun _ => Admission.noConfusion) (fun _ => Admission.noConfusion)
      · cases hafter
  | cancelCommit now =>
      rw [Lane.after] at hafter
      split at hafter
      · obtain rfl := Option.some.inj hafter
        exact inv_cancel h
      · cases hafter
  | cancelResume =>
      rw [Lane.after] at hafter
      split at hafter
      · next result _ =>
          obtain rfl := Option.some.inj hafter
          cases result with
          | false => exact hfree
          | true => exact ⟨h.free.revoke fun _ => stage_of_inactive, .same _⟩
      · cases hafter
  | giveUp =>
      rw [Lane.after] at hafter
      split at hafter
      · obtain rfl := Option.some.inj hafter
        exact hfree
      · obtain rfl := Option.some.inj hafter
        exact hfree
      · obtain rfl := Option.some.inj hafter
        exact hfree
      · obtain rfl := Option.some.inj hafter
        exact hfree
      · cases hafter
  | release =>
      rw [Lane.after] at hafter
      split at hafter
      · obtain rfl := Option.some.inj hafter
        exact hfree
      · cases hafter
  | crash =>
      obtain rfl := Option.some.inj hafter
      have hgone : Inv key { w with task := none, admission := .free } :=
        h.free.revoke fun _ hnone => nomatch hnone
      exact ⟨hgone, .same _⟩
  | other store =>
      obtain rfl := Option.some.inj hafter
      exact inv_other h (hother store rfl)

theorem inv_init (h : (deliveries key).init w) : Inv key w := by
  obtain ⟨htask, hadmission, htrace⟩ := h
  refine ⟨fun hout => ?_, fun hout => ?_, fun task hsome => ?_, fun record hrearmed => ?_,
    fun record hrearm => ?_, fun idempotent older hsuffix => ?_⟩
  · rw [htrace] at hout
    cases hout
  · rw [htrace] at hout
    cases hout
  · rw [htask] at hsome
    cases hsome
  · rw [hadmission] at hrearmed
    cases hrearmed
  · rw [hadmission] at hrearm
    cases hrearm
  · rw [htrace] at hsuffix
    cases List.suffix_nil.mp hsuffix

/-- **Every reachable state** meets the invariant. -/
theorem inv_of_reachable (h : (deliveries key).Reachable w) : Inv key w :=
  h.invariant (fun _ => inv_init) (fun _ _ _ hinv _ hstep => (inv_step hinv hstep).1)

theorem delivered_of_run (h : Inv key w) (hrun : (deliveries key).Run w w')
    {row : OwnerRow Delivery} (hrow : key.row w.store = some row)
    (hphase : row.value.phase = .delivered) : key.row w'.store = some row := by
  have hboth : Inv key w' ∧ key.row w'.store = some row := by
    refine System.RunVia.preserves (I := fun w => Inv key w ∧ key.row w.store = some row)
      (fun s e t hs _ hstep => ?_) hrun ⟨h, hrow⟩
    obtain ⟨hinv, hmove⟩ := inv_step hs.1 hstep
    refine ⟨hinv, ?_⟩
    rw [hs.2] at hmove
    generalize key.row t.store = after at hmove
    cases hmove with
    | same => rfl
    | moved hmoves =>
        rw [hphase] at hmoves
        rcases hmoves with ⟨hnot, -⟩ | ⟨hnot, -⟩ | ⟨-, hnot, -⟩ <;> cases hnot
  exact hboth.2

/-- **Deliveries.** In every reachable state, the sender was asked only when no earlier request
was outstanding, or it is idempotent, and only when the delivery was not withdrawn; every step
moves the phase as it may; and a delivered record never changes. -/
theorem deliveries_runs (h : (deliveries key).Reachable w) :
    (∀ idempotent older, (.asked idempotent :: older) <:+ w.trace →
      (idempotent = false → outstanding older = false) ∧ isWithdrawn older = false) ∧
    (∀ e w', (deliveries key).step w e w' → RowStep e (key.row w.store) (key.row w'.store)) ∧
    ∀ w' row, (deliveries key).Run w w' → key.row w.store = some row →
      row.value.phase = .delivered → key.row w'.store = some row := by
  have hinv := inv_of_reachable h
  exact ⟨hinv.asked, fun _ _ hstep => (inv_step hinv hstep).2,
    fun _ _ hrun hrow hphase => delivered_of_run hinv hrun hrow hphase⟩

end Steps

/-! ### A delivery that is sent -/

/-- A letter that is to be delivered to the phone. -/
def letterKey : DeliveryKey :=
  ⟨"relay", "letter", "phone"⟩

/-- The letter is prepared. -/
def preparedLetter : Lane :=
  ⟨readLetter.store, none, .free, []⟩

/-- What happens until the sender, which is not idempotent, is asked. -/
def untilSent : List Event :=
  [.start, .task .resume, .task (.perform 0), .task .resume, .task .resume, .task (.perform 0),
    .task .resume, .task (.opened false), .task .resume, .task (.perform 0), .task .resume,
    .task (.guarded none), .task (.perform 0), .task .resume, .task .resume]

/-- The state after some events. -/
def Lane.runs (key : DeliveryKey) : List Event → Lane → Option Lane
  | [], w => some w
  | e :: events, w => (w.after key e).bind (Lane.runs key events)

theorem reachable_runs {key : DeliveryKey} {w w' : Lane} {events : List Event}
    (h : (deliveries key).Reachable w) (hown : ∀ e ∈ events, ∀ store, e ≠ .other store)
    (hruns : Lane.runs key events w = some w') : (deliveries key).Reachable w' := by
  induction events generalizing w with
  | nil =>
      obtain rfl := Option.some.inj hruns
      exact h
  | cons e events ih =>
      obtain ⟨middle, hmiddle, hrest⟩ := Option.bind_eq_some_iff.mp hruns
      have hstep : (deliveries key).step w e middle :=
        ⟨hmiddle, fun store heq => absurd heq (hown e List.mem_cons_self store)⟩
      exact ih (h.step trivial hstep) (fun other hmem => hown other (List.mem_cons_of_mem _ hmem))
        hrest

/-- The sender is asked once, of a delivery that is started. -/
theorem deliveries_sentLetter : ∃ w, Lane.runs letterKey untilSent preparedLetter = some w ∧
    w.trace = [.asked false] ∧ outstanding ([] : List Entry) = false ∧
    ∀ e w', (deliveries letterKey).step w e w' →
      RowStep e (letterKey.row w.store) (letterKey.row w'.store) := by
  obtain ⟨w, hruns⟩ : ∃ w, Lane.runs letterKey untilSent preparedLetter = some w := ⟨_, rfl⟩
  have hreach := reachable_runs (.init ⟨rfl, rfl, rfl⟩) (by simp [untilSent]) hruns
  have htrace : w.trace = [.asked false] := by
    obtain rfl := Option.some.inj hruns
    rfl
  obtain ⟨hasked, hmoves, -⟩ := deliveries_runs hreach
  have hsuffix : [.asked false] <:+ w.trace := htrace.symm ▸ List.suffix_refl _
  exact ⟨w, hruns, htrace, (hasked false [] hsuffix).1 rfl, hmoves⟩

end Kirakira.Deliveries
