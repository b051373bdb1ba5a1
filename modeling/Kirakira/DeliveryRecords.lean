import Kirakira.Lib.Exceptions
import Kirakira.OwnerRows

/-!
# Delivery Records

`DeliveryRecords` of `plugins/delivery/records.py`: which destinations a message was first
selected for, the state of its delivery to each of them, how far each recovery owner has
consumed a session, and when a message was first confirmed. Every operation is one
transaction on the rows of the delivery owner, which all recovery owners share; a reader
gives the accepted messages of its session.

A row holds the value that its JSON validates to, with the old phase `unknown` read as
`failed`. Times are microseconds.

* `prepareMessage`, `publish`, `consumeBatch`, `addDestination`, `save`, `cancelPrepared` —
  the operations.
* `advanceUnroutable` — the path of `consumeBatch` that only moves the cached cursor.
-/

namespace Kirakira.DeliveryRecords

open Exceptions

/-! ### Values -/

/-- A destination. -/
structure Sink where
  name : String
  bindingId : String
  address : String
  deriving DecidableEq

/-- How a delivery ended. -/
inductive Status where
  | delivered
  | rejected
  | failed
  deriving DecidableEq, Repr

/-- What a sender answered. -/
structure Receipt where
  status : Status
  providerIds : List String
  error : Option String
  deriving DecidableEq

/-- Where a delivery stands. -/
inductive Phase where
  | prepared
  | started
  | delivered
  | rejected
  | failed
  deriving DecidableEq, Repr

/-- The phase that a status leads to. -/
def Status.phase : Status → Phase
  | .delivered => .delivered
  | .rejected => .rejected
  | .failed => .failed

/-- `phase in {"delivered", "rejected", "failed"}`. -/
def Phase.isSettled : Phase → Bool
  | .prepared | .started => false
  | _ => true

/-- `check_receipt`. -/
def ReceiptOk (phase : Phase) (receipt : Option Receipt) (confirmedAt : Option ℤ) : Prop :=
  (if phase.isSettled then receipt.map (·.status.phase) = some phase else receipt = none) ∧
    (confirmedAt ≠ none → phase = .delivered)

/-- `Delivery`. -/
structure Delivery where
  sink : Sink
  phase : Phase
  receipt : Option Receipt
  confirmedAt : Option ℤ
  receipt_ok : ReceiptOk phase receipt confirmedAt
  deriving DecidableEq

/-- `Delivery(sink=sink, phase="prepared")`. -/
def Delivery.prepared (sink : Sink) : Delivery :=
  ⟨sink, .prepared, none, none, rfl, fun h => absurd rfl h⟩

/-- `Delivery(sink=sink, phase="started")`. -/
def Delivery.started (sink : Sink) : Delivery :=
  ⟨sink, .started, none, none, rfl, fun h => absurd rfl h⟩

theorem isSettled_phase (status : Status) : status.phase.isSettled = true := by
  cases status <;> rfl

/-- `Delivery(sink=sink, phase=receipt.status, receipt=receipt)`. -/
def Delivery.settled (sink : Sink) (receipt : Receipt) : Delivery where
  sink := sink
  phase := receipt.status.phase
  receipt := some receipt
  confirmedAt := none
  receipt_ok := ⟨by rw [if_pos (isSettled_phase receipt.status)]; rfl, fun h => absurd rfl h⟩

/-- `delivery.model_copy(update={"confirmed_at": now})` of a delivered one. -/
def Delivery.confirm (delivery : Delivery) (now : ℤ) (h : delivery.phase = .delivered) :
    Delivery :=
  { delivery with
    confirmedAt := some now
    receipt_ok := ⟨delivery.receipt_ok.1, fun _ => h⟩ }

/-- `Selection`. -/
structure Selection where
  sessionId : String
  recoveryOwner : String
  passive : Bool
  sinks : List String
  deriving DecidableEq

/-- `Confirmation`. -/
structure Confirmation where
  messageId : String
  sessionId : String
  confirmedAt : ℤ
  deriving DecidableEq

/-- The rows of the delivery owner: those under `selection:`, `delivery:`, `cursor:`,
`confirmed-message:` and `confirmed-time:`, under what identifies them. -/
structure Store where
  selections : OwnerRows String Selection
  deliveries : OwnerRows (String × String) Delivery
  cursors : OwnerRows (String × String) ℤ
  confirmedMessages : OwnerRows String Confirmation
  confirmedTimes : OwnerRows (ℤ × String) Confirmation

/-- The store before anything was delivered. -/
def Store.empty : Store :=
  ⟨.empty, .empty, .empty, .empty, .empty⟩

/-- A `MessageReader`: whether it belongs to the log, its session, and the accepted messages
of the session in order. -/
structure Reader where
  ownLog : Bool
  sessionId : String
  log : List Message

/-- `reader.get`. -/
def Reader.get (reader : Reader) (messageId : String) : Option Message :=
  reader.log.find? fun message => message.messageId = messageId

/-- `reader.read(after_seq=after, limit=1)`. -/
def Reader.following (reader : Reader) (after : ℤ) : Option Message :=
  reader.log.find? fun message => after < message.seq

/-! ### Reads -/

/-- `selection`. -/
def Store.selection (store : Store) (messageId : String) : Except PyError (Option Selection) :=
  match store.selections.get? messageId with
  | none => .ok none
  | some row =>
      if row.version ≠ 0 then valueError "首次发送选择不能被改写" else .ok (some row.value)

/-- `check_owner`. -/
def Store.checkOwner (store : Store) (recoveryOwner messageId : String) :
    Except PyError Selection := do
  match ← store.selection messageId with
  | none => valueError "发送缺少首次选择"
  | some selection =>
      if selection.recoveryOwner ≠ recoveryOwner then
        .error ⟨.permissionError, "发送属于另一个恢复 owner"⟩
      else return selection

/-- `read`. -/
def Store.read (store : Store) (recoveryOwner messageId sink : String) :
    Except PyError (OwnerRow Delivery) := do
  let _ ← store.checkOwner recoveryOwner messageId
  match store.deliveries.get? (messageId, sink) with
  | none => valueError "发送尚未 prepared"
  | some row =>
      if row.value.sink.name ≠ sink then valueError "发送目的地与记录身份不一致"
      else return row

/-- `_check_message`. -/
def checkMessage (reader : Reader) (message : Message) (sinks : List Sink) :
    Except PyError Unit :=
  if reader.ownLog = false then valueError "原子提交不能跨存储 authority"
  else if reader.sessionId ≠ message.sessionId ∨ reader.get message.messageId ≠ some message then
    valueError "发送必须引用本 Session 已提交的原消息"
  else if ¬ (sinks.map (·.name)).Nodup then valueError "一次选路不能重复同一目的地"
  else .ok ()

/-! ### Writes -/

/-- What a transaction does to the store. -/
abbrev Commit (α : Type) := Store → Except PyError (α × Store)

/-- `transact`: an exception rolls back. -/
def transact {α : Type} (commit : Commit α) (store : Store) : Except PyError α × Store :=
  match commit store with
  | .ok (result, store) => (.ok result, store)
  | .error e => (.error e, store)

/-- `_add`. -/
def add (recoveryOwner messageId : String) (sink : Sink) (store : Store) :
    Except PyError Store :=
  match store.deliveries.get? (messageId, sink.name) with
  | some _ => do
      let existing ← store.read recoveryOwner messageId sink.name
      if existing.value.sink ≠ sink then
        .error ⟨.messageConflict, "原发送不能更换目的地或 binding"⟩
      else return store
  | none => do
      let (_, deliveries) ← store.deliveries.save (messageId, sink.name) (.prepared sink) none
      return { store with deliveries := deliveries }

/-- `for sink in sinks: self._add(tx, message_id, sink)`. -/
def addAll (recoveryOwner messageId : String) : List Sink → Store → Except PyError Store
  | [], store => .ok store
  | sink :: sinks, store => do
      let store ← add recoveryOwner messageId sink store
      addAll recoveryOwner messageId sinks store

/-- `_prepare`. -/
def prepare (recoveryOwner : String) (message : Message) (sinks : List Sink) (passive : Bool) :
    Commit Selection := fun store => do
  match ← store.selection message.messageId with
  | some existing =>
      if existing.sessionId ≠ message.sessionId then valueError "发送选择属于另一个 Session"
      else return (existing, store)
  | none => do
      let selection : Selection :=
        ⟨message.sessionId, recoveryOwner, passive, sinks.map (·.name)⟩
      let (_, selections) ← store.selections.save message.messageId selection none
      let store ← addAll recoveryOwner message.messageId sinks
        { store with selections := selections }
      return (selection, store)

/-- The first selection of a message, or the one there is when it belongs to the owner. -/
def prepareOwned (recoveryOwner : String) (message : Message) (sinks : List Sink)
    (passive : Bool) : Commit Selection := fun store => do
  match ← store.selection message.messageId with
  | some _ => do
      let selection ← store.checkOwner recoveryOwner message.messageId
      return (selection, store)
  | none => prepare recoveryOwner message sinks passive store

/-- `_prepare_message`. -/
def prepareMessage (recoveryOwner : String) (reader : Reader) (message : Message)
    (sinks : List Sink) (passive : Bool) (store : Store) : Except PyError Selection × Store :=
  match checkMessage reader message sinks with
  | .error e => (.error e, store)
  | .ok () => transact (prepareOwned recoveryOwner message sinks passive) store

/-- `publish_async`, on what the append of the message returned. -/
def publish (recoveryOwner : String) (appended : Except PyError Message) (sinks : List Sink)
    (passive : Bool) (store : Store) : Except PyError Selection × Store :=
  if ¬ (sinks.map (·.name)).Nodup then (valueError "一次选路不能重复同一目的地", store)
  else
    transact (fun store => do
      let message ← appended
      prepareOwned recoveryOwner message sinks passive store) store

/-- `_add_destination`. -/
def addDestination (recoveryOwner messageId : String) (sink : Sink) (store : Store) :
    Except PyError Unit × Store :=
  transact (fun store => do
    let _ ← store.checkOwner recoveryOwner messageId
    let store ← add recoveryOwner messageId sink store
    return ((), store)) store

/-- A delivery as `_save` stores it over an old one. -/
def stamped (old delivery : Delivery) (now : ℤ) : Delivery :=
  if h : delivery.phase = .delivered ∧ old.phase ≠ .delivered then delivery.confirm now h.1
  else delivery

/-- The rows of the first confirmation of a message. -/
def confirm (selection : Selection) (messageId : String) (delivery : Delivery) (store : Store) :
    Except PyError Store :=
  match delivery.confirmedAt, store.confirmedMessages.get? messageId with
  | some confirmedAt, none => do
      let confirmation : Confirmation := ⟨messageId, selection.sessionId, confirmedAt⟩
      let (_, messages) ← store.confirmedMessages.save messageId confirmation none
      let (_, times) ← store.confirmedTimes.save (confirmedAt, messageId) confirmation none
      return { store with confirmedMessages := messages, confirmedTimes := times }
  | _, _ => .ok store

/-- `_save`. -/
def saveDelivery (recoveryOwner messageId : String) (previous : OwnerRow Delivery)
    (delivery : Delivery) (now : ℤ) : Commit (OwnerRow Delivery) := fun store => do
  let selection ← store.checkOwner recoveryOwner messageId
  if previous.value.phase = .delivered ∧ delivery ≠ previous.value then
    .error ⟨.messageConflict, "已送达回执不能改写"⟩
  else do
    let delivery := stamped previous.value delivery now
    let (row, deliveries) ← store.deliveries.save (messageId, delivery.sink.name) delivery
      (some previous.version)
    let store ← confirm selection messageId delivery { store with deliveries := deliveries }
    return (row, store)

/-- `save_async`. -/
def save (recoveryOwner messageId : String) (previous : OwnerRow Delivery)
    (delivery : Delivery) (now : ℤ) (store : Store) :
    Except PyError (OwnerRow Delivery) × Store :=
  transact (saveDelivery recoveryOwner messageId previous delivery now) store

/-- `cancel_prepared_async`; the receipt of a cancellation is a rejection. -/
def cancelPrepared (recoveryOwner messageId sink : String) (receipt : Receipt) (now : ℤ)
    (store : Store) : Except PyError Bool × Store :=
  transact (fun store => do
    let previous ← store.read recoveryOwner messageId sink
    if previous.value.phase ≠ .prepared then return (false, store)
    else if receipt.status ≠ .rejected then valueError "发送阶段与回执不一致"
    else do
      let (_, store) ← saveDelivery recoveryOwner messageId previous
        (.settled previous.value.sink receipt) now store
      return (true, store)) store

/-! ### Consumption -/

/-- A message, and the destinations its consumer selected for it; none when the consumer
does not own the selection. -/
structure Item where
  message : Message
  sinks : Option (List Sink)

/-- A `DeliveryRecords` object: its recovery owner and its cached cursors. -/
structure Records where
  recoveryOwner : String
  cursorCache : Dict String ℤ

/-- The persisted cursor of a session. -/
def Store.persistedCursor (store : Store) (recoveryOwner sessionId : String) : ℤ :=
  ((store.cursors.get? (recoveryOwner, sessionId)).map (·.value)).getD (-1)

/-- `cursor`: the cached cursor, or the persisted one, which is then cached. -/
def Records.cursor (records : Records) (sessionId : String) (store : Store) : ℤ × Records :=
  match records.cursorCache.get? sessionId with
  | some cached => (cached, records)
  | none =>
      let through := store.persistedCursor records.recoveryOwner sessionId
      (through, { records with cursorCache := records.cursorCache.set sessionId through })

/-- Whether a message may be routed: a complete output. -/
def isRoutable (message : Message) : Bool :=
  match message.body with
  | .output output => output.finish = .complete
  | _ => false

/-- Whether the fast path is for the batch: no item has destinations or may be routed. -/
def isUnroutable (items : List Item) : Bool :=
  !items.isEmpty && items.all fun item => item.sinks.isNone && !isRoutable item.message

/-- `_advance_unroutable`: whether it took the batch. -/
def Records.advanceUnroutable (records : Records) (reader : Reader) (items : List Item)
    (store : Store) : Except PyError Bool × Records :=
  match items.head?, items.getLast? with
  | some first, some last =>
      if isUnroutable items = false then (.ok false, records)
      else
        let (through, records) := records.cursor reader.sessionId store
        if (first.message.seq : ℤ) ≤ through then (.ok false, records)
        else if (reader.following through).map (·.messageId) ≠ some first.message.messageId then
          (.error ⟨.messageConflict, "发送消费不能跳过消息"⟩, records)
        else (.ok true, { records with
          cursorCache := records.cursorCache.set reader.sessionId last.message.seq })
  | _, _ => (.ok false, records)

/-- The next item of a batch: the selection there is, or the first one for its destinations. -/
def consumeItem (recoveryOwner : String) (message : Message) (passive : Bool)
    (sinks : Option (List Sink)) : Commit (Option Selection) := fun store =>
  match sinks with
  | none => do
      let selection ← store.selection message.messageId
      return (selection, store)
  | some sinks => do
      let (selection, store) ← prepare recoveryOwner message sinks passive store
      return (some selection, store)

/-- The items of a batch, one after the other, from a cursor. -/
def consumeItems (recoveryOwner : String) (reader : Reader) (passive : Bool) :
    List Item → ℤ → Store → Except PyError (List (Option Selection) × ℤ × Store)
  | [], through, store => .ok ([], through, store)
  | item :: items, through, store =>
      if (item.message.seq : ℤ) ≤ through then do
        let existing ← store.selection item.message.messageId
        if existing = none ∧ item.sinks ≠ none then valueError "已消费消息没有本次要求的发送选择"
        else do
          let (selections, rest) ← consumeItems recoveryOwner reader passive items through store
          return (existing :: selections, rest)
      else if reader.following through ≠ some item.message then
        .error ⟨.messageConflict, "发送消费不能跳过消息"⟩
      else do
        let (selection, store) ← consumeItem recoveryOwner item.message passive item.sinks store
        let (selections, rest) ←
          consumeItems recoveryOwner reader passive items item.message.seq store
        return (selection :: selections, rest)

/-- The transaction of `_consume_batch`: the selections, and the cursor it persisted. -/
def Records.consumeCommit (records : Records) (reader : Reader) (items : List Item)
    (passive : Bool) : Commit (List (Option Selection) × Option ℤ) := fun store => do
  let key := (records.recoveryOwner, reader.sessionId)
  let persisted := store.cursors.get? key
  let persistedThrough := store.persistedCursor records.recoveryOwner reader.sessionId
  let cached := (records.cursorCache.get? reader.sessionId).getD (-1)
  let (selections, through, store) ← consumeItems records.recoveryOwner reader passive items
    (max persistedThrough cached) store
  if persistedThrough < through then do
    let (_, cursors) ← store.cursors.save key through (persisted.map (·.version))
    return ((selections, some through), { store with cursors := cursors })
  else return ((selections, none), store)

/-- The check of every item of a batch. -/
def checkItems (reader : Reader) : List Item → Except PyError Unit
  | [] => .ok ()
  | item :: items => do
      checkMessage reader item.message (item.sinks.getD [])
      checkItems reader items

/-- The ordinary path of `_consume_batch`. -/
def Records.consumeOrdinary (records : Records) (reader : Reader) (items : List Item)
    (passive : Bool) (store : Store) :
    Except PyError (List (Option Selection)) × Records × Store :=
  match checkItems reader items with
  | .error e => (.error e, records, store)
  | .ok () =>
      match transact (records.consumeCommit reader items passive) store with
      | (.error e, store) => (.error e, records, store)
      | (.ok (selections, none), store) => (.ok selections, records, store)
      | (.ok (selections, some through), store) =>
          (.ok selections,
            { records with cursorCache := records.cursorCache.set reader.sessionId through }, store)

/-- `_consume_batch`. -/
def Records.consumeBatch (records : Records) (reader : Reader) (items : List Item)
    (passive : Bool) (store : Store) :
    Except PyError (List (Option Selection)) × Records × Store :=
  match records.advanceUnroutable reader items store with
  | (.error e, records) => (.error e, records, store)
  | (.ok true, records) => (.ok (items.map fun _ => none), records, store)
  | (.ok false, records) => records.consumeOrdinary reader items passive store

/-- `_consume_message`. -/
def Records.consumeMessage (records : Records) (reader : Reader) (item : Item)
    (passive : Bool) (store : Store) : Except PyError (List (Option Selection)) × Records × Store :=
  records.consumeBatch reader [item] passive store

/-! ### What the writes do -/

section Writes

variable {recoveryOwner messageId : String} {store store' : Store}

theorem selection_eq_some {selection : Selection}
    (h : store.selection messageId = .ok (some selection)) :
    store.selections.get? messageId = some ⟨0, selection⟩ := by
  rw [Store.selection] at h
  split at h
  · cases Except.ok.inj h
  · next row hrow =>
      obtain ⟨-, ⟨⟩⟩ | ⟨hversion, h⟩ := ite_eq_iff.mp h
      obtain rfl := Option.some.inj (Except.ok.inj h)
      rw [hrow, ← not_not.mp hversion]

theorem selection_eq_none (h : store.selection messageId = .ok none) :
    store.selections.get? messageId = none := by
  rw [Store.selection] at h
  split at h
  · next hrow => exact hrow
  · split at h
    · cases h
    · cases Except.ok.inj h

theorem checkOwner_eq_ok {selection : Selection}
    (h : store.checkOwner recoveryOwner messageId = .ok selection) :
    store.selections.get? messageId = some ⟨0, selection⟩ ∧
      selection.recoveryOwner = recoveryOwner := by
  rw [Store.checkOwner] at h
  obtain ⟨found, hfound, h⟩ := bind_eq_ok.mp h
  cases found with
  | none => cases h
  | some found =>
      dsimp only at h
      obtain ⟨-, ⟨⟩⟩ | ⟨howner, h⟩ := ite_eq_iff.mp h
      obtain rfl := Except.ok.inj h
      exact ⟨selection_eq_some hfound, not_not.mp howner⟩

theorem read_eq_ok {sink : String} {row : OwnerRow Delivery}
    (h : store.read recoveryOwner messageId sink = .ok row) :
    store.deliveries.get? (messageId, sink) = some row ∧ row.value.sink.name = sink := by
  rw [Store.read] at h
  obtain ⟨_, -, h⟩ := bind_eq_ok.mp h
  split at h
  · cases h
  · next found hfound =>
      obtain ⟨-, ⟨⟩⟩ | ⟨hname, h⟩ := ite_eq_iff.mp h
      obtain rfl := Except.ok.inj h
      exact ⟨hfound, not_not.mp hname⟩

theorem add_eq_ok {sink : Sink} (h : add recoveryOwner messageId sink store = .ok store') :
    (store' = store ∧ ∃ row, store.deliveries.get? (messageId, sink.name) = some row ∧
      row.value.sink = sink) ∨
    (store.deliveries.get? (messageId, sink.name) = none ∧
      store' = { store with
        deliveries := store.deliveries.set (messageId, sink.name) ⟨0, .prepared sink⟩ }) := by
  rw [add] at h
  split at h
  · obtain ⟨existing, hexisting, h⟩ := bind_eq_ok.mp h
    obtain ⟨-, ⟨⟩⟩ | ⟨hsink, h⟩ := ite_eq_iff.mp h
    obtain rfl := Except.ok.inj h
    exact .inl ⟨rfl, existing, (read_eq_ok hexisting).1, not_not.mp hsink⟩
  · next hnone =>
      obtain ⟨⟨row, deliveries⟩, hsave, h⟩ := bind_eq_ok.mp h
      obtain rfl := Except.ok.inj h
      obtain ⟨-, rfl, rfl⟩ := OwnerRows.save_none_eq_ok hsave
      exact .inr ⟨hnone, rfl⟩

/-- What destinations are added to a store: the rows there are stay, every destination has
a row, and a new row is that of a prepared one. -/
structure Added (messageId : String) (sinks : List Sink) (store store' : Store) : Prop where
  selections : store'.selections = store.selections
  cursors : store'.cursors = store.cursors
  messages : store'.confirmedMessages = store.confirmedMessages
  times : store'.confirmedTimes = store.confirmedTimes
  kept : ∀ key row, store.deliveries.get? key = some row → store'.deliveries.get? key = some row
  covered : ∀ sink ∈ sinks, ∃ row,
    store'.deliveries.get? (messageId, sink.name) = some row ∧ row.value.sink = sink
  new : ∀ key row, store'.deliveries.get? key = some row →
    store.deliveries.get? key = some row ∨
      ∃ sink ∈ sinks, key = (messageId, sink.name) ∧ row = ⟨0, .prepared sink⟩

theorem Added.refl (store : Store) : Added messageId [] store store :=
  ⟨rfl, rfl, rfl, rfl, fun _ _ h => h, (fun _ h => nomatch h), fun _ _ h => .inl h⟩

theorem added_of_add {sink : Sink} (h : add recoveryOwner messageId sink store = .ok store') :
    Added messageId [sink] store store' := by
  rcases add_eq_ok h with ⟨rfl, row, hrow, hsink⟩ | ⟨hnone, rfl⟩
  · refine ⟨rfl, rfl, rfl, rfl, fun _ _ h => h, fun other hother => ?_, fun _ _ h => .inl h⟩
    rw [List.mem_singleton.mp hother]
    exact ⟨row, hrow, hsink⟩
  · refine ⟨rfl, rfl, rfl, rfl, fun key row hrow => ?_, fun other hother => ?_,
      fun key row hrow => ?_⟩
    · rw [Dict.get?_set_of_ne]
      · exact hrow
      · rintro rfl
        rw [hnone] at hrow
        cases hrow
    · rw [List.mem_singleton.mp hother]
      exact ⟨_, Dict.get?_set_self _ _ _, rfl⟩
    · rw [Dict.get?_set] at hrow
      split at hrow
      · next hkey =>
          exact .inr ⟨sink, List.mem_singleton_self sink, hkey, (Option.some.inj hrow).symm⟩
      · exact .inl hrow

theorem Added.cons {sink : Sink} {sinks : List Sink} {middle : Store}
    (h : Added messageId [sink] store middle) (hrest : Added messageId sinks middle store') :
    Added messageId (sink :: sinks) store store' := by
  refine ⟨hrest.selections.trans h.selections, hrest.cursors.trans h.cursors,
    hrest.messages.trans h.messages, hrest.times.trans h.times,
    fun key row hrow => hrest.kept key row (h.kept key row hrow), fun other hother => ?_,
    fun key row hrow => ?_⟩
  · rcases List.mem_cons.mp hother with rfl | hother
    · obtain ⟨row, hrow, hsink⟩ := h.covered other (List.mem_singleton_self other)
      exact ⟨row, hrest.kept _ _ hrow, hsink⟩
    · exact hrest.covered other hother
  · rcases hrest.new key row hrow with hrow | ⟨other, hother, hnew⟩
    · rcases h.new key row hrow with hrow | ⟨other, hother, hnew⟩
      · exact .inl hrow
      · exact .inr ⟨other, List.mem_cons.mpr (.inl (List.mem_singleton.mp hother)), hnew⟩
    · exact .inr ⟨other, List.mem_cons_of_mem _ hother, hnew⟩

theorem added_of_addAll {sinks : List Sink}
    (h : addAll recoveryOwner messageId sinks store = .ok store') :
    Added messageId sinks store store' := by
  induction sinks generalizing store with
  | nil =>
      obtain rfl := Except.ok.inj h
      exact Added.refl store
  | cons sink sinks ih =>
      obtain ⟨middle, hmiddle, h⟩ := bind_eq_ok.mp h
      exact (added_of_add hmiddle).cons (ih h)

/-- **What a first selection does**: it returns the selection there is, or stores a new one
with all its destinations. -/
theorem prepare_eq_ok {message : Message} {sinks : List Sink} {passive : Bool}
    {selection : Selection}
    (h : prepare recoveryOwner message sinks passive store = .ok (selection, store')) :
    (store.selections.get? message.messageId = some ⟨0, selection⟩ ∧ store' = store) ∨
    (store.selections.get? message.messageId = none ∧
      selection = ⟨message.sessionId, recoveryOwner, passive, sinks.map (·.name)⟩ ∧
      Added message.messageId sinks
        { store with selections := store.selections.set message.messageId ⟨0, selection⟩ }
        store') := by
  rw [prepare] at h
  obtain ⟨existing, hexisting, h⟩ := bind_eq_ok.mp h
  cases existing with
  | some existing =>
      dsimp only at h
      split at h
      · cases h
      · obtain ⟨rfl, rfl⟩ := Prod.mk.inj (Except.ok.inj h)
        exact .inl ⟨selection_eq_some hexisting, rfl⟩
  | none =>
      obtain ⟨⟨row, selections⟩, hsave, h⟩ := bind_eq_ok.mp h
      obtain ⟨added, hadded, h⟩ := bind_eq_ok.mp h
      obtain ⟨rfl, rfl⟩ := Prod.mk.inj (Except.ok.inj h)
      obtain ⟨-, rfl, rfl⟩ := OwnerRows.save_none_eq_ok hsave
      exact .inr ⟨selection_eq_none hexisting, rfl, added_of_addAll hadded⟩

end Writes

end Kirakira.DeliveryRecords
