import Kirakira.DeliveryConsumption

/-!
# First Routing and First Confirmation

The rows of the delivery owner under every order of the operations of `DeliveryRecords`, by
any recovery owners and objects, over any messages and destinations. A caller of
`save_async` keeps what all of them keep: it saves over a row that a read or an earlier save
returned for this delivery, and leaves the destination as it is.

## Main results

* `Routed` — what every operation but a save does: selections and deliveries stay, and a new
  selection comes with its deliveries.
* `saveDelivery_eq_ok` — what a save does.
* `sound_of_reachable` — the four families stay in step.
* `deliveryRecords_runs` — selections and destinations never change, and a message has its
  confirmation and one entry of the time index from its first save as delivered on.
-/

namespace Kirakira.DeliveryRecords

open Exceptions Transition

/-! ### The system -/

/-- What is stored, the rows that callers hold, and the saves of a delivery as delivered, with
their messages and times. -/
structure Confirmations where
  store : Store
  held : List ((String × String) × OwnerRow Delivery)
  saves : List (String × ℤ)

/-- The operations. -/
inductive Routing where
  | prepare (recoveryOwner : String) (reader : Reader) (message : Message) (sinks : List Sink)
      (passive : Bool)
  | publish (recoveryOwner : String) (appended : Except PyError Message) (sinks : List Sink)
      (passive : Bool)
  | consume (records : Records) (reader : Reader) (item : Item) (passive : Bool)
  | consumeBatch (records : Records) (reader : Reader) (items : List Item) (passive : Bool)
  | add (recoveryOwner messageId : String) (sink : Sink)
  | read (recoveryOwner messageId sink : String)
  | save (recoveryOwner messageId : String) (previous : OwnerRow Delivery) (delivery : Delivery)
      (now : ℤ)
  | cancelPrepared (recoveryOwner messageId sink : String) (receipt : Receipt) (now : ℤ)

/-- The state after a read: its caller holds the row. -/
def Confirmations.read (w : Confirmations) (recoveryOwner messageId sink : String) :
    Confirmations :=
  match w.store.read recoveryOwner messageId sink with
  | .ok row => { w with held := w.held ++ [((messageId, sink), row)] }
  | .error _ => w

/-- The state after a save: its caller holds the new row. -/
def Confirmations.save (w : Confirmations) (recoveryOwner messageId : String)
    (previous : OwnerRow Delivery) (delivery : Delivery) (now : ℤ) : Confirmations :=
  match DeliveryRecords.save recoveryOwner messageId previous delivery now w.store with
  | (.ok row, store) =>
      ⟨store, w.held ++ [((messageId, delivery.sink.name), row)],
        if delivery.phase = .delivered then w.saves ++ [(messageId, now)] else w.saves⟩
  | (.error _, store) => { w with store := store }

/-- The state after an operation. -/
def Confirmations.after (w : Confirmations) : Routing → Confirmations
  | .prepare recoveryOwner reader message sinks passive =>
      { w with store := (prepareMessage recoveryOwner reader message sinks passive w.store).2 }
  | .publish recoveryOwner appended sinks passive =>
      { w with store := (publish recoveryOwner appended sinks passive w.store).2 }
  | .consume records reader item passive =>
      { w with store := (records.consumeMessage reader item passive w.store).2.2 }
  | .consumeBatch records reader items passive =>
      { w with store := (records.consumeBatch reader items passive w.store).2.2 }
  | .add recoveryOwner messageId sink =>
      { w with store := (addDestination recoveryOwner messageId sink w.store).2 }
  | .read recoveryOwner messageId sink => w.read recoveryOwner messageId sink
  | .save recoveryOwner messageId previous delivery now =>
      w.save recoveryOwner messageId previous delivery now
  | .cancelPrepared recoveryOwner messageId sink receipt now =>
      { w with store := (cancelPrepared recoveryOwner messageId sink receipt now w.store).2 }

/-- The records, from before anything was delivered. -/
def confirmations : System Confirmations Routing where
  init w := w = ⟨.empty, [], []⟩
  step w e w' := w' = w.after e

/-- What a caller of a save keeps to: it holds the row that it saves over, and keeps the
destination. -/
def Contract (w : Confirmations) : Routing → Prop
  | .save _ messageId previous delivery _ =>
      ((messageId, previous.value.sink.name), previous) ∈ w.held ∧
        delivery.sink = previous.value.sink
  | _ => True

/-- The time of the first save of a delivery of a message as delivered. -/
def Confirmations.firstSave (w : Confirmations) (messageId : String) : Option ℤ :=
  (w.saves.find? fun save => save.1 = messageId).map (·.2)

/-! ### What the operations do -/

/-- What every operation but a save does. -/
structure Routed (store store' : Store) : Prop where
  selections : ∀ id row, store.selections.get? id = some row →
    store'.selections.get? id = some row
  covered : ∀ id row, store'.selections.get? id = some row →
    store.selections.get? id = some row ∨
      ∀ name ∈ row.value.sinks, ∃ delivery, store'.deliveries.get? (id, name) = some delivery
  deliveries : ∀ key row, store.deliveries.get? key = some row →
    store'.deliveries.get? key = some row
  prepared : ∀ key row, store'.deliveries.get? key = some row →
    store.deliveries.get? key = some row ∨
      row.value.sink.name = key.2 ∧ row.value.phase = .prepared
  messages : store'.confirmedMessages = store.confirmedMessages
  times : store'.confirmedTimes = store.confirmedTimes

section Routes

variable {recoveryOwner messageId : String} {store middle store' : Store} {reader : Reader}
  {passive : Bool}

theorem Routed.refl (store : Store) : Routed store store :=
  ⟨fun _ _ h => h, fun _ _ h => .inl h, fun _ _ h => h, fun _ _ h => .inl h, rfl, rfl⟩

theorem Routed.trans (h : Routed store middle) (h' : Routed middle store') :
    Routed store store' := by
  refine ⟨fun id row hrow => h'.selections id row (h.selections id row hrow),
    fun id row hrow => ?_, fun key row hrow => h'.deliveries key row (h.deliveries key row hrow),
    fun key row hrow => ?_, h'.messages.trans h.messages, h'.times.trans h.times⟩
  · rcases h'.covered id row hrow with hrow | hcovered
    · rcases h.covered id row hrow with hrow | hcovered
      · exact .inl hrow
      · refine .inr fun name hname => ?_
        obtain ⟨delivery, hdelivery⟩ := hcovered name hname
        exact ⟨delivery, h'.deliveries _ _ hdelivery⟩
    · exact .inr hcovered
  · rcases h'.prepared key row hrow with hrow | hprepared
    · exact h.prepared key row hrow
    · exact .inr hprepared

variable {sinks : List Sink} {message : Message}

theorem Added.routed (h : Added messageId sinks store store') : Routed store store' := by
  refine ⟨fun id row hrow => by rw [h.selections]; exact hrow,
    fun id row hrow => .inl (by rw [← h.selections]; exact hrow), h.kept, fun key row hrow => ?_,
    h.messages, h.times⟩
  rcases h.new key row hrow with hrow | ⟨sink, -, rfl, rfl⟩
  · exact .inl hrow
  · exact .inr ⟨rfl, rfl⟩

theorem routed_of_prepare {selection : Selection}
    (h : prepare recoveryOwner message sinks passive store = .ok (selection, store')) :
    Routed store store' := by
  rcases prepare_eq_ok h with ⟨-, rfl⟩ | ⟨hnone, hselection, hadded⟩
  · exact Routed.refl _
  · have hrouted := hadded.routed
    refine ⟨fun id row hrow => ?_, fun id row hrow => ?_, hrouted.deliveries, hrouted.prepared,
      hrouted.messages, hrouted.times⟩
    · rw [hadded.selections, Dict.get?_set_of_ne]
      · exact hrow
      · rintro rfl
        rw [hnone] at hrow
        cases hrow
    · rw [hadded.selections, Dict.get?_set] at hrow
      split at hrow
      · next hid =>
          subst hid
          refine .inr fun name hname => ?_
          rw [← Option.some.inj hrow, hselection] at hname
          obtain ⟨sink, hsink, rfl⟩ := List.mem_map.mp hname
          obtain ⟨delivery, hdelivery, -⟩ := hadded.covered sink hsink
          exact ⟨delivery, hdelivery⟩
      · exact .inl hrow

theorem routed_of_prepareOwned {selection : Selection}
    (h : prepareOwned recoveryOwner message sinks passive store = .ok (selection, store')) :
    Routed store store' := by
  rw [prepareOwned] at h
  obtain ⟨existing, -, h⟩ := bind_eq_ok.mp h
  cases existing with
  | some _ =>
      obtain ⟨found, -, h⟩ := bind_eq_ok.mp h
      obtain ⟨-, rfl⟩ := Prod.mk.inj (Except.ok.inj h)
      exact Routed.refl _
  | none => exact routed_of_prepare h

theorem routed_transact {α : Type} {commit : Commit α}
    (h : ∀ result store', commit store = .ok (result, store') → Routed store store') :
    Routed store (transact commit store).2 := by
  rw [transact]
  split
  · next result after hcommit => exact h result after hcommit
  · exact Routed.refl _

theorem routed_prepareMessage (message : Message) (sinks : List Sink) :
    Routed store (prepareMessage recoveryOwner reader message sinks passive store).2 := by
  rw [prepareMessage]
  split
  · exact Routed.refl _
  · exact routed_transact fun _ _ => routed_of_prepareOwned

theorem routed_publish (appended : Except PyError Message) (sinks : List Sink) :
    Routed store (publish recoveryOwner appended sinks passive store).2 := by
  rw [publish]
  split
  · exact Routed.refl _
  · refine routed_transact fun result after h => ?_
    obtain ⟨message, -, h⟩ := bind_eq_ok.mp h
    exact routed_of_prepareOwned h

theorem routed_addDestination (sink : Sink) :
    Routed store (addDestination recoveryOwner messageId sink store).2 := by
  rw [addDestination]
  refine routed_transact fun result after h => ?_
  obtain ⟨_, -, h⟩ := bind_eq_ok.mp h
  obtain ⟨added, hadded, h⟩ := bind_eq_ok.mp h
  obtain ⟨-, rfl⟩ := Prod.mk.inj (Except.ok.inj h)
  exact (added_of_add hadded).routed

theorem routed_of_consumeItem {sinks : Option (List Sink)} {selection : Option Selection}
    (h : consumeItem recoveryOwner message passive sinks store = .ok (selection, store')) :
    Routed store store' := by
  cases sinks with
  | none =>
      obtain ⟨_, -, h⟩ := bind_eq_ok.mp h
      obtain ⟨-, rfl⟩ := Prod.mk.inj (Except.ok.inj h)
      exact Routed.refl _
  | some sinks =>
      obtain ⟨⟨_, prepared⟩, hprepare, h⟩ := bind_eq_ok.mp h
      obtain ⟨-, rfl⟩ := Prod.mk.inj (Except.ok.inj h)
      exact routed_of_prepare hprepare

theorem routed_of_consumeItems {items : List Item} {through through' : ℤ}
    {selections : List (Option Selection)}
    (h : consumeItems recoveryOwner reader passive items through store =
      .ok (selections, through', store')) : Routed store store' := by
  induction items generalizing through store selections with
  | nil =>
      obtain ⟨-, hrest⟩ := Prod.mk.inj (Except.ok.inj h)
      obtain ⟨-, rfl⟩ := Prod.mk.inj hrest
      exact Routed.refl _
  | cons item items ih =>
      rw [consumeItems] at h
      split at h
      · obtain ⟨existing, -, h⟩ := bind_eq_ok.mp h
        split at h
        · cases h
        · obtain ⟨⟨rest, final⟩, hrest, h⟩ := bind_eq_ok.mp h
          obtain ⟨-, rfl⟩ := Prod.mk.inj (Except.ok.inj h)
          exact ih hrest
      · split at h
        · cases h
        · obtain ⟨⟨selection, middle⟩, hmiddle, h⟩ := bind_eq_ok.mp h
          obtain ⟨⟨rest, final⟩, hrest, h⟩ := bind_eq_ok.mp h
          obtain ⟨-, rfl⟩ := Prod.mk.inj (Except.ok.inj h)
          exact (routed_of_consumeItem hmiddle).trans (ih hrest)

theorem routed_consumeBatch (records : Records) (items : List Item) :
    Routed store (records.consumeBatch reader items passive store).2.2 := by
  rw [Records.consumeBatch]
  split
  · exact Routed.refl _
  · exact Routed.refl _
  · next before _ =>
      rw [Records.consumeOrdinary]
      split
      · exact Routed.refl _
      · have hrouted : Routed store
            (transact (before.consumeCommit reader items passive) store).2 := by
          refine routed_transact fun result after h => ?_
          rw [Records.consumeCommit] at h
          obtain ⟨⟨found, through, middle⟩, hitems, h⟩ := bind_eq_ok.mp h
          have hmiddle := routed_of_consumeItems hitems
          dsimp only at h
          split at h
          · obtain ⟨saved, -, h⟩ := bind_eq_ok.mp h
            obtain ⟨-, rfl⟩ := Prod.mk.inj (Except.ok.inj h)
            exact ⟨hmiddle.selections, hmiddle.covered, hmiddle.deliveries, hmiddle.prepared,
              hmiddle.messages, hmiddle.times⟩
          · obtain ⟨-, rfl⟩ := Prod.mk.inj (Except.ok.inj h)
            exact hmiddle
        split <;> next heq => rw [heq] at hrouted; exact hrouted

end Routes

/-! ### What a save does -/

section Saves

variable {recoveryOwner messageId : String} {store store' : Store} {previous : OwnerRow Delivery}
  {delivery : Delivery} {now : ℤ} {row : OwnerRow Delivery}

theorem confirm_eq_ok {selection : Selection}
    (h : confirm selection messageId delivery store = .ok store') :
    (∃ confirmedAt, delivery.confirmedAt = some confirmedAt ∧
      store.confirmedMessages.get? messageId = none ∧
      store' = { store with
        confirmedMessages := store.confirmedMessages.set messageId
          ⟨0, messageId, selection.sessionId, confirmedAt⟩
        confirmedTimes := store.confirmedTimes.set (confirmedAt, messageId)
          ⟨0, messageId, selection.sessionId, confirmedAt⟩ }) ∨
    ((delivery.confirmedAt = none ∨ ∃ row, store.confirmedMessages.get? messageId = some row) ∧
      store' = store) := by
  rw [confirm] at h
  cases hconfirmed : delivery.confirmedAt with
  | none =>
      rw [hconfirmed] at h
      exact .inr ⟨.inl rfl, (Except.ok.inj h).symm⟩
  | some confirmedAt =>
      cases hmessage : store.confirmedMessages.get? messageId with
      | some row =>
          rw [hconfirmed, hmessage] at h
          exact .inr ⟨.inr ⟨row, rfl⟩, (Except.ok.inj h).symm⟩
      | none =>
          rw [hconfirmed, hmessage] at h
          obtain ⟨⟨first, messages⟩, hmessages, h⟩ := bind_eq_ok.mp h
          obtain ⟨⟨second, times⟩, htimes, h⟩ := bind_eq_ok.mp h
          obtain ⟨-, rfl, rfl⟩ := OwnerRows.save_none_eq_ok hmessages
          obtain ⟨-, rfl, rfl⟩ := OwnerRows.save_none_eq_ok htimes
          exact .inl ⟨confirmedAt, rfl, rfl, (Except.ok.inj h).symm⟩

/-- **What a save does**: over the version that the caller holds it stores the next one, then
confirms the message. -/
theorem saveDelivery_eq_ok
    (h : saveDelivery recoveryOwner messageId previous delivery now store = .ok (row, store')) :
    (previous.value.phase = .delivered → delivery = previous.value) ∧
    (store.deliveries.get? (messageId, delivery.sink.name)).map OwnerRow.version =
      some previous.version ∧
    row = ⟨previous.version + 1, stamped previous.value delivery now⟩ ∧
    ∃ selection, store.selections.get? messageId = some ⟨0, selection⟩ ∧
      confirm selection messageId (stamped previous.value delivery now)
        { store with
          deliveries := store.deliveries.set (messageId, delivery.sink.name) row } =
        .ok store' := by
  rw [saveDelivery] at h
  obtain ⟨selection, howner, h⟩ := bind_eq_ok.mp h
  obtain ⟨-, ⟨⟩⟩ | ⟨hsame, h⟩ := ite_eq_iff.mp h
  obtain ⟨⟨saved, deliveries⟩, hsave, h⟩ := bind_eq_ok.mp h
  obtain ⟨after, hconfirm, h⟩ := bind_eq_ok.mp h
  obtain ⟨rfl, rfl⟩ := Prod.mk.inj (Except.ok.inj h)
  have hsink : (stamped previous.value delivery now).sink = delivery.sink := by
    rw [stamped]
    split <;> rfl
  rw [hsink] at hsave
  obtain ⟨hversion, hrow, rfl⟩ := OwnerRows.save_eq_ok hsave
  exact ⟨fun hphase => not_not.mp fun hne => hsame ⟨hphase, hne⟩, hversion, hrow, selection,
    (checkOwner_eq_ok howner).1, hconfirm⟩

theorem stamped_keeps (old delivery : Delivery) (now : ℤ) :
    (stamped old delivery now).sink = delivery.sink ∧
      (stamped old delivery now).phase = delivery.phase := by
  rw [stamped]
  split <;> exact ⟨rfl, rfl⟩

theorem stamped_of_ne {old : Delivery} (h : delivery.phase ≠ .delivered) :
    (stamped old delivery now).confirmedAt = none := by
  rw [stamped, dif_neg (fun hboth => h hboth.1)]
  by_contra hconfirmed
  exact h (delivery.receipt_ok.2 hconfirmed)

theorem stamped_of_eq {old : Delivery} (h : delivery.phase = .delivered)
    (hold : old.phase ≠ .delivered) : (stamped old delivery now).confirmedAt = some now := by
  rw [stamped, dif_pos ⟨h, hold⟩]
  rfl

end Saves

/-! ### The families in step -/

/-- The records are in step: a selection has its deliveries, a delivery is that of its
destination, what callers hold is what is stored or older, what was delivered was saved so,
and the confirmations are those of the first saves. -/
structure Confirmations.Sound (w : Confirmations) : Prop where
  covered : ∀ id row, w.store.selections.get? id = some row →
    ∀ name ∈ row.value.sinks, ∃ delivery, w.store.deliveries.get? (id, name) = some delivery
  named : ∀ key row, w.store.deliveries.get? key = some row → row.value.sink.name = key.2
  held : ∀ key row, (key, row) ∈ w.held → ∃ current, w.store.deliveries.get? key = some current ∧
    (row = current ∨ row.version < current.version) ∧ row.value.sink = current.value.sink
  delivered : ∀ key row, w.store.deliveries.get? key = some row → row.value.phase = .delivered →
    w.firstSave key.1 ≠ none
  first : ∀ id, (w.store.confirmedMessages.get? id).map (·.value.confirmedAt) = w.firstSave id
  messages : ∀ id row, w.store.confirmedMessages.get? id = some row → row.value.messageId = id
  times : ∀ confirmedAt id row, w.store.confirmedTimes.get? (confirmedAt, id) = some row ↔
    w.store.confirmedMessages.get? id = some row ∧ row.value.confirmedAt = confirmedAt

section Invariant

variable {w w' : Confirmations} {recoveryOwner messageId : String}

theorem sound_init (h : confirmations.init w) : w.Sound := by
  obtain rfl := h
  refine ⟨?_, ?_, ?_, ?_, fun _ => rfl, ?_, ?_⟩
  · intro id row hrow
    cases hrow
  · intro key row hrow
    cases hrow
  · intro key row hrow
    cases hrow
  · intro key row hrow
    cases hrow
  · intro id row hrow
    cases hrow
  · refine fun confirmedAt id row => ⟨fun hrow => ?_, fun hrow => ?_⟩
    · cases hrow
    · cases hrow.1

variable {store : Store} {key : String × String} {row previous : OwnerRow Delivery}
  {held : List ((String × String) × OwnerRow Delivery)}

theorem Confirmations.Sound.routed (h : w.Sound) (hrouted : Routed w.store store) :
    Confirmations.Sound { w with store := store } := by
  refine ⟨fun id row hrow => ?_, fun key row hrow => ?_, fun key row hmem => ?_,
    fun key row hrow hphase => ?_, ?_, ?_, ?_⟩
  · rcases hrouted.covered id row hrow with hrow | hcovered
    · intro name hname
      obtain ⟨delivery, hdelivery⟩ := h.covered id row hrow name hname
      exact ⟨delivery, hrouted.deliveries _ _ hdelivery⟩
    · exact hcovered
  · rcases hrouted.prepared key row hrow with hrow | ⟨hname, -⟩
    · exact h.named key row hrow
    · exact hname
  · obtain ⟨current, hcurrent, hrest⟩ := h.held key row hmem
    exact ⟨current, hrouted.deliveries _ _ hcurrent, hrest⟩
  · rcases hrouted.prepared key row hrow with hrow | ⟨-, hprepared⟩
    · exact h.delivered key row hrow hphase
    · rw [hprepared] at hphase
      cases hphase
  · change ∀ id, (store.confirmedMessages.get? id).map (·.value.confirmedAt) = w.firstSave id
    rw [hrouted.messages]
    exact h.first
  · rw [hrouted.messages]
    exact h.messages
  · rw [hrouted.messages, hrouted.times]
    exact h.times

theorem Confirmations.Sound.hold (h : w.Sound) (hrow : w.store.deliveries.get? key = some row) :
    Confirmations.Sound { w with held := w.held ++ [(key, row)] } := by
  refine ⟨h.covered, h.named, fun other held hmem => ?_, h.delivered, h.first, h.messages, h.times⟩
  rcases List.mem_append.mp hmem with hmem | hmem
  · exact h.held other held hmem
  · obtain ⟨rfl, rfl⟩ := Prod.mk.inj (List.mem_singleton.mp hmem)
    exact ⟨held, hrow, .inl rfl, rfl⟩

theorem Confirmations.Sound.current (h : w.Sound) (hmem : (key, row) ∈ w.held)
    (hversion : (w.store.deliveries.get? key).map OwnerRow.version = some row.version) :
    w.store.deliveries.get? key = some row := by
  obtain ⟨current, hcurrent, heq | hlt, -⟩ := h.held key row hmem
  · rw [heq]
    exact hcurrent
  · rw [hcurrent] at hversion
    have := Option.some.inj hversion
    omega

theorem firstSave_append (w : Confirmations) (messageId : String) (now : ℤ) (id : String) :
    Confirmations.firstSave ⟨store, held, w.saves ++ [(messageId, now)]⟩ id =
      (w.firstSave id).or (if messageId = id then some now else none) := by
  rw [Confirmations.firstSave, Confirmations.firstSave, List.find?_append]
  cases w.saves.find? fun save => save.1 = id with
  | some save => rfl
  | none =>
      by_cases hid : messageId = id <;> simp [hid]

theorem firstSave_ne_none (w : Confirmations) (messageId : String) (now : ℤ) :
    Confirmations.firstSave ⟨store, held, w.saves ++ [(messageId, now)]⟩ messageId ≠ none := by
  rw [firstSave_append, if_pos rfl]
  cases w.firstSave messageId <;> exact Option.some_ne_none _

theorem Confirmations.Sound.again (h : w.Sound) (hsaved : w.firstSave messageId ≠ none) (now : ℤ) :
    Confirmations.Sound { w with saves := w.saves ++ [(messageId, now)] } := by
  have hsame : ∀ id, Confirmations.firstSave { w with saves := w.saves ++ [(messageId, now)] } id =
      w.firstSave id := by
    intro id
    rw [firstSave_append]
    by_cases hid : messageId = id
    · subst hid
      obtain ⟨first, hfirst⟩ := Option.ne_none_iff_exists'.mp hsaved
      rw [hfirst]
      rfl
    · rw [if_neg hid, Option.or_none]
  refine ⟨h.covered, h.named, h.held, fun key row hrow hphase => ?_, fun id => ?_, h.messages,
    h.times⟩
  · rw [hsame]
    exact h.delivered key row hrow hphase
  · rw [hsame]
    exact h.first id

/-- The first save of a message, with its confirmation, keeps them in step. -/
theorem Confirmations.Sound.confirmed (h : w.Sound)
    (hnone : w.store.confirmedMessages.get? messageId = none) (sessionId : String) (now : ℤ) :
    Confirmations.Sound ⟨{ w.store with
        confirmedMessages := w.store.confirmedMessages.set messageId ⟨0, messageId, sessionId, now⟩
        confirmedTimes := w.store.confirmedTimes.set (now, messageId)
          ⟨0, messageId, sessionId, now⟩ },
      w.held, w.saves ++ [(messageId, now)]⟩ := by
  have hfirst : w.firstSave messageId = none := by
    rw [← h.first messageId, hnone]
    rfl
  refine ⟨h.covered, h.named, h.held, fun key row hrow hphase => ?_, fun id => ?_,
    fun id row hrow => ?_, fun confirmedAt id row => ?_⟩
  · obtain ⟨first, hsome⟩ := Option.ne_none_iff_exists'.mp (h.delivered key row hrow hphase)
    rw [firstSave_append, hsome]
    exact Option.some_ne_none _
  · refine Eq.trans ?_ (firstSave_append w messageId now id).symm
    by_cases hid : messageId = id
    · subst hid
      rw [Dict.get?_set_self, hfirst, if_pos rfl]
      rfl
    · rw [Dict.get?_set_of_ne _ _ (Ne.symm hid), if_neg hid, Option.or_none]
      exact h.first id
  · rw [Dict.get?_set] at hrow
    split at hrow
    · next hid =>
        rw [← Option.some.inj hrow, hid]
    · exact h.messages id row hrow
  · rw [Dict.get?_set, Dict.get?_set]
    by_cases hid : id = messageId
    · subst hid
      rw [if_pos rfl]
      by_cases htime : confirmedAt = now
      · subst htime
        rw [if_pos rfl]
        refine ⟨fun hrow => ⟨hrow, ?_⟩, fun hrow => hrow.1⟩
        rw [← Option.some.inj hrow]
      · rw [if_neg (fun heq => htime (Prod.mk.inj heq).1)]
        refine ⟨fun hrow => ?_, fun hrow => ?_⟩
        · have hold := ((h.times confirmedAt id row).mp hrow).1
          rw [hnone] at hold
          cases hold
        · rw [← Option.some.inj hrow.1] at hrow
          exact absurd hrow.2.symm htime
    · rw [if_neg hid, if_neg (fun heq => hid (Prod.mk.inj heq).2)]
      exact h.times confirmedAt id row

/-- The next version of a delivery keeps them in step, when its destination stays and it is
delivered only if the message was saved so. -/
theorem Confirmations.Sound.replace (h : w.Sound)
    (hcurrent : w.store.deliveries.get? key = some previous)
    (hversion : row.version = previous.version + 1) (hsink : row.value.sink = previous.value.sink)
    (hphase : row.value.phase = .delivered → w.firstSave key.1 ≠ none) :
    Confirmations.Sound ⟨{ w.store with deliveries := w.store.deliveries.set key row },
      w.held ++ [(key, row)], w.saves⟩ := by
  refine ⟨fun id selection hrow name hname => ?_, fun other found hrow => ?_,
    fun other held hmem => ?_, fun other found hrow hdelivered => ?_, h.first, h.messages, h.times⟩
  · rw [Dict.get?_set]
    split
    · exact ⟨row, rfl⟩
    · exact h.covered id selection hrow name hname
  · rw [Dict.get?_set] at hrow
    split at hrow
    · next hkey =>
        rw [hkey, ← Option.some.inj hrow, hsink]
        exact h.named key previous hcurrent
    · exact h.named other found hrow
  · rcases List.mem_append.mp hmem with hmem | hmem
    · obtain ⟨current, hrow, hle, hsame⟩ := h.held other held hmem
      by_cases hkey : other = key
      · subst hkey
        obtain rfl := Option.some.inj (hcurrent.symm.trans hrow)
        refine ⟨row, Dict.get?_set_self _ _ _, .inr ?_, hsame.trans hsink.symm⟩
        rcases hle with rfl | hlt <;> omega
      · exact ⟨current, (Dict.get?_set_of_ne _ _ hkey).trans hrow, hle, hsame⟩
    · obtain ⟨rfl, rfl⟩ := Prod.mk.inj (List.mem_singleton.mp hmem)
      exact ⟨held, Dict.get?_set_self _ _ _, .inl rfl, rfl⟩
  · rw [Dict.get?_set] at hrow
    split at hrow
    · next hkey =>
        rw [← Option.some.inj hrow] at hdelivered
        rw [hkey]
        exact hphase hdelivered
    · exact h.delivered other found hrow hdelivered

/-- **A save keeps them in step.** -/
theorem Confirmations.Sound.saved (h : w.Sound) {delivery : Delivery} {now : ℤ}
    (hcurrent : w.store.deliveries.get? (messageId, previous.value.sink.name) = some previous)
    (hsink : delivery.sink = previous.value.sink)
    (hsave : saveDelivery recoveryOwner messageId previous delivery now w.store =
      .ok (row, store)) :
    Confirmations.Sound ⟨store, w.held ++ [((messageId, delivery.sink.name), row)],
      if delivery.phase = .delivered then w.saves ++ [(messageId, now)] else w.saves⟩ := by
  obtain ⟨hsame, -, rfl, selection, -, hconfirm⟩ := saveDelivery_eq_ok hsave
  obtain ⟨hkept, hphase⟩ := stamped_keeps previous.value delivery now
  rw [← hsink] at hcurrent
  by_cases hdelivered : delivery.phase = .delivered
  · rw [if_pos hdelivered]
    -- a message that was confirmed before keeps its confirmation
    have hagain (hsaved : w.firstSave messageId ≠ none) :
        (∃ row, w.store.confirmedMessages.get? messageId = some row) := by
      rw [← h.first messageId] at hsaved
      obtain ⟨time, htime⟩ := Option.ne_none_iff_exists'.mp hsaved
      obtain ⟨row, hrow, -⟩ := Option.map_eq_some_iff.mp htime
      exact ⟨row, hrow⟩
    rcases confirm_eq_ok hconfirm with ⟨time, htime, hnone, rfl⟩ | ⟨hnot, rfl⟩
    · have hold : previous.value.phase ≠ .delivered := by
        intro hold
        obtain ⟨row, hrow⟩ := hagain (h.delivered _ _ hcurrent hold)
        rw [hrow] at hnone
        cases hnone
      obtain rfl := Option.some.inj ((stamped_of_eq hdelivered hold).symm.trans htime)
      exact (h.confirmed hnone selection.sessionId now).replace hcurrent rfl
        (hkept.trans hsink) (fun _ => firstSave_ne_none w messageId now)
    · have hsaved : w.firstSave messageId ≠ none := by
        by_cases hold : previous.value.phase = .delivered
        · exact h.delivered _ _ hcurrent hold
        · rcases hnot with hnot | ⟨row, hrow⟩
          · rw [stamped_of_eq hdelivered hold] at hnot
            cases hnot
          · rw [← h.first messageId]
            rw [show w.store.confirmedMessages.get? messageId = some row from hrow]
            exact Option.some_ne_none _
      exact (h.again hsaved now).replace hcurrent rfl (hkept.trans hsink)
        (fun _ => firstSave_ne_none w messageId now)
  · rw [if_neg hdelivered]
    rcases confirm_eq_ok hconfirm with ⟨time, htime, -, -⟩ | ⟨-, rfl⟩
    · rw [stamped_of_ne hdelivered] at htime
      cases htime
    · exact h.replace hcurrent rfl (hkept.trans hsink)
        (fun hnew => absurd (hphase.symm.trans hnew) hdelivered)

theorem cancelPrepared_cases {sink : String} {receipt : Receipt} {now : ℤ} {store : Store} :
    (cancelPrepared recoveryOwner messageId sink receipt now store).2 = store ∨
    ∃ previous row store', store.deliveries.get? (messageId, sink) = some previous ∧
      previous.value.sink.name = sink ∧ receipt.status = .rejected ∧
      saveDelivery recoveryOwner messageId previous (.settled previous.value.sink receipt) now
        store = .ok (row, store') ∧
      (cancelPrepared recoveryOwner messageId sink receipt now store).2 = store' := by
  rw [cancelPrepared, transact]
  split
  · next result after hcommit =>
      obtain ⟨previous, hread, hcommit⟩ := bind_eq_ok.mp hcommit
      obtain ⟨hrow, hname⟩ := read_eq_ok hread
      split at hcommit
      · obtain ⟨-, rfl⟩ := Prod.mk.inj (Except.ok.inj hcommit)
        exact .inl rfl
      · obtain ⟨-, ⟨⟩⟩ | ⟨hstatus, hcommit⟩ := ite_eq_iff.mp hcommit
        obtain ⟨⟨row, middle⟩, hsave, hcommit⟩ := bind_eq_ok.mp hcommit
        obtain ⟨-, rfl⟩ := Prod.mk.inj (Except.ok.inj hcommit)
        exact .inr ⟨previous, row, middle, hrow, hname, not_not.mp hstatus, hsave, rfl⟩
  · exact .inl rfl

/-- What changed from one state to a later one: selections stay, and so do destinations. -/
structure Fixed (w w' : Confirmations) : Prop where
  selections : ∀ id row, w.store.selections.get? id = some row →
    w'.store.selections.get? id = some row
  sinks : ∀ key row, w.store.deliveries.get? key = some row →
    ∃ row', w'.store.deliveries.get? key = some row' ∧ row'.value.sink = row.value.sink

theorem Fixed.refl (w : Confirmations) : Fixed w w :=
  ⟨fun _ _ h => h, fun _ row h => ⟨row, h, rfl⟩⟩

theorem Fixed.trans {w'' : Confirmations} (h : Fixed w w') (h' : Fixed w' w'') : Fixed w w'' := by
  refine ⟨fun id row hrow => h'.selections id row (h.selections id row hrow),
    fun key row hrow => ?_⟩
  obtain ⟨middle, hmiddle, hsame⟩ := h.sinks key row hrow
  obtain ⟨row', hrow', hsame'⟩ := h'.sinks key middle hmiddle
  exact ⟨row', hrow', hsame'.trans hsame⟩

theorem fixed_of_saveDelivery {delivery : Delivery} {now : ℤ} {saves : List (String × ℤ)}
    (hcurrent : w.store.deliveries.get? (messageId, previous.value.sink.name) = some previous)
    (hsink : delivery.sink = previous.value.sink)
    (hsave : saveDelivery recoveryOwner messageId previous delivery now w.store =
      .ok (row, store)) : Fixed w ⟨store, held, saves⟩ := by
  obtain ⟨-, -, rfl, selection, -, hconfirm⟩ := saveDelivery_eq_ok hsave
  have hkept := (stamped_keeps previous.value delivery now).1.trans hsink
  rw [← hsink] at hcurrent
  have hsinks : ∀ key found, w.store.deliveries.get? key = some found →
      ∃ row', (w.store.deliveries.set (messageId, delivery.sink.name)
        ⟨previous.version + 1, stamped previous.value delivery now⟩).get? key = some row' ∧
          row'.value.sink = found.value.sink := by
    intro key found hfound
    by_cases hkey : key = (messageId, delivery.sink.name)
    · subst hkey
      obtain rfl := Option.some.inj (hcurrent.symm.trans hfound)
      exact ⟨_, Dict.get?_set_self _ _ _, hkept⟩
    · exact ⟨found, (Dict.get?_set_of_ne _ _ hkey).trans hfound, rfl⟩
  rcases confirm_eq_ok hconfirm with ⟨_, -, -, rfl⟩ | ⟨-, rfl⟩
  · exact ⟨fun _ _ h => h, hsinks⟩
  · exact ⟨fun _ _ h => h, hsinks⟩

theorem step_of_routed (h : w.Sound) (hrouted : Routed w.store store) :
    Confirmations.Sound { w with store := store } ∧ Fixed w { w with store := store } :=
  ⟨h.routed hrouted, hrouted.selections, fun key row hrow =>
    ⟨row, hrouted.deliveries key row hrow, rfl⟩⟩

/-- **Every operation** of a caller that keeps to the contract keeps the records in step, and
changes no selection and no destination. -/
theorem confirmations_step {e : Routing} (h : w.Sound) (hcontract : Contract w e) :
    (w.after e).Sound ∧ Fixed w (w.after e) := by
  cases e with
  | prepare recoveryOwner reader message sinks passive =>
      exact step_of_routed h (routed_prepareMessage message sinks)
  | publish recoveryOwner appended sinks passive =>
      exact step_of_routed h (routed_publish appended sinks)
  | consume records reader item passive =>
      exact step_of_routed h (routed_consumeBatch records [item])
  | consumeBatch records reader items passive =>
      exact step_of_routed h (routed_consumeBatch records items)
  | add recoveryOwner messageId sink =>
      exact step_of_routed h (routed_addDestination sink)
  | read recoveryOwner messageId sink =>
      rw [Confirmations.after, Confirmations.read]
      split
      · next row hread =>
          exact ⟨h.hold (read_eq_ok hread).1, fun _ _ h => h, fun _ row h => ⟨row, h, rfl⟩⟩
      · exact ⟨h, Fixed.refl w⟩
  | save recoveryOwner messageId previous delivery now =>
      obtain ⟨hheld, hsink⟩ := hcontract
      rw [Confirmations.after, Confirmations.save, save, transact]
      cases hsave : saveDelivery recoveryOwner messageId previous delivery now w.store with
      | error e => exact ⟨h, Fixed.refl w⟩
      | ok result =>
          obtain ⟨row, store⟩ := result
          have hversion := (saveDelivery_eq_ok hsave).2.1
          rw [hsink] at hversion
          have hcurrent := h.current hheld hversion
          exact ⟨h.saved hcurrent hsink hsave, fixed_of_saveDelivery hcurrent hsink hsave⟩
  | cancelPrepared recoveryOwner messageId sink receipt now =>
      rw [Confirmations.after]
      rcases @cancelPrepared_cases recoveryOwner messageId sink receipt now w.store with
        hsame | ⟨previous, row, store, hrow, hname, hstatus, hsave, hafter⟩
      · rw [hsame]
        exact ⟨h, Fixed.refl w⟩
      · subst hname
        rw [hafter]
        have hsink : (Delivery.settled previous.value.sink receipt).sink =
            previous.value.sink := rfl
        have hsound := h.saved hrow hsink hsave
        have hphase : (Delivery.settled previous.value.sink receipt).phase ≠ .delivered := by
          change receipt.status.phase ≠ .delivered
          rw [hstatus]
          exact Phase.noConfusion
        rw [if_neg hphase] at hsound
        exact ⟨⟨hsound.covered, hsound.named, fun key row hmem =>
          hsound.held key row (List.mem_append_left _ hmem), hsound.delivered, hsound.first,
          hsound.messages, hsound.times⟩, fixed_of_saveDelivery hrow hsink hsave⟩

/-- **The records stay in step** along every run of callers that keep to the contract. -/
theorem sound_of_reachable (h : confirmations.ReachableVia Contract w) : w.Sound := by
  refine h.invariant (fun _ => sound_init) (fun w e w' hsound hcontract hstep => ?_)
  obtain rfl := hstep
  exact (confirmations_step hsound hcontract).1

/-- The confirmation of a message: none, and nothing in the time index, before a delivery of it
was saved as delivered; then one, with the time of the first such save, and one entry. -/
def Confirmations.Confirmed (w : Confirmations) (messageId : String) : Prop :=
  match w.firstSave messageId with
  | none => w.store.confirmedMessages.get? messageId = none ∧
      ∀ key row, w.store.confirmedTimes.get? key = some row → row.value.messageId ≠ messageId
  | some confirmedAt =>
      (∃ row, w.store.confirmedMessages.get? messageId = some row ∧
        row.value.messageId = messageId ∧ row.value.confirmedAt = confirmedAt) ∧
      ∃! key, ∃ row, w.store.confirmedTimes.get? key = some row ∧ row.value.messageId = messageId

theorem Confirmations.Sound.entry (h : w.Sound) {key : ℤ × String} {row : OwnerRow Confirmation}
    (hrow : w.store.confirmedTimes.get? key = some row) :
    w.store.confirmedMessages.get? row.value.messageId = some row ∧
      key = (row.value.confirmedAt, row.value.messageId) := by
  obtain ⟨time, id⟩ := key
  obtain ⟨hmessage, rfl⟩ := (h.times time id row).mp hrow
  obtain rfl := h.messages id row hmessage
  exact ⟨hmessage, rfl⟩

theorem Confirmations.Sound.confirmation (h : w.Sound) (messageId : String) :
    w.Confirmed messageId := by
  have hfirst := h.first messageId
  rw [Confirmations.Confirmed]
  cases hsave : w.firstSave messageId with
  | none =>
      rw [hsave] at hfirst
      have hnone := Option.map_eq_none_iff.mp hfirst
      refine ⟨hnone, fun key row hrow hid => ?_⟩
      have hmessage := (h.entry hrow).1
      rw [hid, hnone] at hmessage
      cases hmessage
  | some time =>
      rw [hsave] at hfirst
      obtain ⟨row, hrow, htime⟩ := Option.map_eq_some_iff.mp hfirst
      have hid := h.messages messageId row hrow
      refine ⟨⟨row, hrow, hid, htime⟩, (time, messageId),
        ⟨row, (h.times time messageId row).mpr ⟨hrow, htime⟩, hid⟩, ?_⟩
      rintro key ⟨other, hother, hsame⟩
      obtain ⟨hmessage, hkey⟩ := h.entry hother
      rw [hsame] at hmessage hkey
      obtain rfl := Option.some.inj (hrow.symm.trans hmessage)
      rw [hkey, htime]

end Invariant

/-! ### A message that is delivered -/

/-- A destination. -/
def phone : Sink :=
  ⟨"phone", "binding-1", "+1"⟩

/-- A message. -/
def letter : Message :=
  heard "letter" 0 (by decide)

/-- The message is selected for the phone, and the delivery is read. -/
def readLetter : Confirmations :=
  ((⟨.empty, [], []⟩ : Confirmations).after
    (.prepare "relay" ⟨true, "room", [letter]⟩ letter [phone] false)).after
    (.read "relay" "letter" "phone")

end Kirakira.DeliveryRecords
