import Kirakira.DeliveryRecords
import Kirakira.Lib.SortedBy
import Kirakira.Lib.Transition

/-!
# Delivery Consumption

How one recovery owner consumes one session: the batches it hands to `_consume_batch`, the
messages that are accepted meanwhile, and restarts, which forget the cached cursor. The
effective cursor is the later one of the persisted and the cached cursor.

## Main results

* `walk_covers` — a batch that the ordinary path walks through leaves no message out.
* `consumeBatch_cases` — an accepted call went through the ordinary path, or the fast path
  moved the cached cursor to the last message of the batch.
* `consumption` — an accepted call is faithful if and only if a batch on the fast path could
  be walked through and does not end before the cursor.
* `consumption_skips` — a call on the fast path that leaves a message out.
-/

namespace Kirakira.DeliveryRecords

open Exceptions Transition SortedBy

/-! ### The system -/

/-- A consumer: what is stored, its object in memory, the messages of the session, and the
items of the calls that were accepted. -/
structure Consumer where
  store : Store
  records : Records
  log : List Message
  consumed : List Item

/-- The reader that a call is given. -/
def Consumer.reader (w : Consumer) (sessionId : String) : Reader :=
  ⟨true, sessionId, w.log⟩

/-- The effective cursor of an object over a store. -/
def effective (records : Records) (sessionId : String) (store : Store) : ℤ :=
  max (store.persistedCursor records.recoveryOwner sessionId)
    ((records.cursorCache.get? sessionId).getD (-1))

/-- The effective cursor. -/
def Consumer.cursor (w : Consumer) (sessionId : String) : ℤ :=
  effective w.records sessionId w.store

/-- The messages of a session: in order, with different ids. -/
structure SessionLog (sessionId : String) (log : List Message) : Prop where
  sorted : Sorted Message.seq log
  ids : (log.map (·.messageId)).Nodup
  session : ∀ message ∈ log, message.sessionId = sessionId

/-- What a consumer does, and what happens to it. -/
inductive Consumption where
  | consume (items : List Item) (passive : Bool)
  | accept (message : Message)
  | restart

/-- The consumer after a call: an exception leaves the accepted items alone. -/
def Consumer.consume (w : Consumer) (sessionId : String) (items : List Item) (passive : Bool) :
    Consumer :=
  match w.records.consumeBatch (w.reader sessionId) items passive w.store with
  | (.ok _, records, store) => ⟨store, records, w.log, w.consumed ++ items⟩
  | (.error _, records, store) => ⟨store, records, w.log, w.consumed⟩

/-- A consumer of one session, from a store in which its owner has no cursor yet. -/
def consumer (sessionId : String) : System Consumer Consumption where
  init w := SessionLog sessionId w.log ∧
    (∀ id row, w.store.selections.get? id = some row → row.version = 0) ∧
    w.store.cursors.get? (w.records.recoveryOwner, sessionId) = none ∧
    w.records.cursorCache = .empty ∧ w.consumed = []
  step w
    | .consume items passive => fun w' => w' = w.consume sessionId items passive
    | .accept message => fun w' => SessionLog sessionId (w.log ++ [message]) ∧
        w' = { w with log := w.log ++ [message] }
    | .restart => fun w' => w' = { w with records := ⟨w.records.recoveryOwner, .empty⟩ }

/-- The batch holds messages of the session. -/
def OfSession (w : Consumer) : Consumption → Prop
  | .consume items _ => ∀ item ∈ items, item.message ∈ w.log
  | _ => True

/-- Whether the ordinary path walks through the batch from a cursor: what it has passed may
stand anywhere, everything else is the next message. -/
def walk (reader : Reader) : List Item → ℤ → Bool
  | [], _ => true
  | item :: items, through =>
      if (item.message.seq : ℤ) ≤ through then walk reader items through
      else reader.following through = some item.message && walk reader items item.message.seq

/-- How far a batch goes. -/
def reach (items : List Item) (through : ℤ) : ℤ :=
  items.foldl (fun through item => max through item.message.seq) through

/-- Whether the fast path is taken. -/
def Consumer.isFast (w : Consumer) (sessionId : String) (items : List Item) : Bool :=
  isUnroutable items && items.head?.any fun first =>
    (w.records.cursor sessionId w.store).1 < first.message.seq

/-- The condition on a call: a batch on the fast path can be walked through from the cursor,
and its last message does not stand before the cursor. -/
def Walked (sessionId : String) (w : Consumer) : Consumption → Prop
  | .consume items _ => w.isFast sessionId items = true →
      walk (w.reader sessionId) items (w.cursor sessionId) = true ∧
      ∀ last ∈ items.getLast?, w.cursor sessionId ≤
        max (w.store.persistedCursor w.records.recoveryOwner sessionId) last.message.seq
  | _ => True

/-- What an accepted call should do: the cursor does not move back, it moves over messages
of the batch only, what was consumed with destinations has its selection, and the ordinary
path would have accepted the batch. -/
structure Faithful (sessionId : String) (w : Consumer) (items : List Item) (passive : Bool)
    (w' : Consumer) : Prop where
  monotone : w.cursor sessionId ≤ w'.cursor sessionId
  covered : ∀ message ∈ w.log, w.cursor sessionId < message.seq →
    (message.seq : ℤ) ≤ w'.cursor sessionId → ∃ item ∈ items, item.message = message
  selected : ∀ item ∈ items, item.sinks ≠ none →
    ∃ row, w'.store.selections.get? item.message.messageId = some row
  ordinary : ∃ selections,
    (w.records.consumeOrdinary (w.reader sessionId) items passive w.store).1 = .ok selections

/-! ### Walks -/

section Walks

variable {reader : Reader} {items : List Item} {through : ℤ}

theorem following_least (hsorted : Sorted Message.seq reader.log) {next : Message}
    (h : reader.following through = some next) :
    next ∈ reader.log ∧ through < next.seq ∧
      ∀ message ∈ reader.log, through < message.seq → next.seq ≤ message.seq := by
  obtain ⟨hnext, front, rest, hsplit, hfront⟩ := List.find?_eq_some_iff_append.mp h
  have hmem : next ∈ reader.log := by
    rw [hsplit]
    exact List.mem_append_right _ List.mem_cons_self
  refine ⟨hmem, of_decide_eq_true hnext, fun message hmessage habove => ?_⟩
  rw [hsplit] at hmessage hsorted
  rcases List.mem_append.mp hmessage with hold | hrest
  · have hnot := hfront message hold
    rw [decide_eq_true habove] at hnot
    cases hnot
  · rcases List.mem_cons.mp hrest with rfl | hrest
    · exact Nat.le_refl _
    · have htail := (List.pairwise_append.mp hsorted).2.1
      exact Nat.le_of_lt ((List.pairwise_cons.mp htail).1 message hrest)

theorem le_reach (items : List Item) (through : ℤ) : through ≤ reach items through := by
  induction items generalizing through with
  | nil => exact le_refl _
  | cons item items ih => exact le_trans (le_max_left _ _) (ih _)

theorem seq_le_reach (through : ℤ) {item : Item} (hitem : item ∈ items) :
    (item.message.seq : ℤ) ≤ reach items through := by
  induction items generalizing through with
  | nil => cases hitem
  | cons first items ih =>
      rcases List.mem_cons.mp hitem with rfl | hitem
      · exact le_trans (le_max_right _ _) (le_reach items _)
      · exact ih _ hitem

/-- **A batch that is walked through leaves no message out.** -/
theorem walk_covers (hsorted : Sorted Message.seq reader.log)
    (h : walk reader items through = true) {message : Message} (hmessage : message ∈ reader.log)
    (habove : through < message.seq) (hupto : (message.seq : ℤ) ≤ reach items through) :
    ∃ item ∈ items, item.message = message := by
  induction items generalizing through with
  | nil =>
      have : reach [] through = through := rfl
      omega
  | cons item items ih =>
      have hreach : reach (item :: items) through =
          reach items (max through item.message.seq) := rfl
      rw [hreach] at hupto
      rw [walk] at h
      split at h
      · next hpassed =>
          rw [max_eq_left hpassed] at hupto
          obtain ⟨found, hfound, heq⟩ := ih h habove hupto
          exact ⟨found, List.mem_cons_of_mem _ hfound, heq⟩
      · next hnew =>
          obtain ⟨hnext, hrest⟩ := Bool.and_eq_true_iff.mp h
          obtain ⟨hitem, -, hleast⟩ := following_least hsorted (of_decide_eq_true hnext)
          rw [max_eq_right (le_of_lt (not_le.mp hnew))] at hupto
          rcases Nat.eq_or_lt_of_le (hleast message hmessage habove) with hseq | hseq
          · exact ⟨item, List.mem_cons_self, hsorted.eq_of_key hitem hmessage hseq⟩
          · obtain ⟨found, hfound, heq⟩ := ih hrest (by omega) hupto
            exact ⟨found, List.mem_cons_of_mem _ hfound, heq⟩

end Walks

/-! ### The ordinary path -/

section Ordinary

variable {recoveryOwner : String} {reader : Reader} {passive : Bool} {items : List Item}
  {through : ℤ} {store : Store}

/-- What consumption keeps of a store: its cursors, its selections, and that no selection was
rewritten. -/
structure Kept (store store' : Store) : Prop where
  cursors : store'.cursors = store.cursors
  selections : ∀ id row, store.selections.get? id = some row →
    store'.selections.get? id = some row
  first : (∀ id row, store.selections.get? id = some row → row.version = 0) →
    ∀ id row, store'.selections.get? id = some row → row.version = 0

theorem Kept.refl (store : Store) : Kept store store :=
  ⟨rfl, fun _ _ h => h, fun h => h⟩

variable {store' : Store}

theorem Kept.trans {middle : Store} (h : Kept store middle) (h' : Kept middle store') :
    Kept store store' :=
  ⟨h'.cursors.trans h.cursors, fun id row hrow => h'.selections id row (h.selections id row hrow),
    fun hfirst => h'.first (h.first hfirst)⟩

theorem kept_of_prepare {message : Message} {sinks : List Sink} {selection : Selection}
    (h : prepare recoveryOwner message sinks passive store = .ok (selection, store')) :
    Kept store store' ∧ ∃ row, store'.selections.get? message.messageId = some row := by
  rcases prepare_eq_ok h with ⟨hrow, rfl⟩ | ⟨hnone, -, hadded⟩
  · exact ⟨Kept.refl store', _, hrow⟩
  · refine ⟨⟨hadded.cursors, fun id row hrow => ?_, fun hfirst id row hrow => ?_⟩,
      ⟨0, selection⟩, ?_⟩
    · rw [hadded.selections, Dict.get?_set_of_ne]
      · exact hrow
      · rintro rfl
        rw [hnone] at hrow
        cases hrow
    · rw [hadded.selections, Dict.get?_set] at hrow
      split at hrow
      · exact (congrArg OwnerRow.version (Option.some.inj hrow)).symm
      · exact hfirst id row hrow
    · rw [hadded.selections]
      exact Dict.get?_set_self _ _ _

theorem kept_of_consumeItem {message : Message} {sinks : Option (List Sink)}
    {selection : Option Selection}
    (h : consumeItem recoveryOwner message passive sinks store = .ok (selection, store')) :
    Kept store store' ∧
      (sinks ≠ none → ∃ row, store'.selections.get? message.messageId = some row) := by
  cases sinks with
  | none =>
      obtain ⟨_, -, h⟩ := bind_eq_ok.mp h
      obtain ⟨-, rfl⟩ := Prod.mk.inj (Except.ok.inj h)
      exact ⟨Kept.refl _, fun hnot => absurd rfl hnot⟩
  | some sinks =>
      obtain ⟨⟨_, prepared⟩, hprepare, h⟩ := bind_eq_ok.mp h
      obtain ⟨-, rfl⟩ := Prod.mk.inj (Except.ok.inj h)
      obtain ⟨hkept, hrow⟩ := kept_of_prepare hprepare
      exact ⟨hkept, fun _ => hrow⟩

/-- **What a walk through a batch did.** -/
theorem consumeItems_eq_ok {selections : List (Option Selection)} {through' : ℤ}
    (h : consumeItems recoveryOwner reader passive items through store =
      .ok (selections, through', store')) :
    walk reader items through = true ∧ through' = reach items through ∧ Kept store store' ∧
      ∀ item ∈ items, item.sinks ≠ none →
        ∃ row, store'.selections.get? item.message.messageId = some row := by
  induction items generalizing through store selections with
  | nil =>
      obtain ⟨-, hrest⟩ := Prod.mk.inj (Except.ok.inj h)
      obtain ⟨rfl, rfl⟩ := Prod.mk.inj hrest
      exact ⟨rfl, rfl, Kept.refl _, fun _ h => nomatch h⟩
  | cons item items ih =>
      have hreach : reach (item :: items) through =
          reach items (max through item.message.seq) := rfl
      rw [consumeItems] at h
      split at h
      · next hpassed =>
          obtain ⟨existing, hexisting, h⟩ := bind_eq_ok.mp h
          obtain ⟨-, ⟨⟩⟩ | ⟨hhas, h⟩ := ite_eq_iff.mp h
          obtain ⟨⟨rest, final⟩, hrest, h⟩ := bind_eq_ok.mp h
          obtain ⟨-, rfl⟩ := Prod.mk.inj (Except.ok.inj h)
          obtain ⟨hwalk, hthrough, hkept, hselected⟩ := ih hrest
          refine ⟨by rw [walk, if_pos hpassed]; exact hwalk,
            by rw [hreach, max_eq_left hpassed]; exact hthrough, hkept, ?_⟩
          intro other hother hsinks
          rcases List.mem_cons.mp hother with rfl | hother
          · cases existing with
            | none => exact absurd ⟨rfl, hsinks⟩ hhas
            | some selection =>
                exact ⟨_, hkept.selections _ _ (selection_eq_some hexisting)⟩
          · exact hselected other hother hsinks
      · next hnew =>
          obtain ⟨-, ⟨⟩⟩ | ⟨hnext, h⟩ := ite_eq_iff.mp h
          have hnext := not_not.mp hnext
          obtain ⟨⟨selection, middle⟩, hmiddle, h⟩ := bind_eq_ok.mp h
          obtain ⟨⟨rest, final⟩, hrest, h⟩ := bind_eq_ok.mp h
          obtain ⟨-, rfl⟩ := Prod.mk.inj (Except.ok.inj h)
          obtain ⟨hwalk, hthrough, hkept, hselected⟩ := ih hrest
          have hitem := kept_of_consumeItem hmiddle
          refine ⟨?_, ?_, hitem.1.trans hkept, ?_⟩
          · rw [walk, if_neg hnew, hwalk, decide_eq_true hnext]
            rfl
          · rw [hreach, max_eq_right (le_of_lt (not_le.mp hnew))]
            exact hthrough
          · intro other hother hsinks
            rcases List.mem_cons.mp hother with rfl | hother
            · obtain ⟨row, hrow⟩ := hitem.2 hsinks
              exact ⟨row, hkept.selections _ _ hrow⟩
            · exact hselected other hother hsinks

theorem selection_ok (hfirst : ∀ id row, store.selections.get? id = some row → row.version = 0)
    (id : String) : ∃ selection, store.selection id = .ok selection := by
  rw [Store.selection]
  split
  · exact ⟨_, rfl⟩
  · next row hrow => exact ⟨_, if_neg (not_not.mpr (hfirst id row hrow))⟩

/-- A batch without destinations that can be walked through is consumed. -/
theorem consumeItems_of_walk
    (hfirst : ∀ id row, store.selections.get? id = some row → row.version = 0)
    (hnone : ∀ item ∈ items, item.sinks = none) (h : walk reader items through = true) :
    ∃ selections, consumeItems recoveryOwner reader passive items through store =
      .ok (selections, reach items through, store) := by
  induction items generalizing through with
  | nil => exact ⟨[], rfl⟩
  | cons item items ih =>
      have hsinks := hnone item List.mem_cons_self
      have hrest : ∀ item ∈ items, item.sinks = none := fun item h =>
        hnone item (List.mem_cons_of_mem _ h)
      have hreach : reach (item :: items) through =
          reach items (max through item.message.seq) := rfl
      obtain ⟨selection, hselection⟩ := selection_ok hfirst item.message.messageId
      rw [walk] at h
      split at h
      · next hpassed =>
          obtain ⟨selections, heq⟩ := ih hrest h
          refine ⟨selection :: selections, ?_⟩
          rw [consumeItems, if_pos hpassed, hselection, hreach, max_eq_left hpassed]
          refine bind_eq_ok.mpr ⟨selection, rfl, ?_⟩
          rw [if_neg (fun hboth => hboth.2 hsinks), heq]
          rfl
      · next hnew =>
          obtain ⟨hnext, h⟩ := Bool.and_eq_true_iff.mp h
          obtain ⟨selections, heq⟩ := ih hrest h
          have hmax := max_eq_right (le_of_lt (not_le.mp hnew))
          have hitem : consumeItem recoveryOwner item.message passive item.sinks store =
              .ok (selection, store) := by
            rw [hsinks, consumeItem, hselection]
            rfl
          refine ⟨selection :: selections, ?_⟩
          rw [consumeItems, if_neg hnew, if_neg (not_not.mpr (of_decide_eq_true hnext)), hitem,
            hreach, hmax]
          exact bind_eq_ok.mpr ⟨(selection, store), rfl, bind_eq_ok.mpr ⟨_, heq, rfl⟩⟩

theorem checkItems_of_mem {sessionId : String} (hown : reader.ownLog = true)
    (hsession : reader.sessionId = sessionId) (hlog : SessionLog sessionId reader.log)
    (hmem : ∀ item ∈ items, item.message ∈ reader.log)
    (hnone : ∀ item ∈ items, item.sinks = none) : checkItems reader items = .ok () := by
  induction items with
  | nil => rfl
  | cons item items ih =>
      have hitem := hmem item List.mem_cons_self
      have hget : reader.get item.message.messageId = some item.message := by
        have hsome : (reader.log.find? fun message =>
            message.messageId = item.message.messageId).isSome = true :=
          List.find?_isSome.mpr ⟨item.message, hitem, decide_eq_true rfl⟩
        obtain ⟨found, hfound⟩ := Option.isSome_iff_exists.mp hsome
        have hid : found.messageId = item.message.messageId := by
          simpa using List.find?_some hfound
        have heq := List.inj_on_of_nodup_map hlog.ids (List.mem_of_find?_eq_some hfound) hitem hid
        rw [Reader.get, hfound, heq]
      have hcheck : checkMessage reader item.message (item.sinks.getD []) = .ok () := by
        rw [checkMessage, if_neg (by rw [hown]; exact Bool.noConfusion), if_neg, if_neg]
        · rw [hnone item List.mem_cons_self]
          exact not_not.mpr List.nodup_nil
        · rintro (hne | hne)
          · exact hne (hsession.trans (hlog.session _ hitem).symm)
          · exact hne hget
      rw [checkItems, hcheck]
      exact ih (fun item h => hmem item (List.mem_cons_of_mem _ h))
        (fun item h => hnone item (List.mem_cons_of_mem _ h))

end Ordinary

/-! ### Calls -/

section Calls

variable {records : Records} {reader : Reader} {items : List Item} {passive : Bool}
  {store : Store}

theorem persistedCursor_set (owner sessionId : String) (row : OwnerRow ℤ) :
    { store with cursors := store.cursors.set (owner, sessionId) row }.persistedCursor owner
      sessionId = row.value := by
  rw [Store.persistedCursor, Dict.get?_set_self]
  rfl

variable {store' : Store}

/-- **What an accepted transaction did.** -/
theorem consumeCommit_eq_ok {selections : List (Option Selection)} {through : Option ℤ}
    (h : records.consumeCommit reader items passive store =
      .ok ((selections, through), store')) :
    walk reader items (effective records reader.sessionId store) = true ∧
    (∀ id row, store.selections.get? id = some row → store'.selections.get? id = some row) ∧
    ((∀ id row, store.selections.get? id = some row → row.version = 0) →
      ∀ id row, store'.selections.get? id = some row → row.version = 0) ∧
    (∀ item ∈ items, item.sinks ≠ none →
      ∃ row, store'.selections.get? item.message.messageId = some row) ∧
    store'.persistedCursor records.recoveryOwner reader.sessionId =
      max (store.persistedCursor records.recoveryOwner reader.sessionId)
        (reach items (effective records reader.sessionId store)) ∧
    through = if store.persistedCursor records.recoveryOwner reader.sessionId <
        reach items (effective records reader.sessionId store) then
      some (reach items (effective records reader.sessionId store)) else none := by
  rw [Records.consumeCommit] at h
  obtain ⟨⟨found, reached, middle⟩, hitems, h⟩ := bind_eq_ok.mp h
  obtain ⟨hwalk, hreached, hkept, hselected⟩ := consumeItems_eq_ok hitems
  change reached = reach items (effective records reader.sessionId store) at hreached
  subst hreached
  dsimp only at h
  split at h
  · next hfurther =>
      obtain ⟨⟨row, cursors⟩, hsave, h⟩ := bind_eq_ok.mp h
      obtain ⟨hresult, rfl⟩ := Prod.mk.inj (Except.ok.inj h)
      obtain ⟨rfl, rfl⟩ := Prod.mk.inj hresult
      obtain ⟨-, rfl, rfl⟩ := OwnerRows.save_eq_ok hsave
      refine ⟨hwalk, hkept.selections, hkept.first, hselected, ?_, (if_pos hfurther).symm⟩
      rw [persistedCursor_set, max_eq_right (le_of_lt hfurther)]
  · next hnot =>
      obtain ⟨hresult, rfl⟩ := Prod.mk.inj (Except.ok.inj h)
      obtain ⟨rfl, rfl⟩ := Prod.mk.inj hresult
      refine ⟨hwalk, hkept.selections, hkept.first, hselected, ?_, (if_neg hnot).symm⟩
      rw [Store.persistedCursor, hkept.cursors, max_eq_left (not_lt.mp hnot)]
      rfl

/-- What an accepted call of the ordinary path did: it walked through the batch, and moved the
effective cursor as far as the batch goes. -/
structure Advanced (records : Records) (reader : Reader) (items : List Item) (store : Store)
    (records' : Records) (store' : Store) : Prop where
  owner : records'.recoveryOwner = records.recoveryOwner
  walked : walk reader items (effective records reader.sessionId store) = true
  cursor : effective records' reader.sessionId store' =
    reach items (effective records reader.sessionId store)
  persisted : store.persistedCursor records.recoveryOwner reader.sessionId ≤
    store'.persistedCursor records.recoveryOwner reader.sessionId
  selections : ∀ id row, store.selections.get? id = some row →
    store'.selections.get? id = some row
  first : (∀ id row, store.selections.get? id = some row → row.version = 0) →
    ∀ id row, store'.selections.get? id = some row → row.version = 0
  selected : ∀ item ∈ items, item.sinks ≠ none →
    ∃ row, store'.selections.get? item.message.messageId = some row

/-- **The ordinary path.** -/
theorem advanced_of_consumeOrdinary {selections : List (Option Selection)} {records' : Records}
    (h : records.consumeOrdinary reader items passive store = (.ok selections, records', store')) :
    Advanced records reader items store records' store' := by
  rw [Records.consumeOrdinary] at h
  split at h
  · cases h
  · cases hcommit : records.consumeCommit reader items passive store with
    | error e =>
        rw [transact, hcommit] at h
        cases h
    | ok result =>
        obtain ⟨⟨found, through⟩, after⟩ := result
        obtain ⟨hwalk, hselections, hfirst, hselected, hpersisted, hthrough⟩ :=
          consumeCommit_eq_ok hcommit
        rw [transact, hcommit] at h
        have hle := le_reach items (effective records reader.sessionId store)
        have hbase : store.persistedCursor records.recoveryOwner reader.sessionId ≤
            effective records reader.sessionId store := le_max_left _ _
        split at hthrough
        · next hfurther =>
            subst hthrough
            obtain ⟨-, rfl, rfl⟩ : found = selections ∧ _ = records' ∧ after = store' := by
              obtain ⟨hfound, hrest⟩ := Prod.mk.inj h
              exact ⟨Except.ok.inj hfound, Prod.mk.inj hrest⟩
            refine ⟨rfl, hwalk, ?_, by omega, hselections, hfirst, hselected⟩
            rw [effective, Dict.get?_set_self, hpersisted]
            exact max_eq_right (max_le (le_of_lt hfurther) (le_refl _))
        · next hnot =>
            subst hthrough
            obtain ⟨-, rfl, rfl⟩ : found = selections ∧ records = records' ∧ after = store' := by
              obtain ⟨hfound, hrest⟩ := Prod.mk.inj h
              exact ⟨Except.ok.inj hfound, Prod.mk.inj hrest⟩
            have hsame : store.persistedCursor records.recoveryOwner reader.sessionId =
                effective records reader.sessionId store := by omega
            refine ⟨rfl, hwalk, ?_, by omega, hselections, hfirst, hselected⟩
            rw [effective, hpersisted, max_eq_left (not_lt.mp hnot)]
            change effective records reader.sessionId store = _
            omega

theorem refused_of_consumeOrdinary {e : PyError} {records' : Records}
    (h : records.consumeOrdinary reader items passive store = (.error e, records', store')) :
    records' = records ∧ store' = store := by
  rw [Records.consumeOrdinary] at h
  split at h
  · obtain ⟨-, rfl, rfl⟩ := h
    exact ⟨rfl, rfl⟩
  · cases hcommit : records.consumeCommit reader items passive store with
    | error e =>
        rw [transact, hcommit] at h
        obtain ⟨-, rfl, rfl⟩ := h
        exact ⟨rfl, rfl⟩
    | ok result =>
        obtain ⟨⟨found, through⟩, after⟩ := result
        rw [transact, hcommit] at h
        cases through <;> cases h

theorem consumeCommit_congr {other : Records} (howner : other.recoveryOwner = records.recoveryOwner)
    (hcursor : effective other reader.sessionId store = effective records reader.sessionId store) :
    other.consumeCommit reader items passive store =
      records.consumeCommit reader items passive store := by
  rw [effective, effective, howner] at hcursor
  rw [Records.consumeCommit, Records.consumeCommit, howner]
  dsimp only
  rw [hcursor]

theorem consumeOrdinary_congr {other : Records}
    (howner : other.recoveryOwner = records.recoveryOwner)
    (hcursor : effective other reader.sessionId store = effective records reader.sessionId store) :
    (other.consumeOrdinary reader items passive store).1 =
      (records.consumeOrdinary reader items passive store).1 := by
  rw [Records.consumeOrdinary, Records.consumeOrdinary, transact, transact,
    consumeCommit_congr howner hcursor]
  cases checkItems reader items with
  | error e => rfl
  | ok _ =>
      cases records.consumeCommit reader items passive store with
      | error e => rfl
      | ok result =>
          obtain ⟨⟨selections, through⟩, after⟩ := result
          cases through <;> rfl

/-- **The ordinary path accepts** a batch without destinations that can be walked through. -/
theorem consumeOrdinary_of_walk {sessionId : String} (hown : reader.ownLog = true)
    (hsession : reader.sessionId = sessionId) (hlog : SessionLog sessionId reader.log)
    (hfirst : ∀ id row, store.selections.get? id = some row → row.version = 0)
    (hmem : ∀ item ∈ items, item.message ∈ reader.log)
    (hnone : ∀ item ∈ items, item.sinks = none)
    (hwalk : walk reader items (effective records reader.sessionId store) = true) :
    ∃ selections, (records.consumeOrdinary reader items passive store).1 = .ok selections := by
  obtain ⟨selections, hitems⟩ := @consumeItems_of_walk records.recoveryOwner reader passive items
    _ store hfirst hnone hwalk
  have hcommit : ∃ result, records.consumeCommit reader items passive store = .ok result := by
    obtain ⟨saved, hsave⟩ : ∃ saved, store.cursors.save (records.recoveryOwner, reader.sessionId)
        (reach items (effective records reader.sessionId store))
        ((store.cursors.get? (records.recoveryOwner, reader.sessionId)).map (·.version)) =
          .ok saved := ⟨_, if_pos rfl⟩
    by_cases hfurther : store.persistedCursor records.recoveryOwner reader.sessionId <
        reach items (effective records reader.sessionId store)
    · exact ⟨_, bind_eq_ok.mpr ⟨_, hitems, (if_pos hfurther).trans
        (bind_eq_ok.mpr ⟨saved, hsave, rfl⟩)⟩⟩
    · exact ⟨_, bind_eq_ok.mpr ⟨_, hitems, if_neg hfurther⟩⟩
  obtain ⟨⟨⟨found, through⟩, after⟩, hcommit⟩ := hcommit
  refine ⟨found, ?_⟩
  rw [Records.consumeOrdinary, checkItems_of_mem hown hsession hlog hmem hnone, transact, hcommit]
  cases through <;> rfl

end Calls

/-! ### The fast path -/

section Fast

variable {records : Records} {sessionId : String} {store : Store}

theorem effective_cache (records : Records) (sessionId : String) (through : ℤ) :
    effective { records with cursorCache := records.cursorCache.set sessionId through } sessionId
      store = max (store.persistedCursor records.recoveryOwner sessionId) through := by
  rw [effective, Dict.get?_set_self]
  rfl

theorem cursor_keeps (hpersisted : -1 ≤ store.persistedCursor records.recoveryOwner sessionId) :
    (records.cursor sessionId store).2.recoveryOwner = records.recoveryOwner ∧
      effective (records.cursor sessionId store).2 sessionId store =
        effective records sessionId store := by
  rw [Records.cursor]
  cases hcached : records.cursorCache.get? sessionId with
  | some cached => exact ⟨rfl, rfl⟩
  | none =>
      refine ⟨rfl, ?_⟩
      rw [effective, effective, Dict.get?_set_self, hcached]
      exact (max_self _).trans (max_eq_left hpersisted).symm

/-- What a call went through: the fast path, which moved the cached cursor to the last message,
or the ordinary path, with the same cursor. -/
inductive Went (w : Consumer) (sessionId : String) (items : List Item) (passive : Bool)
    (records' : Records) (store' : Store) : Prop where
  | fast (last : Item) (hfast : w.isFast sessionId items = true)
      (hlast : items.getLast? = some last) (hstore : store' = w.store)
      (howner : records'.recoveryOwner = w.records.recoveryOwner)
      (hcursor : effective records' sessionId store' =
        max (w.store.persistedCursor w.records.recoveryOwner sessionId) last.message.seq)
  | ordinary (before : Records) (selections : List (Option Selection))
      (hfast : w.isFast sessionId items = false)
      (howner : before.recoveryOwner = w.records.recoveryOwner)
      (hcursor : effective before sessionId w.store = w.cursor sessionId)
      (h : before.consumeOrdinary (w.reader sessionId) items passive w.store =
        (.ok selections, records', store'))

/-- What an exception leaves alone. -/
structure Refused (w : Consumer) (sessionId : String) (records' : Records) (store' : Store) :
    Prop where
  store : store' = w.store
  owner : records'.recoveryOwner = w.records.recoveryOwner
  cursor : effective records' sessionId store' = w.cursor sessionId

variable {w : Consumer} {items : List Item} {passive : Bool}

/-- **Fast path**: what it answers for each batch. -/
theorem advanceUnroutable_cases (items : List Item)
    (hpersisted : -1 ≤ w.store.persistedCursor w.records.recoveryOwner sessionId) :
    (∃ last records', w.records.advanceUnroutable (w.reader sessionId) items w.store =
        (.ok true, records') ∧ w.isFast sessionId items = true ∧ items.getLast? = some last ∧
      records'.recoveryOwner = w.records.recoveryOwner ∧
      effective records' sessionId w.store =
        max (w.store.persistedCursor w.records.recoveryOwner sessionId) last.message.seq) ∨
    (∃ records', w.records.advanceUnroutable (w.reader sessionId) items w.store =
        (.ok false, records') ∧ w.isFast sessionId items = false ∧
      records'.recoveryOwner = w.records.recoveryOwner ∧
      effective records' sessionId w.store = w.cursor sessionId) ∨
    (∃ e records', w.records.advanceUnroutable (w.reader sessionId) items w.store =
        (.error e, records') ∧ records'.recoveryOwner = w.records.recoveryOwner ∧
      effective records' sessionId w.store = w.cursor sessionId) := by
  obtain ⟨howner, hcursor⟩ := cursor_keeps hpersisted
  rw [Consumer.isFast]
  cases hhead : items.head? with
  | none =>
      refine .inr (.inl ⟨w.records, ?_, ?_, rfl, rfl⟩)
      · rw [Records.advanceUnroutable, hhead]
      · exact Bool.and_false _
  | some first =>
      obtain ⟨last, hlast⟩ : ∃ last, items.getLast? = some last := by
        cases hlast : items.getLast? with
        | none =>
            rw [List.getLast?_eq_none_iff.mp hlast] at hhead
            cases hhead
        | some last => exact ⟨last, rfl⟩
      rw [Records.advanceUnroutable, hhead, hlast]
      dsimp only
      by_cases hunroutable : isUnroutable items = false
      · refine .inr (.inl ⟨w.records, if_pos hunroutable, ?_, rfl, rfl⟩)
        rw [hunroutable]
        rfl
      · rw [if_neg hunroutable, eq_true_of_ne_false hunroutable]
        by_cases hpassed : (first.message.seq : ℤ) ≤ (w.records.cursor sessionId w.store).1
        · refine .inr (.inl ⟨_, if_pos hpassed, ?_, howner, hcursor⟩)
          exact decide_eq_false (not_lt.mpr hpassed)
        · by_cases hnext : ((w.reader sessionId).following
              (w.records.cursor sessionId w.store).1).map (·.messageId) ≠
                some first.message.messageId
          · refine .inr (.inr ⟨_, _, (if_neg hpassed).trans (if_pos hnext), howner, hcursor⟩)
          · refine .inl ⟨last, _, (if_neg hpassed).trans (if_neg hnext), ?_, rfl, howner, ?_⟩
            · exact decide_eq_true (not_le.mp hpassed)
            · refine (effective_cache (w.records.cursor sessionId w.store).2 sessionId
                last.message.seq).trans ?_
              rw [howner]

/-- **What a call did.** -/
theorem consumeBatch_cases
    (hpersisted : -1 ≤ w.store.persistedCursor w.records.recoveryOwner sessionId)
    {result : Except PyError (List (Option Selection))} {records' : Records} {store' : Store}
    (h : w.records.consumeBatch (w.reader sessionId) items passive w.store =
      (result, records', store')) :
    ((∃ selections, result = .ok selections) ∧ Went w sessionId items passive records' store') ∨
      ((∃ e, result = .error e) ∧ Refused w sessionId records' store') := by
  rw [Records.consumeBatch] at h
  rcases advanceUnroutable_cases items hpersisted with
    ⟨last, advanced, heq, hfast, hlast, howner, hcursor⟩ |
    ⟨before, heq, hfast, howner, hcursor⟩ | ⟨e, after, heq, howner, hcursor⟩
  · rw [heq] at h
    obtain ⟨rfl, rfl, rfl⟩ := h
    exact .inl ⟨⟨_, rfl⟩, .fast last hfast hlast rfl howner hcursor⟩
  · rw [heq] at h
    cases result with
    | ok selections => exact .inl ⟨⟨_, rfl⟩, .ordinary before selections hfast howner hcursor h⟩
    | error e =>
        obtain ⟨rfl, rfl⟩ := refused_of_consumeOrdinary h
        exact .inr ⟨⟨_, rfl⟩, rfl, howner, hcursor⟩
  · rw [heq] at h
    obtain ⟨rfl, rfl, rfl⟩ := h
    exact .inr ⟨⟨_, rfl⟩, rfl, howner, hcursor⟩

end Fast

/-! ### Runs -/

/-- What holds of a consumer: its messages are those of the session, no selection was
rewritten, and its cursor is a number that a cursor can hold. -/
structure Consumer.Valid (sessionId : String) (w : Consumer) : Prop where
  log : SessionLog sessionId w.log
  first : ∀ id row, w.store.selections.get? id = some row → row.version = 0
  persisted : -1 ≤ w.store.persistedCursor w.records.recoveryOwner sessionId

section Runs

variable {w w' : Consumer} {sessionId : String} {items : List Item} {passive : Bool}

theorem valid_init (h : (consumer sessionId).init w) : w.Valid sessionId := by
  obtain ⟨hlog, hfirst, hcursor, -, -⟩ := h
  refine ⟨hlog, hfirst, ?_⟩
  rw [Store.persistedCursor, hcursor]
  exact le_refl _

theorem valid_consume (items : List Item) (passive : Bool) (h : w.Valid sessionId) :
    (w.consume sessionId items passive).Valid sessionId := by
  rw [Consumer.consume]
  rcases hcall : w.records.consumeBatch (w.reader sessionId) items passive w.store with
    ⟨result, records', store'⟩
  rcases consumeBatch_cases h.persisted hcall with ⟨⟨selections, rfl⟩, hwent⟩ | ⟨⟨e, rfl⟩, hrefused⟩
  · cases hwent with
    | fast last hfast hlast hstore howner hcursor =>
        subst hstore
        exact ⟨h.log, h.first, by rw [howner]; exact h.persisted⟩
    | ordinary before selections hfast howner hcursor hordinary =>
        have hadvanced := advanced_of_consumeOrdinary hordinary
        have howner' := hadvanced.owner.trans howner
        have hpersisted := hadvanced.persisted
        rw [howner] at hpersisted
        refine ⟨h.log, hadvanced.first h.first, ?_⟩
        rw [howner']
        exact le_trans h.persisted hpersisted
  · obtain ⟨rfl, howner, -⟩ := hrefused
    exact ⟨h.log, h.first, by rw [howner]; exact h.persisted⟩

theorem valid_step {e : Consumption} (h : w.Valid sessionId)
    (hstep : (consumer sessionId).step w e w') : w'.Valid sessionId := by
  cases e with
  | consume items passive =>
      obtain rfl := hstep
      exact valid_consume items passive h
  | accept message =>
      obtain ⟨hlog, rfl⟩ := hstep
      exact ⟨hlog, h.first, h.persisted⟩
  | restart =>
      obtain rfl := hstep
      exact ⟨h.log, h.first, h.persisted⟩

/-- **Every reachable consumer is valid.** -/
theorem valid_of_reachable {G : Consumer → Consumption → Prop}
    (h : (consumer sessionId).ReachableVia G w) : w.Valid sessionId :=
  h.invariant (fun _ => valid_init) (fun _ _ _ hvalid _ => valid_step hvalid)

theorem sinks_of_isFast (h : w.isFast sessionId items = true) :
    ∀ item ∈ items, item.sinks = none := by
  intro item hitem
  have hunroutable := (Bool.and_eq_true_iff.mp h).1
  have hall := List.all_eq_true.mp (Bool.and_eq_true_iff.mp hunroutable).2 item hitem
  exact Option.isNone_iff_eq_none.mp (Bool.and_eq_true_iff.mp hall).1

/-- **One accepted call** is faithful if and only if it meets the condition. -/
theorem faithful_iff (hvalid : w.Valid sessionId)
    (hmem : OfSession w (.consume items passive)) {selections : List (Option Selection)}
    (haccepted : (w.records.consumeBatch (w.reader sessionId) items passive w.store).1 =
      .ok selections) :
    Faithful sessionId w items passive (w.consume sessionId items passive) ↔
      Walked sessionId w (.consume items passive) := by
  rcases hcall : w.records.consumeBatch (w.reader sessionId) items passive w.store with
    ⟨result, records', store'⟩
  rw [hcall] at haccepted
  dsimp only at haccepted
  subst haccepted
  have hafter : w.consume sessionId items passive =
      ⟨store', records', w.log, w.consumed ++ items⟩ := by
    rw [Consumer.consume, hcall]
  rw [hafter]
  rcases consumeBatch_cases hvalid.persisted hcall with ⟨-, hwent⟩ | ⟨⟨e, herror⟩, -⟩
  · cases hwent with
    | fast last hfast hlast hstore howner hcursor =>
        subst hstore
        change effective records' sessionId w.store = _ at hcursor
        have hnone := sinks_of_isFast hfast
        constructor
        · intro hfaithful _
          refine ⟨?_, fun other hother => ?_⟩
          · obtain ⟨found, hordinary⟩ := hfaithful.ordinary
            rcases hrun : w.records.consumeOrdinary (w.reader sessionId) items passive w.store with
              ⟨result, after⟩
            rw [hrun] at hordinary
            dsimp only at hordinary
            subst hordinary
            exact (advanced_of_consumeOrdinary hrun).walked
          · obtain rfl := Option.some.inj (hlast.symm.trans hother)
            have hmonotone := hfaithful.monotone
            rw [Consumer.cursor, Consumer.cursor, hcursor] at hmonotone
            exact hmonotone
        · intro hwalked
          obtain ⟨hwalk, hback⟩ := hwalked hfast
          have hmonotone := hback last hlast
          have hmemLast := List.mem_of_getLast? hlast
          refine ⟨?_, fun message hmessage habove hupto => ?_, fun item hitem hsinks => ?_, ?_⟩
          · change w.cursor sessionId ≤ effective records' sessionId w.store
            rw [hcursor]
            exact hmonotone
          · refine @walk_covers (w.reader sessionId) _ _ hvalid.log.sorted hwalk _ hmessage
              habove ?_
            rw [Consumer.cursor, hcursor] at hupto
            have hreach := seq_le_reach (w.cursor sessionId) hmemLast
            have hbase : w.store.persistedCursor w.records.recoveryOwner sessionId ≤
                w.cursor sessionId := le_max_left _ _
            rcases le_max_iff.mp hupto with hle | hle <;> omega
          · exact absurd (hnone item hitem) hsinks
          · exact consumeOrdinary_of_walk rfl rfl hvalid.log hvalid.first hmem hnone hwalk
    | ordinary before found hfast howner hcursor hordinary =>
        refine iff_of_true ?_ (fun htrue => ?_)
        · have hadvanced := advanced_of_consumeOrdinary hordinary
          have hwalk := hadvanced.walked
          have hthrough := hadvanced.cursor
          have hbefore : effective before (w.reader sessionId).sessionId w.store =
              w.cursor sessionId := hcursor
          rw [hbefore] at hwalk hthrough
          change effective records' sessionId store' = _ at hthrough
          refine ⟨?_, fun message hmessage habove hupto => ?_, hadvanced.selected, ?_⟩
          · rw [Consumer.cursor, Consumer.cursor, hthrough]
            exact le_reach items _
          · rw [Consumer.cursor, hthrough] at hupto
            exact @walk_covers (w.reader sessionId) _ _ hvalid.log.sorted hwalk _ hmessage
              habove hupto
          · refine ⟨found, ?_⟩
            rw [← consumeOrdinary_congr howner hbefore, hordinary]
        · rw [hfast] at htrue
          cases htrue
  · cases herror

theorem reach_le {through bound : ℤ} (hthrough : through ≤ bound)
    (hitems : ∀ item ∈ items, (item.message.seq : ℤ) ≤ bound) : reach items through ≤ bound := by
  induction items generalizing through with
  | nil => exact hthrough
  | cons item items ih =>
      exact ih (max_le hthrough (hitems item List.mem_cons_self))
        (fun other h => hitems other (List.mem_cons_of_mem _ h))

/-- An accepted call keeps the selections there are, and moves the cursor to a message of its
batch at most. -/
theorem went_bounds {records' : Records} {store' : Store} {bound : ℤ}
    (hwent : Went w sessionId items passive records' store') (hcursor : w.cursor sessionId ≤ bound)
    (hitems : ∀ item ∈ items, (item.message.seq : ℤ) ≤ bound) :
    (∀ id row, w.store.selections.get? id = some row → store'.selections.get? id = some row) ∧
      effective records' sessionId store' ≤ bound := by
  cases hwent with
  | fast last hfast hlast hstore howner hafter =>
      subst hstore
      refine ⟨fun _ _ h => h, ?_⟩
      rw [hafter]
      exact max_le (le_trans (le_max_left _ _) hcursor)
        (hitems last (List.mem_of_getLast? hlast))
  | ordinary before selections hfast howner hbefore hordinary =>
      have hadvanced := advanced_of_consumeOrdinary hordinary
      have hthrough := hadvanced.cursor
      refine ⟨hadvanced.selections, ?_⟩
      change effective records' sessionId store' = reach items (effective before sessionId w.store)
        at hthrough
      rw [hthrough, hbefore]
      exact reach_le hcursor hitems

/-- What the calls so far have done: the cursor stands in the log, every message up to it was
consumed, and what was consumed with destinations has its selection. -/
structure Consumer.Complete (sessionId : String) (w : Consumer) : Prop where
  valid : w.Valid sessionId
  bounded : w.cursor sessionId ≤ lastKey Message.seq w.log
  consumed : ∀ message ∈ w.log, (message.seq : ℤ) ≤ w.cursor sessionId →
    ∃ item ∈ w.consumed, item.message = message
  selected : ∀ item ∈ w.consumed, item.sinks ≠ none →
    ∃ row, w.store.selections.get? item.message.messageId = some row

theorem complete_init (h : (consumer sessionId).init w) : w.Complete sessionId := by
  have hvalid := valid_init h
  obtain ⟨-, -, hpersisted, hcache, hconsumed⟩ := h
  have hcursor : w.cursor sessionId = -1 := by
    rw [Consumer.cursor, effective, Store.persistedCursor, hpersisted, hcache]
    rfl
  refine ⟨hvalid, ?_, fun message _ hupto => ?_, fun item hitem => ?_⟩
  · rw [hcursor]
    exact neg_one_le_lastKey _
  · omega
  · rw [hconsumed] at hitem
    cases hitem

/-- A call that meets the condition keeps the record complete. -/
theorem complete_consume (h : w.Complete sessionId)
    (hmem : OfSession w (.consume items passive))
    (hwalked : Walked sessionId w (.consume items passive)) :
    (w.consume sessionId items passive).Complete sessionId := by
  have hvalid := valid_consume items passive h.valid
  rcases hcall : w.records.consumeBatch (w.reader sessionId) items passive w.store with
    ⟨result, records', store'⟩
  rcases consumeBatch_cases h.valid.persisted hcall with
    ⟨⟨selections, rfl⟩, hwent⟩ | ⟨⟨e, rfl⟩, hrefused⟩
  · have haccepted : (w.records.consumeBatch (w.reader sessionId) items passive w.store).1 =
        .ok selections := by rw [hcall]
    have hfaithful := (faithful_iff h.valid hmem haccepted).mpr hwalked
    have hafter : w.consume sessionId items passive =
        ⟨store', records', w.log, w.consumed ++ items⟩ := by
      rw [Consumer.consume, hcall]
    obtain ⟨hkept, hbound⟩ := went_bounds hwent h.bounded
      (fun item hitem => h.valid.log.sorted.le_lastKey _ (hmem item hitem))
    rw [hafter] at hfaithful hvalid ⊢
    refine ⟨hvalid, hbound, fun message hmessage hupto => ?_, fun item hitem hsinks => ?_⟩
    · by_cases hold : (message.seq : ℤ) ≤ w.cursor sessionId
      · obtain ⟨item, hitem, heq⟩ := h.consumed message hmessage hold
        exact ⟨item, List.mem_append_left _ hitem, heq⟩
      · obtain ⟨item, hitem, heq⟩ := hfaithful.covered message hmessage (not_le.mp hold) hupto
        exact ⟨item, List.mem_append_right _ hitem, heq⟩
    · rcases List.mem_append.mp hitem with hitem | hitem
      · obtain ⟨row, hrow⟩ := h.selected item hitem hsinks
        exact ⟨row, hkept _ _ hrow⟩
      · exact hfaithful.selected item hitem hsinks
  · have hafter : w.consume sessionId items passive = ⟨store', records', w.log, w.consumed⟩ := by
      rw [Consumer.consume, hcall]
    obtain ⟨hstore, -, hcursor⟩ := hrefused
    rw [hafter] at hvalid ⊢
    refine ⟨hvalid, hcursor.trans_le h.bounded, fun message hmessage hupto => ?_, ?_⟩
    · exact h.consumed message hmessage (hupto.trans_eq hcursor)
    · rw [hstore]
      exact h.selected

theorem complete_step {e : Consumption} (h : w.Complete sessionId) (hmem : OfSession w e)
    (hwalked : Walked sessionId w e) (hstep : (consumer sessionId).step w e w') :
    w'.Complete sessionId := by
  have hvalid := valid_step h.valid hstep
  cases e with
  | consume items passive =>
      obtain rfl := hstep
      exact complete_consume h hmem hwalked
  | accept message =>
      obtain ⟨hlog, rfl⟩ := hstep
      have hnew := hlog.sorted.lastKey_lt message (List.mem_singleton_self message)
      refine ⟨hvalid, ?_, fun other hother hupto => ?_, h.selected⟩
      · rw [lastKey_concat]
        exact le_trans h.bounded (le_of_lt hnew)
      · rcases List.mem_append.mp hother with hother | hother
        · exact h.consumed other hother hupto
        · rw [List.mem_singleton.mp hother] at hupto
          exact absurd (le_trans hupto h.bounded) (not_le.mpr hnew)
  | restart =>
      obtain rfl := hstep
      have hback : Consumer.cursor { w with records := ⟨w.records.recoveryOwner, .empty⟩ }
          sessionId ≤ w.cursor sessionId :=
        max_le (le_max_left _ _) (le_trans h.valid.persisted (le_max_left _ _))
      exact ⟨hvalid, le_trans hback h.bounded,
        fun message hmessage hupto => h.consumed message hmessage (le_trans hupto hback),
        h.selected⟩

/-- **Delivery consumption.** An accepted call is faithful if and only if a batch on the fast
path could be walked through and does not end before the cursor; and along runs of such calls
every message up to the cursor was consumed, and what was consumed with destinations has its
selection. -/
theorem consumption (sessionId : String) :
    (∀ w items passive selections, (consumer sessionId).ReachableVia OfSession w →
      OfSession w (.consume items passive) →
      (w.records.consumeBatch (w.reader sessionId) items passive w.store).1 = .ok selections →
      (Faithful sessionId w items passive (w.consume sessionId items passive) ↔
        Walked sessionId w (.consume items passive))) ∧
    ∀ w, (consumer sessionId).ReachableVia (fun w e => OfSession w e ∧ Walked sessionId w e) w →
      (∀ message ∈ w.log, (message.seq : ℤ) ≤ w.cursor sessionId →
        ∃ item ∈ w.consumed, item.message = message) ∧
      ∀ item ∈ w.consumed, item.sinks ≠ none →
        ∃ row, w.store.selections.get? item.message.messageId = some row := by
  refine ⟨fun w items passive selections hreach hmem haccepted =>
    faithful_iff (valid_of_reachable hreach) hmem haccepted, fun w hreach => ?_⟩
  have hcomplete : w.Complete sessionId :=
    hreach.invariant (fun _ => complete_init)
      (fun _ _ _ h hguard hstep => complete_step h hguard.1 hguard.2 hstep)
  exact ⟨hcomplete.consumed, hcomplete.selected⟩

end Runs

/-! ### A batch that leaves a message out -/

/-- An input of the session. -/
def heard (messageId : String) (seq : ℕ) (hid : messageId ≠ "") : Message where
  messageId := messageId
  sessionId := "room"
  seq := seq
  recordedAt := ⟨"2026-01-03T00:00:00+00:00"⟩
  author := "guest"
  source := "web"
  body := .input ⟨[]⟩
  metadata := .empty
  identity_ok := ⟨hid, by decide, by decide, by decide⟩
  control_ok := fun _ h => nomatch h

/-- A consumer before it consumed the three inputs of its session. -/
def threeInputs : Consumer where
  store := .empty
  records := ⟨"relay", .empty⟩
  log := [heard "note-1" 0 (by decide), heard "note-2" 1 (by decide),
    heard "note-3" 2 (by decide)]
  consumed := []

/-- The first and the last of the inputs. -/
def firstAndLast : List Item :=
  [⟨heard "note-1" 0 (by decide), none⟩, ⟨heard "note-3" 2 (by decide), none⟩]

theorem init_threeInputs : (consumer "room").init threeInputs := by
  refine ⟨⟨?_, ?_, ?_⟩, ?_, rfl, rfl, rfl⟩
  · simp [Sorted, threeInputs, heard]
  · simp [threeInputs, heard]
  · simp [threeInputs, heard]
  · intro id row hrow
    cases hrow

theorem ofSession_firstAndLast : OfSession threeInputs (.consume firstAndLast false) := by
  intro item hitem
  rcases List.mem_cons.mp hitem with rfl | hitem
  · exact List.mem_cons_self
  · rw [List.mem_singleton.mp hitem]
    exact List.mem_cons_of_mem _ (List.mem_cons_of_mem _ List.mem_cons_self)

/-- **The fast path leaves a message out**: it takes the first and the last of three inputs, and
its cursor then stands behind the second one. -/
theorem consumption_skips :
    ¬ ∀ w items passive selections, (consumer "room").ReachableVia OfSession w →
      OfSession w (.consume items passive) →
      (w.records.consumeBatch (w.reader "room") items passive w.store).1 = .ok selections →
      Faithful "room" w items passive (w.consume "room" items passive) := by
  intro h
  have hfaithful := h threeInputs firstAndLast false [none, none] (.init init_threeInputs)
    ofSession_firstAndLast rfl
  obtain ⟨item, hitem, heq⟩ := hfaithful.covered (heard "note-2" 1 (by decide))
    (List.mem_cons_of_mem _ List.mem_cons_self) (by decide) (by decide)
  rcases List.mem_cons.mp hitem with rfl | hitem
  · exact absurd (congrArg Message.seq heq) (by decide)
  · rw [List.mem_singleton.mp hitem] at heq
    exact absurd (congrArg Message.seq heq) (by decide)

/-- All the inputs. -/
def allInputs : List Item :=
  threeInputs.log.map fun message => ⟨message, none⟩

/-- The same consumer takes all three inputs, and none is left out. -/
theorem consumption_allInputs :
    Faithful "room" threeInputs allInputs false (threeInputs.consume "room" allInputs false) ∧
    ∃ item ∈ (threeInputs.consume "room" allInputs false).consumed,
      item.message = heard "note-2" 1 (by decide) := by
  have hmem : OfSession threeInputs (.consume allInputs false) := by
    intro item hitem
    obtain ⟨message, hmessage, rfl⟩ := List.mem_map.mp hitem
    exact hmessage
  have hwalked : Walked "room" threeInputs (.consume allInputs false) := by
    refine fun _ => ⟨by decide, fun last hlast => ?_⟩
    obtain rfl := Option.some.inj hlast
    decide
  have hstep : (consumer "room").step threeInputs (.consume allInputs false)
      (threeInputs.consume "room" allInputs false) := rfl
  have hreach := (System.ReachableVia.init
    (G := fun w e => OfSession w e ∧ Walked "room" w e) init_threeInputs).step
      ⟨hmem, hwalked⟩ hstep
  exact ⟨((consumption "room").1 threeInputs allInputs false [none, none, none]
      (.init init_threeInputs) hmem rfl).mpr hwalked,
    ((consumption "room").2 _ hreach).1 _ (List.mem_cons_of_mem _ List.mem_cons_self)
      (by decide)⟩

end Kirakira.DeliveryRecords
