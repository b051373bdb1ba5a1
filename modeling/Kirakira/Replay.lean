import Kirakira.Ledger

/-!
# Replay of Accepted Messages

An accepted message is found again by its identity. A later append of the same identity
returns it, whatever has become of the writer, the source head, the content validators
and the call in the meantime, because `_replay` is asked before any of them. What is asked
earlier still is the grant (`_metadata`): a writer must be granted the body type, the call
address and the metadata namespaces of the message it repeats.

## Main results

* `replay_stored` — `_replay` on a stored identity: the stored message, or a conflict.
* `exactly_once` — all entry points: `append`, a prepared append committed any number of
  times, `append_async`, and the two operations of an owner transaction.
* `replay_needs_metadata_grant` — a writer without the metadata namespaces is refused.
-/

namespace Kirakira

open Exceptions

/-- The writer, the body and the metadata are those of the message. -/
def SameContent (w : Writer) (body : Body) (metadata : Metadata) (m : Message) : Prop :=
  w.sessionId = m.sessionId ∧ w.author = m.author ∧ w.source = m.source ∧
    payload body = payload m.body ∧ metadata = m.metadata

instance (w : Writer) (body : Body) (metadata : Metadata) (m : Message) :
    Decidable (SameContent w body metadata m) := inferInstanceAs (Decidable (_ ∧ _))

/-- The database, the heads and the shared prefixes are the same; only the epoch of the
heads may have moved. -/
structure Log.Unchanged (log log' : Log) : Prop where
  db : log'.db = log.db
  heads : ∀ s, (log'.memory.heads.map fun heads => heads.lookup s)
    = log.memory.heads.map fun heads => heads.lookup s
  views : log'.memory.views = log.memory.views
  prefixes : ∀ i : ℕ, log'.memory.prefixes[i]? = log.memory.prefixes[i]?

theorem Log.Unchanged.refl (log : Log) : log.Unchanged log :=
  ⟨rfl, fun _ => rfl, rfl, fun _ => rfl⟩

theorem unchanged_mergeHeads (log : Log) :
    log.Unchanged ⟨log.db, log.memory.mergeHeads (some []) ∅ []⟩ := by
  obtain ⟨hheads, hviews⟩ := mergeHeads_frame log.memory [] ∅ []
  refine ⟨rfl, fun s => ?_, hviews, fun i => ?_⟩
  · rw [hheads, Option.map_map]
    congr 1
  · rw [prefixes_mergeHeads]
    simp [ofSession]

/-! ### The replay itself -/

variable {m : Message}

theorem Ledger.messageRow_eq {db : Db} {messages : List Message} (h : Ledger db messages)
    (hm : m ∈ messages) : db.messageRow m.messageId = some m.row := by
  rw [Db.messageRow, h.rows]
  have hids := h.ids
  clear h
  induction messages with
  | nil => cases hm
  | cons x rest ih =>
      rw [List.map_cons, List.nodup_cons] at hids
      rw [List.map_cons, List.find?_cons]
      rcases List.mem_cons.mp hm with rfl | hrest
      · simp [Message.row]
      · have hne : x.messageId ≠ m.messageId := by
          intro heq
          exact hids.1 (heq ▸ List.mem_map_of_mem hrest)
        have hfalse : decide (x.row.id = m.messageId) = false := decide_eq_false hne
        rw [hfalse]
        exact ih hrest hids.2

/-- **`_replay` on a stored identity** returns the stored message when the content is the
same, and raises a conflict when it is not. -/
theorem replay_stored {db : Db} (hrow : db.messageRow m.messageId = some m.row) (w : Writer)
    (body : Body) (metadata : Metadata) :
    (SameContent w body metadata m →
      w.replay db m.messageId body metadata = .ok (some m)) ∧
    (¬ SameContent w body metadata m → ∃ e, e.cls = .messageConflict ∧
      w.replay db m.messageId body metadata = .error e) := by
  have hdecode := messageOf_row m
  unfold Writer.replay
  rw [hrow]
  dsimp only
  rw [encodeBody_eq]
  simp only [bind, Except.bind]
  constructor
  · rintro ⟨hsession, hauthor, hsource, hbody, hmeta⟩
    rw [if_neg (by simp [Message.row, hsession, hauthor, hsource, hbody]), hdecode]
    dsimp only
    rw [if_neg (by simp [hmeta])]
    rfl
  · intro hdiff
    split
    · exact ⟨_, rfl, rfl⟩
    · next hsame =>
        rw [hdecode]
        dsimp only
        split
        · exact ⟨_, rfl, rfl⟩
        · next hmeta =>
            exfalso
            rw [not_not] at hsame hmeta
            simp only [Message.row, Prod.mk.injEq] at hsame
            obtain ⟨hsession, hauthor, hsource, hbody⟩ := hsame
            exact hdiff ⟨hsession.symm, hauthor.symm, hsource.symm, hbody.symm, hmeta.symm⟩

/-! ### Entry points -/

/-- An append whose grant holds does what the replay of its identity says, when there is
one. -/
theorem run_append_of_replay {w : Writer} {env : Ambient} {messageId : String} {body : Body}
    {expected : Option ℤ} {metadata : Option Json} {value : Metadata}
    (hvalue : w.metadata body metadata = .ok value) (tx : Tx) :
    (∀ m, w.replay tx.db messageId body value = .ok (some m) →
      (w.append env messageId body expected metadata).run tx = .ok m tx) ∧
    (∀ e, w.replay tx.db messageId body value = .error e →
      (w.append env messageId body expected metadata).run tx = .error e tx) := by
  unfold Writer.append
  constructor
  · intro m hreplay
    rw [run_lift_bind_of_ok hvalue, run_get_bind, run_lift_bind_of_ok hreplay]
    rfl
  · intro e hreplay
    rw [run_lift_bind_of_ok hvalue, run_get_bind, run_lift_bind_of_error hreplay]

theorem run_appendPrepared_of_replay (p : PreparedAppend) (env : Ambient)
    (expected : Option ℤ) (tx : Tx) :
    (∀ m, p.writer.replay tx.db p.messageId p.body p.metadata = .ok (some m) →
      (p.append env expected).run tx = .ok (m, false) tx) ∧
    (∀ e, p.writer.replay tx.db p.messageId p.body p.metadata = .error e →
      (p.append env expected).run tx = .error e tx) := by
  unfold PreparedAppend.append
  constructor
  · intro m hreplay
    rw [run_get_bind, run_lift_bind_of_ok hreplay]
    rfl
  · intro e hreplay
    rw [run_get_bind, run_lift_bind_of_error hreplay]

theorem write_of_run {α : Type} {log : Log} {operation : TxM α} :
    (∀ a, operation.run (Tx.start log.db) = .ok a (Tx.start log.db) →
      (log.write (TxM.callback operation)).1 = .ok a ∧
        log.Unchanged (log.write (TxM.callback operation)).2) ∧
    (∀ e tx, operation.run (Tx.start log.db) = .error e tx →
      log.write (TxM.callback operation) = (.error e, log)) := by
  unfold Log.write TxM.callback
  constructor
  · intro a hrun
    rw [hrun]
    exact ⟨rfl, unchanged_mergeHeads log⟩
  · intro e tx hrun
    rw [hrun]

/-- `append_async`: the replay and the content checks in one snapshot, the commit later;
an accepted message that the first look finds is returned at once. -/
def Log.appendAsync (log : Log) (snapshot : Db) (w : Writer) (env : Ambient)
    (messageId : String) (body : Body) (expectedSourceHead : Option ℤ)
    (metadata : Option Json) : Except PyError Message × Log :=
  match w.prepareAsync snapshot env.active messageId body metadata with
  | .error e => (.error e, log)
  | .ok p =>
      match p.existing with
      | some existing => (.ok existing, log)
      | none => ((log.commit p env expectedSourceHead).1.map Prod.fst,
          (log.commit p env expectedSourceHead).2)

theorem prepareAsync_of_replay {w : Writer} {body : Body} {metadata : Option Json}
    {value : Metadata} (hvalue : w.metadata body metadata = .ok value) (db : Db) (active : Bool)
    (messageId : String) :
    (∀ m, w.replay db messageId body value = .ok (some m) →
      ∃ p, w.prepareAsync db active messageId body metadata = .ok p ∧ p.existing = some m) ∧
    (∀ e, w.replay db messageId body value = .error e →
      w.prepareAsync db active messageId body metadata = .error e) := by
  unfold Writer.prepareAsync
  rw [hvalue]
  simp only [bind, Except.bind]
  constructor
  · intro m hreplay
    rw [hreplay]
    exact ⟨_, rfl, rfl⟩
  · intro e hreplay
    rw [hreplay]

/-! ### Exactly once -/

/-- A result that is a conflict. -/
def IsConflict {β : Type} (r : Except PyError β) : Prop :=
  ∃ e, r = .error e ∧ e.cls = .messageConflict

theorem messageRow_of_run {log log' : Log} (h : ledger.Reachable log) (hm : m.row ∈ log.db.messages)
    (hrun : ledger.Run log log') : log'.db.messageRow m.messageId = some m.row := by
  obtain ⟨messages, hledger⟩ := ledger_of_reachable h
  obtain ⟨messages', hledger'⟩ := ledger_of_reachable (h.run hrun)
  have hmem := (messages_prefix_of_run hrun hledger).subset hm
  rw [hledger'.rows] at hmem
  obtain ⟨x, hx, hrow⟩ := List.mem_map.mp hmem
  obtain rfl := Message.row_injective hrow
  exact hledger'.messageRow_eq hx

theorem messageRow_of_effects {log : Log} {tx : Tx} (h : ledger.Reachable log)
    (hm : m.row ∈ log.db.messages) (heffects : Effects (Tx.start log.db) tx) :
    tx.db.messageRow m.messageId = some m.row := by
  obtain ⟨messages, hledger⟩ := ledger_of_reachable h
  obtain ⟨appended, hledger'⟩ := Ledger.effects (t := Tx.start log.db) hledger heffects
  have hmem : m.row ∈ messages.map Message.row := hledger.rows ▸ hm
  obtain ⟨x, hx, hrow⟩ := List.mem_map.mp hmem
  obtain rfl := Message.row_injective hrow
  exact hledger'.messageRow_eq (List.mem_append_left _ hx)

/-- What every later append of a stored identity finds in a log, as long as its grant
holds: the stored message when the content is the same, and a conflict when it is not;
either way nothing changes. -/
structure ExactlyOnce (log : Log) (m : Message) : Prop where
  /-- `MessageWriter.append`. -/
  append : ∀ (w : Writer) env body expected metadata value,
    w.metadata body metadata = .ok value →
    (SameContent w body value m →
      (log.append w env m.messageId body expected metadata).1 = .ok m ∧
        log.Unchanged (log.append w env m.messageId body expected metadata).2) ∧
    (¬ SameContent w body value m →
      IsConflict (log.append w env m.messageId body expected metadata).1 ∧
        (log.append w env m.messageId body expected metadata).2 = log)
  /-- The commit of a prepared append, prepared at whatever time. -/
  commit : ∀ (p : PreparedAppend) env expected, p.messageId = m.messageId →
    (SameContent p.writer p.body p.metadata m →
      (log.commit p env expected).1 = .ok (m, false) ∧
        log.Unchanged (log.commit p env expected).2) ∧
    (¬ SameContent p.writer p.body p.metadata m →
      IsConflict (log.commit p env expected).1 ∧ (log.commit p env expected).2 = log)
  /-- `append_async` from a snapshot of the log, committed at any later log. -/
  appendAsync : ∀ (later : Log) (w : Writer) env body expected metadata value,
    w.metadata body metadata = .ok value →
    (SameContent w body value m →
      later.appendAsync log.db w env m.messageId body expected metadata = (.ok m, later)) ∧
    (¬ SameContent w body value m →
      IsConflict (later.appendAsync log.db w env m.messageId body expected metadata).1 ∧
        (later.appendAsync log.db w env m.messageId body expected metadata).2 = later)
  /-- `OwnerTransaction.append`, at any point of a transaction that has not failed. -/
  transaction : ∀ owner (t : OwnerTransaction), t.failed = false →
    Effects (Tx.start log.db) t.tx →
    ∀ (w : Writer) env body expected metadata value, w.metadata body metadata = .ok value →
    (SameContent w body value m →
      execute owner _ (.append true w env m.messageId body expected metadata) t = (.ok m, t)) ∧
    (¬ SameContent w body value m → ∃ e, e.cls = .messageConflict ∧
      execute owner _ (.append true w env m.messageId body expected metadata) t
        = (.error e, { t with failed := true }))
  /-- `OwnerTransaction.append_prepared`, likewise. -/
  transactionPrepared : ∀ owner (t : OwnerTransaction), t.failed = false →
    Effects (Tx.start log.db) t.tx →
    ∀ (p : PreparedAppend) env expected, p.messageId = m.messageId →
    (SameContent p.writer p.body p.metadata m →
      execute owner _ (.appendPrepared true p env expected) t = (.ok m, t)) ∧
    (¬ SameContent p.writer p.body p.metadata m → ∃ e, e.cls = .messageConflict ∧
      execute owner _ (.appendPrepared true p env expected) t
        = (.error e, { t with failed := true }))

theorem performOn_of_run {β : Type} {t : OwnerTransaction} {refusal : String}
    {operation : TxM β} (ht : t.failed = false) :
    (∀ b tx, operation.run t.tx = .ok b tx →
      t.performOn true refusal operation = (.ok b, { t with tx := tx })) ∧
    (∀ e tx, operation.run t.tx = .error e tx →
      t.performOn true refusal operation = (.error e, ⟨true, tx⟩)) := by
  unfold OwnerTransaction.performOn OwnerTransaction.perform
  constructor
  · intro b tx hrun
    simp [ht, hrun]
  · intro e tx hrun
    simp [ht, hrun]

/-- **Exactly-once append.** Once a message is stored in a reachable log, then whatever
happens to the log afterwards, every later append of its identity whose grant holds
returns the stored message and changes nothing when the session, author, source, body and
metadata are the same, and raises a conflict and changes nothing when one of them is
not. -/
theorem exactly_once {log log' : Log} {m : Message} (h : ledger.Reachable log)
    (hm : m.row ∈ log.db.messages) (hrun : ledger.Run log log') : ExactlyOnce log' m := by
  have hrow := messageRow_of_run h hm hrun
  have hstored : m.row ∈ log'.db.messages := List.mem_of_find?_eq_some hrow
  refine ⟨?_, ?_, ?_, ?_, ?_⟩
  · intro w env body expected metadata value hvalue
    obtain ⟨hsame, hdiff⟩ := replay_stored hrow w body value
    obtain ⟨hok, herror⟩ := run_append_of_replay hvalue (Tx.start log'.db)
    constructor
    · intro hcontent
      exact write_of_run.1 m (hok m (hsame hcontent))
    · intro hcontent
      obtain ⟨e, hcls, hreplay⟩ := hdiff hcontent
      have hwrite : log'.append w env m.messageId body expected metadata = (.error e, log') :=
        write_of_run.2 e _ (herror e hreplay)
      rw [hwrite]
      exact ⟨⟨e, rfl, hcls⟩, rfl⟩
  · intro p env expected hid
    obtain ⟨hsame, hdiff⟩ := replay_stored hrow p.writer p.body p.metadata
    rw [← hid] at hsame hdiff
    obtain ⟨hok, herror⟩ := run_appendPrepared_of_replay p env expected (Tx.start log'.db)
    constructor
    · intro hcontent
      exact write_of_run.1 (m, false) (hok m (hsame hcontent))
    · intro hcontent
      obtain ⟨e, hcls, hreplay⟩ := hdiff hcontent
      have hwrite : log'.commit p env expected = (.error e, log') :=
        write_of_run.2 e _ (herror e hreplay)
      rw [hwrite]
      exact ⟨⟨e, rfl, hcls⟩, rfl⟩
  · intro later w env body expected metadata value hvalue
    obtain ⟨hsame, hdiff⟩ := replay_stored hrow w body value
    obtain ⟨hok, herror⟩ := prepareAsync_of_replay hvalue log'.db env.active m.messageId
    constructor
    · intro hcontent
      obtain ⟨p, hp, hexisting⟩ := hok m (hsame hcontent)
      rw [Log.appendAsync, hp]
      dsimp only
      rw [hexisting]
    · intro hcontent
      obtain ⟨e, hcls, hreplay⟩ := hdiff hcontent
      rw [Log.appendAsync, herror e hreplay]
      exact ⟨⟨e, rfl, hcls⟩, rfl⟩
  · intro owner t ht heffects w env body expected metadata value hvalue
    have hrow' := messageRow_of_effects (h.run hrun) hstored heffects
    obtain ⟨hsame, hdiff⟩ := replay_stored hrow' w body value
    obtain ⟨hok, herror⟩ := run_append_of_replay hvalue t.tx
    constructor
    · intro hcontent
      exact (performOn_of_run ht).1 m t.tx (hok m (hsame hcontent))
    · intro hcontent
      obtain ⟨e, hcls, hreplay⟩ := hdiff hcontent
      exact ⟨e, hcls, (performOn_of_run ht).2 e t.tx (herror e hreplay)⟩
  · intro owner t ht heffects p env expected hid
    have hrow' := messageRow_of_effects (h.run hrun) hstored heffects
    obtain ⟨hsame, hdiff⟩ := replay_stored hrow' p.writer p.body p.metadata
    rw [← hid] at hsame hdiff
    obtain ⟨hok, herror⟩ := run_appendPrepared_of_replay p env expected t.tx
    constructor
    · intro hcontent
      refine (performOn_of_run ht).1 m t.tx ?_
      exact run_bind_eq_ok.mpr ⟨(m, false), t.tx, hok m (hsame hcontent), rfl⟩
    · intro hcontent
      obtain ⟨e, hcls, hreplay⟩ := hdiff hcontent
      refine ⟨e, hcls, (performOn_of_run ht).2 e t.tx ?_⟩
      exact run_bind_eq_error.mpr (.inl (herror e hreplay))

/-- The message of `firstLog`. -/
def firstMessage : Message where
  messageId := "input-1"
  sessionId := "session"
  seq := 0
  recordedAt := ⟨"2026-01-01T00:00:00+00:00"⟩
  author := "user"
  source := "chat"
  body := .input ⟨[]⟩
  metadata := .empty
  identity_ok := by decide
  control_ok := by rintro c ⟨⟩

/-- The stored message of `firstLog` is replayed, also by a writer that has expired and
whose expected source head has passed. -/
theorem exactly_once_firstMessage :
    (firstLog.append (inputWriter []) ⟨⟨"2026-01-02T00:00:00+00:00"⟩, false, false, []⟩
      "input-1" (.input ⟨[]⟩) (some (-1)) none).1 = .ok firstMessage := by
  have hinit : ledger.Reachable ⟨.fresh, .empty⟩ :=
    Transition.System.ReachableVia.init ⟨rfl, fun _ => rfl⟩
  have hstep : ledger.step ⟨.fresh, .empty⟩ firstInput firstLog := rfl
  have hstored : firstMessage.row ∈ firstLog.db.messages := List.mem_singleton_self _
  have honce := exactly_once (hinit.step trivial hstep) hstored (Transition.System.RunVia.refl _)
  exact ((honce.append _ _ _ _ _ Metadata.empty rfl).1 ⟨rfl, rfl, rfl, rfl, rfl⟩).1

/-- The log after one input with metadata. -/
def taggedLog : Log :=
  (Log.append ⟨.fresh, .empty⟩ (inputWriter ["tag"])
    ⟨⟨"2026-01-01T00:00:00+00:00"⟩, true, true, []⟩ "input-1" (.input ⟨[]⟩) none
    (some (.obj [("tag", .int 1)]))).2

/-- **A grant of the body type is not enough**: the same append by a writer of the same
session, author and source that is granted the body type, but not the metadata namespace,
is refused before the replay. -/
theorem replay_needs_metadata_grant :
    taggedLog.db.messages.length = 1 ∧
    (inputWriter []).bodyTypes.contains .input = true ∧
    (taggedLog.append (inputWriter []) ⟨⟨"2026-01-02T00:00:00+00:00"⟩, true, true, []⟩
      "input-1" (.input ⟨[]⟩) none (some (.obj [("tag", .int 1)]))).1
      = permissionError "writer 未获授这些 Message metadata 命名空间" :=
  ⟨rfl, rfl, rfl⟩

end Kirakira
