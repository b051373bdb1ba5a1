import Kirakira.Lib.Program
import Kirakira.Memory
import Kirakira.Writer

/-!
# Owner Transactions

`OwnerStore.transact` of `plugins/ledger/log.py`: a synchronous callback works through an
`OwnerTransaction` on its own records and on messages, and everything it did is committed
or nothing is. The callback is a `Program` over the operations of the transaction, so it
may look at every result and catch every exception.

An operation that raises inside `_perform` marks the transaction as failed, and a failed
transaction raises before it commits. The operations that take a capability of the log —
a writer, a prepared append, a reader — refuse one of another log before `_perform`
starts: nothing was written, and the transaction goes on.

## Main results

* `effects_of_invoke`, `records_of_effects` — what a run of a callback has appended, announced
  and left alone.
* `transact_atomic` — a transaction in which an operation failed inside `_perform`, or
  whose callback raised, raises and changes nothing; every other one commits all its
  effects and publishes exactly the messages it appended.
* `transact_foreign_swallowed` — a refused capability of another log does not fail the
  transaction.
-/

namespace Kirakira

open Exceptions

/-! ### Owner records -/

/-- `_save`. -/
def saveRecord (owner key : String) (value : Json) (expectedVersion : Option ℤ) (db : Db) :
    Except PyError (OwnerRecord × Db) :=
  if key = "" then valueError "状态 key 不能为空"
  else if expectedVersion.any (fun v => decide (v < 0)) = true then
    valueError "状态版本必须是非负整数或 None"
  else
    match freezeJson value with
    | .error e => .error e
    | .ok frozen =>
        if hm : isMapping frozen.json = true then
          match expectedVersion with
          | none =>
              if (db.ownerRecords.lookup (owner, key)).isSome = true then
                messageConflict "owner 记录版本已变化"
              else
                let record : OwnerRecord := ⟨0, frozen, hm⟩
                .ok (record, { db with
                  ownerRecords := db.ownerRecords.insert (owner, key) record })
          | some version =>
              match db.ownerRecords.lookup (owner, key) with
              | none => messageConflict "owner 记录版本已变化"
              | some old =>
                  if (old.version : ℤ) ≠ version then messageConflict "owner 记录版本已变化"
                  else
                    let record : OwnerRecord := ⟨old.version + 1, frozen, hm⟩
                    .ok (record, { db with
                      ownerRecords := db.ownerRecords.insert (owner, key) record })
        else typeError "owner 状态必须是 JSON 对象"

/-- `_delete`. -/
def deleteRecord (owner key : String) (expectedVersion : ℤ) (db : Db) : Except PyError Db :=
  if expectedVersion < 0 then valueError "状态版本必须是非负整数"
  else
    match db.ownerRecords.lookup (owner, key) with
    | none => messageConflict "owner 记录版本已变化"
    | some old =>
        if (old.version : ℤ) ≠ expectedVersion then messageConflict "owner 记录版本已变化"
        else .ok { db with ownerRecords := db.ownerRecords.erase (owner, key) }

variable {expected : Option ℤ} {owner : String} {record : OwnerRecord}

variable {key : String}

/-- A save that returns has written one record and nothing else. -/
theorem saveRecord_eq_ok {value : Json} {db db' : Db}
    (h : saveRecord owner key value expected db = .ok (record, db')) :
    freezeJson value = .ok record.value ∧
      (record.version : ℤ) = expected.elim 0 (· + 1) ∧
      (db.ownerRecords.lookup (owner, key)).map (fun r => (r.version : ℤ)) = expected ∧
      db' = { db with ownerRecords := db.ownerRecords.insert (owner, key) record } := by
  unfold saveRecord at h
  split at h
  · cases h
  split at h
  · cases h
  split at h
  · cases h
  next frozen hfrozen =>
    split at h
    · cases expected with
      | none =>
          dsimp only at h
          obtain ⟨-, ⟨⟩⟩ | ⟨hsome, h⟩ := ite_eq_iff.mp h
          cases h
          rw [Option.not_isSome_iff_eq_none] at hsome
          refine ⟨hfrozen, rfl, ?_, rfl⟩
          rw [hsome]
          rfl
      | some version =>
          dsimp only at h
          split at h
          · cases h
          · next old hold =>
              obtain ⟨-, ⟨⟩⟩ | ⟨hversion, h⟩ := ite_eq_iff.mp h
              cases h
              have hv : (old.version : ℤ) = version := not_not.mp hversion
              refine ⟨hfrozen, ?_, ?_, rfl⟩
              · simp only [Option.elim_some]
                omega
              · rw [hold, ← hv]
                rfl
    · cases h

theorem deleteRecord_eq_ok {expected : ℤ} {db db' : Db}
    (h : deleteRecord owner key expected db = .ok db') :
    (db.ownerRecords.lookup (owner, key)).isSome = true ∧
      db' = { db with ownerRecords := db.ownerRecords.erase (owner, key) } := by
  unfold deleteRecord at h
  split at h
  · cases h
  · split at h
    · cases h
    · next old hold =>
        split at h
        · cases h
        · exact ⟨by rw [hold]; rfl, (Except.ok.inj h).symm⟩

/-! ### Listings -/

/-- `OwnerStore.list`: the records of an owner, ordered by key. -/
def Db.listRecords (owner : String) (db : Db) : List (String × OwnerRecord) :=
  (db.ownerRecords.entries.filterMap fun entry =>
    if entry.1.1 = owner then some (entry.1.2, entry.2) else none).mergeSort
      fun a b => decide (a.1 ≤ b.1)

theorem mem_listRecords {db : Db} :
    (key, record) ∈ db.listRecords owner ↔
      db.ownerRecords.lookup (owner, key) = some record := by
  rw [Db.listRecords, List.mem_mergeSort, List.mem_filterMap]
  constructor
  · rintro ⟨entry, hentry, hsome⟩
    obtain ⟨howner, hsome⟩ | ⟨-, ⟨⟩⟩ := ite_eq_iff.mp hsome
    obtain ⟨rfl, rfl⟩ := Prod.mk.inj (Option.some.inj hsome)
    obtain rfl := howner
    exact AList.mem_lookup_iff.mpr hentry
  · intro h
    refine ⟨⟨(owner, key), record⟩, AList.mem_lookup_iff.mp h, ?_⟩
    rw [if_pos rfl]

theorem nodup_listRecords (owner : String) (db : Db) :
    ((db.listRecords owner).map Prod.fst).Nodup := by
  have hperm := (List.mergeSort_perm (db.ownerRecords.entries.filterMap fun entry =>
    if entry.1.1 = owner then some (entry.1.2, entry.2) else none)
      fun a b : String × OwnerRecord => decide (a.1 ≤ b.1)).map Prod.fst
  refine hperm.nodup_iff.mpr ?_
  have hkeys : (db.ownerRecords.entries.map Sigma.fst).Nodup := db.ownerRecords.nodupKeys
  generalize db.ownerRecords.entries = entries at hkeys ⊢
  induction entries with
  | nil => exact List.nodup_nil
  | cons entry entries ih =>
      obtain ⟨hfresh, hrest⟩ := List.nodup_cons.mp hkeys
      rw [List.filterMap_cons]
      split
      · exact ih hrest
      · next pair hpair =>
          obtain ⟨howner, hpair⟩ | ⟨-, ⟨⟩⟩ := ite_eq_iff.mp hpair
          obtain rfl := Option.some.inj hpair
          rw [List.map_cons, List.nodup_cons]
          refine ⟨fun hmem => hfresh ?_, ih hrest⟩
          obtain ⟨pair, hpair, hkey⟩ := List.mem_map.mp hmem
          obtain ⟨entry', hentry', hsome⟩ := List.mem_filterMap.mp hpair
          obtain ⟨howner', hsome⟩ | ⟨-, ⟨⟩⟩ := ite_eq_iff.mp hsome
          obtain rfl := Option.some.inj hsome
          exact List.mem_map.mpr
            ⟨entry', hentry', Prod.ext (howner'.trans howner.symm) hkey⟩

/-! ### Operations -/

/-- The operations of an `OwnerTransaction`. `ownLog` is whether the capability belongs to
the log of the transaction; `observe` is any other read the callback makes through a
reader of the log, which sees the transaction. -/
inductive TxOp : Type → Type 1 where
  | read (key : String) : TxOp (Option OwnerRecord)
  | save (key : String) (value : Json) (expectedVersion : Option ℤ) : TxOp OwnerRecord
  | delete (key : String) (expectedVersion : ℤ) : TxOp Unit
  | append (ownLog : Bool) (writer : Writer) (env : Ambient) (messageId : String) (body : Body)
      (expectedSourceHead : Option ℤ) (metadata : Option Json) : TxOp Message
  | appendPrepared (ownLog : Bool) (prepared : PreparedAppend) (env : Ambient)
      (expectedSourceHead : Option ℤ) : TxOp Message
  | sourceChanged (ownLog : Bool) (sessionId source : String) (throughSeq : ℤ) : TxOp Bool
  | observe {β : Type} (f : Db → β) : TxOp β

/-- A callback of `transact`. -/
abbrev Callback (α : Type) := Program TxOp PyError α

/-- The state of an `OwnerTransaction` that is still active. -/
structure OwnerTransaction where
  failed : Bool
  tx : Tx

/-- The exception of an operation on a failed transaction. -/
def mustRollBack : PyError :=
  ⟨.runtimeError, "存储 transaction 已失败，必须回滚"⟩

/-- `_perform`: an exception marks the transaction as failed. -/
def OwnerTransaction.perform {β : Type} (t : OwnerTransaction) (operation : TxM β) :
    Except PyError β × OwnerTransaction :=
  if t.failed = true then (.error mustRollBack, t)
  else
    match operation.run t.tx with
    | .ok b tx => (.ok b, { t with tx := tx })
    | .error e tx => (.error e, ⟨true, tx⟩)

/-- An operation on a capability of the log: one of another log is refused before
`_perform` starts. -/
def OwnerTransaction.performOn {β : Type} (t : OwnerTransaction) (ownLog : Bool)
    (refusal : String) (operation : TxM β) : Except PyError β × OwnerTransaction :=
  if t.failed = true then (.error mustRollBack, t)
  else if ownLog = false then (valueError refusal, t)
  else t.perform operation

/-- The operations of the transaction of an owner. -/
def execute (owner : String) : Handler TxOp PyError OwnerTransaction
  | _, .read key, t =>
      if t.failed = true then (.error mustRollBack, t)
      else (.ok (t.tx.db.ownerRecords.lookup (owner, key)), t)
  | _, .save key value expectedVersion, t => t.perform do
      let tx ← get
      let saved ← lift (saveRecord owner key value expectedVersion tx.db)
      modify fun tx => { tx with db := saved.2 }
      return saved.1
  | _, .delete key expectedVersion, t =>
      t.perform (statement (deleteRecord owner key expectedVersion))
  | _, .append ownLog writer env messageId body expectedSourceHead metadata, t =>
      t.performOn ownLog "原子提交不能跨存储 authority"
        (writer.append env messageId body expectedSourceHead metadata)
  | _, .appendPrepared ownLog prepared env expectedSourceHead, t =>
      t.performOn ownLog "原子提交不能跨存储 authority" do
        let appended ← prepared.append env expectedSourceHead
        return appended.1
  | _, .sourceChanged ownLog sessionId source throughSeq, t =>
      t.performOn ownLog "来源前提与 owner transaction 不属于同一 authority" do
        let tx ← get
        return tx.db.sourceChanged sessionId source throughSeq
  | _, .observe f, t => (.ok (f t.tx.db), t)

/-! ### The transaction -/

/-- The committed database and the memory of one `MessageLog`. -/
structure Log where
  db : Db
  memory : Memory

/-- `_merge_heads` of a committed transaction. -/
def Memory.merge (mem : Memory) (tx : Tx) : Memory :=
  mem.mergeHeads tx.notifyPending tx.pendingHeads tx.pendingMessages

/-- `_write`, without the wakeups: the callback runs in a transaction that is committed
and published when it returns and rolled back when it raises. -/
def Log.write {α : Type} (log : Log) (callback : Tx → Except PyError α × Tx) :
    Except PyError α × Log :=
  match callback (Tx.start log.db) with
  | (.ok a, tx) =>
      (.ok a, ⟨tx.db,
        log.memory.mergeHeads tx.notifyPending tx.pendingHeads tx.pendingMessages⟩)
  | (.error e, _) => (.error e, log)

/-- `invoke` of `transact`: the callback, and then the activity check. -/
def invoke {α : Type} (owner : String) (callback : Callback α) (tx : Tx) :
    Except PyError α × Tx :=
  match callback.run (execute owner) ⟨false, tx⟩ with
  | (.ok a, t) => if t.failed = true then (.error mustRollBack, t.tx) else (.ok a, t.tx)
  | (.error e, t) => (.error e, t.tx)

/-- `OwnerStore.transact`. -/
def transact {α : Type} (owner : String) (callback : Callback α) (log : Log) :
    Except PyError α × Log :=
  log.write (invoke owner callback)

/-! ### Operations that return -/

section Returned

variable {owner : String} {t t' : OwnerTransaction}

/-- `_perform` returns what its operation returned in a transaction that has not failed. -/
theorem perform_eq_ok {β : Type} {operation : TxM β} {b : β}
    (h : t.perform operation = (.ok b, t')) :
    t.failed = false ∧ ∃ tx, operation.run t.tx = .ok b tx ∧ t' = ⟨false, tx⟩ := by
  unfold OwnerTransaction.perform at h
  obtain ⟨-, ⟨⟩⟩ | ⟨hfailed, h⟩ := ite_eq_iff.mp h
  have hfailed := Bool.eq_false_iff.mpr hfailed
  refine ⟨hfailed, ?_⟩
  split at h
  · next b' tx hrun =>
      obtain ⟨hb, rfl⟩ := Prod.mk.inj h
      obtain rfl := Except.ok.inj hb
      exact ⟨tx, hrun, by rw [hfailed]⟩
  · cases h

theorem performOn_eq_ok {β : Type} {ownLog : Bool} {refusal : String} {operation : TxM β} {b : β}
    (h : t.performOn ownLog refusal operation = (.ok b, t')) :
    t.failed = false ∧ ∃ tx, operation.run t.tx = .ok b tx ∧ t' = ⟨false, tx⟩ := by
  unfold OwnerTransaction.performOn at h
  split at h
  · cases h
  · split at h
    · cases h
    · exact perform_eq_ok h

variable {key : String}

theorem execute_read_eq_ok {record : Option OwnerRecord}
    (h : execute owner _ (.read key) t = (.ok record, t')) :
    t.failed = false ∧ record = t.tx.db.ownerRecords.lookup (owner, key) ∧ t' = t := by
  rw [execute] at h
  obtain ⟨-, ⟨⟩⟩ | ⟨hfailed, h⟩ := ite_eq_iff.mp h
  obtain ⟨hrecord, rfl⟩ := Prod.mk.inj h
  exact ⟨Bool.eq_false_iff.mpr hfailed, (Except.ok.inj hrecord).symm, rfl⟩

theorem execute_save_eq_ok {value : Json}
    (h : execute owner _ (.save key value expected) t = (.ok record, t')) :
    ∃ db, saveRecord owner key value expected t.tx.db = .ok (record, db) ∧
      t' = ⟨false, { t.tx with db := db }⟩ := by
  obtain ⟨-, tx, hrun, rfl⟩ := perform_eq_ok h
  rw [run_get_bind] at hrun
  obtain ⟨⟨r, db⟩, hsaved, hrun⟩ := run_lift_bind_eq_ok.mp hrun
  cases hrun
  exact ⟨db, hsaved, rfl⟩

theorem execute_delete_eq_ok {expected : ℤ} {u : Unit}
    (h : execute owner _ (.delete key expected) t = (.ok u, t')) :
    (t.tx.db.ownerRecords.lookup (owner, key)).isSome = true ∧
      t' = ⟨false, { t.tx with db := { t.tx.db with
        ownerRecords := t.tx.db.ownerRecords.erase (owner, key) } }⟩ := by
  obtain ⟨-, tx, hrun, rfl⟩ := perform_eq_ok h
  obtain ⟨db, hdeleted, rfl⟩ := run_statement_eq_ok.mp hrun
  obtain ⟨hsome, hdb⟩ := deleteRecord_eq_ok hdeleted
  exact ⟨hsome, by rw [hdb]⟩

theorem execute_append_eq_ok {ownLog : Bool} {w : Writer} {env : Ambient} {messageId : String}
    {body : Body} {metadata : Option Json} {m : Message}
    (h : execute owner _ (.append ownLog w env messageId body expected metadata) t
      = (.ok m, t')) :
    ∃ value tx, w.metadata body metadata = .ok value ∧
      Appended w messageId body value expected t.tx m tx ∧ t' = ⟨false, tx⟩ := by
  obtain ⟨-, tx, hrun, rfl⟩ := performOn_eq_ok h
  obtain ⟨value, hvalue, happended⟩ := append_spec hrun
  exact ⟨value, tx, hvalue, happended, rfl⟩

theorem execute_sourceChanged_eq_ok {ownLog : Bool} {sessionId source : String}
    {throughSeq : ℤ} {b : Bool}
    (h : execute owner _ (.sourceChanged ownLog sessionId source throughSeq) t = (.ok b, t')) :
    b = t.tx.db.sourceChanged sessionId source throughSeq ∧ t' = t := by
  obtain ⟨hfailed, tx, hrun, rfl⟩ := performOn_eq_ok h
  cases hrun
  exact ⟨rfl, by rw [← hfailed]⟩

end Returned

variable {log : Log} {α : Type} {t : OwnerTransaction} {tx : Tx}

variable {callback : Callback α} {β : Type}

/-- A transaction that returns has committed what its callback left, which has not failed
it. -/
theorem transact_eq_ok {log' : Log} {a : α} (h : transact owner callback log = (.ok a, log')) :
    ∃ t, callback.run (execute owner) ⟨false, Tx.start log.db⟩ = (.ok a, t) ∧
      t.failed = false ∧ log'.db = t.tx.db := by
  unfold transact Log.write invoke at h
  rcases hrun : callback.run (execute owner) ⟨false, Tx.start log.db⟩ with ⟨r, t⟩
  rw [hrun] at h
  cases r with
  | error e => cases h
  | ok b =>
      cases ht : t.failed with
      | true =>
          dsimp only at h
          rw [ht] at h
          cases h
      | false =>
          dsimp only at h
          rw [ht] at h
          cases h
          exact ⟨t, rfl, ht, rfl⟩

theorem transact_eq_error {log' : Log} {e : PyError}
    (h : transact owner callback log = (.error e, log')) : log' = log := by
  unfold transact Log.write at h
  split at h
  · cases h
  · exact (Prod.mk.inj h).2.symm

theorem transact_of_run {a : α} (tx : Tx)
    (h : callback.run (execute owner) ⟨false, Tx.start log.db⟩ = (.ok a, ⟨false, tx⟩)) :
    ∃ log', transact owner callback log = (.ok a, log') ∧ log'.db = tx.db := by
  simp only [transact, Log.write, invoke, h, Bool.false_eq_true, if_false]
  exact ⟨_, rfl, rfl⟩

theorem transact_of_run_error {e : PyError}
    (h : callback.run (execute owner) ⟨false, Tx.start log.db⟩ = (.error e, t)) :
    transact owner callback log = (.error e, log) := by
  simp only [transact, Log.write, invoke, h]

theorem execute_read (owner key : String) (tx : Tx) :
    execute owner _ (.read key) ⟨false, tx⟩
      = (.ok (tx.db.ownerRecords.lookup (owner, key)), ⟨false, tx⟩) := rfl

theorem execute_save_of_ok {value : Json} {db : Db}
    (h : saveRecord owner key value expected tx.db = .ok (record, db)) :
    execute owner _ (.save key value expected) ⟨false, tx⟩
      = (.ok record, ⟨false, { tx with db := db }⟩) := by
  simp only [execute, OwnerTransaction.perform, Bool.false_eq_true, if_false, run_get_bind,
    run_lift_bind_of_ok h]
  rfl

/-! ### What operations do -/

/-- What one operation on a transaction that does not fail changes: the records of the
owner, or one message more. -/
inductive Effect : Tx → Tx → Prop where
  | records (tx : Tx) (ownerRecords : AList fun _ : String × String => OwnerRecord) :
      Effect tx { tx with db := { tx.db with ownerRecords := ownerRecords } }
  | inserted {w : Writer} {messageId : String} {prepared : PreparedMessage}
      {expected : Option ℤ} {tx tx' : Tx} {m : Message}
      (h : Inserted w messageId prepared expected tx m tx') : Effect tx tx'

/-- Any number of changes, one after the other. -/
abbrev Effects : Tx → Tx → Prop := Relation.ReflTransGen Effect

theorem effects_of_appended {w : Writer} {messageId : String} {body : Body} {metadata : Metadata}
    {tx' : Tx} {m : Message} (h : Appended w messageId body metadata expected tx m tx') :
    Effects tx tx' := by
  rcases h with ⟨-, rfl⟩ | ⟨-, prepared, -, -, hinserted⟩
  · exact .refl
  · exact .single (.inserted hinserted)

/-- One transaction state after another: failed states stay failed, and between states
that have not failed there are only effects. -/
def OwnerTransaction.Advances (t t' : OwnerTransaction) : Prop :=
  t'.failed = false → t.failed = false ∧ Effects t.tx t'.tx

theorem OwnerTransaction.Advances.refl (t : OwnerTransaction) : t.Advances t :=
  fun h => ⟨h, .refl⟩

theorem OwnerTransaction.Advances.trans {u v : OwnerTransaction} (h₁ : t.Advances u)
    (h₂ : u.Advances v) : t.Advances v := by
  intro hv
  obtain ⟨hu, heffects₂⟩ := h₂ hv
  obtain ⟨ht, heffects₁⟩ := h₁ hu
  exact ⟨ht, heffects₁.trans heffects₂⟩

theorem advances_perform {operation : TxM β}
    (h : ∀ b tx', operation.run t.tx = .ok b tx' → Effects t.tx tx') :
    t.Advances (t.perform operation).2 := by
  unfold OwnerTransaction.perform
  split
  · exact .refl t
  · split
    · next b tx hrun => exact fun hfailed => ⟨hfailed, h b tx hrun⟩
    · intro hfailed
      cases hfailed

theorem advances_performOn {ownLog : Bool} {refusal : String} {operation : TxM β}
    (h : ∀ b tx', operation.run t.tx = .ok b tx' → Effects t.tx tx') :
    t.Advances (t.performOn ownLog refusal operation).2 := by
  unfold OwnerTransaction.performOn
  split
  · exact .refl t
  · split
    · exact .refl t
    · exact advances_perform h

/-- **Every operation advances the transaction.** -/
theorem advances_execute (owner : String) (β : Type) (o : TxOp β) (t : OwnerTransaction) :
    t.Advances (execute owner β o t).2 := by
  cases o with
  | read key =>
      rw [execute]
      split <;> exact .refl t
  | save key value expected =>
      refine advances_perform fun record tx' hrun => ?_
      rw [run_get_bind] at hrun
      obtain ⟨⟨r, db⟩, hsaved, hrun⟩ := run_lift_bind_eq_ok.mp hrun
      obtain ⟨-, -, -, rfl⟩ := saveRecord_eq_ok hsaved
      cases hrun
      exact .single (.records _ _)
  | delete key expected =>
      refine advances_perform fun _ tx' hrun => ?_
      obtain ⟨db, hdeleted, rfl⟩ := run_statement_eq_ok.mp hrun
      rw [(deleteRecord_eq_ok hdeleted).2]
      exact .single (.records _ _)
  | append ownLog writer env messageId body expected metadata =>
      refine advances_performOn fun m tx' hrun => ?_
      obtain ⟨value, -, happended⟩ := append_spec hrun
      exact effects_of_appended happended
  | appendPrepared ownLog prepared env expected =>
      refine advances_performOn fun m tx' hrun => ?_
      obtain ⟨r, tx₁, hrun, hlast⟩ := run_bind_eq_ok.mp hrun
      cases hlast
      exact effects_of_appended (appendPrepared_spec hrun)
  | sourceChanged ownLog sessionId source throughSeq =>
      refine advances_performOn fun b tx' hrun => ?_
      cases hrun
      exact .refl
  | observe f => exact .refl t

/-- **So does every callback.** -/
theorem advances_run (owner : String) (callback : Callback α) (t : OwnerTransaction) :
    t.Advances (callback.run (execute owner) t).2 :=
  Program.run_relates OwnerTransaction.Advances.refl (fun _ _ _ => .trans)
    (advances_execute owner) callback t

theorem effects_of_invoke {tx' : Tx} {a : α} (h : invoke owner callback tx = (.ok a, tx')) :
    Effects tx tx' := by
  have hadvances := advances_run owner callback ⟨false, tx⟩
  unfold invoke at h
  rcases hrun : callback.run (execute owner) ⟨false, tx⟩ with ⟨r, t⟩
  rw [hrun] at h hadvances
  cases r with
  | error e => cases h
  | ok b =>
      dsimp only at h
      obtain ⟨-, ⟨⟩⟩ | ⟨hfailed, h⟩ := ite_eq_iff.mp h
      obtain ⟨-, rfl⟩ := Prod.mk.inj h
      exact (hadvances (Bool.eq_false_iff.mpr hfailed)).2

/-! ### What a run records -/

/-- The sequence number of the last message of a session. -/
def lastSeq (sessionId : String) (messages : List Message) : Option ℕ :=
  ((ofSession sessionId messages).getLast?).map Message.seq

/-- What effects that appended these messages have done to a transaction. -/
structure Records (tx tx' : Tx) (appended : List Message) : Prop where
  messages : tx'.db.messages = tx.db.messages ++ appended.map Message.row
  consecutive : ∀ s, ConsecutiveFrom (tx.db.nextSeq s) (ofSession s appended)
  nextSeq : ∀ s, tx'.db.nextSeq s = tx.db.nextSeq s + (ofSession s appended).length
  notifyPending : tx'.notifyPending.isSome = tx.notifyPending.isSome
  pendingHeads : ∀ s, tx'.pendingHeads.lookup s
    = (lastSeq s appended).or (tx.pendingHeads.lookup s)
  pendingMessages : tx'.pendingMessages = tx.pendingMessages ++ appended

theorem ofSession_append (s : String) (xs ys : List Message) :
    ofSession s (xs ++ ys) = ofSession s xs ++ ofSession s ys :=
  List.filter_append xs ys

theorem ofSession_singleton (s : String) (m : Message) :
    ofSession s [m] = if m.sessionId = s then [m] else [] := by
  by_cases h : m.sessionId = s <;> simp [ofSession, h]

theorem Records.inserted {tx₁ tx₂ : Tx} {appended : List Message} {w : Writer} {messageId : String}
    {prepared : PreparedMessage} {m : Message} (h : Records tx tx₁ appended)
    (hm : Inserted w messageId prepared expected tx₁ m tx₂) :
    Records tx tx₂ (appended ++ [m]) where
  messages := by
    rw [hm.messages, h.messages, List.map_append, List.append_assoc]
    rfl
  consecutive s := by
    rw [ofSession_append, ofSession_singleton]
    by_cases hs : m.sessionId = s
    · rw [if_pos hs]
      refine consecutiveFrom_append_singleton (h.consecutive s) ?_
      rw [hm.seq_eq, ← hm.sessionId_eq, hs]
      exact h.nextSeq s
    · rw [if_neg hs, List.append_nil]
      exact h.consecutive s
  nextSeq s := by
    rw [ofSession_append, ofSession_singleton, List.length_append]
    by_cases hs : m.sessionId = s
    · have hnext := h.nextSeq s
      have hself := hm.nextSeq_self
      have hseq := hm.seq_eq
      rw [← hm.sessionId_eq, hs] at hself hseq
      rw [if_pos hs, List.length_singleton]
      omega
    · rw [if_neg hs, List.length_nil, Nat.add_zero]
      rw [hm.nextSeq_other s (by rw [← hm.sessionId_eq]; exact Ne.symm hs)]
      exact h.nextSeq s
  notifyPending := by
    rw [hm.notifyPending, Option.isSome_map]
    exact h.notifyPending
  pendingHeads s := by
    rw [hm.pendingHeads, lastSeq, ofSession_append, ofSession_singleton]
    by_cases hs : m.sessionId = s
    · rw [if_pos hs, hs, AList.lookup_insert, List.getLast?_concat]
      rfl
    · rw [if_neg hs, List.append_nil, AList.lookup_insert_ne (Ne.symm hs)]
      exact h.pendingHeads s
  pendingMessages := by
    rw [hm.pendingMessages, h.pendingMessages, List.append_assoc]

/-- **What effects record.** -/
theorem records_of_effects {tx' : Tx} (h : Effects tx tx') :
    ∃ appended, Records tx tx' appended := by
  induction h with
  | refl =>
      refine ⟨[], ?_, fun s => consecutiveFrom_nil _, fun s => rfl, rfl, fun s => rfl, ?_⟩
      · rw [List.map_nil, List.append_nil]
      · rw [List.append_nil]
  | tail _ hlast ih =>
      obtain ⟨appended, hrecords⟩ := ih
      cases hlast with
      | records tx₁ ownerRecords =>
          exact ⟨appended, hrecords.messages, hrecords.consecutive, hrecords.nextSeq,
            hrecords.notifyPending, hrecords.pendingHeads, hrecords.pendingMessages⟩
      | inserted hm => exact ⟨appended ++ [_], hrecords.inserted hm⟩

/-! ### Atomicity -/

/-- What became of one operation of a callback. -/
structure Executed where
  /-- Whether it is a `save`, `delete`, `append`, `append_prepared` or `source_changed`. -/
  counts : Bool
  /-- Whether the capability it was given, if any, belongs to the log. -/
  ownLog : Bool
  error : Option PyError
  deriving DecidableEq

/-- Whether the operation is one of those that fail a transaction. -/
def TxOp.counts {β : Type} : TxOp β → Bool
  | .read _ | .observe _ => false
  | _ => true

/-- Whether the capability given to the operation, if any, belongs to the log. -/
def TxOp.ownLog {β : Type} : TxOp β → Bool
  | .append ownLog .. | .appendPrepared ownLog .. | .sourceChanged ownLog .. => ownLog
  | _ => true

/-- The exception of a result, if it is one. -/
def raised {β : Type} : Except PyError β → Option PyError
  | .ok _ => none
  | .error e => some e

/-- What became of the operations of a callback, in order. -/
def executed {α : Type} (owner : String) (callback : Callback α) (t : OwnerTransaction) :
    List Executed :=
  callback.trace (execute owner) (fun _ o r => ⟨o.counts, o.ownLog, raised r⟩) t

/-- Whether the operation failed inside `_perform`. -/
def Executed.failed (x : Executed) : Bool :=
  x.counts && x.ownLog && x.error.isSome

theorem failed_perform (t : OwnerTransaction) (operation : TxM β) :
    (t.perform operation).2.failed
      = (t.failed || (raised (t.perform operation).1).isSome) := by
  unfold OwnerTransaction.perform
  cases hfailed : t.failed with
  | true => simpa using hfailed
  | false =>
      rw [if_neg Bool.false_ne_true]
      split
      · simp [raised]
      · rfl

/-- An operation on a capability fails the transaction exactly when the capability is of
the log and it raises. -/
theorem failed_performOn (t : OwnerTransaction) (ownLog : Bool) (refusal : String)
    (operation : TxM β) : (t.performOn ownLog refusal operation).2.failed
      = (t.failed || (ownLog && (raised (t.performOn ownLog refusal operation).1).isSome)) := by
  unfold OwnerTransaction.performOn
  cases hfailed : t.failed with
  | true => simpa using hfailed
  | false =>
      rw [if_neg Bool.false_ne_true]
      cases ownLog with
      | false => simpa using hfailed
      | true =>
          rw [if_neg (by decide), failed_perform, hfailed, Bool.true_and]

/-- An operation fails the transaction exactly when it fails inside `_perform`. -/
theorem failed_execute (owner : String) (o : TxOp β) (t : OwnerTransaction) :
    (execute owner β o t).2.failed = (t.failed ||
      Executed.failed ⟨o.counts, o.ownLog, raised (execute owner β o t).1⟩) := by
  cases o with
  | read key =>
      rw [execute]
      split <;> simp [Executed.failed, TxOp.counts]
  | save key value expected =>
      rw [execute, failed_perform]
      simp [Executed.failed, TxOp.counts, TxOp.ownLog]
  | delete key expected =>
      rw [execute, failed_perform]
      simp [Executed.failed, TxOp.counts, TxOp.ownLog]
  | append ownLog writer env messageId body expected metadata =>
      rw [execute, failed_performOn]
      simp [Executed.failed, TxOp.counts, TxOp.ownLog]
  | appendPrepared ownLog prepared env expected =>
      rw [execute, failed_performOn]
      simp [Executed.failed, TxOp.counts, TxOp.ownLog]
  | sourceChanged ownLog sessionId source throughSeq =>
      rw [execute, failed_performOn]
      simp [Executed.failed, TxOp.counts, TxOp.ownLog]
  | observe f => simp [execute, Executed.failed, TxOp.counts]

/-- **A run fails the transaction exactly when one of its operations does.** -/
theorem failed_run (owner : String) (callback : Callback α) (t : OwnerTransaction) :
    (callback.run (execute owner) t).2.failed
      = (t.failed || (executed owner callback t).any Executed.failed) := by
  unfold executed
  induction callback generalizing t with
  | done a => simp [Program.run, Program.trace]
  | raise e => simp [Program.run, Program.trace]
  | call o k ih =>
      rw [Program.run, Program.trace, ih, failed_execute, List.any_cons, Bool.or_assoc]

/-- What a committed transaction has published to the memory of the log. -/
structure Published (log log' : Log) (appended : List Message) : Prop where
  messages : log'.db.messages = log.db.messages ++ appended.map Message.row
  heads : ∀ s, (log'.memory.heads.map fun heads => heads.lookup s)
    = log.memory.heads.map fun heads => headAfter (heads.lookup s) (lastSeq s appended)
  views : log'.memory.views = log.memory.views
  prefixes : ∀ i : ℕ, log'.memory.prefixes[i]? = (log.memory.prefixes[i]?).map fun p =>
    if log.memory.shares i p then
      { p with
        messages := p.messages ++ (ofSession p.sessionId appended).filter (fun m =>
          decide (log.db.nextSeq p.sessionId ≤ p.next) && decide (p.next ≤ m.seq)) }
    else p

theorem published_of_effects (h : Effects (Tx.start log.db) tx) :
    ∃ appended, Published log ⟨tx.db, log.memory.mergeHeads tx.notifyPending tx.pendingHeads
      tx.pendingMessages⟩ appended := by
  obtain ⟨appended, hrecords⟩ := records_of_effects h
  have hpending : tx.pendingMessages = appended := hrecords.pendingMessages
  obtain ⟨types, htypes⟩ := Option.isSome_iff_exists.mp hrecords.notifyPending
  have hnotify : tx.notifyPending = some types := htypes
  refine ⟨appended, hrecords.messages, fun s => ?_, ?_, fun i => ?_⟩
  · have hlookup := hrecords.pendingHeads s
    simp only [Tx.start, AList.lookup_empty, Option.or_none] at hlookup
    rw [hnotify, (mergeHeads_frame log.memory types tx.pendingHeads tx.pendingMessages).1,
      Option.map_map]
    congr 1
    funext heads
    rw [Function.comp_apply, lookup_mergeAll, hlookup]
  · rw [hnotify]
    exact (mergeHeads_frame log.memory types tx.pendingHeads tx.pendingMessages).2
  · rw [hpending]
    refine (prefixes_mergeHeads log.memory tx.notifyPending tx.pendingHeads appended i).trans ?_
    congr 1
    funext p
    by_cases hshares : log.memory.shares i p
    · rw [if_pos hshares, if_pos hshares]
      exact extendAll_messages (hrecords.consecutive p.sessionId) p
    · rw [if_neg hshares, if_neg hshares]

/-- The transaction a callback starts in. -/
def OwnerTransaction.start (log : Log) : OwnerTransaction :=
  ⟨false, Tx.start log.db⟩

/-- **Transaction atomicity.** When an operation failed inside `_perform`, even if the
callback caught the exception, or when the callback raised, `transact` raises and neither
the database nor the memory has changed. Otherwise it returns what the callback returned,
has committed the database as the callback left it, and has published to the heads and
the shared prefixes exactly the messages that were appended. -/
theorem transact_atomic {α : Type} (owner : String) (callback : Callback α) (log : Log) :
    ((executed owner callback (.start log)).any Executed.failed = true ∨
        (raised (callback.run (execute owner) (.start log)).1).isSome = true →
      (∃ e, (transact owner callback log).1 = .error e) ∧ (transact owner callback log).2 = log) ∧
    (¬ ((executed owner callback (.start log)).any Executed.failed = true ∨
        (raised (callback.run (execute owner) (.start log)).1).isSome = true) →
      (transact owner callback log).1 = (callback.run (execute owner) (.start log)).1 ∧
      (∃ a, (transact owner callback log).1 = .ok a) ∧
      (transact owner callback log).2.db
        = (callback.run (execute owner) (.start log)).2.tx.db ∧
      ∃ appended, Published log (transact owner callback log).2 appended) := by
  have hfailed := failed_run owner callback (.start log)
  have hadvances := advances_run owner callback (.start log)
  rw [OwnerTransaction.start] at hfailed hadvances ⊢
  rw [Bool.false_or] at hfailed
  rw [transact, Log.write, invoke, ← hfailed]
  rcases hrun : callback.run (execute owner) ⟨false, Tx.start log.db⟩ with ⟨r, t⟩
  rw [hrun] at hadvances
  cases r with
  | error e =>
      constructor
      · intro _
        exact ⟨⟨e, rfl⟩, rfl⟩
      · intro hnot
        exact absurd (.inr rfl) hnot
  | ok a =>
      cases ht : t.failed with
      | true =>
          constructor
          · intro _
            dsimp only
            rw [ht]
            exact ⟨⟨mustRollBack, rfl⟩, rfl⟩
          · intro hnot
            exact absurd (.inl rfl) hnot
      | false =>
          constructor
          · rintro (hfail | hraise)
            · cases hfail
            · cases hraise
          · intro _
            dsimp only
            rw [ht]
            exact ⟨rfl, ⟨a, rfl⟩, rfl, published_of_effects (hadvances ht).2⟩

/-- A writer that is granted nothing. -/
def Writer.ungranted (sessionId author source : String) : Writer where
  sessionId := sessionId
  author := author
  source := source
  bodyTypes := []
  content := fun _ => none
  callRef := none
  checkCall := none
  metadataKeys := []
  updateMetadata := none
  messageMetadataKeys := []
  checkMetadata := none

/-- A callback that saves a record, offers a writer of another log, catches the refusal
and returns. -/
def swallowsRefusal : Callback Unit :=
  .call (.save "key" (.obj []) none) fun _ =>
    .call (.append false (.ungranted "session" "author" "source") ⟨⟨"now"⟩, true, true, []⟩
      "message" (.input ⟨[]⟩) none none) fun _ => .done ()

/-- **A refused capability does not fail the transaction**: the append raises, the
callback swallows it, and the transaction returns and commits the saved record. -/
theorem transact_foreign_swallowed :
    (executed "owner" swallowsRefusal (.start ⟨.fresh, .empty⟩)).any
      (fun x => x.counts && x.error.isSome) = true ∧
    (transact "owner" swallowsRefusal ⟨.fresh, .empty⟩).1 = .ok () ∧
    ((transact "owner" swallowsRefusal ⟨.fresh, .empty⟩).2.db.ownerRecords.lookup
      ("owner", "key")).isSome = true :=
  ⟨rfl, rfl, rfl⟩

end Kirakira
