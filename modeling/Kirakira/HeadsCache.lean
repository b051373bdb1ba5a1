import Kirakira.Ledger
import Kirakira.Text

/-!
# The Cache of the Committed Heads

`MessageLog` keeps the heads of all sessions in `_heads`, once `committed_heads` has loaded them.
A commit of this process raises them in `_merge_heads`, or drops them when it changed more than
messages; what a load returns is taken only while nothing was merged since it began.

The cache is shared by two parties that do not wait for each other. A `_write` holds the writer
lock over its transaction and its `_merge_heads`, which are two steps here. A load runs in a worker:
it borrows a read-only connection, compares the version of the database with that of the heads the
connection has kept, and queries them otherwise. The rollback of a `_write` is no step at all, and
a commit that changed nothing counts as a version of its own: the query which then follows finds
what the connection had kept.

The columns of `sessions` that only session management looks at stand beside the tables of the
messages. What `ensure_session` reads before its transaction writes nothing and is left out.

## Main results

* `accounts_of_effects` — the heads a transaction announces are those it has changed.
* `shows_mergeAll` — merged heads are those of the committed database, whether they showed the
  database before the commit or after it.
* `headsStep_invariant` — every step keeps: cached and fresh heads show the database, up to the
  commit that is not merged yet.
* `heads_current` — **a present cache with nothing to merge is the catalog.**
-/

namespace Kirakira

open Exceptions Transition

/-! ### The catalog -/

/-- The heads of sessions; that of an empty session is `-1`. -/
abbrev Heads := AList fun _ : String => ℤ

/-- The head of one session in the catalog, if there is the session. -/
def Db.catalogHead (db : Db) (sessionId : String) : Option ℤ :=
  if (db.sessions.lookup sessionId).isSome then some (db.head sessionId) else none

theorem nodupKeys_catalog (db : Db) :
    (db.sessions.entries.map fun e =>
      (⟨e.1, db.head e.1⟩ : Sigma fun _ : String => ℤ)).NodupKeys :=
  List.NodupKeys.map₂ (fun s _ => db.head s) _ db.sessions.nodupKeys

/-- `snapshot_heads` without a filter. -/
def Db.catalogHeads (db : Db) : Heads where
  entries := db.sessions.entries.map fun e => ⟨e.1, db.head e.1⟩
  nodupKeys := nodupKeys_catalog db

/-- The heads show the database: they are those of its sessions. -/
def Shows (heads : Heads) (db : Db) : Prop :=
  ∀ s, heads.lookup s = db.catalogHead s

/-- **The catalog maps the existing sessions to their heads.** -/
theorem shows_catalogHeads (db : Db) : Shows db.catalogHeads db := by
  intro s
  have hmap : db.catalogHeads.lookup s = (db.sessions.lookup s).map fun _ => db.head s :=
    List.dlookup_map₂ (l := db.sessions.entries) (f := fun s (_ : SessionRow) => db.head s) s
  rw [hmap, Db.catalogHead]
  cases db.sessions.lookup s <;> rfl

/-! ### Sequence numbers -/

/-- The counters of the sessions are above their messages. -/
def SeqsBelow (db : Db) : Prop :=
  ∀ row ∈ db.messages, row.seq < db.nextSeq row.sessionKey

variable {db : Db}

theorem SeqsBelow.head_lt (h : SeqsBelow db) (s : String) : db.head s < db.nextSeq s := by
  rw [Db.head]
  cases hmax : db.maxSeq fun row => row.sessionKey = s with
  | none =>
      simp only [coalesceSeq]
      omega
  | some seq =>
      obtain ⟨row, hrow, rfl⟩ := List.mem_map.mp (List.max?_eq_some_iff.mp hmax).1
      obtain ⟨hmem, hkey⟩ := List.mem_filter.mp hrow
      have hlt := h row hmem
      rw [of_decide_eq_true hkey] at hlt
      simp only [coalesceSeq]
      omega

theorem head_congr {db' : Db} (h : db'.messages = db.messages) (s : String) :
    db'.head s = db.head s := by
  rw [Db.head, Db.head, Db.maxSeq, Db.maxSeq, h]

theorem head_append {db' : Db} (h : SeqsBelow db) {row : MessageRow}
    (hmessages : db'.messages = db.messages ++ [row]) (hseq : row.seq = db.nextSeq row.sessionKey)
    (s : String) : db'.head s = if row.sessionKey = s then (row.seq : ℤ) else db.head s := by
  rw [Db.head, Db.head, Db.maxSeq, Db.maxSeq, hmessages, List.filter_append]
  split
  · next hkey =>
      have hmax : (((db.messages.filter fun row => row.sessionKey = s) ++
          [row].filter fun row => row.sessionKey = s).map MessageRow.seq).max?
            = some row.seq := by
        rw [List.max?_eq_some_iff]
        refine ⟨by simp [hkey], fun seq hmem => ?_⟩
        obtain ⟨x, hx, rfl⟩ := List.mem_map.mp hmem
        rcases List.mem_append.mp hx with hold | hnew
        · obtain ⟨hold, hxs⟩ := List.mem_filter.mp hold
          have hlt := h x hold
          rw [of_decide_eq_true hxs, ← hkey] at hlt
          omega
        · obtain rfl := List.mem_singleton.mp (List.mem_filter.mp hnew).1
          exact le_refl _
      rw [hmax]
      rfl
  · next hkey =>
      have hnone : [row].filter (fun row => decide (row.sessionKey = s)) = [] := by
        simp [hkey]
      rw [hnone, List.append_nil]

/-! ### Transactions -/

/-- What a transaction will publish accounts for what it has changed: the heads it announces are
those of its sessions with new messages, and unless everybody is told, it has admitted no other
session. -/
structure Accounts (before : Db) (tx : Tx) : Prop where
  below : SeqsBelow tx.db
  heads : ∀ s, tx.db.head s = (tx.pendingHeads.lookup s).elim (before.head s) fun n => (n : ℤ)
  rising : ∀ s, before.head s ≤ tx.db.head s
  admitted : tx.notifyPending.isSome = true → ∀ s, (tx.db.sessions.lookup s).isSome
    = ((tx.pendingHeads.lookup s).isSome || (before.sessions.lookup s).isSome)

theorem accounts_start (h : SeqsBelow db) : Accounts db (Tx.start db) where
  below := h
  heads _ := rfl
  rising _ := le_refl _
  admitted _ _ := rfl

variable {before : Db}

/-- An insertion announces its number, which is above all others of its session. -/
theorem Accounts.inserted {tx tx' : Tx} {w : Writer} {messageId : String}
    {prepared : PreparedMessage} {expected : Option ℤ} {m : Message} (h : Accounts before tx)
    (hm : Inserted w messageId prepared expected tx m tx') : Accounts before tx' := by
  have hnext : m.row.seq = tx.db.nextSeq m.row.sessionKey := by
    rw [show m.row.sessionKey = w.sessionId from hm.sessionId_eq]
    exact hm.seq_eq
  have hhead : ∀ s, tx'.db.head s = if m.sessionId = s then (m.seq : ℤ) else tx.db.head s :=
    head_append h.below hm.messages hnext
  have hlt := h.below.head_lt
  refine ⟨fun row hrow => ?_, fun s => ?_, fun s => ?_, fun hsome s => ?_⟩
  · rw [hm.messages] at hrow
    by_cases hkey : row.sessionKey = w.sessionId
    · rw [hkey, hm.nextSeq_self]
      rcases List.mem_append.mp hrow with hold | hnew
      · have hrow := h.below row hold
        rw [hkey, ← hm.seq_eq] at hrow
        omega
      · obtain rfl := List.mem_singleton.mp hnew
        exact Nat.lt_succ_self _
    · rw [hm.nextSeq_other _ hkey]
      rcases List.mem_append.mp hrow with hold | hnew
      · exact h.below row hold
      · obtain rfl := List.mem_singleton.mp hnew
        exact absurd hm.sessionId_eq hkey
  · rw [hhead, hm.pendingHeads]
    by_cases hs : s = m.sessionId
    · subst hs
      rw [AList.lookup_insert]
      exact if_pos rfl
    · rw [AList.lookup_insert_ne hs, if_neg (Ne.symm hs)]
      exact h.heads s
  · refine le_trans (h.rising s) ?_
    rw [hhead]
    split
    · next hs =>
        have hlt := hlt s
        rw [← hs] at hlt ⊢
        have hseq : m.seq = tx.db.nextSeq m.sessionId := hnext
        omega
    · exact le_refl _
  · rw [hm.notifyPending, Option.isSome_map] at hsome
    rw [hm.admitted, h.admitted hsome, hm.pendingHeads, ← hm.sessionId_eq]
    by_cases hs : s = m.sessionId
    · subst hs
      simp
    · simp [hs, AList.lookup_insert_ne hs]

/-- **The heads a transaction announces are those it has changed.** -/
theorem accounts_of_effects {tx tx' : Tx} (h : Accounts before tx) (heffects : Effects tx tx') :
    Accounts before tx' := by
  induction heffects with
  | refl => exact h
  | tail _ hlast ih =>
      cases hlast with
      | records tx₁ ownerRecords => exact ⟨ih.below, ih.heads, ih.rising, ih.admitted⟩
      | inserted hm => exact ih.inserted hm

theorem Accounts.managed {tx : Tx} (h : Accounts before tx)
    (hmessages : db.messages = tx.db.messages) (hnext : ∀ s, db.nextSeq s = tx.db.nextSeq s) :
    Accounts before { tx with db := db, notifyPending := none } where
  below row hrow := by
    rw [hnext]
    exact h.below row (hmessages ▸ hrow)
  heads s := (head_congr hmessages s).trans (h.heads s)
  rising s := (h.rising s).trans (head_congr hmessages s).ge
  admitted hsome := absurd hsome Bool.false_ne_true

/-! ### Session management -/

/-- The values of `SessionAttributes.visibility`. -/
inductive Visibility where
  | listed
  | internal
  deriving DecidableEq, Repr

/-- The values of `SessionAttributes.learning`. -/
inductive Learning where
  | eligible
  | excluded
  deriving DecidableEq, Repr

/-- `SessionAttributes`: what is fixed when a session is admitted. -/
structure SessionAttributes where
  visibility : Visibility
  learning : Learning
  scope : List (String × String)
  deriving DecidableEq, Repr

/-- The columns of `sessions` that session management looks at. -/
structure SessionColumns where
  attributes : SessionAttributes
  title : Option String
  deletedAt : Option Instant
  deriving DecidableEq, Repr

/-- The columns of a session that no management has touched. -/
def SessionColumns.default : SessionColumns :=
  ⟨⟨.listed, .eligible, []⟩, none, none⟩

/-- All tables. -/
structure Tables where
  db : Db
  columns : AList fun _ : String => SessionColumns

/-- The state of a write transaction on all tables. -/
structure ManagedTx where
  tx : Tx
  columns : AList fun _ : String => SessionColumns

/-- The state a write transaction starts in. -/
def Tables.start (tables : Tables) : ManagedTx :=
  ⟨Tx.start tables.db, tables.columns⟩

/-- `_changed()`: session management tells everybody. -/
def Tx.managed (tx : Tx) : Tx :=
  { tx with notifyPending := none }

/-- `SELECT … FROM sessions WHERE key=?`. -/
def ManagedTx.session (t : ManagedTx) (sessionId : String) : Option SessionColumns :=
  if (t.tx.db.sessions.lookup sessionId).isSome then
    some ((t.columns.lookup sessionId).getD .default)
  else none

/-- `UPDATE sessions SET … WHERE key=?`, and `_changed()`. -/
def ManagedTx.update (t : ManagedTx) (sessionId : String) (row : SessionColumns) : ManagedTx :=
  ⟨t.tx.managed, t.columns.insert sessionId row⟩

/-- An owner initializer of `ensure_session`; `ownLog` is whether its store belongs to the log. -/
structure Initializer where
  ownLog : Bool
  owner : String
  callback : String → SessionAttributes → Callback Unit

/-- The initializers of a new session, one after the other in its transaction. -/
def runInitializers (sessionId : String) (current : SessionAttributes) :
    List Initializer → Tx → Except PyError Tx
  | [], tx => .ok tx
  | i :: rest, tx =>
      if i.ownLog = false then valueError "Session 初始化不能跨存储 authority"
      else
        match invoke i.owner (i.callback sessionId current) tx with
        | (.ok _, tx) => runInitializers sessionId current rest tx
        | (.error e, _) => .error e

/-- The state after a new session was admitted with its attributes. -/
def ManagedTx.accept (t : ManagedTx) (sessionId : String) (attributes : SessionAttributes)
    (stamp : Instant) : ManagedTx where
  tx := Tx.managed { t.tx with db := t.tx.db.admitSession sessionId stamp }
  columns := t.columns.insert sessionId ⟨attributes, none, none⟩

/-- `ensure_session`, from its transaction on. -/
def ManagedTx.ensureSession (t : ManagedTx) (sessionId : String) (attributes : SessionAttributes)
    (stamp : Instant) (initializers : List Initializer) :
    Except PyError (SessionAttributes × ManagedTx) :=
  if sessionId = "" then valueError "Session ID 不能为空"
  else
    match t.session sessionId with
    | some row =>
        if row.attributes = attributes then .ok (row.attributes, t)
        else messageConflict "同一 Session 的固定属性不能改变"
    | none => do
        let admitted := t.accept sessionId attributes stamp
        let tx ← runInitializers sessionId attributes initializers admitted.tx
        return (attributes, { admitted with tx := tx })

/-- `set_session_deleted`. -/
def ManagedTx.setSessionDeleted (t : ManagedTx) (sessionId : String) (deleted : Bool)
    (stamp : Instant) : Except PyError (Option Instant × ManagedTx) :=
  match t.session sessionId with
  | none => .error ⟨.keyError, sessionId⟩
  | some row =>
      match deleted, row.deletedAt with
      | false, none => .ok (none, t)
      | false, some _ => .ok (none, t.update sessionId { row with deletedAt := none })
      | true, some current => .ok (some current, t)
      | true, none => .ok (some stamp, t.update sessionId { row with deletedAt := some stamp })

/-- `_normalize_session_title`. -/
def normalizeSessionTitle (title : Option String) : Except PyError (Option String) :=
  let normalized := title.bind fun title => if strip title = "" then none else some (strip title)
  if normalized.any fun text => decide (200 < text.length) then
    valueError "会话标题不能超过 200 个字符"
  else .ok normalized

/-- `set_session_title`. -/
def ManagedTx.setSessionTitle (t : ManagedTx) (sessionId : String) (title : Option String) :
    Except PyError (Option String × ManagedTx) := do
  let normalized ← normalizeSessionTitle title
  match t.session sessionId with
  | none => .error ⟨.keyError, sessionId⟩
  | some row =>
      if row.title = normalized then return (normalized, t)
      else return (normalized, t.update sessionId { row with title := normalized })

/-- `set_session_title_if_unset`. -/
def ManagedTx.setSessionTitleIfUnset (t : ManagedTx) (sessionId title : String) :
    Except PyError (Bool × ManagedTx) := do
  match ← normalizeSessionTitle (some title) with
  | none => valueError "自动标题不能为空"
  | some normalized =>
      match t.session sessionId with
      | none => .error ⟨.keyError, sessionId⟩
      | some row =>
          if row.title = none ∧ row.deletedAt = none then
            return (true, t.update sessionId { row with title := some normalized })
          else return (false, t)

/-! ### Writes -/

/-- A call that goes through `_write`. -/
inductive WriteCall : Type 1 where
  | append (w : Writer) (env : Ambient) (messageId : String) (body : Body)
      (expectedSourceHead : Option ℤ) (metadata : Option Json)
  | commit (p : PreparedAppend) (env : Ambient) (expectedSourceHead : Option ℤ)
  | transact {α : Type} (owner : String) (callback : Callback α)
  | ensureSession (sessionId : String) (attributes : SessionAttributes) (stamp : Instant)
      (initializers : List Initializer)
  | setSessionDeleted (sessionId : String) (deleted : Bool) (stamp : Instant)
  | setSessionTitle (sessionId : String) (title : Option String)
  | setSessionTitleIfUnset (sessionId title : String)

/-- What code inside a transaction that returns leaves. -/
def ManagedTx.perform {α : Type} (t : ManagedTx) (callback : Tx → Except PyError α × Tx) :
    Except PyError ManagedTx :=
  match callback t.tx with
  | (.ok _, tx) => .ok { t with tx := tx }
  | (.error e, _) => .error e

/-- What the callback of the call leaves in the transaction it is run in. -/
def WriteCall.callback (t : ManagedTx) : WriteCall → Except PyError ManagedTx
  | .append w env messageId body expected metadata =>
      t.perform (TxM.callback (w.append env messageId body expected metadata))
  | .commit p env expected => t.perform (TxM.callback (p.append env expected))
  | .transact owner callback => t.perform (invoke owner callback)
  | .ensureSession sessionId attributes stamp initializers =>
      (t.ensureSession sessionId attributes stamp initializers).map Prod.snd
  | .setSessionDeleted sessionId deleted stamp =>
      (t.setSessionDeleted sessionId deleted stamp).map Prod.snd
  | .setSessionTitle sessionId title => (t.setSessionTitle sessionId title).map Prod.snd
  | .setSessionTitleIfUnset sessionId title =>
      (t.setSessionTitleIfUnset sessionId title).map Prod.snd

variable {t : ManagedTx}

theorem Accounts.update (h : Accounts before t.tx) (sessionId : String) (row : SessionColumns) :
    Accounts before (t.update sessionId row).tx :=
  h.managed rfl fun _ => rfl

theorem Accounts.runInitializers {sessionId : String} {current : SessionAttributes}
    {initializers : List Initializer} {tx tx' : Tx} (h : Accounts before tx)
    (hrun : runInitializers sessionId current initializers tx = .ok tx') : Accounts before tx' := by
  induction initializers generalizing tx with
  | nil =>
      obtain rfl := Except.ok.inj hrun
      exact h
  | cons i rest ih =>
      rw [Kirakira.runInitializers] at hrun
      split at hrun
      · cases hrun
      · split at hrun
        · next tx₁ hinvoke => exact ih (accounts_of_effects h (effects_of_invoke hinvoke)) hrun
        · cases hrun

theorem Accounts.perform {α : Type} {t' : ManagedTx} {callback : Tx → Except PyError α × Tx}
    (h : Accounts before t.tx) (hrun : t.perform callback = .ok t')
    (heffects : ∀ a tx, callback t.tx = (.ok a, tx) → Effects t.tx tx) : Accounts before t'.tx := by
  unfold ManagedTx.perform at hrun
  split at hrun
  · next a tx hcallback =>
      obtain rfl := Except.ok.inj hrun
      exact accounts_of_effects h (heffects a tx hcallback)
  · cases hrun

theorem Accounts.accept (h : Accounts before t.tx) (sessionId : String)
    (attributes : SessionAttributes) (stamp : Instant) :
    Accounts before (t.accept sessionId attributes stamp).tx := by
  obtain ⟨hframe, hnext, -⟩ := admitSession_spec t.tx.db sessionId stamp
  exact h.managed (by rw [hframe]) hnext

/-- **Every call accounts for what its transaction has changed.** -/
theorem Accounts.callback {t' : ManagedTx} (h : Accounts before t.tx) {call : WriteCall}
    (hcall : call.callback t = .ok t') : Accounts before t'.tx := by
  cases call with
  | append w env messageId body expected metadata =>
      refine h.perform hcall fun m tx hrun => ?_
      obtain ⟨value, -, happended⟩ := append_spec (callback_eq_ok hrun)
      exact effects_of_appended happended
  | commit p env expected =>
      exact h.perform hcall fun r tx hrun =>
        effects_of_appended (appendPrepared_spec (callback_eq_ok hrun))
  | transact owner callback => exact h.perform hcall fun a tx hrun => effects_of_invoke hrun
  | ensureSession sessionId attributes stamp initializers =>
      obtain ⟨⟨current, t₁⟩, hensure, rfl⟩ := map_eq_ok.mp hcall
      unfold ManagedTx.ensureSession at hensure
      split at hensure
      · cases hensure
      · split at hensure
        · split at hensure
          · cases hensure
            exact h
          · cases hensure
        · obtain ⟨tx, hrun, hlast⟩ := bind_eq_ok.mp hensure
          cases hlast
          exact (h.accept sessionId attributes stamp).runInitializers hrun
  | setSessionDeleted sessionId deleted stamp =>
      obtain ⟨⟨current, t₁⟩, hset, rfl⟩ := map_eq_ok.mp hcall
      unfold ManagedTx.setSessionDeleted at hset
      split at hset
      · cases hset
      · split at hset
        · cases hset
          exact h
        · cases hset
          exact h.update _ _
        · cases hset
          exact h
        · cases hset
          exact h.update _ _
  | setSessionTitle sessionId title =>
      obtain ⟨⟨current, t₁⟩, hset, rfl⟩ := map_eq_ok.mp hcall
      obtain ⟨normalized, -, hset⟩ := bind_eq_ok.mp hset
      split at hset
      · cases hset
      · split at hset
        · cases hset
          exact h
        · cases hset
          exact h.update _ _
  | setSessionTitleIfUnset sessionId title =>
      obtain ⟨⟨current, t₁⟩, hset, rfl⟩ := map_eq_ok.mp hcall
      obtain ⟨normalized, -, hset⟩ := bind_eq_ok.mp hset
      split at hset
      · cases hset
      · split at hset
        · cases hset
        · split at hset
          · cases hset
            exact h.update _ _
          · cases hset
            exact h

/-! ### Merging -/

/-- `if seq > self._heads.get(session_id, -1): self._heads[session_id] = seq`. -/
def mergeHeadsEntry (heads : Heads) (entry : Sigma fun _ : String => ℕ) : Heads :=
  if (heads.lookup entry.1).getD (-1) < (entry.2 : ℤ) then heads.insert entry.1 entry.2 else heads

/-- The loop of `_merge_heads` over the announced heads. -/
def Heads.mergeAll (heads : Heads) (pending : AList fun _ : String => ℕ) : Heads :=
  pending.entries.foldl mergeHeadsEntry heads

/-- The head of a session after an announcement. -/
def headMerged (old : Option ℤ) (new : Option ℕ) : Option ℤ :=
  match new with
  | none => old
  | some seq => some (max (old.getD (-1)) seq)

theorem lookup_mergeHeadsEntry (heads : Heads) (entry : Sigma fun _ : String => ℕ) (s : String) :
    (mergeHeadsEntry heads entry).lookup s
      = headMerged (heads.lookup s) (if s = entry.1 then some entry.2 else none) := by
  unfold mergeHeadsEntry
  by_cases hs : s = entry.1
  · subst hs
    rw [if_pos rfl]
    cases hold : heads.lookup entry.1 with
    | none =>
        have hlt : (-1 : ℤ) < entry.2 := by omega
        simp [headMerged, hlt]
    | some old =>
        by_cases hlt : old < entry.2
        · simp [headMerged, hlt, max_eq_right hlt.le]
        · simp [headMerged, hlt, hold, max_eq_left (Int.not_lt.mp hlt)]
  · rw [if_neg hs]
    split
    · exact AList.lookup_insert_ne hs
    · rfl

/-- **Every head becomes the maximum of itself and the announced one.** -/
theorem Heads.lookup_mergeAll (heads : Heads) (pending : AList fun _ : String => ℕ) (s : String) :
    (heads.mergeAll pending).lookup s = headMerged (heads.lookup s) (pending.lookup s) :=
  lookup_foldl_step (fun _ => rfl) lookup_mergeHeadsEntry pending.entries pending.nodupKeys heads s

/-- `_merge_heads` on the cached heads. -/
def mergedHeads (heads : Option Heads) (tx : Tx) : Option Heads :=
  match tx.notifyPending with
  | none => none
  | some _ => heads.map fun heads => heads.mergeAll tx.pendingHeads

/-- **Merged heads show the committed database**, whether they showed the one before the commit
or a load has already read the one after it. -/
theorem shows_mergeAll {tx : Tx} (h : Accounts before tx) (hquiet : tx.notifyPending.isSome = true)
    {heads : Heads} (hshows : Shows heads before ∨ Shows heads tx.db) :
    Shows (heads.mergeAll tx.pendingHeads) tx.db := by
  intro s
  have hhead := h.heads s
  have hadmitted := h.admitted hquiet s
  have hrising := h.rising s
  rw [Heads.lookup_mergeAll]
  cases hpending : tx.pendingHeads.lookup s with
  | none =>
      rw [hpending] at hhead hadmitted
      have hsame : tx.db.catalogHead s = before.catalogHead s := by
        rw [Db.catalogHead, Db.catalogHead, hadmitted, hhead]
        rfl
      rcases hshows with hbefore | hafter
      · exact (hbefore s).trans hsame.symm
      · exact hafter s
  | some n =>
      rw [hpending] at hhead hadmitted
      have hafter : tx.db.catalogHead s = some (n : ℤ) := by
        rw [Db.catalogHead, hadmitted, hhead]
        rfl
      have hle : (heads.lookup s).getD (-1) ≤ (n : ℤ) := by
        rcases hshows with hbefore | hcurrent
        · rw [hbefore s, Db.catalogHead]
          split
          · exact le_trans hrising hhead.le
          · simp
        · rw [hcurrent s, hafter]
          exact le_refl _
      rw [hafter, headMerged, max_eq_right hle]

/-! ### The machine -/

/-- What a read-only connection has kept: the version its heads belong to, and those of the catalog
without a filter. -/
structure ReadConnection where
  headsVersion : Option ℕ
  heads : Option Heads

/-- Where a call of `committed_heads` is: it has found no cache and noted the epoch, it has found
no heads on its connection, or it has loaded heads. -/
inductive Load where
  | idle
  | noted (epoch : ℕ)
  | missed (epoch connection : ℕ)
  | loaded (epoch : ℕ) (heads : Heads)

/-- The tables, how many commits they have seen, the cache and its epoch, the `_write` that is
committed and not merged with the database before it, and what the connections and the calls of
`committed_heads` hold. -/
structure HeadsState where
  tables : Tables
  commits : ℕ
  heads : Option Heads
  epoch : ℕ
  writing : Option (Db × Tx)
  connections : ℕ → ReadConnection
  loads : ℕ → Load

/-- What happens to the log and its cache. -/
inductive HeadsEvent : Type 1 where
  | write (call : WriteCall)
  | merge
  | saveBinding (bindingId : String)
  | begin (i : ℕ)
  | version (i connection : ℕ)
  | query (i : ℕ)
  | install (i : ℕ)
  | evict (connection : ℕ)
  | close (connection : ℕ)

/-- The transaction of `save_binding`, which `_merge_heads` is not told of. -/
def Db.saveBinding (db : Db) (bindingId : String) : Db :=
  if db.bindings.contains bindingId then db
  else { db with bindings := db.bindings ++ [bindingId] }

/-- The state after a connection was compared with the version of the database: it drops the heads
of another version. -/
def HeadsState.compare (st : HeadsState) (i connection epoch : ℕ) : HeadsState :=
  let kept := st.connections connection
  if kept.headsVersion = some st.commits then
    match kept.heads with
    | some heads => { st with loads := Function.update st.loads i (.loaded epoch heads) }
    | none => { st with loads := Function.update st.loads i (.missed epoch connection) }
  else
    { st with
      connections := Function.update st.connections connection ⟨some st.commits, none⟩
      loads := Function.update st.loads i (.missed epoch connection) }

/-- The state after an event, if the event is possible. -/
def HeadsState.after (st : HeadsState) : HeadsEvent → Option HeadsState
  | .write call =>
      match st.writing, call.callback st.tables.start with
      | some _, _ => none
      | none, .error _ => some st
      | none, .ok t => some { st with
          tables := ⟨t.tx.db, t.columns⟩
          commits := st.commits + 1
          writing := some (st.tables.db, t.tx) }
  | .merge => st.writing.map fun (_, tx) => { st with
      heads := mergedHeads st.heads tx
      epoch := st.epoch + 1
      writing := none }
  | .saveBinding bindingId =>
      if st.writing.isSome then none
      else some { st with
        tables := { st.tables with db := st.tables.db.saveBinding bindingId }
        commits := st.commits + 1 }
  | .begin i =>
      match st.loads i, st.heads with
      | .idle, none => some { st with loads := Function.update st.loads i (.noted st.epoch) }
      | .idle, some _ => some st
      | _, _ => none
  | .version i connection =>
      match st.loads i with
      | .noted epoch => some (st.compare i connection epoch)
      | _ => none
  | .query i =>
      match st.loads i with
      | .missed epoch connection => some { st with
          connections := Function.update st.connections connection
            { st.connections connection with heads := some st.tables.db.catalogHeads }
          loads := Function.update st.loads i (.loaded epoch st.tables.db.catalogHeads) }
      | _ => none
  | .install i =>
      match st.loads i with
      | .loaded epoch heads => some { st with
          heads := if st.heads.isNone ∧ st.epoch = epoch then some heads else st.heads
          loads := Function.update st.loads i .idle }
      | _ => none
  | .evict connection => some { st with
      connections := Function.update st.connections connection
        { st.connections connection with heads := none } }
  | .close connection => some { st with
      connections := Function.update st.connections connection ⟨none, none⟩ }

/-- The log with its cache, opened on a database whose counters are above its messages. -/
def headsCache : System HeadsState HeadsEvent where
  init st := SeqsBelow st.tables.db ∧ st.heads = none ∧ st.writing = none ∧
    (∀ c, st.connections c = ⟨none, none⟩) ∧ ∀ i, st.loads i = .idle
  step st event st' := st.after event = some st'

/-! ### The invariant -/

/-- The heads show the database, or the one before the commit that is not merged. -/
def HeadsState.Fresh (st : HeadsState) (heads : Heads) : Prop :=
  Shows heads st.tables.db ∨ ∃ before tx, st.writing = some (before, tx) ∧ Shows heads before

/-- The epoch a call of `committed_heads` has noted. -/
def Load.epoch? : Load → Option ℕ
  | .idle => none
  | .noted epoch | .missed epoch _ | .loaded epoch _ => some epoch

/-- What holds in every reachable state. -/
structure HeadsState.Inv (st : HeadsState) : Prop where
  below : SeqsBelow st.tables.db
  accounted : ∀ before tx, st.writing = some (before, tx) →
    Accounts before tx ∧ tx.db = st.tables.db
  cached : ∀ heads, st.heads = some heads → st.Fresh heads
  loaded : ∀ i heads, st.loads i = .loaded st.epoch heads → st.Fresh heads
  epochs : ∀ i epoch, (st.loads i).epoch? = some epoch → epoch ≤ st.epoch
  kept : ∀ c heads, (st.connections c).headsVersion = some st.commits →
    (st.connections c).heads = some heads → Shows heads st.tables.db
  versions : ∀ c v, (st.connections c).headsVersion = some v → v ≤ st.commits

variable {st : HeadsState}

theorem HeadsState.Fresh.shows {heads : Heads} (h : st.Fresh heads) (hidle : st.writing = none) :
    Shows heads st.tables.db := by
  rcases h with hshows | ⟨before, tx, hwriting, -⟩
  · exact hshows
  · rw [hidle] at hwriting
    cases hwriting

namespace HeadsState.Inv

variable {st st' : HeadsState}

/-- A call may go on with an epoch that is not to come, and with fresh heads if the epoch is the
present one. -/
theorem onLoad (h : st.Inv) (i : ℕ) (load : Load)
    (hepoch : ∀ epoch, load.epoch? = some epoch → epoch ≤ st.epoch)
    (hloaded : ∀ heads, load = .loaded st.epoch heads → st.Fresh heads) :
    HeadsState.Inv { st with loads := Function.update st.loads i load } where
  below := h.below
  accounted := h.accounted
  cached := h.cached
  loaded j heads hj := by
    by_cases hji : j = i
    · subst hji
      exact hloaded heads ((Function.update_self j load st.loads).symm.trans hj)
    · exact h.loaded j heads ((Function.update_of_ne hji load st.loads).symm.trans hj)
  epochs j epoch hj := by
    dsimp only at hj
    by_cases hji : j = i
    · subst hji
      rw [Function.update_self] at hj
      exact hepoch epoch hj
    · rw [Function.update_of_ne hji] at hj
      exact h.epochs j epoch hj
  kept := h.kept
  versions := h.versions

theorem onConnection (h : st.Inv) (c : ℕ) (kept : ReadConnection)
    (hkept : ∀ heads, kept.headsVersion = some st.commits → kept.heads = some heads →
      Shows heads st.tables.db)
    (hversion : ∀ v, kept.headsVersion = some v → v ≤ st.commits) :
    HeadsState.Inv { st with connections := Function.update st.connections c kept } where
  below := h.below
  accounted := h.accounted
  cached := h.cached
  loaded := h.loaded
  epochs := h.epochs
  kept d heads hv hheads := by
    dsimp only at hv hheads
    by_cases hdc : d = c
    · subst hdc
      rw [Function.update_self] at hv hheads
      exact hkept heads hv hheads
    · rw [Function.update_of_ne hdc] at hv hheads
      exact h.kept d heads hv hheads
  versions d v hv := by
    dsimp only at hv
    by_cases hdc : d = c
    · subst hdc
      rw [Function.update_self] at hv
      exact hversion v hv
    · rw [Function.update_of_ne hdc] at hv
      exact h.versions d v hv

theorem write (h : st.Inv) (hidle : st.writing = none) {call : WriteCall}
    (hcall : call.callback st.tables.start = .ok t) :
    HeadsState.Inv { st with
      tables := ⟨t.tx.db, t.columns⟩
      commits := st.commits + 1
      writing := some (st.tables.db, t.tx) } := by
  have haccounts : Accounts st.tables.db t.tx := (accounts_start h.below).callback hcall
  refine ⟨haccounts.below, fun before tx hwriting => ?_, fun heads hheads => ?_,
    fun i heads hload => ?_, h.epochs, fun c heads hv _ => ?_, fun c v hv => ?_⟩
  · obtain ⟨rfl, rfl⟩ := Prod.mk.inj (Option.some.inj hwriting)
    exact ⟨haccounts, rfl⟩
  · exact .inr ⟨_, _, rfl, (h.cached heads hheads).shows hidle⟩
  · exact .inr ⟨_, _, rfl, (h.loaded i heads hload).shows hidle⟩
  · exact absurd (h.versions c _ hv) (Nat.not_succ_le_self _)
  · exact (h.versions c v hv).trans (Nat.le_succ _)

/-- **Merging makes the cache show the database**, and outdates what is still being loaded. -/
theorem merge (h : st.Inv) {tx : Tx} (hwriting : st.writing = some (before, tx)) :
    HeadsState.Inv { st with
      heads := mergedHeads st.heads tx
      epoch := st.epoch + 1
      writing := none } := by
  obtain ⟨haccounts, hdb⟩ := h.accounted before tx hwriting
  refine ⟨h.below, fun _ _ hnone => absurd hnone.symm (Option.some_ne_none _),
    fun heads hheads => ?_, fun i heads hload => ?_,
    fun i epoch hepoch => (h.epochs i epoch hepoch).trans (Nat.le_succ _), h.kept, h.versions⟩
  · unfold mergedHeads at hheads
    split at hheads
    · cases hheads
    · next types htypes =>
        obtain ⟨old, hold, rfl⟩ := Option.map_eq_some_iff.mp hheads
        left
        rw [← hdb]
        refine shows_mergeAll haccounts (by rw [htypes]; rfl) ?_
        rcases h.cached old hold with hafter | ⟨before', tx', hwriting', hbefore⟩
        · exact .inr (hdb ▸ hafter)
        · rw [hwriting] at hwriting'
          obtain ⟨rfl, rfl⟩ := Prod.mk.inj (Option.some.inj hwriting')
          exact .inl hbefore
  · have hepoch : (st.loads i).epoch? = some (st.epoch + 1) := by
      rw [show st.loads i = .loaded (st.epoch + 1) heads from hload]
      rfl
    exact absurd (h.epochs i _ hepoch) (Nat.not_succ_le_self _)

theorem saveBinding (h : st.Inv) (hidle : st.writing = none) (bindingId : String) :
    HeadsState.Inv { st with
      tables := { st.tables with db := st.tables.db.saveBinding bindingId }
      commits := st.commits + 1 } := by
  have hframe : (st.tables.db.saveBinding bindingId) =
      { st.tables.db with bindings := (st.tables.db.saveBinding bindingId).bindings } := by
    unfold Db.saveBinding
    split <;> rfl
  rw [hframe]
  refine ⟨h.below, fun before tx hwriting => ?_, fun heads hheads => ?_, fun i heads hload => ?_,
    h.epochs, fun c heads hv _ => ?_, fun c v hv => ?_⟩
  · rw [show st.writing = some (before, tx) from hwriting] at hidle
    cases hidle
  · exact .inl ((h.cached heads hheads).shows hidle)
  · exact .inl ((h.loaded i heads hload).shows hidle)
  · exact absurd (h.versions c _ hv) (Nat.not_succ_le_self _)
  · exact (h.versions c v hv).trans (Nat.le_succ _)

theorem compare (h : st.Inv) (i connection : ℕ) {epoch : ℕ} (hepoch : epoch ≤ st.epoch) :
    (st.compare i connection epoch).Inv := by
  have hle : ∀ load : Load, load.epoch? = some epoch →
      ∀ e, load.epoch? = some e → e ≤ st.epoch := by
    intro load hload e he
    obtain rfl := Option.some.inj (hload.symm.trans he)
    exact hepoch
  unfold HeadsState.compare
  dsimp only
  split
  · next hversion =>
      split
      · next heads hheads =>
          refine h.onLoad i _ (hle _ rfl) fun heads' hload => ?_
          obtain ⟨-, rfl⟩ := Load.loaded.inj hload
          exact .inl (h.kept connection heads hversion hheads)
      · exact h.onLoad i _ (hle _ rfl) fun heads hload => by cases hload
  · have hconnection := h.onConnection connection ⟨some st.commits, none⟩
      (fun heads _ hheads => by cases hheads) fun v hv => (Option.some.inj hv).ge
    exact hconnection.onLoad i _ (hle _ rfl) fun heads hload => by cases hload

theorem query (h : st.Inv) (i : ℕ) {epoch connection : ℕ} (hepoch : epoch ≤ st.epoch) :
    HeadsState.Inv { st with
      connections := Function.update st.connections connection
        { st.connections connection with heads := some st.tables.db.catalogHeads }
      loads := Function.update st.loads i (.loaded epoch st.tables.db.catalogHeads) } := by
  have hconnection := h.onConnection connection
    { st.connections connection with heads := some st.tables.db.catalogHeads }
    (fun heads _ hheads => by
      obtain rfl := Option.some.inj hheads
      exact shows_catalogHeads _)
    fun v hv => h.versions connection v hv
  refine hconnection.onLoad i _ (fun e he => ?_) fun heads hload => ?_
  · obtain rfl := Option.some.inj he
    exact hepoch
  · obtain ⟨-, rfl⟩ := Load.loaded.inj hload
    exact .inl (shows_catalogHeads _)

theorem install (h : st.Inv) {i epoch : ℕ} {heads : Heads}
    (hload : st.loads i = .loaded epoch heads) :
    HeadsState.Inv { st with
      heads := if st.heads.isNone ∧ st.epoch = epoch then some heads else st.heads
      loads := Function.update st.loads i .idle } := by
  have hidle := h.onLoad i .idle (fun e he => by cases he) fun _ hload => by cases hload
  refine ⟨hidle.below, hidle.accounted, fun heads' hheads => ?_, hidle.loaded, hidle.epochs,
    hidle.kept, hidle.versions⟩
  dsimp only at hheads
  split at hheads
  · next htaken =>
      obtain rfl := Option.some.inj hheads
      exact h.loaded i heads (by rw [hload, htaken.2])
  · exact h.cached heads' hheads

end HeadsState.Inv

/-- **Every step keeps the invariant.** -/
theorem headsStep_invariant {st' : HeadsState} {event : HeadsEvent} (h : st.Inv)
    (hstep : st.after event = some st') : st'.Inv := by
  cases event with
  | write call =>
      rw [HeadsState.after] at hstep
      split at hstep
      · cases hstep
      · obtain rfl := Option.some.inj hstep
        exact h
      · next hidle hcall =>
          obtain rfl := Option.some.inj hstep
          exact h.write hidle hcall
  | merge =>
      obtain ⟨⟨before, tx⟩, hwriting, rfl⟩ := Option.map_eq_some_iff.mp hstep
      exact h.merge hwriting
  | saveBinding bindingId =>
      rw [HeadsState.after] at hstep
      obtain ⟨-, ⟨⟩⟩ | ⟨hidle, hstep⟩ := ite_eq_iff.mp hstep
      obtain rfl := Option.some.inj hstep
      exact h.saveBinding (Option.not_isSome_iff_eq_none.mp hidle) bindingId
  | begin i =>
      rw [HeadsState.after] at hstep
      split at hstep
      · obtain rfl := Option.some.inj hstep
        refine h.onLoad i (.noted st.epoch) (fun e he => ?_) fun heads hload => by cases hload
        exact (Option.some.inj he).ge
      · obtain rfl := Option.some.inj hstep
        exact h
      · cases hstep
  | version i connection =>
      rw [HeadsState.after] at hstep
      split at hstep
      · next epoch hload =>
          obtain rfl := Option.some.inj hstep
          exact h.compare i connection (h.epochs i epoch (by rw [hload]; rfl))
      · cases hstep
  | query i =>
      rw [HeadsState.after] at hstep
      split at hstep
      · next epoch connection hload =>
          obtain rfl := Option.some.inj hstep
          exact h.query i (h.epochs i epoch (by rw [hload]; rfl))
      · cases hstep
  | install i =>
      rw [HeadsState.after] at hstep
      split at hstep
      · next epoch heads hload =>
          obtain rfl := Option.some.inj hstep
          exact h.install hload
      · cases hstep
  | evict connection =>
      obtain rfl := Option.some.inj hstep
      exact h.onConnection connection _ (fun heads _ hheads => by cases hheads)
        fun v hv => h.versions connection v hv
  | close connection =>
      obtain rfl := Option.some.inj hstep
      exact h.onConnection connection _ (fun heads _ hheads => by cases hheads)
        fun v hv => by cases hv

theorem inv_of_init (h : headsCache.init st) : st.Inv := by
  obtain ⟨hbelow, hheads, hwriting, hconnections, hloads⟩ := h
  refine ⟨hbelow, fun before tx hw => ?_, fun heads hh => ?_, fun i heads hload => ?_,
    fun i epoch he => ?_, fun c heads _ hkept => ?_, fun c v hv => ?_⟩
  · rw [hwriting] at hw
    cases hw
  · rw [hheads] at hh
    cases hh
  · rw [hloads i] at hload
    cases hload
  · rw [hloads i] at he
    cases he
  · rw [hconnections c] at hkept
    cases hkept
  · rw [hconnections c] at hv
    cases hv

/-- **A present cache with nothing to merge is the catalog**: in every reachable state it maps the
sessions there are, and no others, to the highest sequence number of their messages, and to `-1`
where there are none, which is what `snapshot_heads` returns. -/
theorem heads_current {st : HeadsState} (h : headsCache.Reachable st) (hidle : st.writing = none)
    {heads : Heads} (hheads : st.heads = some heads) (s : String) :
    heads.lookup s = st.tables.db.catalogHeads.lookup s ∧
      heads.lookup s = if (st.tables.db.sessions.lookup s).isSome
        then some (coalesceSeq (st.tables.db.maxSeq fun row => row.sessionKey = s)) else none := by
  have hinv : st.Inv := h.invariant (fun _ => inv_of_init) fun _ _ _ hs _ hstep =>
    headsStep_invariant hs hstep
  have hshows := (hinv.cached heads hheads).shows hidle
  exact ⟨(hshows s).trans (shows_catalogHeads _ s).symm, hshows s⟩

/-- A log that has just been created. -/
def openedCache : HeadsState :=
  ⟨⟨.fresh, ∅⟩, 0, none, 0, none, fun _ => ⟨none, none⟩, fun _ => .idle⟩

/-- A load that a new session outdates, and one that reads a message before it is merged. -/
def racedLoads : List HeadsEvent :=
  [.begin 0, .version 0 0, .query 0,
    .write (.ensureSession "session" ⟨.listed, .eligible, []⟩ ⟨"2026-01-01T00:00:00+00:00"⟩ []),
    .merge, .install 0, .begin 0, .version 0 0,
    .write (.append (inputWriter []) ⟨⟨"2026-01-02T00:00:00+00:00"⟩, true, true, []⟩ "input-1"
      (.input ⟨[]⟩) none none),
    .query 0, .install 0, .merge]

/-- After the two loads the cache is the catalog. -/
theorem heads_current_racedLoads : ∃ st heads, racedLoads.foldlM HeadsState.after openedCache
      = some st ∧ st.heads = some heads ∧ heads.lookup "session" = some 0 ∧
    ∀ s, heads.lookup s = st.tables.db.catalogHeads.lookup s := by
  have hrun : (racedLoads.foldlM HeadsState.after openedCache).map (fun st =>
      (st.writing.isNone, st.heads.map fun heads => heads.lookup "session"))
        = some (true, some (some 0)) := by
    decide +kernel
  obtain ⟨st, hst, hread⟩ := Option.map_eq_some_iff.mp hrun
  obtain ⟨hidle, hheads⟩ := Prod.mk.inj hread
  obtain ⟨heads, hheads, hhead⟩ := Option.map_eq_some_iff.mp hheads
  have hinit : headsCache.init openedCache :=
    ⟨fun row hrow => (List.not_mem_nil hrow).elim, rfl, rfl, fun _ => rfl, fun _ => rfl⟩
  have hreach : headsCache.Reachable st :=
    ⟨_, hinit, System.RunVia.foldlM (fun _ _ _ hstep => hstep) (fun _ _ _ => trivial) hst⟩
  exact ⟨st, heads, hst, hheads, hhead, fun s =>
    (heads_current hreach (Option.isNone_iff_eq_none.mp hidle) hheads s).1⟩

end Kirakira
