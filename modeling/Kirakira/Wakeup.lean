import Kirakira.Ledger

/-!
# Wakeups of Followers

How a commit reaches the followers of `MessageCatalog.follow`, `MessageReader.follow` and
`MessageReader.follow_heads`. A `_write` commits in SQL, publishes the heads, and then
announces what it changed: a synchronous one calls `_notify`, an asynchronous one records
what is owed and leaves it to the `flush_notify` of its submitter, who resumes or is
cancelled. A `_notify` looks at one listener after the other, marks those it will wake as in
flight and hands their events to the loop, which delivers them. A follower clears its event,
reads the heads, from the cache, through the cache or from SQL, and waits.

The steps are those between which something else can happen. Locks only keep runs out, so
where a lock covers several steps it is left out, apart from the writer lock, which keeps a
second commit out until the first one is announced.

## Main results

* `announces_of_effects` — the heads a transaction announces cover what it appended.
* `wakeStep_invariant` — every step keeps: what a follower has not seen is on its way.
* `no_lost_wakeup` — a matching commit after the last read of a waiting follower is being
  announced, owed by a pending flush, in flight, or has set the event.
-/

namespace Kirakira

open Transition

/-! ### Announcements -/

/-- Whether `_notify` of the change concerns a listener: nothing to announce concerns
nobody, session management everybody. -/
def wakes (changed wakeOn : Option (List BodyType)) : Bool :=
  match changed with
  | none => true
  | some types => !types.isEmpty && wakeOn.all fun on => types.any fun t => on.contains t

/-- What an asynchronous `_write` adds to `_notify_owed`, a set of types. -/
def owe (owed changed : Option (List BodyType)) : Option (List BodyType) :=
  match changed with
  | none => none
  | some types => owed.map fun old => old ++ types

variable {wakeOn changed : Option (List BodyType)} {tx : Tx} {e : ℕ}

theorem wakes_some_iff {types : List BodyType} :
    wakes (some types) wakeOn = true ↔ ∃ t ∈ types, ∀ on, wakeOn = some on → t ∈ on := by
  cases wakeOn with
  | none =>
      cases types with
      | nil => simp [wakes]
      | cons t types => simp [wakes]
  | some on =>
      cases types with
      | nil => simp [wakes]
      | cons t types => simp [wakes]

theorem wakes_owe_left {owed : Option (List BodyType)} (h : wakes owed wakeOn = true) :
    wakes (owe owed changed) wakeOn = true := by
  cases changed with
  | none => rfl
  | some types =>
      cases owed with
      | none => rfl
      | some old =>
          obtain ⟨t, ht, hon⟩ := wakes_some_iff.mp h
          exact wakes_some_iff.mpr ⟨t, List.mem_append_left types ht, hon⟩

theorem wakes_owe_right {owed : Option (List BodyType)} (h : wakes changed wakeOn = true) :
    wakes (owe owed changed) wakeOn = true := by
  cases changed with
  | none => rfl
  | some types =>
      cases owed with
      | none => rfl
      | some old =>
          obtain ⟨t, ht, hon⟩ := wakes_some_iff.mp h
          exact wakes_some_iff.mpr ⟨t, List.mem_append_right old ht, hon⟩

/-! ### Heads -/

/-- `heads.get(session_id, -1)`. -/
def headOf (heads : AList fun _ : String => ℕ) (s : String) : ℤ :=
  coalesceSeq (heads.lookup s)

/-- The heads are not below any of the rows. -/
def Covers (heads : String → ℤ) (rows : List MessageRow) : Prop :=
  ∀ row ∈ rows, (row.seq : ℤ) ≤ heads row.sessionKey

/-- `snapshot_heads` without a filter; sessions without messages, whose head is `-1`, are
left out. -/
def Db.snapshotHeads (db : Db) : AList fun _ : String => ℕ :=
  db.messages.foldl (fun heads row => mergeHead heads ⟨row.sessionKey, row.seq⟩) ∅

theorem headOf_mergeHead (heads : AList fun _ : String => ℕ)
    (entry : Sigma fun _ : String => ℕ) (s : String) :
    headOf (mergeHead heads entry) s
      = if s = entry.1 then max (headOf heads s) entry.2 else headOf heads s := by
  rw [headOf, headOf, lookup_mergeHead]
  by_cases hs : s = entry.1
  · rw [if_pos hs, if_pos hs]
    cases heads.lookup s with
    | none => simp [headAfter, coalesceSeq]
    | some old =>
        change ((max old entry.2 : ℕ) : ℤ) = max (old : ℤ) entry.2
        omega
  · rw [if_neg hs, if_neg hs]
    rfl

theorem covers_foldl_mergeHead (rows : List MessageRow) (heads : AList fun _ : String => ℕ) :
    (∀ s, headOf heads s ≤ headOf (rows.foldl
      (fun heads row => mergeHead heads ⟨row.sessionKey, row.seq⟩) heads) s) ∧
    Covers (headOf (rows.foldl
      (fun heads row => mergeHead heads ⟨row.sessionKey, row.seq⟩) heads)) rows := by
  induction rows generalizing heads with
  | nil => exact ⟨fun _ => le_refl _, by simp [Covers]⟩
  | cons row rows ih =>
      obtain ⟨hmono, hcovers⟩ := ih (mergeHead heads ⟨row.sessionKey, row.seq⟩)
      have hstep := headOf_mergeHead heads ⟨row.sessionKey, row.seq⟩
      constructor
      · intro s
        refine le_trans ?_ (hmono s)
        rw [hstep]
        split
        · exact le_max_left _ _
        · exact le_refl _
      · intro x hx
        rcases List.mem_cons.mp hx with rfl | hrest
        · refine le_trans ?_ (hmono x.sessionKey)
          rw [hstep, if_pos rfl]
          exact le_max_right _ _
        · exact hcovers x hrest

/-- **The heads of a snapshot cover all its rows.** -/
theorem snapshotHeads_covers (db : Db) : Covers (headOf db.snapshotHeads) db.messages :=
  (covers_foldl_mergeHead db.messages ∅).2

theorem headOf_mergeAll (heads pending : AList fun _ : String => ℕ) (s : String) :
    headOf (mergeAll heads pending) s = max (headOf heads s) (headOf pending s) := by
  rw [headOf, headOf, headOf, lookup_mergeAll]
  cases hp : pending.lookup s with
  | none =>
      cases heads.lookup s <;> simp [headAfter, coalesceSeq]
  | some new =>
      cases heads.lookup s with
      | none => simp [headAfter, coalesceSeq]
      | some old =>
          change ((max old new : ℕ) : ℤ) = max (old : ℤ) new
          omega

/-! ### Transactions -/

/-- What a transaction from the database will publish. -/
structure Announces (db : Db) (tx : Tx) : Prop where
  kept : ∀ row ∈ db.messages, row ∈ tx.db.messages
  stored : ∀ m ∈ tx.pendingMessages, m.row ∈ tx.db.messages
  announced : ∀ row ∈ tx.db.messages,
    row ∈ db.messages ∨ (row.seq : ℤ) ≤ headOf tx.pendingHeads row.sessionKey
  below : ∀ s n, tx.pendingHeads.lookup s = some n → n < tx.db.nextSeq s
  typed : ∀ types, tx.notifyPending = some types → ∀ m ∈ tx.pendingMessages, m.body.type ∈ types

/-- **The heads a transaction announces cover what it appended.** One insertion announces its
own number, and it is above what was announced for its session before. -/
theorem Announces.inserted {db : Db} {tx' : Tx} {w : Writer} {messageId : String}
    {prepared : PreparedMessage} {expected : Option ℤ} {m : Message} (h : Announces db tx)
    (hm : Inserted w messageId prepared expected tx m tx') : Announces db tx' := by
  have hself : headOf tx'.pendingHeads m.sessionId = m.seq := by
    rw [headOf, hm.pendingHeads, AList.lookup_insert]
    rfl
  have hother : ∀ s, s ≠ m.sessionId → headOf tx'.pendingHeads s = headOf tx.pendingHeads s := by
    intro s hs
    rw [headOf, hm.pendingHeads, AList.lookup_insert_ne hs]
    rfl
  refine ⟨fun row hrow => ?_, fun x hx => ?_, fun row hrow => ?_, fun s n hn => ?_, ?_⟩
  · rw [hm.messages]
    exact List.mem_append_left _ (h.kept row hrow)
  · rw [hm.messages]
    rw [hm.pendingMessages] at hx
    rcases List.mem_append.mp hx with hold | hnew
    · exact List.mem_append_left _ (h.stored x hold)
    · obtain rfl := List.mem_singleton.mp hnew
      exact List.mem_append_right _ (List.mem_singleton_self _)
  · rw [hm.messages] at hrow
    rcases List.mem_append.mp hrow with hold | hnew
    · rcases h.announced row hold with hbefore | hle
      · exact .inl hbefore
      · right
        by_cases hs : row.sessionKey = m.sessionId
        · rw [hs] at hle ⊢
          rw [hself]
          refine le_trans hle ?_
          rw [headOf]
          cases hlookup : tx.pendingHeads.lookup m.sessionId with
          | none => simp [coalesceSeq]
          | some n =>
              have hlt := h.below m.sessionId n hlookup
              rw [hm.sessionId_eq, ← hm.seq_eq] at hlt
              simp only [coalesceSeq]
              omega
        · rw [hother row.sessionKey hs]
          exact hle
    · obtain rfl := List.mem_singleton.mp hnew
      exact .inr (le_of_eq hself.symm)
  · rw [hm.pendingHeads] at hn
    by_cases hs : s = m.sessionId
    · subst hs
      rw [AList.lookup_insert] at hn
      obtain rfl := Option.some.inj hn
      have hnext := hm.nextSeq_self
      rw [← hm.sessionId_eq] at hnext
      omega
    · rw [AList.lookup_insert_ne hs] at hn
      rw [hm.nextSeq_other s (by rw [← hm.sessionId_eq]; exact hs)]
      exact h.below s n hn
  · intro types htypes x hx
    rw [hm.notifyPending] at htypes
    obtain ⟨old, hold, rfl⟩ := Option.map_eq_some_iff.mp htypes
    rw [hm.pendingMessages] at hx
    rcases List.mem_append.mp hx with hbefore | hnew
    · exact List.mem_insert_of_mem (h.typed old hold x hbefore)
    · obtain rfl := List.mem_singleton.mp hnew
      exact List.mem_insert_self

theorem announces_of_effects {db : Db} {t t' : Tx} (h : Effects t t') (ht : Announces db t) :
    Announces db t' := by
  induction h with
  | refl => exact ht
  | tail _ hlast ih =>
      cases hlast with
      | records tx₁ ownerRecords => exact ⟨ih.kept, ih.stored, ih.announced, ih.below, ih.typed⟩
      | inserted hm => exact ih.inserted hm

/-! ### The machine -/

/-- Where a follower is in its loop. `read` is between `event.clear()` and the heads; `load`
has found no cached heads and noted their epoch; `store` has read them from SQL, after so
many commits; `wait` consumes what it yielded or waits for the event. -/
inductive Phase where
  | clear
  | read
  | load (epoch : ℕ)
  | store (epoch : ℕ) (heads : AList fun _ : String => ℕ) (through : ℕ)
  | wait
  | gone

/-- A follower and its event. `scope` are the sessions it looks at; `heads` are those it has
read last, and `seen` counts the commits they are known to show. -/
structure Follower where
  wakeOn : Option (List BodyType)
  scope : String → Bool
  isSet : Bool
  inFlight : Bool
  phase : Phase
  heads : String → ℤ
  seen : ℕ

/-- A call of `_notify`; `remaining` are the listeners it has not looked at, once it has
listed them. -/
structure NotifyCall where
  changed : Option (List BodyType)
  remaining : Option (List ℕ)

/-- Whether the call is still to look at the listener. -/
def NotifyCall.Ahead (call : NotifyCall) (e : ℕ) : Prop :=
  ∀ events, call.remaining = some events → e ∈ events

/-- The `_write` in progress. -/
inductive Writing where
  | idle
  | committed (before : Db) (tx : Tx) (deferred : Bool)
  | merged (tx : Tx) (deferred : Bool)

/-- A log, its commits so far, and everything that is on its way to a follower. Followers
are named by their place. -/
structure WakeState where
  db : Db
  memory : Memory
  commits : List Tx
  writing : Writing
  owed : Option (List BodyType)
  flushes : ℕ
  calls : List NotifyCall
  posting : List ℕ
  queued : List ℕ
  delivering : List ℕ
  followers : List Follower

/-- What happens to the log and its followers. -/
inductive WakeEvent where
  | commit (tx : Tx) (deferred : Bool)
  | merge
  | announce
  | flush
  | list (k : ℕ)
  | look (k : ℕ)
  | finish (k : ℕ)
  | post (e : ℕ)
  | discard (e : ℕ)
  | deliver (e : ℕ)
  | register (wakeOn : Option (List BodyType)) (scope : String → Bool)
  | clear (e : ℕ)
  | readCached (e : ℕ)
  | miss (e : ℕ)
  | load (e : ℕ)
  | store (e : ℕ)
  | readDirect (e : ℕ)
  | wake (e : ℕ)
  | timeout (e : ℕ)
  | close (e : ℕ)

/-- The database without the commit that is not published yet. -/
def WakeState.publishedDb (st : WakeState) : Db :=
  match st.writing with
  | .committed before _ _ => before
  | _ => st.db

/-- How many commits are published. -/
def WakeState.published (st : WakeState) : ℕ :=
  match st.writing with
  | .committed _ _ _ => st.commits.length - 1
  | _ => st.commits.length

/-- What a `_write` may have committed: a transaction, or session management, which may
append as well. -/
def Committable (db : Db) (tx : Tx) : Prop :=
  Effects (Tx.start db) tx ∨
    ∃ db₀, db.SameLog db₀ ∧ Effects { Tx.start db₀ with notifyPending := none } tx

/-- The state with one follower changed. -/
def WakeState.onFollower (st : WakeState) (e : ℕ) (g : Follower → Follower) : WakeState :=
  { st with followers := st.followers.modify e g }

/-- The heads a follower takes from what it has read. -/
def Follower.view (f : Follower) (heads : AList fun _ : String => ℕ) : String → ℤ :=
  fun s => if f.scope s then headOf heads s else -1

/-- Whether the follower is registered. -/
def Phase.registered : Phase → Bool
  | .gone => false
  | _ => true

/-- Whether `_notify` wakes the listener: it is registered for the change, its event is not
set, and no delivery is in flight. -/
def Follower.picks (f : Follower) (changed : Option (List BodyType)) : Bool :=
  f.phase.registered && wakes changed f.wakeOn && !f.isSet && !f.inFlight

/-- The state after a SQL commit. -/
def WakeState.committed (st : WakeState) (tx : Tx) (deferred : Bool) : WakeState :=
  { st with
    db := tx.db
    commits := st.commits ++ [tx]
    writing := .committed st.db tx deferred }

@[simp] theorem length_committed (st : WakeState) (tx : Tx) (deferred : Bool) :
    (st.committed tx deferred).commits.length = st.commits.length + 1 := by
  simp [WakeState.committed]

@[simp] theorem published_committed (st : WakeState) (tx : Tx) (deferred : Bool) :
    (st.committed tx deferred).published = st.commits.length := by
  simp [WakeState.committed, WakeState.published]

/-- The state after its heads are published. -/
def WakeState.merged (st : WakeState) (tx : Tx) (deferred : Bool) : WakeState :=
  { st with memory := st.memory.merge tx, writing := .merged tx deferred }

/-- The state after the `_write` has announced its change. Only a change that is not empty
is owed or notified. -/
def WakeState.announced (st : WakeState) (tx : Tx) (deferred : Bool) : WakeState :=
  if deferred then
    { st with
      writing := .idle
      owed := if tx.notifyPending = some [] then st.owed else owe st.owed tx.notifyPending
      flushes := st.flushes + 1 }
  else
    { st with
      writing := .idle
      calls := if tx.notifyPending = some [] then st.calls
        else st.calls ++ [⟨tx.notifyPending, none⟩] }

/-- `_notify` looks at one listener. -/
def WakeState.looked (st : WakeState) (k : ℕ) (changed : Option (List BodyType)) (e : ℕ)
    (rest : List ℕ) (f : Follower) : WakeState :=
  if f.picks changed = true then
    { st with
      calls := st.calls.set k ⟨changed, some rest⟩
      posting := st.posting ++ [e]
      followers := st.followers.modify e fun f => { f with inFlight := true } }
  else { st with calls := st.calls.set k ⟨changed, some rest⟩ }

/-- The memory after `committed_heads` has offered the heads it loaded: they are taken when
nothing was published in between. -/
def Memory.offer (mem : Memory) (epoch : ℕ) (heads : AList fun _ : String => ℕ) : Memory :=
  if mem.heads = none ∧ mem.headsEpoch = epoch then { mem with heads := some heads } else mem

/-- The steps. -/
def wakeStep (st : WakeState) : WakeEvent → WakeState → Prop
  | .commit tx deferred, st' => st.writing = .idle ∧ Committable st.db tx ∧
      st' = st.committed tx deferred
  | .merge, st' => ∃ before tx deferred, st.writing = .committed before tx deferred ∧
      st' = st.merged tx deferred
  | .announce, st' => ∃ tx deferred, st.writing = .merged tx deferred ∧
      st' = st.announced tx deferred
  | .flush, st' => ∃ n, st.flushes = n + 1 ∧
      st' = { st with flushes := n, owed := some [], calls := st.calls ++ [⟨st.owed, none⟩] }
  | .list k, st' => ∃ changed, st.calls[k]? = some ⟨changed, none⟩ ∧
      st' = { st with
        calls := st.calls.set k ⟨changed, some (List.range st.followers.length)⟩ }
  | .look k, st' => ∃ changed e rest f, st.calls[k]? = some ⟨changed, some (e :: rest)⟩ ∧
      st.followers[e]? = some f ∧ st' = st.looked k changed e rest f
  | .finish k, st' => ∃ changed, st.calls[k]? = some ⟨changed, some []⟩ ∧
      st' = { st with calls := st.calls.eraseIdx k }
  | .post e, st' => e ∈ st.posting ∧
      st' = { st with posting := st.posting.erase e, queued := st.queued ++ [e] }
  | .discard e, st' => e ∈ st.queued ∧
      st' = { st.onFollower e fun f => { f with inFlight := false } with
        queued := st.queued.erase e
        delivering := st.delivering ++ [e] }
  | .deliver e, st' => e ∈ st.delivering ∧
      st' = { st.onFollower e fun f => { f with isSet := true } with
        delivering := st.delivering.erase e }
  | .register wakeOn scope, st' =>
      st' = { st with followers := st.followers ++
        [⟨wakeOn, scope, false, false, .clear, fun _ => -1, 0⟩] }
  | .clear e, st' => ∃ f, st.followers[e]? = some f ∧ f.phase = .clear ∧
      st' = st.onFollower e fun f => { f with isSet := false, phase := .read }
  | .readCached e, st' => ∃ f heads, st.followers[e]? = some f ∧ f.phase = .read ∧
      st.memory.heads = some heads ∧
      st' = st.onFollower e fun f =>
        { f with phase := .wait, heads := f.view heads, seen := st.published }
  | .miss e, st' => ∃ f, st.followers[e]? = some f ∧ f.phase = .read ∧
      st.memory.heads = none ∧
      st' = st.onFollower e fun f => { f with phase := .load st.memory.headsEpoch }
  | .load e, st' => ∃ f epoch, st.followers[e]? = some f ∧ f.phase = .load epoch ∧
      st' = st.onFollower e fun f =>
        { f with phase := .store epoch st.db.snapshotHeads st.commits.length }
  | .store e, st' => ∃ f epoch heads through, st.followers[e]? = some f ∧
      f.phase = .store epoch heads through ∧
      st' = { st.onFollower e fun f =>
          { f with phase := .wait, heads := f.view heads, seen := through } with
        memory := st.memory.offer epoch heads }
  | .readDirect e, st' => ∃ f, st.followers[e]? = some f ∧ f.phase = .read ∧
      st' = st.onFollower e fun f =>
        { f with phase := .wait, heads := f.view st.db.snapshotHeads, seen := st.commits.length }
  | .wake e, st' => ∃ f, st.followers[e]? = some f ∧ f.phase = .wait ∧ f.isSet = true ∧
      st' = st.onFollower e fun f => { f with phase := .clear }
  | .timeout e, st' => ∃ f, st.followers[e]? = some f ∧ f.phase = .wait ∧
      st' = st.onFollower e fun f => { f with phase := .clear }
  | .close e, st' => ∃ f, st.followers[e]? = some f ∧
      st' = st.onFollower e fun f => { f with phase := .gone, inFlight := false }

/-- The machine, from any database, with nobody writing or following. -/
def wakeups : System WakeState WakeEvent where
  init st := ∃ db, st = ⟨db, .empty, [], .idle, some [], 0, [], [], [], [], []⟩
  step := wakeStep

/-! ### What is on its way -/

/-- A follower that has not seen the commit will look again: its event is set or will be, by
a delivery on its way, by a `_notify` that has not looked at it yet, by the pending flush of
what is owed, or because the `_write` has not announced the commit yet. -/
def Pending (st : WakeState) (e : ℕ) (f : Follower) (i : ℕ) : Prop :=
  f.isSet = true ∨ (e ∈ st.posting ∨ e ∈ st.queued ∨ e ∈ st.delivering) ∨
    (∃ call ∈ st.calls, wakes call.changed f.wakeOn = true ∧ call.Ahead e) ∨
    (wakes st.owed f.wakeOn = true ∧ 0 < st.flushes) ∨
    (st.writing ≠ .idle ∧ i + 1 = st.commits.length)

/-- What the follower has subscribed to and not seen is on its way. -/
def Noted (st : WakeState) (e : ℕ) (f : Follower) (seen : ℕ) : Prop :=
  ∀ (i : ℕ) (tx : Tx), st.commits[i]? = some tx → seen ≤ i →
    wakes tx.notifyPending f.wakeOn = true → Pending st e f i

/-- The heads show the messages of the first commits, in the sessions looked at. -/
def Shown (st : WakeState) (scope : String → Bool) (heads : String → ℤ) (seen : ℕ) : Prop :=
  seen ≤ st.commits.length ∧ ∀ (i : ℕ) (tx : Tx), st.commits[i]? = some tx → i < seen →
    ∀ m ∈ tx.pendingMessages, scope m.sessionId = true → (m.seq : ℤ) ≤ heads m.sessionId

/-- What holds of a follower, by its phase. -/
def FollowerOk (st : WakeState) (e : ℕ) (f : Follower) : Prop :=
  match f.phase with
  | .load epoch => epoch ≤ st.memory.headsEpoch
  | .store epoch heads through => epoch ≤ st.memory.headsEpoch ∧
      (epoch = st.memory.headsEpoch → Covers (headOf heads) st.publishedDb.messages) ∧
      Shown st (fun _ => true) (headOf heads) through ∧ Noted st e f through
  | .wait => Shown st f.scope f.heads f.seen ∧ Noted st e f f.seen
  | _ => True

/-- What holds of the `_write` in progress. -/
def WritingOk (st : WakeState) : Prop :=
  match st.writing with
  | .idle => True
  | .committed before tx _ => Announces before tx ∧ st.db = tx.db ∧
      st.commits.getLast? = some tx
  | .merged tx _ => st.commits.getLast? = some tx

/-- What holds in every reachable state. -/
structure WakeInvariant (st : WakeState) : Prop where
  writing : WritingOk st
  stored : ∀ tx ∈ st.commits, ∀ m ∈ tx.pendingMessages, m.row ∈ st.db.messages
  typed : ∀ tx ∈ st.commits, ∀ types, tx.notifyPending = some types →
    ∀ m ∈ tx.pendingMessages, m.body.type ∈ types
  shown : ∀ (i : ℕ) (tx : Tx), st.commits[i]? = some tx → i < st.published →
    ∀ m ∈ tx.pendingMessages, m.row ∈ st.publishedDb.messages
  cache : ∀ heads, st.memory.heads = some heads → Covers (headOf heads) st.publishedDb.messages
  owed : st.flushes = 0 → st.owed = some []
  flight : ∀ (e : ℕ) (f : Follower), st.followers[e]? = some f → f.inFlight = true →
    e ∈ st.posting ∨ e ∈ st.queued
  followers : ∀ (e : ℕ) (f : Follower), st.followers[e]? = some f → FollowerOk st e f

/-! ### Changes that keep the invariant -/

variable {f : Follower} {st st' : WakeState} {heads : AList fun _ : String => ℕ}

/-- A follower keeps what holds of it while commits and publications stand still and what
was on its way to it still is. -/
theorem FollowerOk.mono (h : FollowerOk st e f) (hcommits : st'.commits = st.commits)
    (hpublished : st'.publishedDb = st.publishedDb)
    (hepoch : st'.memory.headsEpoch = st.memory.headsEpoch)
    (hpending : f.phase.registered = true → ∀ (i : ℕ) (tx : Tx), st.commits[i]? = some tx →
      wakes tx.notifyPending f.wakeOn = true → Pending st e f i → Pending st' e f i) :
    FollowerOk st' e f := by
  have hnoted : f.phase.registered = true → ∀ seen, Noted st e f seen → Noted st' e f seen := by
    intro hregistered seen hn i tx htx hi hwakes
    rw [hcommits] at htx
    exact hpending hregistered i tx htx hwakes (hn i tx htx hi hwakes)
  have hshown : ∀ scope heads seen, Shown st scope heads seen → Shown st' scope heads seen := by
    rintro scope heads seen ⟨hle, hs⟩
    rw [Shown, hcommits]
    exact ⟨hle, hs⟩
  cases f with
  | mk wakeOn scope isSet inFlight phase heads seen =>
      cases phase with
      | load epoch =>
          change epoch ≤ _
          rw [hepoch]
          exact h
      | store epoch loaded through =>
          obtain ⟨hle, hcovers, hs, hn⟩ := h
          refine ⟨?_, ?_, hshown _ _ _ hs, hnoted rfl _ hn⟩
          · rw [hepoch]
            exact hle
          · rw [hepoch, hpublished]
            exact hcovers
      | wait => exact ⟨hshown _ _ _ h.1, hnoted rfl _ h.2⟩
      | clear | read | gone => trivial

theorem getElem?_onFollower {j : ℕ} {g : Follower → Follower} {f' : Follower}
    (h : (st.onFollower e g).followers[j]? = some f') :
    (∃ f, e = j ∧ st.followers[e]? = some f ∧ f' = g f) ∨
      (e ≠ j ∧ st.followers[j]? = some f') := by
  have hmodify : (st.followers.modify e g)[j]? = some f' := h
  rw [List.getElem?_modify] at hmodify
  obtain ⟨f, hf, hgf⟩ := Option.map_eq_some_iff.mp hmodify
  by_cases hej : e = j
  · rw [if_pos hej] at hgf
    rw [← hej] at hf
    exact .inl ⟨f, hej, hf, hgf.symm⟩
  · rw [if_neg hej] at hgf
    exact .inr ⟨hej, hf.trans (congrArg some hgf)⟩

theorem WakeInvariant.onFollower (h : WakeInvariant st) {g : Follower → Follower}
    (hflight : ∀ f, st.followers[e]? = some f → (g f).inFlight = true →
      e ∈ st.posting ∨ e ∈ st.queued)
    (hok : ∀ f, st.followers[e]? = some f → FollowerOk st e (g f)) :
    WakeInvariant (st.onFollower e g) := by
  refine ⟨h.writing, h.stored, h.typed, h.shown, h.cache, h.owed, ?_, ?_⟩
  · intro j f' hj hin
    rcases getElem?_onFollower hj with ⟨f, rfl, hf, rfl⟩ | ⟨-, hsame⟩
    · exact hflight f hf hin
    · exact h.flight j f' hsame hin
  · intro j f' hj
    rcases getElem?_onFollower hj with ⟨f, rfl, hf, rfl⟩ | ⟨-, hsame⟩
    · exact (hok f hf).mono rfl rfl rfl fun _ _ _ _ _ hp => hp
    · exact (h.followers j f' hsame).mono rfl rfl rfl fun _ _ _ _ _ hp => hp

theorem WakeInvariant.move (h : WakeInvariant st) (hst' : st' = { st with
      owed := st'.owed
      flushes := st'.flushes
      calls := st'.calls
      posting := st'.posting
      queued := st'.queued
      delivering := st'.delivering }) (howed : st'.flushes = 0 → st'.owed = some [])
    (hflight : ∀ (e : ℕ) (f : Follower), st.followers[e]? = some f → f.inFlight = true →
      e ∈ st'.posting ∨ e ∈ st'.queued)
    (hpending : ∀ (e : ℕ) (f : Follower), st.followers[e]? = some f →
      f.phase.registered = true → ∀ i, Pending st e f i → Pending st' e f i) :
    WakeInvariant st' := by
  rw [hst'] at hpending hflight howed ⊢
  exact ⟨h.writing, h.stored, h.typed, h.shown, h.cache, howed, hflight,
    fun e f hf => (h.followers e f hf).mono rfl rfl rfl fun hregistered i _ _ _ =>
      hpending e f hf hregistered i⟩

variable {k : ℕ} {deferred : Bool}

theorem exists_call_set {calls : List NotifyCall} {old new : NotifyCall} {P : NotifyCall → Prop}
    (hk : calls[k]? = some old) (h : ∃ call ∈ calls, P call) (hP : P old → P new) :
    ∃ call ∈ calls.set k new, P call := by
  obtain ⟨call, hmem, hcall⟩ := h
  obtain ⟨j, hj⟩ := List.mem_iff_getElem?.mp hmem
  by_cases hjk : k = j
  · subst hjk
    obtain rfl := Option.some.inj (hk.symm.trans hj)
    have hlt := (List.getElem?_eq_some_iff.mp hk).1
    exact ⟨new, List.mem_of_getElem? (List.getElem?_set_self hlt), hP hcall⟩
  · exact ⟨call, List.mem_of_getElem? ((List.getElem?_set_ne hjk).trans hj), hcall⟩

theorem exists_call_eraseIdx {calls : List NotifyCall} {old : NotifyCall} {P : NotifyCall → Prop}
    (hk : calls[k]? = some old) (h : ∃ call ∈ calls, P call) (hP : ¬ P old) :
    ∃ call ∈ calls.eraseIdx k, P call := by
  obtain ⟨call, hmem, hcall⟩ := h
  obtain ⟨j, hj⟩ := List.mem_iff_getElem?.mp hmem
  refine ⟨call, List.mem_eraseIdx_iff_getElem?.mpr ⟨j, ?_, hj⟩, hcall⟩
  rintro rfl
  obtain rfl := Option.some.inj (hk.symm.trans hj)
  exact hP hcall

/-! ### The steps of a `_write` -/

theorem Committable.announces {db : Db} (h : Committable db tx) : Announces db tx := by
  rcases h with heffects | ⟨db₀, hsame, heffects⟩
  · refine announces_of_effects heffects ⟨fun _ hrow => hrow, ?_, fun _ hrow => .inl hrow, ?_, ?_⟩
    · intro m hm
      cases hm
    · intro s n hn
      cases hn
    · intro types _ m hm
      cases hm
  · have hmessages := hsame.messages
    refine announces_of_effects heffects ⟨?_, ?_, ?_, ?_, ?_⟩
    · intro row hrow
      exact hmessages.symm ▸ hrow
    · intro m hm
      cases hm
    · intro row hrow
      exact .inl (hmessages ▸ hrow)
    · intro s n hn
      cases hn
    · intro types _ m hm
      cases hm

theorem Shown.append {scope : String → Bool} {heads : String → ℤ} {seen : ℕ}
    (h : Shown st scope heads seen) (hcommits : st'.commits = st.commits ++ [tx]) :
    Shown st' scope heads seen := by
  obtain ⟨hle, hs⟩ := h
  refine ⟨?_, fun i tx' htx hi => ?_⟩
  · rw [hcommits, List.length_append]
    omega
  · rw [hcommits, List.getElem?_append_left (by omega)] at htx
    exact hs i tx' htx hi

/-- **A commit** is not announced yet, and everything else is as it was. -/
theorem invariant_commit (h : WakeInvariant st) (hidle : st.writing = .idle)
    (hann : Announces st.db tx) : WakeInvariant (st.committed tx deferred) := by
  have hpublished : st.publishedDb = st.db := by rw [WakeState.publishedDb, hidle]
  refine ⟨⟨hann, rfl, List.getLast?_concat⟩, ?_, ?_, ?_, ?_, h.owed, h.flight, ?_⟩
  · intro tx' htx' m hm
    rcases List.mem_append.mp htx' with hold | hnew
    · exact hann.kept _ (h.stored tx' hold m hm)
    · obtain rfl := List.mem_singleton.mp hnew
      exact hann.stored m hm
  · intro tx' htx'
    rcases List.mem_append.mp htx' with hold | hnew
    · exact h.typed tx' hold
    · obtain rfl := List.mem_singleton.mp hnew
      exact hann.typed
  · intro i tx' htx' hi m hm
    have hlt : i < st.commits.length := by
      rw [published_committed] at hi
      exact hi
    have hsome : st.commits[i]? = some tx' := (List.getElem?_append_left hlt).symm.trans htx'
    exact h.stored tx' (List.mem_of_getElem? hsome) m hm
  · intro heads hheads
    have hcovers := h.cache heads hheads
    rw [hpublished] at hcovers
    exact hcovers
  · intro e f hf
    have hok := h.followers e f hf
    have hnoted : ∀ seen, Noted st e f seen → Noted (st.committed tx deferred) e f seen := by
      intro seen hn i tx' htx' hi hwakes
      by_cases hlt : i < st.commits.length
      · have hsome : st.commits[i]? = some tx' :=
          (List.getElem?_append_left hlt).symm.trans htx'
        rcases hn i tx' hsome hi hwakes with hset | hflight | hcall | howed | ⟨hbusy, -⟩
        · exact .inl hset
        · exact .inr (.inl hflight)
        · exact .inr (.inr (.inl hcall))
        · exact .inr (.inr (.inr (.inl howed)))
        · exact absurd hidle hbusy
      · have hlen := (List.getElem?_eq_some_iff.mp htx').1
        rw [length_committed] at hlen
        have hbusy : (st.committed tx deferred).writing ≠ .idle := by simp [WakeState.committed]
        refine .inr (.inr (.inr (.inr ⟨hbusy, ?_⟩)))
        rw [length_committed]
        omega
    cases f with
    | mk wakeOn scope isSet inFlight phase heads seen =>
        cases phase with
        | load epoch => exact hok
        | store epoch loaded through =>
            obtain ⟨hle, hcovers, hs, hn⟩ := hok
            rw [hpublished] at hcovers
            exact ⟨hle, hcovers, hs.append rfl, hnoted _ hn⟩
        | wait => exact ⟨hok.1.append rfl, hnoted _ hok.2⟩
        | clear | read | gone => trivial

theorem merge_heads (mem : Memory) (tx : Tx) :
    (mem.merge tx).headsEpoch = mem.headsEpoch + 1 ∧
      ∀ heads, (mem.merge tx).heads = some heads →
        ∃ old, mem.heads = some old ∧ heads = mergeAll old tx.pendingHeads := by
  obtain ⟨hheads, hepoch, -⟩ := extendAll_frame
    { mem with
      headsEpoch := mem.headsEpoch + 1
      heads := match tx.notifyPending with
        | none => none
        | some _ => mem.heads.map fun heads => mergeAll heads tx.pendingHeads }
    tx.pendingMessages
  refine ⟨hepoch, fun heads hsome => ?_⟩
  have hmatch := hheads.symm.trans hsome
  cases hnotify : tx.notifyPending with
  | none => simp [hnotify] at hmatch
  | some types =>
      simp only [hnotify] at hmatch
      obtain ⟨old, hold, rfl⟩ := Option.map_eq_some_iff.mp hmatch
      exact ⟨old, hold, rfl⟩

/-- **A publication** raises the cached heads to the commit, or drops them. -/
theorem invariant_merge (h : WakeInvariant st) {before : Db}
    (hwriting : st.writing = .committed before tx deferred) :
    WakeInvariant (st.merged tx deferred) := by
  have hok := h.writing
  rw [WritingOk, hwriting] at hok
  obtain ⟨hann, hdb, hlast⟩ := hok
  have hpublished : st.publishedDb = before := by rw [WakeState.publishedDb, hwriting]
  obtain ⟨hepoch, hheads⟩ := merge_heads st.memory tx
  refine ⟨hlast, h.stored, h.typed, ?_, ?_, h.owed, h.flight, ?_⟩
  · intro i tx' htx' _ m hm
    exact h.stored tx' (List.mem_of_getElem? htx') m hm
  · intro heads hsome row hrow
    obtain ⟨old, hold, rfl⟩ := hheads heads hsome
    have hcovers := h.cache old hold
    rw [hpublished] at hcovers
    have hmem : row ∈ tx.db.messages := hdb ▸ hrow
    rw [headOf_mergeAll]
    rcases hann.announced row hmem with hbefore | hle
    · exact le_trans (hcovers row hbefore) (le_max_left _ _)
    · exact le_trans hle (le_max_right _ _)
  · intro e f hf
    have hfollower := h.followers e f hf
    have hnoted : ∀ seen, Noted st e f seen → Noted (st.merged tx deferred) e f seen := by
      intro seen hn i tx' htx' hi hwakes
      rcases hn i tx' htx' hi hwakes with hset | hflight | hcall | howed | ⟨-, hlen⟩
      · exact .inl hset
      · exact .inr (.inl hflight)
      · exact .inr (.inr (.inl hcall))
      · exact .inr (.inr (.inr (.inl howed)))
      · have hbusy : (st.merged tx deferred).writing ≠ .idle := by simp [WakeState.merged]
        exact .inr (.inr (.inr (.inr ⟨hbusy, hlen⟩)))
    cases f with
    | mk wakeOn scope isSet inFlight phase heads seen =>
        cases phase with
        | load epoch =>
            change epoch ≤ (st.memory.merge tx).headsEpoch
            have hle : epoch ≤ st.memory.headsEpoch := hfollower
            omega
        | store epoch loaded through =>
            obtain ⟨hle, -, hs, hn⟩ := hfollower
            refine ⟨?_, ?_, hs, hnoted _ hn⟩
            · change epoch ≤ (st.memory.merge tx).headsEpoch
              omega
            · intro heq
              change epoch = (st.memory.merge tx).headsEpoch at heq
              omega
        | wait => exact ⟨hfollower.1, hnoted _ hfollower.2⟩
        | clear | read | gone => trivial

theorem eq_of_getLast? {commits : List Tx} {tx' : Tx} {i : ℕ} (hlast : commits.getLast? = some tx)
    (hi : commits[i]? = some tx') (hlen : i + 1 = commits.length) : tx' = tx := by
  rw [List.getLast?_eq_getElem?, ← hlen, Nat.add_sub_cancel] at hlast
  exact Option.some.inj (hi.symm.trans hlast)

theorem ne_nil_of_wakes (h : wakes changed wakeOn = true) : changed ≠ some [] := by
  rintro rfl
  cases h

theorem pending_owed {tx' : Tx} {i : ℕ} (hlast : st.commits.getLast? = some tx)
    (htx' : st.commits[i]? = some tx') (hwakes : wakes tx'.notifyPending f.wakeOn = true)
    (h : Pending st e f i) : Pending (st.announced tx true) e f i := by
  have howes : (st.announced tx true).owed = if tx.notifyPending = some [] then st.owed
      else owe st.owed tx.notifyPending := rfl
  rcases h with hset | hflight | hcall | ⟨howed, -⟩ | ⟨-, hlen⟩
  · exact .inl hset
  · exact .inr (.inl hflight)
  · exact .inr (.inr (.inl hcall))
  · refine .inr (.inr (.inr (.inl ⟨?_, Nat.succ_pos _⟩)))
    rw [howes]
    split
    · exact howed
    · exact wakes_owe_left howed
  · obtain rfl := eq_of_getLast? hlast htx' hlen
    refine .inr (.inr (.inr (.inl ⟨?_, Nat.succ_pos _⟩)))
    rw [howes, if_neg (ne_nil_of_wakes hwakes)]
    exact wakes_owe_right hwakes

theorem pending_notified {tx' : Tx} {i : ℕ} (hlast : st.commits.getLast? = some tx)
    (htx' : st.commits[i]? = some tx') (hwakes : wakes tx'.notifyPending f.wakeOn = true)
    (h : Pending st e f i) : Pending (st.announced tx false) e f i := by
  have hcalls : (st.announced tx false).calls = if tx.notifyPending = some [] then st.calls
      else st.calls ++ [⟨tx.notifyPending, none⟩] := rfl
  rcases h with hset | hflight | ⟨call, hcall, hahead⟩ | howed | ⟨-, hlen⟩
  · exact .inl hset
  · exact .inr (.inl hflight)
  · refine .inr (.inr (.inl ⟨call, ?_, hahead⟩))
    rw [hcalls]
    split
    · exact hcall
    · exact List.mem_append_left _ hcall
  · exact .inr (.inr (.inr (.inl howed)))
  · obtain rfl := eq_of_getLast? hlast htx' hlen
    refine .inr (.inr (.inl ⟨⟨tx'.notifyPending, none⟩, ?_, hwakes, fun _ hnone => ?_⟩))
    · rw [hcalls, if_neg (ne_nil_of_wakes hwakes)]
      exact List.mem_append_right _ (List.mem_singleton_self _)
    · cases hnone

/-- **An announcement** records what is owed, or calls `_notify`. -/
theorem invariant_announced (h : WakeInvariant st) (hwriting : st.writing = .merged tx deferred) :
    WakeInvariant (st.announced tx deferred) := by
  have hlast := h.writing
  rw [WritingOk, hwriting] at hlast
  have hpublishedDb : st.publishedDb = st.db := by rw [WakeState.publishedDb, hwriting]
  have hpublished : st.published = st.commits.length := by rw [WakeState.published, hwriting]
  have hshown := h.shown
  have hcache := h.cache
  rw [hpublishedDb, hpublished] at hshown
  rw [hpublishedDb] at hcache
  have hdb : (st.announced tx deferred).publishedDb = st.publishedDb := by
    rw [hpublishedDb]
    cases deferred <;> rfl
  have hfollowers : ∀ (e : ℕ) (f : Follower), st.followers[e]? = some f →
      FollowerOk (st.announced tx deferred) e f := by
    intro e f hf
    cases deferred with
    | true => exact (h.followers e f hf).mono rfl hdb rfl fun _ _ _ => pending_owed hlast
    | false => exact (h.followers e f hf).mono rfl hdb rfl fun _ _ _ => pending_notified hlast
  cases deferred with
  | true =>
      exact ⟨trivial, h.stored, h.typed, hshown, hcache,
        fun hzero => absurd hzero (Nat.succ_ne_zero _),
        h.flight, hfollowers⟩
  | false => exact ⟨trivial, h.stored, h.typed, hshown, hcache, h.owed, h.flight, hfollowers⟩

/-! ### The steps of `_notify` and of deliveries -/

/-- **A flush** turns what is owed into a call of `_notify`. -/
theorem invariant_flush (h : WakeInvariant st) (n : ℕ) :
    WakeInvariant { st with
      flushes := n, owed := some [], calls := st.calls ++ [⟨st.owed, none⟩] } := by
  refine h.move rfl (fun _ => rfl) h.flight fun e f _ _ i hp => ?_
  rcases hp with hset | hflight | ⟨call, hcall, hahead⟩ | ⟨howed, -⟩ | hwriting
  · exact .inl hset
  · exact .inr (.inl hflight)
  · exact .inr (.inr (.inl ⟨call, List.mem_append_left _ hcall, hahead⟩))
  · refine .inr (.inr (.inl ⟨⟨st.owed, none⟩, ?_, howed, fun _ hnone => ?_⟩))
    · exact List.mem_append_right _ (List.mem_singleton_self _)
    · cases hnone
  · exact .inr (.inr (.inr (.inr hwriting)))

/-- A `_notify` that has listed the listeners is to look at each of them. -/
theorem invariant_list (h : WakeInvariant st) (hk : st.calls[k]? = some ⟨changed, none⟩) :
    WakeInvariant { st with
      calls := st.calls.set k ⟨changed, some (List.range st.followers.length)⟩ } := by
  refine h.move rfl h.owed h.flight fun e f hf _ i hp => ?_
  rcases hp with hset | hflight | hcall | howed | hwriting
  · exact .inl hset
  · exact .inr (.inl hflight)
  · refine .inr (.inr (.inl (exists_call_set hk hcall ?_)))
    rintro ⟨hwakes, -⟩
    refine ⟨hwakes, fun events hevents => ?_⟩
    obtain rfl := Option.some.inj hevents
    exact List.mem_range.mpr (List.getElem?_eq_some_iff.mp hf).1
  · exact .inr (.inr (.inr (.inl howed)))
  · exact .inr (.inr (.inr (.inr hwriting)))

/-- A `_notify` that has looked at all listeners has nothing left to do. -/
theorem invariant_finish (h : WakeInvariant st) (hk : st.calls[k]? = some ⟨changed, some []⟩) :
    WakeInvariant { st with calls := st.calls.eraseIdx k } := by
  refine h.move rfl h.owed h.flight fun e f hf _ i hp => ?_
  rcases hp with hset | hflight | hcall | howed | hwriting
  · exact .inl hset
  · exact .inr (.inl hflight)
  · refine .inr (.inr (.inl (exists_call_eraseIdx hk hcall ?_)))
    rintro ⟨-, hahead⟩
    cases hahead [] rfl
  · exact .inr (.inr (.inr (.inl howed)))
  · exact .inr (.inr (.inr (.inr hwriting)))

/-- A `_notify` has looked at a listener for which a wakeup is on its way already. -/
theorem invariant_skipped (h : WakeInvariant st) {rest : List ℕ}
    (hk : st.calls[k]? = some ⟨changed, some (e :: rest)⟩)
    (hserved : ∀ f, st.followers[e]? = some f → f.phase.registered = true →
      wakes changed f.wakeOn = true → f.isSet = true ∨ e ∈ st.posting ∨ e ∈ st.queued) :
    WakeInvariant { st with calls := st.calls.set k ⟨changed, some rest⟩ } := by
  refine h.move rfl h.owed h.flight fun j f hf hregistered i hp => ?_
  rcases hp with hset | hflight | hcall | howed | hwriting
  · exact .inl hset
  · exact .inr (.inl hflight)
  · by_cases hserves : wakes changed f.wakeOn = true ∧ j = e
    · obtain ⟨hwakes, rfl⟩ := hserves
      rcases hserved f hf hregistered hwakes with hset | hposting | hqueued
      · exact .inl hset
      · exact .inr (.inl (.inl hposting))
      · exact .inr (.inl (.inr (.inl hqueued)))
    · refine .inr (.inr (.inl (exists_call_set hk hcall ?_)))
      rintro ⟨hwakes, hahead⟩
      refine ⟨hwakes, fun events hevents => ?_⟩
      obtain rfl := Option.some.inj hevents
      rcases List.mem_cons.mp (hahead _ rfl) with hje | hrest
      · exact absurd ⟨hwakes, hje⟩ hserves
      · exact hrest
  · exact .inr (.inr (.inr (.inl howed)))
  · exact .inr (.inr (.inr (.inr hwriting)))

/-- **A `_notify` looks at one listener**: it marks and posts its event, unless the event is
set or on its way. -/
theorem invariant_looked (h : WakeInvariant st) {rest : List ℕ}
    (hk : st.calls[k]? = some ⟨changed, some (e :: rest)⟩) (hf : st.followers[e]? = some f) :
    WakeInvariant (st.looked k changed e rest f) := by
  rw [WakeState.looked]
  split
  · have hposted : WakeInvariant { st with posting := st.posting ++ [e] } := by
      refine h.move rfl h.owed ?_ fun j f' _ _ i hp => ?_
      · intro j f' hf' hin
        rcases h.flight j f' hf' hin with hposting | hqueued
        · exact .inl (List.mem_append_left _ hposting)
        · exact .inr hqueued
      · rcases hp with hset | (hposting | hrest) | hrest
        · exact .inl hset
        · exact .inr (.inl (.inl (List.mem_append_left _ hposting)))
        · exact .inr (.inl (.inr hrest))
        · exact .inr (.inr hrest)
    have hmem : e ∈ st.posting ++ [e] := List.mem_append_right _ (List.mem_singleton_self e)
    have hmarked := hposted.onFollower (e := e) (g := fun f => { f with inFlight := true })
      (fun _ _ _ => .inl hmem) fun f' hf' =>
        (hposted.followers e f' hf')
    exact invariant_skipped hmarked hk fun _ _ _ _ => .inr (.inl hmem)
  · next hpicks =>
      refine invariant_skipped h hk fun f' hf' hregistered hwakes => ?_
      obtain rfl := Option.some.inj (hf.symm.trans hf')
      by_cases hset : f.isSet = true
      · exact .inl hset
      · by_cases hin : f.inFlight = true
        · exact .inr (h.flight e f hf hin)
        · refine absurd ?_ hpicks
          simp [Follower.picks, hregistered, hwakes, hset, hin]

theorem invariant_post (h : WakeInvariant st) :
    WakeInvariant { st with posting := st.posting.erase e, queued := st.queued ++ [e] } := by
  have hmoved : ∀ j, j ∈ st.posting → j ∈ st.posting.erase e ∨ j ∈ st.queued ++ [e] := by
    intro j hj
    by_cases hje : j = e
    · exact .inr (List.mem_append_right _ (by rw [hje]; exact List.mem_singleton_self e))
    · exact .inl ((List.mem_erase_of_ne hje).mpr hj)
  refine h.move rfl h.owed ?_ fun j f _ _ i hp => ?_
  · intro j f hf hin
    rcases h.flight j f hf hin with hposting | hqueued
    · exact hmoved j hposting
    · exact .inr (List.mem_append_left _ hqueued)
  · rcases hp with hset | (hposting | hqueued | hdelivering) | hrest
    · exact .inl hset
    · rcases hmoved j hposting with hstays | hgoes
      · exact .inr (.inl (.inl hstays))
      · exact .inr (.inl (.inr (.inl hgoes)))
    · exact .inr (.inl (.inr (.inl (List.mem_append_left _ hqueued))))
    · exact .inr (.inl (.inr (.inr hdelivering)))
    · exact .inr (.inr hrest)

theorem FollowerOk.setFlags (h : FollowerOk st e f) (isSet inFlight : Bool)
    (hset : f.isSet = true → isSet = true) :
    FollowerOk st e { f with isSet := isSet, inFlight := inFlight } := by
  have hpending : ∀ i, Pending st e f i →
      Pending st e { f with isSet := isSet, inFlight := inFlight } i := by
    intro i hp
    rcases hp with hold | hrest
    · exact .inl (hset hold)
    · exact .inr hrest
  cases f with
  | mk wakeOn scope isSet' inFlight' phase heads seen =>
      cases phase with
      | load epoch => exact h
      | store epoch loaded through =>
          obtain ⟨hle, hcovers, hs, hn⟩ := h
          exact ⟨hle, hcovers, hs, fun i tx htx hi hwakes => hpending i (hn i tx htx hi hwakes)⟩
      | wait => exact ⟨h.1, fun i tx htx hi hwakes => hpending i (h.2 i tx htx hi hwakes)⟩
      | clear | read | gone => trivial

/-- **A delivery**, first step: the mark is removed, the event is still to be set. -/
theorem invariant_discard (h : WakeInvariant st) :
    WakeInvariant { st.onFollower e fun f => { f with inFlight := false } with
      queued := st.queued.erase e
      delivering := st.delivering ++ [e] } := by
  have hunmarked := h.onFollower (e := e) (g := fun f => { f with inFlight := false })
    (fun _ _ hin => by cases hin)
    fun f hf => (h.followers e f hf).setFlags f.isSet false id
  refine hunmarked.move rfl h.owed ?_ fun j f _ _ i hp => ?_
  · intro j f hf hin
    rcases getElem?_onFollower hf with ⟨old, -, -, rfl⟩ | ⟨hej, hsame⟩
    · cases hin
    · rcases h.flight j f hsame hin with hposting | hqueued
      · exact .inl hposting
      · exact .inr ((List.mem_erase_of_ne (Ne.symm hej)).mpr hqueued)
  · rcases hp with hset | (hposting | hqueued | hdelivering) | hrest
    · exact .inl hset
    · exact .inr (.inl (.inl hposting))
    · by_cases hje : j = e
      · refine .inr (.inl (.inr (.inr (List.mem_append_right _ ?_))))
        rw [hje]
        exact List.mem_singleton_self e
      · exact .inr (.inl (.inr (.inl ((List.mem_erase_of_ne hje).mpr hqueued))))
    · exact .inr (.inl (.inr (.inr (List.mem_append_left _ hdelivering))))
    · exact .inr (.inr hrest)

/-- **A delivery**, second step: the event is set. -/
theorem invariant_deliver (h : WakeInvariant st) :
    WakeInvariant { st.onFollower e fun f => { f with isSet := true } with
      delivering := st.delivering.erase e } := by
  have hset := h.onFollower (e := e) (g := fun f => { f with isSet := true })
    (fun f hf hin => h.flight e f hf hin)
    fun f hf => (h.followers e f hf).setFlags true f.inFlight fun _ => rfl
  refine hset.move rfl h.owed hset.flight fun j f hf _ i hp => ?_
  rcases hp with hset | (hposting | hqueued | hdelivering) | hrest
  · exact .inl hset
  · exact .inr (.inl (.inl hposting))
  · exact .inr (.inl (.inr (.inl hqueued)))
  · rcases getElem?_onFollower hf with ⟨old, -, -, rfl⟩ | ⟨hej, -⟩
    · exact .inl rfl
    · exact .inr (.inl (.inr (.inr ((List.mem_erase_of_ne (Ne.symm hej)).mpr hdelivering))))
  · exact .inr (.inr hrest)

/-! ### The steps of followers -/

theorem WakeInvariant.published_subset (h : WakeInvariant st) :
    ∀ row ∈ st.publishedDb.messages, row ∈ st.db.messages := by
  have hok := h.writing
  rw [WritingOk] at hok
  rw [WakeState.publishedDb]
  cases hwriting : st.writing with
  | idle | merged tx deferred => exact fun row hrow => hrow
  | committed before tx deferred =>
      rw [hwriting] at hok
      obtain ⟨hann, hdb, -⟩ := hok
      rw [hdb]
      exact hann.kept

theorem noted_published (st : WakeState) (e : ℕ) (f : Follower) :
    Noted st e f st.published := by
  intro i tx htx hi _
  have hlt := (List.getElem?_eq_some_iff.mp htx).1
  unfold WakeState.published at hi
  split at hi
  · next hwriting =>
      refine .inr (.inr (.inr (.inr ⟨?_, by omega⟩)))
      rw [hwriting]
      exact Writing.noConfusion
  · omega

theorem noted_length (st : WakeState) (e : ℕ) (f : Follower) :
    Noted st e f st.commits.length := by
  intro i tx htx hi _
  have hlt := (List.getElem?_eq_some_iff.mp htx).1
  omega

theorem WakeInvariant.shown_snapshot (h : WakeInvariant st) :
    Shown st (fun _ => true) (headOf st.db.snapshotHeads) st.commits.length :=
  ⟨le_refl _, fun _ tx htx _ m hm _ => snapshotHeads_covers st.db m.row
    (h.stored tx (List.mem_of_getElem? htx) m hm)⟩

theorem WakeInvariant.shown_cache (h : WakeInvariant st) (hheads : st.memory.heads = some heads) :
    Shown st (fun _ => true) (headOf heads) st.published := by
  refine ⟨?_, fun i tx htx hi m hm _ => h.cache heads hheads m.row (h.shown i tx htx hi m hm)⟩
  unfold WakeState.published
  split <;> omega

theorem Shown.view {seen : ℕ} (h : Shown st (fun _ => true) (headOf heads) seen) :
    Shown st f.scope (f.view heads) seen := by
  refine ⟨h.1, fun i tx htx hi m hm hscope => ?_⟩
  rw [Follower.view, if_pos hscope]
  exact h.2 i tx htx hi m hm rfl

theorem invariant_offer (h : WakeInvariant st) {epoch : ℕ}
    (hcovers : epoch = st.memory.headsEpoch → Covers (headOf heads) st.publishedDb.messages) :
    WakeInvariant { st with memory := st.memory.offer epoch heads } := by
  have hepoch : (st.memory.offer epoch heads).headsEpoch = st.memory.headsEpoch := by
    unfold Memory.offer
    split <;> rfl
  refine ⟨h.writing, h.stored, h.typed, h.shown, fun taken htaken => ?_, h.owed, h.flight,
    fun e f hf => (h.followers e f hf).mono rfl rfl hepoch fun _ _ _ _ _ hp => hp⟩
  change (st.memory.offer epoch heads).heads = some taken at htaken
  unfold Memory.offer at htaken
  split at htaken
  · next hfree =>
      obtain rfl := Option.some.inj htaken
      exact hcovers hfree.2.symm
  · exact h.cache taken htaken

theorem invariant_register (h : WakeInvariant st) (f : Follower) (hphase : f.phase = .clear)
    (hin : f.inFlight = false) : WakeInvariant { st with followers := st.followers ++ [f] } := by
  have hcases : ∀ (e : ℕ) (f' : Follower), (st.followers ++ [f])[e]? = some f' →
      st.followers[e]? = some f' ∨ f' = f := by
    intro e f' he
    by_cases hlt : e < st.followers.length
    · exact .inl ((List.getElem?_append_left hlt).symm.trans he)
    · rw [List.getElem?_append_right (by omega)] at he
      exact .inr (List.mem_singleton.mp (List.mem_of_getElem? he))
  refine ⟨h.writing, h.stored, h.typed, h.shown, h.cache, h.owed, ?_, ?_⟩
  · intro e f' he hinFlight
    rcases hcases e f' he with hold | rfl
    · exact h.flight e f' hold hinFlight
    · rw [hin] at hinFlight
      cases hinFlight
  · intro e f' he
    rcases hcases e f' he with hold | rfl
    · exact (h.followers e f' hold).mono rfl rfl rfl fun _ _ _ _ _ hp => hp
    · rw [FollowerOk, hphase]
      trivial

/-- **Every step keeps the invariant.** -/
theorem wakeStep_invariant {event : WakeEvent} (h : WakeInvariant st)
    (hstep : wakeStep st event st') : WakeInvariant st' := by
  cases event with
  | commit tx deferred =>
      obtain ⟨hidle, hcommittable, rfl⟩ := hstep
      exact invariant_commit h hidle hcommittable.announces
  | merge =>
      obtain ⟨before, tx, deferred, hwriting, rfl⟩ := hstep
      exact invariant_merge h hwriting
  | announce =>
      obtain ⟨tx, deferred, hwriting, rfl⟩ := hstep
      exact invariant_announced h hwriting
  | flush =>
      obtain ⟨n, -, rfl⟩ := hstep
      exact invariant_flush h n
  | list k =>
      obtain ⟨changed, hk, rfl⟩ := hstep
      exact invariant_list h hk
  | look k =>
      obtain ⟨changed, e, rest, f, hk, hf, rfl⟩ := hstep
      exact invariant_looked h hk hf
  | finish k =>
      obtain ⟨changed, hk, rfl⟩ := hstep
      exact invariant_finish h hk
  | post e =>
      obtain ⟨-, rfl⟩ := hstep
      exact invariant_post h
  | discard e =>
      obtain ⟨-, rfl⟩ := hstep
      exact invariant_discard h
  | deliver e =>
      obtain ⟨-, rfl⟩ := hstep
      exact invariant_deliver h
  | register wakeOn scope =>
      obtain rfl := hstep
      exact invariant_register h _ rfl rfl
  | clear e =>
      obtain ⟨f, -, -, rfl⟩ := hstep
      exact h.onFollower (fun f hf hin => h.flight e f hf hin) fun _ _ => trivial
  | readCached e =>
      obtain ⟨f, heads, -, -, hheads, rfl⟩ := hstep
      exact h.onFollower (fun f hf hin => h.flight e f hf hin) fun f _ =>
        ⟨(h.shown_cache hheads).view, noted_published st e _⟩
  | miss e =>
      obtain ⟨f, -, -, -, rfl⟩ := hstep
      exact h.onFollower (fun f hf hin => h.flight e f hf hin) fun _ _ => le_refl _
  | load e =>
      obtain ⟨f, epoch, hf, hphase, rfl⟩ := hstep
      have hle := h.followers e f hf
      rw [FollowerOk, hphase] at hle
      refine h.onFollower (fun f hf hin => h.flight e f hf hin) fun f' _ =>
        ⟨hle, fun _ row hrow => ?_, h.shown_snapshot, noted_length st e _⟩
      exact snapshotHeads_covers st.db row (h.published_subset row hrow)
  | store e =>
      obtain ⟨f, epoch, heads, through, hf, hphase, rfl⟩ := hstep
      have hok := h.followers e f hf
      rw [FollowerOk, hphase] at hok
      obtain ⟨-, hcovers, hs, hn⟩ := hok
      have hread : WakeInvariant (st.onFollower e fun f =>
          { f with phase := .wait, heads := f.view heads, seen := through }) := by
        refine h.onFollower (fun f hf hin => h.flight e f hf hin) fun f' hf' => ?_
        obtain rfl := Option.some.inj (hf.symm.trans hf')
        exact ⟨hs.view, hn⟩
      exact invariant_offer hread hcovers
  | readDirect e =>
      obtain ⟨f, -, -, rfl⟩ := hstep
      exact h.onFollower (fun f hf hin => h.flight e f hf hin) fun f _ =>
        ⟨h.shown_snapshot.view, noted_length st e _⟩
  | wake e =>
      obtain ⟨f, -, -, -, rfl⟩ := hstep
      exact h.onFollower (fun f hf hin => h.flight e f hf hin) fun _ _ => trivial
  | timeout e =>
      obtain ⟨f, -, -, rfl⟩ := hstep
      exact h.onFollower (fun f hf hin => h.flight e f hf hin) fun _ _ => trivial
  | close e =>
      obtain ⟨f, -, rfl⟩ := hstep
      exact h.onFollower (fun _ _ hin => by cases hin) fun _ _ => trivial

theorem wakeInvariant_init (h : wakeups.init st) : WakeInvariant st := by
  obtain ⟨db, rfl⟩ := h
  refine ⟨trivial, ?_, ?_, ?_, ?_, fun _ => rfl, ?_, ?_⟩
  · intro tx htx
    cases htx
  · intro tx htx
    cases htx
  · intro i tx htx
    cases htx
  · intro heads hheads
    cases hheads
  · intro e f hf
    cases hf
  · intro e f hf
    cases hf

/-- **No lost wakeup.** For a follower that waits, every commit it has subscribed to, by the
type of a message or as session management, and that happened after its last read is on its
way to it; and what happened before is shown by the heads it has read. -/
theorem no_lost_wakeup {st : WakeState} (h : wakeups.Reachable st) {e : ℕ} {f : Follower}
    (hf : st.followers[e]? = some f) (hwait : f.phase = .wait) :
    (∀ (i : ℕ) (tx : Tx), st.commits[i]? = some tx → f.seen ≤ i →
      (tx.notifyPending = none ∨
        ∃ m ∈ tx.pendingMessages, ∀ on, f.wakeOn = some on → m.body.type ∈ on) →
      Pending st e f i) ∧
    ∀ (i : ℕ) (tx : Tx), st.commits[i]? = some tx → i < f.seen →
      ∀ m ∈ tx.pendingMessages, f.scope m.sessionId = true →
        (m.seq : ℤ) ≤ f.heads m.sessionId := by
  have hinv : WakeInvariant st := h.invariant (fun _ => wakeInvariant_init)
    fun _ _ _ hinv _ hstep => wakeStep_invariant hinv hstep
  have hok := hinv.followers e f hf
  rw [FollowerOk, hwait] at hok
  refine ⟨fun i tx htx hi hmatch => hok.2 i tx htx hi ?_, hok.1.2⟩
  rcases hmatch with hnone | ⟨m, hm, hsubscribed⟩
  · rw [hnone]
    rfl
  · cases hnotify : tx.notifyPending with
    | none => rfl
    | some types =>
        have htyped := hinv.typed tx (List.mem_of_getElem? htx) types hnotify m hm
        exact wakes_some_iff.mpr ⟨m.body.type, htyped, hsubscribed⟩

theorem reachable_step (h : wakeups.Reachable st) (event : WakeEvent)
    (hstep : wakeStep st event st') : wakeups.Reachable st' :=
  h.step trivial hstep

/-- A follower of inputs has read the heads, and then an input is committed by an
asynchronous writer whose submitter has not resumed. -/
def owedInput : WakeState where
  db := secondInput.db
  memory := (Memory.empty.offer 0 firstLog.db.snapshotHeads).merge secondInput
  commits := [secondInput]
  writing := .idle
  owed := some [.input]
  flushes := 1
  calls := []
  posting := []
  queued := []
  delivering := []
  followers := [⟨some [.input], fun _ => true, false, false, .wait,
    fun s => headOf firstLog.db.snapshotHeads s, 0⟩]

/-- The commit is on its way to the follower: it is owed. -/
theorem no_lost_wakeup_owedInput :
    owedInput.commits.length = 1 ∧
      ∃ f, owedInput.followers[0]? = some f ∧ f.isSet = false ∧ Pending owedInput 0 f 0 := by
  have hinit : wakeups.Reachable
      ⟨firstLog.db, .empty, [], .idle, some [], 0, [], [], [], [], []⟩ := .init ⟨_, rfl⟩
  have hregistered := reachable_step hinit (.register (some [.input]) fun _ => true) rfl
  have hcleared := reachable_step hregistered (.clear 0) ⟨_, rfl, rfl, rfl⟩
  have hmissed := reachable_step hcleared (.miss 0) ⟨_, rfl, rfl, rfl, rfl⟩
  have hloaded := reachable_step hmissed (.load 0) ⟨_, _, rfl, rfl, rfl⟩
  have hread := reachable_step hloaded (.store 0) ⟨_, _, _, _, rfl, rfl, rfl⟩
  have hcommitted := reachable_step hread (.commit secondInput true)
    ⟨rfl, .inl effects_secondInput, rfl⟩
  have hmerged := reachable_step hcommitted .merge ⟨_, _, _, rfl, rfl⟩
  have howed : wakeups.Reachable owedInput :=
    reachable_step hmerged .announce ⟨_, _, rfl, rfl⟩
  obtain ⟨hpending, -⟩ := no_lost_wakeup howed (e := 0) rfl rfl
  refine ⟨rfl, _, rfl, rfl, hpending 0 secondInput rfl (le_refl _) (.inr ?_)⟩
  refine ⟨_, List.mem_cons_self, fun on hon => ?_⟩
  obtain rfl := Option.some.inj hon
  exact List.mem_singleton_self _

end Kirakira
