import Kirakira.Reader

/-!
# Snapshots over Shared Prefixes

`MessageReader.committed_snapshot` and `MessageSnapshot`, and everything that runs beside
them: commits of this process, whose SQL commit and whose publication to the shared
prefixes (`_merge_heads`) are two steps; transactions of other processes and statements
executed from outside, with the triggers of `message_prefix_revision`; reads, which hold
the view lock from the moment they pin their database snapshot until they have published
the prefix; and shared prefixes that disappear because nobody holds them any more.

A prefix carries the revision it was read under. While the revision stays, the rows of a
session only grow at the end (`Grows`), so a prefix that matched the database keeps
matching it. Two steps break this. A publication appends a message to a prefix without
asking whether the prefix carries a later revision than the commit did; and a `REPLACE`
that removes a row only because both are results of the same call does not fire the
insertion trigger. `Undisturbed` is the absence of the two.

## Main results

* `grows_of_statement` — while the revision stays, sessions only grow at the end.
* `matches_extend` — a publication of a stored message keeps a prefix matching.
* `tail_spec` — what a reader takes from a matching prefix and the tail it reads.
* `shared_prefix_exact` — in undisturbed runs every snapshot ever handed out holds exactly
  its range of the database it was read from, for ever.
* `shared_prefix_stale` — the two disturbances, each with a snapshot that is wrong.
-/

namespace Kirakira

open Exceptions SortedBy Transition

/-! ### Snapshots -/

/-- `MessageSnapshot`: a prefix of the heap, a length and a bound. -/
structure Snapshot where
  ref : ℕ
  count : ℕ
  throughSeq : ℤ
  deriving DecidableEq

/-- The messages of a snapshot. -/
def Snapshot.content (snapshot : Snapshot) (mem : Memory) : List Message :=
  match mem.prefixes[snapshot.ref]? with
  | some p => p.messages.take snapshot.count
  | none => []

/-- `MessageSnapshot.extends`. -/
def Snapshot.Extends (snapshot previous : Snapshot) : Prop :=
  snapshot.ref = previous.ref ∧ previous.count ≤ snapshot.count

/-- `bisect_right` on sorted numbers. -/
def bisectRight (seqs : List ℕ) (upper : ℤ) : ℕ :=
  seqs.countP fun seq : ℕ => decide ((seq : ℤ) ≤ upper)

/-- The prefix that readers of the session share at present, when it carries the revision
of the database. -/
def Memory.current (mem : Memory) (db : Db) (sessionId : String) : Option (ℕ × Prefix) :=
  match mem.views.lookup sessionId with
  | none => none
  | some i =>
      match mem.prefixes[i]? with
      | none => none
      | some p => if p.revision = some db.revision then some (i, p) else none

/-- The heap with messages appended to one prefix. -/
def growHeap (prefixes : List Prefix) (i : ℕ) (tail : List Message) : List Prefix :=
  prefixes.modify i fun p => { p with messages := p.messages ++ tail }

/-- `prefix.messages.extend(tail)` on a shared prefix. -/
def Memory.grow (mem : Memory) (i : ℕ) (tail : List Message) : Memory where
  heads := mem.heads
  headsEpoch := mem.headsEpoch
  prefixes := growHeap mem.prefixes i tail
  views := mem.views
  views_ok := by
    intro s j hs
    obtain ⟨p, hp, rfl⟩ := mem.views_ok s j hs
    rw [growHeap, List.getElem?_modify, hp]
    by_cases hij : i = j
    · exact ⟨{ p with messages := p.messages ++ tail }, by simp [hij], rfl⟩
    · exact ⟨p, by simp [hij], rfl⟩

/-- A prefix object that nobody shares. -/
def Memory.hold (mem : Memory) (p : Prefix) : Memory where
  heads := mem.heads
  headsEpoch := mem.headsEpoch
  prefixes := mem.prefixes ++ [p]
  views := mem.views
  views_ok := by
    intro s j hs
    obtain ⟨q, hq, hsession⟩ := mem.views_ok s j hs
    refine ⟨q, ?_, hsession⟩
    rw [List.getElem?_append_left (List.getElem?_eq_some_iff.mp hq).1]
    exact hq

/-- A new prefix object that its session shares from now on. -/
def Memory.allocate (mem : Memory) (p : Prefix) : Memory where
  heads := mem.heads
  headsEpoch := mem.headsEpoch
  prefixes := mem.prefixes ++ [p]
  views := mem.views.insert p.sessionId mem.prefixes.length
  views_ok := by
    intro s j hs
    by_cases hsession : s = p.sessionId
    · subst hsession
      rw [AList.lookup_insert] at hs
      obtain rfl := Option.some.inj hs
      exact ⟨p, List.getElem?_concat_length, rfl⟩
    · rw [AList.lookup_insert_ne hsession] at hs
      exact (mem.hold p).views_ok s j hs

/-- `prefix.seqs[-1] if prefix.seqs else -1`. -/
def Prefix.previous (p : Prefix) : ℤ :=
  lastKey Message.seq p.messages

/-- The tail a reader still has to load. -/
def Db.tail (db : Db) (p : Prefix) (upper : ℤ) : Except PyError (List Message) :=
  if p.previous < upper then db.scan p.sessionId p.previous (some upper) none else .ok []

/-- `upper`: the head, or the bound the caller asked for. -/
def Db.upper (db : Db) (sessionId : String) : Option ℤ → ℤ
  | none => db.head sessionId
  | some throughSeq => min (db.head sessionId) throughSeq

/-- `committed_snapshot` over a pinned database. -/
def Memory.committedSnapshot (mem : Memory) (db : Db) (sessionId : String)
    (throughSeq : Option ℤ) : Except PyError (Snapshot × Memory) :=
  let upper := db.upper sessionId throughSeq
  match mem.current db sessionId with
  | some (i, p) => do
      let tail ← db.tail p upper
      return (⟨i, bisectRight ((p.messages ++ tail).map Message.seq) upper, upper⟩,
        mem.grow i tail)
  | none => do
      let tail ← db.tail ⟨sessionId, some db.revision, []⟩ upper
      return (⟨mem.prefixes.length, bisectRight (tail.map Message.seq) upper, upper⟩,
        mem.allocate ⟨sessionId, some db.revision, tail⟩)

/-- `_transaction_snapshot`: inside an explicit transaction a snapshot has a prefix of its
own. -/
def Memory.transactionSnapshot (mem : Memory) (db : Db) (sessionId : String)
    (throughSeq : Option ℤ) : Except PyError (Snapshot × Memory) := do
  let messages ← db.scan sessionId (-1) throughSeq none
  return (⟨mem.prefixes.length, messages.length, lastKey Message.seq messages⟩,
    mem.hold ⟨sessionId, none, messages⟩)

/-! ### Statements from outside -/

/-- Whether `INSERT OR REPLACE` of the row removes the old one. -/
def conflicts (row old : MessageRow) : Bool :=
  old.id = row.id || (old.sessionKey = row.sessionKey && old.seq = row.seq) ||
    ((callKey row.body).isSome && callKey old.body = callKey row.body)

/-- A statement another connection executes. -/
inductive Statement where
  | append (tx : Tx)
  | insert (row : MessageRow)
  | replace (row : MessageRow)
  | update (p : MessageRow → Bool) (f : MessageRow → MessageRow)
  | delete (p : MessageRow → Bool)
  | other (db : Db)

/-- `INSERT OR REPLACE`: the trigger looks before the conflicting rows are removed, and
their removal fires no trigger. -/
def Db.replaceMessage (db : Db) (row : MessageRow) : Db :=
  { db with
    messages := db.messages.filter (fun old => !conflicts row old) ++ [row]
    revision := if db.insertFires row then db.revision + 1 else db.revision }

/-- `UPDATE messages`; the trigger fires for every row. -/
def Db.updateMessages (db : Db) (p : MessageRow → Bool) (f : MessageRow → MessageRow) : Db :=
  { db with
    messages := db.messages.map fun row => if p row then f row else row
    revision := db.revision + db.messages.countP p }

/-- `DELETE FROM messages`; the trigger fires for every row. -/
def Db.deleteMessages (db : Db) (p : MessageRow → Bool) : Db :=
  { db with
    messages := db.messages.filter fun row => !p row
    revision := db.revision + db.messages.countP p }

/-- What a statement makes of the database. `append` is a transaction of another process
of this program; `other` touches neither the messages nor their revision. -/
def Statement.Executes (db : Db) : Statement → Db → Prop
  | .append tx, db' => Effects (Tx.start db) tx ∧ db' = tx.db
  | .insert row, db' => db.insertMessage row = .ok db'
  | .replace row, db' => db' = db.replaceMessage row
  | .update p f, db' => UniqueSeqs (db.updateMessages p f) ∧ db' = db.updateMessages p f
  | .delete p, db' => db' = db.deleteMessages p
  | .other next, db' => next.messages = db.messages ∧ next.revision = db.revision ∧ db' = next

/-! ### The machine -/

/-- A `committed_snapshot` in progress: it holds the view lock and has pinned its
database. -/
structure Reading where
  db : Db
  sessionId : String
  throughSeq : Option ℤ

/-- A snapshot that was handed out, and what it was asked for. -/
structure Issued where
  snapshot : Snapshot
  db : Db
  sessionId : String
  throughSeq : Option ℤ

/-- The database, the memory of one log, its commit that is not published yet, the read in
progress, and every snapshot handed out. -/
structure PrefixState where
  db : Db
  memory : Memory
  merging : Option Tx
  reading : Option Reading
  issued : List Issued

/-- What happens around the shared prefixes. -/
inductive PrefixEvent where
  | commit (tx : Tx)
  | merge
  | external (statement : Statement)
  | beginRead (sessionId : String) (throughSeq : Option ℤ)
  | endRead
  | transactionRead (db : Db) (sessionId : String) (throughSeq : Option ℤ)
  | drop (sessionId : String)

/-- The end of a read: the snapshot is handed out, or an exception ends the read. -/
def PrefixState.finish (st : PrefixState) (r : Reading) : PrefixState :=
  match st.memory.committedSnapshot r.db r.sessionId r.throughSeq with
  | .ok (snapshot, memory) =>
      { st with
        memory := memory
        reading := none
        issued := ⟨snapshot, r.db, r.sessionId, r.throughSeq⟩ :: st.issued }
  | .error _ => { st with reading := none }

/-- A read inside an explicit transaction. -/
def PrefixState.readInside (st : PrefixState) (db : Db) (sessionId : String)
    (throughSeq : Option ℤ) : PrefixState :=
  match st.memory.transactionSnapshot db sessionId throughSeq with
  | .ok (snapshot, memory) =>
      { st with
        memory := memory
        issued := ⟨snapshot, db, sessionId, throughSeq⟩ :: st.issued }
  | .error _ => st

/-- The memory without a shared prefix that nobody holds. -/
def Memory.dropView (mem : Memory) (sessionId : String) : Memory where
  heads := mem.heads
  headsEpoch := mem.headsEpoch
  prefixes := mem.prefixes
  views := mem.views.erase sessionId
  views_ok := by
    intro s i hs
    by_cases hsession : s = sessionId
    · rw [hsession, AList.lookup_erase] at hs
      cases hs
    · rw [AList.lookup_erase_ne hsession] at hs
      exact mem.views_ok s i hs

/-- The steps. The writer lock keeps a second commit out until the first is published; the
view lock keeps a publication out while a read is in progress. -/
def prefixStep (st : PrefixState) : PrefixEvent → PrefixState → Prop
  | .commit tx, st' => st.merging = none ∧ Effects (Tx.start st.db) tx ∧
      st' = { st with db := tx.db, merging := some tx }
  | .merge, st' => ∃ tx, st.merging = some tx ∧ st.reading = none ∧
      st' = { st with memory := st.memory.merge tx, merging := none }
  | .external statement, st' => ∃ db, statement.Executes st.db db ∧ st' = { st with db := db }
  | .beginRead sessionId throughSeq, st' => st.reading = none ∧
      st' = { st with reading := some ⟨st.db, sessionId, throughSeq⟩ }
  | .endRead, st' => ∃ r, st.reading = some r ∧ st' = st.finish r
  | .transactionRead db sessionId throughSeq, st' => UniqueSeqs db ∧
      st' = st.readInside db sessionId throughSeq
  | .drop sessionId, st' => st' = { st with memory := st.memory.dropView sessionId }

/-- The machine, from any database and a log that has just been opened. -/
def sharedPrefixes : System PrefixState PrefixEvent where
  init st := UniqueSeqs st.db ∧ st.memory.views = ∅ ∧ st.merging = none ∧ st.reading = none ∧
    st.issued = []
  step := prefixStep

/-- The message is stored: a row of the database decodes to it. -/
def Db.Stored (db : Db) (m : Message) : Prop :=
  ∃ row ∈ db.messages, messageOf row = .ok m

/-- The steps that leave the shared prefixes right. When the messages of a commit continue
a shared prefix that carries the revision of the database, they are still stored as they
were committed; and a `REPLACE` that removes a row fires the insertion trigger. -/
def Undisturbed (st : PrefixState) : PrefixEvent → Prop
  | .merge => ∀ tx, st.merging = some tx → ∀ (i : ℕ) (p : Prefix),
      st.memory.prefixes[i]? = some p → st.memory.shares i p →
      p.revision = some st.db.revision →
      (∃ m ∈ ofSession p.sessionId tx.pendingMessages, m.seq = p.next) →
      ∀ m ∈ ofSession p.sessionId tx.pendingMessages, p.next ≤ m.seq → st.db.Stored m
  | .external (.replace row) => (∃ old ∈ st.db.messages, conflicts row old = true) →
      st.db.insertFires row = true
  | _ => True

/-! ### Growth of the database -/

/-- From one database to a later one: the revision does not fall, and while it stays the
rows of every session only grow at the end. -/
def Grows (db db' : Db) : Prop :=
  db.revision ≤ db'.revision ∧
    (db'.revision = db.revision → ∀ s, db.sessionRows s <+: db'.sessionRows s)

theorem Grows.refl (db : Db) : Grows db db :=
  ⟨le_refl _, fun _ _ => List.prefix_refl _⟩

theorem Grows.trans {a b c : Db} (h₁ : Grows a b) (h₂ : Grows b c) : Grows a c := by
  obtain ⟨hle₁, hrows₁⟩ := h₁
  obtain ⟨hle₂, hrows₂⟩ := h₂
  refine ⟨le_trans hle₁ hle₂, fun heq s => ?_⟩
  have hb : b.revision = a.revision := by omega
  have hc : c.revision = b.revision := by omega
  exact (hrows₁ hb s).trans (hrows₂ hc s)

variable {db db' : Db} {mem : Memory} {st st₀ : PrefixState} {G : PrefixState → PrefixEvent → Prop}

theorem Grows.of_messages (hle : db.revision ≤ db'.revision)
    (h : db'.revision = db.revision → db'.messages = db.messages) : Grows db db' := by
  refine ⟨hle, fun heq s => ?_⟩
  have hsame : db'.sessionRows s = db.sessionRows s := by
    rw [Db.sessionRows, Db.sessionRows, h heq]
  exact hsame ▸ List.prefix_refl _

theorem uniqueSeqs_append {row : MessageRow} (h : UniqueSeqs db)
    (hmessages : db'.messages = db.messages ++ [row])
    (hfree : ∀ old ∈ db.messages, old.sessionKey = row.sessionKey → old.seq ≠ row.seq) :
    UniqueSeqs db' := by
  rw [UniqueSeqs, hmessages, List.map_append, List.nodup_append]
  refine ⟨h, List.nodup_singleton _, ?_⟩
  intro a ha b hb heq
  obtain ⟨old, hold, rfl⟩ := List.mem_map.mp ha
  obtain rfl := List.mem_singleton.mp hb
  obtain ⟨hsession, hseq⟩ := Prod.mk.inj heq
  exact hfree old hold hsession hseq

/-- **A row that does not fire the trigger stands at the end of its session.** -/
theorem grows_append {row : MessageRow} (h : UniqueSeqs db')
    (hmessages : db'.messages = db.messages ++ [row])
    (hrevision : db'.revision = if db.insertFires row then db.revision + 1 else db.revision) :
    Grows db db' := by
  refine ⟨by rw [hrevision]; split <;> omega, fun heq s => ?_⟩
  have hquiet : db.insertFires row = false := by
    cases hfires : db.insertFires row with
    | false => rfl
    | true =>
        rw [hrevision, hfires, if_pos rfl] at heq
        omega
  by_cases hs : row.sessionKey = s
  · have hlast : ∀ old ∈ db.sessionRows s, old.seq < row.seq := by
      intro old hold
      obtain ⟨hmem, hsession⟩ := mem_sessionRows.mp hold
      have hnot := List.any_eq_false.mp hquiet old hmem
      simp only [Bool.or_eq_true, Bool.and_eq_true, decide_eq_true_eq, not_or, not_and] at hnot
      have := hnot.1 (hsession.trans hs.symm)
      omega
    have hdb : UniqueSeqs db := by
      rw [UniqueSeqs, hmessages, List.map_append] at h
      exact (List.nodup_append.mp h).1
    have hsorted : Sorted MessageRow.seq (db.sessionRows s ++ [row]) := by
      rw [Sorted, List.pairwise_append]
      refine ⟨sorted_sessionRows hdb s, List.pairwise_singleton _ _, ?_⟩
      intro old hold x hx
      obtain rfl := List.mem_singleton.mp hx
      exact hlast old hold
    have hperm : (db'.sessionRows s).Perm (db.sessionRows s ++ [row]) := by
      refine (List.perm_insertionSort seqLe _).trans ?_
      rw [hmessages, List.filter_append]
      have hrow : [row].filter (fun x => decide (x.sessionKey = s)) = [row] := by simp [hs]
      rw [hrow]
      exact (List.perm_insertionSort seqLe _).symm.append_right _
    rw [(sorted_sessionRows h s).eq_of_perm hsorted hperm]
    exact List.prefix_append _ _
  · have hsame : db'.sessionRows s = db.sessionRows s := by
      rw [Db.sessionRows, hmessages, List.filter_append]
      simp [Db.sessionRows, hs]
    exact hsame ▸ List.prefix_refl _

theorem grows_of_effects {t t' : Tx} (h : Effects t t') (hunique : UniqueSeqs t.db) :
    UniqueSeqs t'.db ∧ Grows t.db t'.db := by
  induction h with
  | refl => exact ⟨hunique, Grows.refl _⟩
  | tail _ hlast ih =>
      obtain ⟨hu, hgrows⟩ := ih
      cases hlast with
      | records tx₁ ownerRecords => exact ⟨hu, hgrows.trans (Grows.refl _)⟩
      | @inserted w messageId prepared expected _ _ m hm =>
          have hu' := uniqueSeqs_append hu hm.messages (fun old hold hsession =>
            hm.free old hold (hsession.trans hm.sessionId_eq))
          exact ⟨hu', hgrows.trans (grows_append hu' hm.messages hm.revision)⟩

theorem not_of_countP_eq_zero {xs : List MessageRow} {p : MessageRow → Bool}
    (h : xs.countP p = 0) : ∀ row ∈ xs, p row = false := by
  intro row hrow
  have := List.countP_eq_zero.mp h row hrow
  simpa using this

/-- **While the revision stays, sessions only grow at the end**, whatever statement is
executed from outside, unless it is a `REPLACE` that removes a row unnoticed. -/
theorem grows_of_statement {statement : Statement} (hunique : UniqueSeqs db)
    (hquiet : ∀ row, statement = .replace row →
      (∃ old ∈ db.messages, conflicts row old = true) → db.insertFires row = true)
    (h : statement.Executes db db') : UniqueSeqs db' ∧ Grows db db' := by
  cases statement with
  | append tx =>
      obtain ⟨heffects, rfl⟩ := h
      exact grows_of_effects (t := Tx.start db) heffects hunique
  | insert row =>
      obtain ⟨-, hfree, -, rfl⟩ := insertMessage_eq_ok h
      have hu : UniqueSeqs { db with
          messages := db.messages ++ [row]
          revision := if db.insertFires row then db.revision + 1 else db.revision } :=
        uniqueSeqs_append hunique rfl hfree
      exact ⟨hu, grows_append hu rfl rfl⟩
  | replace row =>
      obtain rfl : db' = db.replaceMessage row := h
      have hsub : (db.messages.filter fun old => !conflicts row old).Sublist db.messages :=
        List.filter_sublist
      have hu : UniqueSeqs (db.replaceMessage row) := by
        have hkept : UniqueSeqs { db with
            messages := db.messages.filter fun old => !conflicts row old } :=
          List.Nodup.sublist (hsub.map _) hunique
        refine uniqueSeqs_append hkept rfl ?_
        intro old hold hsession hseq
        have hnot := (List.mem_filter.mp hold).2
        simp [conflicts, hsession, hseq] at hnot
      refine ⟨hu, ?_⟩
      by_cases hconflict : ∃ old ∈ db.messages, conflicts row old = true
      · have hfires := hquiet row rfl hconflict
        have hrevision : (db.replaceMessage row).revision = db.revision + 1 := by
          rw [Db.replaceMessage, hfires]
          rfl
        refine ⟨by omega, fun heq => ?_⟩
        omega
      · have hall : db.messages.filter (fun old => !conflicts row old) = db.messages := by
          rw [List.filter_eq_self]
          intro old hold
          by_contra hnot
          exact hconflict ⟨old, hold, by simpa using hnot⟩
        refine grows_append hu ?_ rfl
        rw [Db.replaceMessage, hall]
  | update p f =>
      obtain ⟨hu, rfl⟩ := h
      have hrevision : (db.updateMessages p f).revision
          = db.revision + db.messages.countP p := rfl
      refine ⟨hu, Grows.of_messages (by omega) fun heq => ?_⟩
      have hzero : db.messages.countP p = 0 := by omega
      have hnone := not_of_countP_eq_zero hzero
      refine (List.map_congr_left fun row hrow => ?_).trans (List.map_id _)
      rw [hnone row hrow]
      rfl
  | delete p =>
      obtain rfl : db' = db.deleteMessages p := h
      have hrevision : (db.deleteMessages p).revision
          = db.revision + db.messages.countP p := rfl
      refine ⟨List.Nodup.sublist (List.filter_sublist.map _) hunique,
        Grows.of_messages (by omega) fun heq => ?_⟩
      have hzero : db.messages.countP p = 0 := by omega
      have hnone := not_of_countP_eq_zero hzero
      refine List.filter_eq_self.mpr fun row hrow => ?_
      rw [hnone row hrow]
      rfl
  | other next =>
      obtain ⟨hmessages, hrevision, rfl⟩ := h
      refine ⟨?_, Grows.of_messages (by omega) fun _ => hmessages⟩
      rw [UniqueSeqs, hmessages]
      exact hunique

/-! ### Prefixes that match the database -/

/-- The messages of the prefix are the first rows of its session. -/
def Matches (p : Prefix) (db : Db) : Prop :=
  ∃ rows, rows <+: db.sessionRows p.sessionId ∧ Decodes rows p.messages

variable {p : Prefix} {mem' : Memory} {s : String}

theorem Matches.mono (h : Matches p db)
    (hgrows : db.sessionRows p.sessionId <+: db'.sessionRows p.sessionId) : Matches p db' := by
  obtain ⟨rows, hpre, hdecodes⟩ := h
  exact ⟨rows, hpre.trans hgrows, hdecodes⟩

theorem Prefix.next_eq (p : Prefix) : (p.next : ℤ) = lastKey Message.seq p.messages + 1 := by
  unfold Prefix.next lastKey
  cases p.messages.getLast? <;> simp

/-- **A stored message with the next number continues a matching prefix.** -/
theorem matches_extend {m : Message} (hunique : UniqueSeqs db) (h : Matches p db)
    (hstored : db.Stored m) (hsession : m.sessionId = p.sessionId) (hnext : m.seq = p.next) :
    Matches { p with messages := p.messages ++ [m] } db := by
  obtain ⟨rows, ⟨rest, hrows⟩, hdecodes⟩ := h
  obtain ⟨row, hrow, hm⟩ := hstored
  obtain ⟨-, hkey, hseq⟩ := messageOf_fields hm
  have hmem : row ∈ rows ++ rest := by
    rw [hrows]
    exact mem_sessionRows.mpr ⟨hrow, hkey.symm.trans hsession⟩
  have hsorted : Sorted MessageRow.seq (rows ++ rest) := by
    rw [hrows]
    exact sorted_sessionRows hunique p.sessionId
  have hlast : (row.seq : ℤ) = lastKey MessageRow.seq rows + 1 := by
    rw [← hdecodes.lastKey, ← p.next_eq, ← hnext, hseq]
  obtain ⟨tail, rfl⟩ := cons_of_next_key hsorted hmem hlast
  refine ⟨rows ++ [row], ⟨tail, ?_⟩, ?_⟩
  · rw [List.append_assoc]
    exact hrows
  · exact List.rel_append hdecodes (List.Forall₂.cons hm List.Forall₂.nil)

/-- The messages of a commit continue a matching prefix when they are still stored. The
induction is on the messages: those that do not continue the prefix leave it alone. -/
theorem matches_foldl_extend (hunique : UniqueSeqs db) (messages : List Message) (p : Prefix)
    (h : Matches p db) (hsession : ∀ m ∈ messages, m.sessionId = p.sessionId)
    (hstored : (∃ m ∈ messages, m.seq = p.next) →
      ∀ m ∈ messages, p.next ≤ m.seq → db.Stored m) :
    Matches (messages.foldl Prefix.extend p) db := by
  induction messages generalizing p with
  | nil => exact h
  | cons m messages ih =>
      rw [List.foldl_cons]
      by_cases hnext : m.seq = p.next
      · have hall := hstored ⟨m, List.mem_cons_self, hnext⟩
        have hm := hall m List.mem_cons_self (by omega)
        have hext : p.extend m = { p with messages := p.messages ++ [m] } := if_pos hnext
        have hafter : (p.extend m).next = m.seq + 1 := by
          rw [hext, Prefix.next, List.getLast?_concat]
        refine ih (p.extend m) ?_ ?_ ?_
        · rw [hext]
          exact matches_extend hunique h hm (hsession m List.mem_cons_self) hnext
        · intro x hx
          rw [Prefix.extend_sessionId]
          exact hsession x (List.mem_cons_of_mem m hx)
        · intro _ x hx hle
          exact hall x (List.mem_cons_of_mem m hx) (by omega)
      · have hext : p.extend m = p := if_neg hnext
        rw [hext]
        refine ih p h (fun x hx => hsession x (List.mem_cons_of_mem m hx)) ?_
        rintro ⟨x, hx, hseq⟩ y hy hle
        exact hstored ⟨x, List.mem_cons_of_mem m hx, hseq⟩ y (List.mem_cons_of_mem m hy) hle

/-- **The tail a reader loads continues a matching prefix**, and what is up to the bound in
the database is up to the bound in the prefix and its tail. -/
theorem tail_spec {upper : ℤ} {tail : List Message} (hunique : UniqueSeqs db) (h : Matches p db)
    (htail : db.tail p upper = .ok tail) :
    ∃ rows, rows <+: db.sessionRows p.sessionId ∧ Decodes rows (p.messages ++ tail) ∧
      upTo MessageRow.seq upper (db.sessionRows p.sessionId)
        = upTo MessageRow.seq upper rows := by
  obtain ⟨rows, hpre, hdecodes⟩ := h
  have hsorted := sorted_sessionRows hunique p.sessionId
  have hprevious : p.previous = lastKey MessageRow.seq rows := hdecodes.lastKey
  rw [Db.tail, hprevious] at htail
  split at htail
  · next hlt =>
      rw [scan_eq hunique p.sessionId (neg_one_le_lastKey rows), Option.getD_some,
        sourceRows_none] at htail
      have hbetween : Decodes _ tail := mapM_eq_ok_iff.mp htail
      have hrows := upTo_lastKey_of_prefix hsorted hpre
      have hrange := upTo_append_between hsorted (le_of_lt hlt)
      rw [hrows] at hrange
      have hall := List.rel_append hdecodes hbetween
      refine ⟨upTo MessageRow.seq upper (db.sessionRows p.sessionId),
        upTo_isPrefix hsorted upper, ?_, ?_⟩
      · rw [← hrange]
        exact hall
      · rw [upTo, upTo, List.filter_filter]
        simp
  · next hle =>
      obtain rfl := Except.ok.inj htail
      refine ⟨rows, hpre, ?_, upTo_of_prefix hsorted hpre (by omega)⟩
      rw [List.append_nil]
      exact hdecodes

theorem decodes_take {rows : List MessageRow} {messages : List Message}
    (hsorted : Sorted MessageRow.seq rows) (h : Decodes rows messages) (upper : ℤ) :
    Decodes (upTo MessageRow.seq upper rows)
      (messages.take (bisectRight (messages.map Message.seq) upper)) := by
  have hcount : bisectRight (messages.map Message.seq) upper
      = rows.countP fun row => decide ((row.seq : ℤ) ≤ upper) := by
    rw [bisectRight, h.seqs, List.countP_map]
    rfl
  rw [hcount, upTo_eq_take hsorted]
  exact List.forall₂_take _ h

/-! ### The invariant -/

/-- Every shared prefix carries a revision the database has had, and matches it while it is
the present one. -/
def SharedSound (mem : Memory) (db : Db) : Prop :=
  ∀ (i : ℕ) (p : Prefix), mem.prefixes[i]? = some p → mem.shares i p →
    ∃ r, p.revision = some r ∧ r ≤ db.revision ∧ (r = db.revision → Matches p db)

theorem SharedSound.mono (h : SharedSound mem db) (hgrows : Grows db db') :
    SharedSound mem db' := by
  obtain ⟨hle, hrows⟩ := hgrows
  intro i p hp hshares
  obtain ⟨r, hrevision, hr, hmatches⟩ := h i p hp hshares
  refine ⟨r, hrevision, by omega, fun heq => ?_⟩
  exact (hmatches (by omega)).mono (hrows (by omega) p.sessionId)

/-- The prefixes of the heap only grow. -/
def HeapLe (mem mem' : Memory) : Prop :=
  ∀ (i : ℕ) (p : Prefix), mem.prefixes[i]? = some p →
    ∃ p', mem'.prefixes[i]? = some p' ∧ p.messages <+: p'.messages

theorem HeapLe.refl (mem : Memory) : HeapLe mem mem :=
  fun _ p hp => ⟨p, hp, List.prefix_refl _⟩

/-- The snapshot holds exactly its range of the database it was read from. -/
def Exact (mem : Memory) (x : Issued) : Prop :=
  ∃ p, mem.prefixes[x.snapshot.ref]? = some p ∧ x.snapshot.count ≤ p.messages.length ∧
    Decodes (upTo MessageRow.seq (x.db.upper x.sessionId x.throughSeq)
      (x.db.sessionRows x.sessionId)) (p.messages.take x.snapshot.count)

theorem Exact.mono {x : Issued} (h : Exact mem x) (hle : HeapLe mem mem') : Exact mem' x := by
  obtain ⟨p, hp, hcount, hdecodes⟩ := h
  obtain ⟨p', hp', tail, htail⟩ := hle _ p hp
  refine ⟨p', hp', ?_, ?_⟩
  · rw [← htail, List.length_append]
    omega
  · rw [← htail, List.take_append_of_le_length hcount]
    exact hdecodes

theorem Exact.content_eq {x : Issued} (h : Exact mem x) :
    (upTo MessageRow.seq (x.db.upper x.sessionId x.throughSeq)
      (x.db.sessionRows x.sessionId)).mapM messageOf = .ok (x.snapshot.content mem) := by
  obtain ⟨p, hp, -, hdecodes⟩ := h
  have hcontent : x.snapshot.content mem = p.messages.take x.snapshot.count := by
    rw [Snapshot.content, hp]
  rw [hcontent]
  exact mapM_eq_ok_iff.mpr hdecodes

/-- What holds in every state of an undisturbed run. -/
structure PrefixInvariant (st : PrefixState) : Prop where
  unique : UniqueSeqs st.db
  shared : SharedSound st.memory st.db
  reading : ∀ r, st.reading = some r →
    UniqueSeqs r.db ∧ Grows r.db st.db ∧ SharedSound st.memory r.db
  issued : ∀ x ∈ st.issued, Exact st.memory x

/-! ### Steps of the memory -/

theorem getElem?_grow (mem : Memory) (i : ℕ) (tail : List Message) (j : ℕ) :
    (mem.grow i tail).prefixes[j]? = (mem.prefixes[j]?).map fun p =>
      if i = j then { p with messages := p.messages ++ tail } else p := by
  change (growHeap mem.prefixes i tail)[j]? = _
  rw [growHeap, List.getElem?_modify]
  by_cases hij : i = j <;> simp [hij]

theorem heapLe_grow (mem : Memory) (i : ℕ) (tail : List Message) :
    HeapLe mem (mem.grow i tail) := by
  intro j p hp
  rw [getElem?_grow, hp]
  by_cases hij : i = j
  · exact ⟨{ p with messages := p.messages ++ tail }, by simp [hij], List.prefix_append _ _⟩
  · exact ⟨p, by simp [hij], List.prefix_refl _⟩

theorem heapLe_hold (mem : Memory) (p : Prefix) : HeapLe mem (mem.hold p) := by
  intro i q hq
  refine ⟨q, ?_, List.prefix_refl _⟩
  change (mem.prefixes ++ [p])[i]? = some q
  rw [List.getElem?_append_left (List.getElem?_eq_some_iff.mp hq).1]
  exact hq

theorem prefix_foldl_extend (messages : List Message) (p : Prefix) :
    p.messages <+: (messages.foldl Prefix.extend p).messages := by
  induction messages generalizing p with
  | nil => exact List.prefix_refl _
  | cons m messages ih =>
      rw [List.foldl_cons]
      refine List.IsPrefix.trans ?_ (ih (p.extend m))
      unfold Prefix.extend
      split
      · exact List.prefix_append _ _
      · exact List.prefix_refl _

theorem foldl_extend_fields (messages : List Message) (p : Prefix) :
    (messages.foldl Prefix.extend p).sessionId = p.sessionId ∧
      (messages.foldl Prefix.extend p).revision = p.revision := by
  induction messages generalizing p with
  | nil => exact ⟨rfl, rfl⟩
  | cons m messages ih =>
      obtain ⟨hsession, hrevision⟩ := ih (p.extend m)
      exact ⟨hsession.trans (p.extend_sessionId m), hrevision.trans (p.extend_revision m)⟩

theorem heapLe_merge (mem : Memory) (tx : Tx) : HeapLe mem (mem.merge tx) := by
  intro i p hp
  have hcell := prefixes_mergeHeads mem tx.notifyPending tx.pendingHeads tx.pendingMessages i
  rw [hp, Option.map_some] at hcell
  refine ⟨_, hcell, ?_⟩
  split
  · exact prefix_foldl_extend _ p
  · exact List.prefix_refl _

theorem views_merge (mem : Memory) (tx : Tx) : (mem.merge tx).views = mem.views :=
  (extendAll_frame _ tx.pendingMessages).2.2

/-- **A publication of stored messages keeps the shared prefixes sound.** -/
theorem sharedSound_merge {tx : Tx} (hunique : UniqueSeqs db) (h : SharedSound mem db)
    (hstored : ∀ (i : ℕ) (p : Prefix), mem.prefixes[i]? = some p → mem.shares i p →
      p.revision = some db.revision →
      (∃ m ∈ ofSession p.sessionId tx.pendingMessages, m.seq = p.next) →
      ∀ m ∈ ofSession p.sessionId tx.pendingMessages, p.next ≤ m.seq → db.Stored m) :
    SharedSound (mem.merge tx) db := by
  intro i p' hp' hshares'
  have hcell := prefixes_mergeHeads mem tx.notifyPending tx.pendingHeads tx.pendingMessages i
  obtain ⟨p, hp, hext⟩ := Option.map_eq_some_iff.mp (hcell.symm.trans hp')
  obtain ⟨hsession, hrevision⟩ :=
    foldl_extend_fields (ofSession p.sessionId tx.pendingMessages) p
  by_cases hshares : mem.shares i p
  · rw [if_pos hshares] at hext
    subst hext
    obtain ⟨r, hr, hle, hmatches⟩ := h i p hp hshares
    refine ⟨r, hrevision.trans hr, hle, fun heq => ?_⟩
    subst heq
    refine matches_foldl_extend hunique _ p (hmatches rfl) ?_ (hstored i p hp hshares hr)
    intro m hm
    have := (List.mem_filter.mp hm).2
    simpa using this
  · rw [if_neg hshares] at hext
    subst hext
    rw [Memory.shares, views_merge] at hshares'
    exact absurd hshares' hshares

theorem sharedSound_hold (h : SharedSound mem db) (q : Prefix) : SharedSound (mem.hold q) db := by
  intro i p hp hshares
  obtain ⟨old, hold, -⟩ := mem.views_ok p.sessionId i hshares
  obtain ⟨p', hp', -⟩ := heapLe_hold mem q i old hold
  have hlt := (List.getElem?_eq_some_iff.mp hold).1
  have hsame : (mem.prefixes ++ [q])[i]? = mem.prefixes[i]? := List.getElem?_append_left hlt
  exact h i p (hsame.symm.trans hp) hshares

theorem sharedSound_dropView (h : SharedSound mem db) (s : String) :
    SharedSound (mem.dropView s) db := by
  intro i p hp hshares
  refine h i p hp ?_
  by_cases hs : p.sessionId = s
  · have hnone : (mem.views.erase s).lookup p.sessionId = some i := hshares
    rw [hs, AList.lookup_erase] at hnone
    cases hnone
  · have hsome : (mem.views.erase s).lookup p.sessionId = some i := hshares
    rw [AList.lookup_erase_ne hs] at hsome
    exact hsome

/-! ### Reads -/

theorem current_eq_some {i : ℕ} (h : mem.current db s = some (i, p)) :
    mem.prefixes[i]? = some p ∧ p.sessionId = s ∧ mem.shares i p ∧
      p.revision = some db.revision := by
  unfold Memory.current at h
  split at h
  · cases h
  · next j hj =>
      split at h
      · cases h
      · next q hq =>
          split_ifs at h with hrevision
          obtain ⟨rfl, rfl⟩ := Prod.mk.inj (Option.some.inj h)
          obtain ⟨q', hq', hsession⟩ := mem.views_ok s j hj
          obtain rfl := Option.some.inj (hq.symm.trans hq')
          refine ⟨hq, hsession, ?_, hrevision⟩
          rw [Memory.shares, hsession]
          exact hj

/-- **A read returns exactly its range** and leaves the shared prefixes sound. -/
theorem committedSnapshot_spec {throughSeq : Option ℤ} {snapshot : Snapshot}
    (hunique : UniqueSeqs db) (hsound : SharedSound mem db)
    (h : mem.committedSnapshot db s throughSeq = .ok (snapshot, mem')) :
    SharedSound mem' db ∧ HeapLe mem mem' ∧ Exact mem' ⟨snapshot, db, s, throughSeq⟩ := by
  have hsorted := sorted_sessionRows hunique s
  unfold Memory.committedSnapshot at h
  split at h
  · next i p hcurrent =>
      obtain ⟨hp, rfl, hshares, hrevision⟩ := current_eq_some hcurrent
      obtain ⟨tail, htail, hret⟩ := bind_eq_ok.mp h
      obtain ⟨rfl, rfl⟩ := Prod.mk.inj (Except.ok.inj hret)
      obtain ⟨r, hr, -, hmatches⟩ := hsound i p hp hshares
      obtain rfl := Option.some.inj (hrevision.symm.trans hr)
      obtain ⟨rows, hpre, hdecodes, hrange⟩ := tail_spec hunique (hmatches rfl) htail
      have hrows : Sorted MessageRow.seq rows := hsorted.sublist hpre.sublist
      have hcell : (mem.grow i tail).prefixes[i]?
          = some { p with messages := p.messages ++ tail } := by
        rw [getElem?_grow, hp, Option.map_some, if_pos rfl]
      refine ⟨?_, heapLe_grow mem i tail, _, hcell, ?_, ?_⟩
      · intro j q hq hshared
        rw [getElem?_grow] at hq
        obtain ⟨old, hold, hgrown⟩ := Option.map_eq_some_iff.mp hq
        by_cases hij : i = j
        · subst hij
          obtain rfl := Option.some.inj (hp.symm.trans hold)
          rw [if_pos rfl] at hgrown
          subst hgrown
          exact ⟨db.revision, hr, le_refl _, fun _ => ⟨rows, hpre, hdecodes⟩⟩
        · rw [if_neg hij] at hgrown
          subst hgrown
          exact hsound j old hold hshared
      · exact (List.countP_le_length).trans (by rw [List.length_map])
      · rw [hrange]
        exact decodes_take hrows hdecodes _
  · next hnone =>
      obtain ⟨tail, htail, hret⟩ := bind_eq_ok.mp h
      obtain ⟨rfl, rfl⟩ := Prod.mk.inj (Except.ok.inj hret)
      have hempty : Matches ⟨s, some db.revision, []⟩ db :=
        ⟨[], List.nil_prefix, List.Forall₂.nil⟩
      obtain ⟨rows, hpre, hdecodes, hrange⟩ := tail_spec hunique hempty htail
      rw [List.nil_append] at hdecodes
      have hrows : Sorted MessageRow.seq rows := hsorted.sublist hpre.sublist
      have hcell : (mem.prefixes ++ [⟨s, some db.revision, tail⟩])[mem.prefixes.length]?
          = some ⟨s, some db.revision, tail⟩ := List.getElem?_concat_length
      refine ⟨?_, heapLe_hold mem _, _, hcell, ?_, ?_⟩
      · intro j q hq hshared
        by_cases hs : q.sessionId = s
        · have hlookup : (mem.views.insert s mem.prefixes.length).lookup q.sessionId
              = some j := hshared
          rw [hs, AList.lookup_insert] at hlookup
          obtain rfl := Option.some.inj hlookup
          obtain rfl := Option.some.inj (hcell.symm.trans hq)
          exact ⟨db.revision, rfl, le_refl _, fun _ => ⟨rows, hpre, hdecodes⟩⟩
        · have hlookup : (mem.views.insert s mem.prefixes.length).lookup q.sessionId
              = some j := hshared
          rw [AList.lookup_insert_ne hs] at hlookup
          exact sharedSound_hold hsound _ j q hq hlookup
      · exact (List.countP_le_length).trans (by rw [List.length_map])
      · rw [hrange]
        exact decodes_take hrows hdecodes _

/-- What does not pass the head is up to the bound as soon as it is up to the one the
caller asked for. -/
theorem le_upper_iff {t : Option ℤ} {k : ℤ} (h : k ≤ db.head s) :
    k ≤ db.upper s t ↔ k ≤ t.getD (db.head s) := by
  cases t with
  | none => exact Iff.rfl
  | some upper => exact le_min_iff.trans (and_iff_right h)

theorem transactionSnapshot_spec {throughSeq : Option ℤ} {snapshot : Snapshot}
    (hunique : UniqueSeqs db) (h : mem.transactionSnapshot db s throughSeq = .ok (snapshot, mem')) :
    (∃ q, mem' = mem.hold q) ∧ Exact mem' ⟨snapshot, db, s, throughSeq⟩ := by
  obtain ⟨messages, hscan, hret⟩ := bind_eq_ok.mp h
  obtain ⟨rfl, rfl⟩ := Prod.mk.inj (Except.ok.inj hret)
  rw [scan_eq hunique s (le_refl _), sourceRows_none] at hscan
  have hdecodes : Decodes _ messages := mapM_eq_ok_iff.mp hscan
  have hle := (sorted_sessionRows hunique s).le_lastKey
  have hrange : upTo MessageRow.seq (db.upper s throughSeq) (db.sessionRows s)
      = between MessageRow.seq (-1) (throughSeq.getD (db.head s)) (db.sessionRows s) := by
    refine List.filter_congr fun row hrow => ?_
    have hhead := hle row hrow
    rw [← head_eq_lastKey hunique] at hhead
    have hbound := le_upper_iff (t := throughSeq) hhead
    simp [hbound]
    omega
  refine ⟨⟨_, rfl⟩, _, List.getElem?_concat_length, le_refl _, ?_⟩
  rw [List.take_length, hrange]
  exact hdecodes

/-! ### Runs -/

/-- Every undisturbed step keeps the invariant, hands out its snapshot besides those handed
out before, and only lets the prefixes of the heap grow. -/
theorem prefixStep_spec {st' : PrefixState} {e : PrefixEvent} (h : PrefixInvariant st)
    (hquiet : Undisturbed st e) (hstep : prefixStep st e st') :
    PrefixInvariant st' ∧ HeapLe st.memory st'.memory ∧ st.issued ⊆ st'.issued := by
  obtain ⟨hunique, hshared, hreading, hissued⟩ := h
  cases e with
  | commit tx =>
      obtain ⟨-, heffects, rfl⟩ := hstep
      obtain ⟨hu, hgrows⟩ := grows_of_effects heffects hunique
      refine ⟨⟨hu, hshared.mono hgrows, fun r hr => ?_, hissued⟩, HeapLe.refl _,
        List.Subset.refl _⟩
      obtain ⟨hru, hrg, hrs⟩ := hreading r hr
      exact ⟨hru, hrg.trans hgrows, hrs⟩
  | merge =>
      obtain ⟨tx, htx, hnone, rfl⟩ := hstep
      have hle := heapLe_merge st.memory tx
      refine ⟨⟨hunique, sharedSound_merge hunique hshared (hquiet tx htx), fun r hr => ?_,
        fun x hx => (hissued x hx).mono hle⟩, hle, List.Subset.refl _⟩
      have hr' : st.reading = some r := hr
      rw [hnone] at hr'
      cases hr'
  | external statement =>
      obtain ⟨db, hexec, rfl⟩ := hstep
      obtain ⟨hu, hgrows⟩ := grows_of_statement hunique (fun row hrow => by
        subst hrow
        exact hquiet) hexec
      refine ⟨⟨hu, hshared.mono hgrows, fun r hr => ?_, hissued⟩, HeapLe.refl _,
        List.Subset.refl _⟩
      obtain ⟨hru, hrg, hrs⟩ := hreading r hr
      exact ⟨hru, hrg.trans hgrows, hrs⟩
  | beginRead s throughSeq =>
      obtain ⟨-, rfl⟩ := hstep
      refine ⟨⟨hunique, hshared, fun r hr => ?_, hissued⟩, HeapLe.refl _, List.Subset.refl _⟩
      obtain rfl := Option.some.inj hr
      exact ⟨hunique, Grows.refl _, hshared⟩
  | endRead =>
      obtain ⟨r, hr, rfl⟩ := hstep
      obtain ⟨hru, hrg, hrs⟩ := hreading r hr
      rw [PrefixState.finish]
      split
      · next snapshot memory hread =>
          obtain ⟨hsound, hle, hexact⟩ := committedSnapshot_spec hru hrs hread
          refine ⟨⟨hunique, hsound.mono hrg, (fun _ hnone => by cases hnone),
            fun x hx => ?_⟩,
            hle, List.subset_cons_self _ _⟩
          rcases List.mem_cons.mp hx with rfl | hold
          · exact hexact
          · exact (hissued x hold).mono hle
      · exact ⟨⟨hunique, hshared, (fun _ hnone => by cases hnone), hissued⟩,
          HeapLe.refl _, List.Subset.refl _⟩
  | transactionRead db s throughSeq =>
      obtain ⟨hu, rfl⟩ := hstep
      rw [PrefixState.readInside]
      split
      · next snapshot memory hread =>
          obtain ⟨⟨q, rfl⟩, hexact⟩ := transactionSnapshot_spec hu hread
          have hle := heapLe_hold st.memory q
          refine ⟨⟨hunique, sharedSound_hold hshared q, fun r hr => ?_, fun x hx => ?_⟩, hle,
            List.subset_cons_self _ _⟩
          · obtain ⟨hru, hrg, hrs⟩ := hreading r hr
            exact ⟨hru, hrg, sharedSound_hold hrs q⟩
          · rcases List.mem_cons.mp hx with rfl | hold
            · exact hexact
            · exact (hissued x hold).mono hle
      · exact ⟨⟨hunique, hshared, hreading, hissued⟩, HeapLe.refl _, List.Subset.refl _⟩
  | drop s =>
      obtain rfl := hstep
      refine ⟨⟨hunique, sharedSound_dropView hshared s, fun r hr => ?_, hissued⟩,
        HeapLe.refl _, List.Subset.refl _⟩
      obtain ⟨hru, hrg, hrs⟩ := hreading r hr
      exact ⟨hru, hrg, sharedSound_dropView hrs s⟩

theorem prefixInvariant_init (h : sharedPrefixes.init st) : PrefixInvariant st := by
  obtain ⟨hunique, hviews, -, hreading, hissued⟩ := h
  refine ⟨hunique, fun i p _ hshares => ?_, fun r hr => ?_, fun x hx => ?_⟩
  · rw [Memory.shares, hviews, AList.lookup_empty] at hshares
    cases hshares
  · rw [hreading] at hr
    cases hr
  · rw [hissued] at hx
    cases hx

theorem prefixInvariant_of_reachable (h : sharedPrefixes.ReachableVia Undisturbed st) :
    PrefixInvariant st :=
  h.invariant (fun _ hinit => prefixInvariant_init hinit)
    fun _ _ _ hinv hquiet hstep => (prefixStep_spec hinv hquiet hstep).1

theorem issued_subset_of_run {st' : PrefixState} (h : PrefixInvariant st)
    (hrun : sharedPrefixes.RunVia Undisturbed st st') : st.issued ⊆ st'.issued :=
  hrun.relates (R := fun a b => a.issued ⊆ b.issued) (fun _ => List.Subset.refl _)
    (fun _ _ _ => List.Subset.trans)
    (fun _ _ _ hinv hquiet hstep => (prefixStep_spec hinv hquiet hstep).1)
    (fun _ _ _ hinv hquiet hstep => (prefixStep_spec hinv hquiet hstep).2.2) h

/-- **In undisturbed runs every snapshot holds exactly its range of the database it was
read from, for ever**, and a snapshot that extends another one begins with its messages. -/
theorem shared_prefix_exact {st st' : PrefixState}
    (h : sharedPrefixes.ReachableVia Undisturbed st)
    (hrun : sharedPrefixes.RunVia Undisturbed st st') :
    (∀ x ∈ st.issued,
      (upTo MessageRow.seq (x.db.upper x.sessionId x.throughSeq)
        (x.db.sessionRows x.sessionId)).mapM messageOf = .ok (x.snapshot.content st.memory) ∧
      x ∈ st'.issued ∧ x.snapshot.content st'.memory = x.snapshot.content st.memory) ∧
    ∀ a ∈ st.issued, ∀ b ∈ st.issued, b.snapshot.Extends a.snapshot →
      a.snapshot.content st.memory <+: b.snapshot.content st.memory := by
  have hinv := prefixInvariant_of_reachable h
  have hinv' := prefixInvariant_of_reachable (h.run hrun)
  have hsubset := issued_subset_of_run hinv hrun
  constructor
  · intro x hx
    have hcontent := (hinv.issued x hx).content_eq
    have hcontent' := (hinv'.issued x (hsubset hx)).content_eq
    exact ⟨hcontent, hsubset hx, Except.ok.inj (hcontent'.symm.trans hcontent)⟩
  · rintro a - b - ⟨href, hcount⟩
    rw [Snapshot.content, Snapshot.content, href]
    split
    · exact List.take_prefix_take_left hcount
    · exact List.prefix_refl _

/-! ### Runs on fixed inputs -/

theorem stored_of_effects {t t' : Tx} (h : Effects t t')
    (ht : ∀ m ∈ t.pendingMessages, t.db.Stored m) :
    ∀ m ∈ t'.pendingMessages, t'.db.Stored m := by
  induction h with
  | refl => exact ht
  | tail _ hlast ih =>
      intro m hm
      cases hlast with
      | records tx₁ ownerRecords => exact ih m hm
      | @inserted w messageId prepared expected _ _ new hnew =>
          rw [hnew.pendingMessages] at hm
          rw [Db.Stored, hnew.messages]
          rcases List.mem_append.mp hm with hold | hlast
          · obtain ⟨row, hrow, hdecodes⟩ := ih m hold
            exact ⟨row, List.mem_append_left _ hrow, hdecodes⟩
          · obtain rfl := List.mem_singleton.mp hlast
            exact ⟨m.row, List.mem_append_right _ (List.mem_singleton_self _), messageOf_row m⟩

/-- A whole read: it begins and ends with nothing in between. -/
def PrefixState.read (st : PrefixState) (sessionId : String) (throughSeq : Option ℤ) :
    PrefixState :=
  { st with reading := some ⟨st.db, sessionId, throughSeq⟩ }.finish
    ⟨st.db, sessionId, throughSeq⟩

theorem runVia_read (h : sharedPrefixes.RunVia G st₀ st) (s : String) (throughSeq : Option ℤ)
    (hnone : st.reading = none) (hbegin : G st (.beginRead s throughSeq))
    (hend : ∀ st, G st .endRead) : sharedPrefixes.RunVia G st₀ (st.read s throughSeq) := by
  have hfirst := h.tail (u := { st with reading := some ⟨st.db, s, throughSeq⟩ }) hbegin
    ⟨hnone, rfl⟩
  exact hfirst.tail (hend _) ⟨_, rfl, rfl⟩

/-- A log with one input, opened. -/
def openedLog : PrefixState :=
  ⟨firstLog.db, .empty, none, none, []⟩

theorem init_openedLog : sharedPrefixes.init openedLog :=
  ⟨by decide, rfl, rfl, rfl, rfl⟩

/-- The second input is committed, and not published yet. -/
def PrefixState.committed (st : PrefixState) : PrefixState :=
  { st with db := secondInput.db, merging := some secondInput }

/-- The second input is published. -/
def PrefixState.published (st : PrefixState) : PrefixState :=
  { st with memory := st.memory.merge secondInput, merging := none }

theorem runVia_committed (h : sharedPrefixes.RunVia G st₀ st) (hG : G st (.commit secondInput))
    (hdb : st.db = firstLog.db) (hnone : st.merging = none) :
    sharedPrefixes.RunVia G st₀ st.committed := by
  refine h.tail hG ⟨hnone, ?_, rfl⟩
  rw [hdb]
  exact effects_secondInput

theorem runVia_published (h : sharedPrefixes.RunVia G st₀ st) (hG : G st .merge)
    (hsome : st.merging = some secondInput) (hnone : st.reading = none) :
    sharedPrefixes.RunVia G st₀ st.published :=
  h.tail hG ⟨secondInput, hsome, hnone, rfl⟩

theorem runVia_external (h : sharedPrefixes.RunVia G st₀ st) (statement : Statement) (db : Db)
    (hG : G st (.external statement)) (hexec : statement.Executes st.db db) :
    sharedPrefixes.RunVia G st₀ { st with db := db } :=
  h.tail hG ⟨db, hexec, rfl⟩

/-- A read, the commit and the publication of the second input, and a second read, which
the prefix of the first one serves. -/
def sharedReads : PrefixState :=
  (openedLog.read "session" none).committed.published.read "session" none

/-- The two snapshots of an undisturbed run. -/
theorem shared_prefix_exact_sharedReads :
    (sharedReads.issued.map fun x => (x.snapshot.ref, x.snapshot.count)) = [(0, 2), (0, 1)] ∧
    ∀ a ∈ sharedReads.issued, ∀ b ∈ sharedReads.issued, b.snapshot.Extends a.snapshot →
      a.snapshot.content sharedReads.memory <+: b.snapshot.content sharedReads.memory := by
  have hread : sharedPrefixes.RunVia Undisturbed openedLog (openedLog.read "session" none) :=
    runVia_read (.refl _) _ _ rfl trivial fun _ => trivial
  have hcommitted := runVia_committed hread trivial rfl rfl
  have hpublished : sharedPrefixes.RunVia Undisturbed openedLog
      (openedLog.read "session" none).committed.published := by
    refine runVia_published hcommitted ?_ rfl rfl
    rintro tx htx i p - - - - m hm -
    obtain rfl := Option.some.inj htx
    exact stored_of_effects effects_secondInput (by simp [Tx.start]) m
      (List.mem_of_mem_filter hm)
  have hrun := runVia_read hpublished "session" none rfl trivial fun _ => trivial
  exact ⟨rfl, (shared_prefix_exact ⟨openedLog, init_openedLog, hrun⟩ (.refl _)).2⟩

/-- Another connection rewrites the author of the second input before it is published. -/
def rewrite : Statement :=
  .update (fun row => row.id = "input-2") fun row => { row with author := "operator" }

/-- The database after the rewriting. -/
def rewrittenDb : Db :=
  secondInput.db.updateMessages (fun row => row.id = "input-2")
    fun row => { row with author := "operator" }

/-- Between the rewriting and the publication the prefix is read up to the first input. -/
def staleReads : PrefixState :=
  ({ openedLog.committed with db := rewrittenDb }.read "session" (some 0)).published.read
    "session" none

/-- A stored result of a tool call. -/
def resultRow (id : String) (seq : ℕ) : MessageRow where
  id := id
  sessionKey := "session"
  seq := seq
  ts := ⟨"2026-01-01T00:00:00+00:00"⟩
  author := "tool"
  source := "chat"
  body := payload (.toolResult ⟨false, ⟨"output-1", 0, by decide⟩, .success, [], by simp⟩)
  metadata := .obj []

/-- A log with one result, opened. -/
def openedResult : PrefixState :=
  ⟨{ Db.fresh with messages := [resultRow "result-1" 0] }, .empty, none, none, []⟩

/-- Between two reads another connection replaces the result by one with another identity
and a greater number. -/
def replacedReads : PrefixState :=
  { openedResult.read "session" none with
    db := openedResult.db.replaceMessage (resultRow "result-2" 1) }.read "session" none

/-- Whether some snapshot does not hold its range. -/
def PrefixState.Stale (st : PrefixState) : Prop :=
  ∃ x ∈ st.issued, (upTo MessageRow.seq (x.db.upper x.sessionId x.throughSeq)
    (x.db.sessionRows x.sessionId)).mapM messageOf ≠ .ok (x.snapshot.content st.memory)

/-- **The two disturbances.** A row rewritten between its commit and its publication, and
a result replaced under another identity, leave snapshots that do not hold their range. -/
theorem shared_prefix_stale :
    (sharedPrefixes.Reachable staleReads ∧ staleReads.Stale) ∧
      sharedPrefixes.Reachable replacedReads ∧ replacedReads.Stale := by
  refine ⟨⟨?_, ?_⟩, ?_, ?_⟩
  · have hcommitted := runVia_committed (G := fun _ _ => True) (.refl openedLog) trivial rfl rfl
    have hrewritten := runVia_external hcommitted rewrite rewrittenDb trivial
      ⟨by decide, rfl⟩
    have hread := runVia_read hrewritten "session" (some 0) rfl trivial fun _ => trivial
    have hpublished := runVia_published hread trivial rfl rfl
    exact ⟨openedLog, init_openedLog, runVia_read hpublished _ _ rfl trivial fun _ => trivial⟩
  · refine ⟨_, List.mem_cons_self, fun h => ?_⟩
    have hauthors := congrArg (fun r => r.toOption.map (List.map Message.author)) h
    exact absurd hauthors (by decide)
  · have hread := runVia_read (G := fun _ _ => True) (.refl openedResult) "session" none rfl
      trivial fun _ => trivial
    have hreplaced := runVia_external hread (.replace (resultRow "result-2" 1)) _ trivial rfl
    exact ⟨openedResult, ⟨by decide, rfl, rfl, rfl, rfl⟩,
      runVia_read hreplaced _ _ rfl trivial fun _ => trivial⟩
  · refine ⟨_, List.mem_cons_self, fun h => ?_⟩
    have hauthors := congrArg (fun r => r.toOption.map (List.map Message.author)) h
    exact absurd hauthors (by decide)

end Kirakira
