import Kirakira.Lib.CutShort
import Kirakira.Lib.Dict
import Kirakira.Lib.Transition
import Mathlib.Data.List.DropRight
import Mathlib.Data.Rat.Defs

/-!
# Polls of a Feed

`plugins/followups/service.py`: a watch of a feed. A poll reads the feed, stages the entries it
has not seen as an **intent**, submits their batch to EventMail, and finishes: in one
transaction it records an event for every entry, saves the cursor and drops the intent. A poll
that finds an intent begins by submitting it again.

Polls, rule revisions and pauses of a watch hold its lock, so one is over when the next begins.
A poll is a program over the durable state: it may be cut short between any two operations,
every operation may fail, and a submission may also fail after its effect. A transaction of the
store that fails has no effect.

* SHA-256 is read as free of collisions. An item or a revision is the text it is the digest of,
  and the id of a batch is the list of its references.
* `Source` is what EventMail holds of the watch, with the contract of `submit`: an equal batch is
  answered again, an accepted revision is a duplicate when its item is equal, and a conflict
  when it differs.
* Times are in microseconds.

## Main results

* `polls_collect` — as long as no poll reads an accepted entry that the cursor has forgotten,
  and would submit it otherwise than before, every entry read is accepted once and recorded
  once, and every intent is accepted when it is submitted again.
* `returned_and_stuck` — an entry that comes back after 4096 others under another rule is
  refused for ever.
-/

namespace Kirakira.Followups

/-! ### Watches -/

/-- `refs`: an item in a revision. -/
structure Ref where
  itemId : String
  revision : String
  deriving DecidableEq, Repr

/-- What `decode` keeps of an entry. -/
structure Content where
  title : String
  content : String
  url : String
  publishedAt : Option String
  contentTruncated : Bool
  deriving DecidableEq, Repr

/-- `Entry`. -/
structure Entry where
  ref : Ref
  payload : Content
  deriving DecidableEq, Repr

/-- What `decode` returns: no more than `MAX_ENTRIES`, and no identity twice. -/
structure Feed where
  entries : List Entry
  few : entries.length ≤ 100
  distinct : (entries.map fun entry => entry.ref.itemId).Nodup

/-- The references of a feed. -/
def Feed.refs (feed : Feed) : List Ref :=
  feed.entries.map fun entry => entry.ref

/-- The part of `WatchSpec` that a feed has. -/
structure Spec where
  sessionId : String
  name : String
  purpose : String
  intervalSeconds : ℕ
  /-- `review_mode == "each_update"`. -/
  eachUpdate : Bool
  deriving DecidableEq, Repr

/-- A rule, with what its message holds. -/
structure Policy where
  revision : ℕ
  purpose : String
  messageId : Option String
  recordedAt : Option String
  deriving DecidableEq, Repr

/-- A watch. -/
structure Watch where
  spec : Spec
  project : Option String
  createdAt : String
  enabled : Bool
  policy : Option Policy
  deriving DecidableEq, Repr

/-- `_policy`. -/
def Watch.currentPolicy (watch : Watch) : Policy :=
  watch.policy.getD ⟨0, watch.spec.purpose, none, none⟩

/-- The part of `Attention` that an item carries. -/
structure Attention where
  weight : ℚ
  adjusted : Bool
  deriving DecidableEq

/-- An original message, without its text. -/
structure Anchor where
  messageId : String
  sessionId : String
  recordedAt : String
  deriving DecidableEq, Repr

/-! ### Items -/

/-- `context`. -/
structure Context where
  name : String
  purpose : String
  policyRevision : ℕ
  policyMessageId : Option String
  policyRecordedAt : Option String
  project : Option String
  originalMessages : List Anchor
  createdAt : String
  deriving DecidableEq, Repr

/-- The payload of an item. -/
structure Payload extends Content where
  sourceName : String
  followUp : Context
  contextSessionId : String
  /-- Whether `review_policy` is `REQUESTED_REVIEW`; otherwise it is left out. -/
  reviewPolicy : Bool
  attentionWeight : Option ℚ
  deriving DecidableEq

/-- An item of a batch. -/
structure Item where
  ref : Ref
  requiresAck : Bool
  payload : Payload
  deriving DecidableEq

/-- The context of a watch. -/
def Watch.context (watch : Watch) (anchors : List Anchor) (policy : Policy) : Context where
  name := watch.spec.name
  purpose := policy.purpose
  policyRevision := policy.revision
  policyMessageId := policy.messageId
  policyRecordedAt := policy.recordedAt
  project := watch.project
  originalMessages := anchors
  createdAt := watch.createdAt

/-- The item that an entry becomes. -/
def Watch.item (watch : Watch) (anchors : List Anchor) (policy : Policy)
    (attention : Option Attention) (entry : Entry) : Item where
  ref := entry.ref
  requiresAck := false
  payload :=
    { entry.payload with
      sourceName := watch.spec.name
      followUp := watch.context anchors policy
      contextSessionId := watch.spec.sessionId
      reviewPolicy := watch.spec.eachUpdate
      attentionWeight := attention.bind fun a => if a.adjusted then some a.weight else none }

/-! ### The durable state -/

/-- The collection cursor of a watch. Before the first save it is empty. -/
structure Cursor where
  initialized : Bool := false
  baseline : List Ref := []
  seen : List Ref := []
  etag : Option String := none
  modified : Option String := none
  lastChecked : Option ℤ := none
  lastError : Option String := none
  failures : ℕ := 0
  nextCheck : Option ℤ := none
  retryNotBefore : Option ℤ := none
  deriving DecidableEq, Repr

/-- A staged batch. -/
structure Intent where
  batchId : List Ref
  refs : List Ref
  cursor : Cursor
  observedAt : ℤ
  reviewPolicy : Bool
  items : List Item
  deriving DecidableEq

/-- A recorded event. -/
structure Event where
  ref : Ref
  observedAt : ℤ
  deriving DecidableEq, Repr

/-- What EventMail holds of a watch: its revisions and its batches. -/
structure Source where
  items : List Item
  submissions : List (List Ref × List Item)

/-- What survives the death of the process. -/
structure Store where
  watch : Watch
  anchors : List Anchor
  attention : Attention
  cursor : Option Cursor
  /-- The pending intent; a finished one leaves an empty record, which counts as none. -/
  intent : Option Intent
  /-- The records under `event:`. -/
  events : Dict Ref Event
  /-- The records under `recent:`. -/
  recent : Dict (ℤ × Ref) Event
  source : Source

/-- What a poll may raise. -/
inductive Failure where
  /-- An `httpx.HTTPError`, with the time that `Retry-After` asks for where it is obeyed. -/
  | http (name : String) (retryAt : Option ℤ)
  | value (text : String)
  | xml
  /-- `EventMailIdentityConflict`, which is a `RuntimeError`. -/
  | identityConflict
  | runtime (text : String)
  deriving DecidableEq, Repr

/-- Whether `poll` catches an exception. -/
def Failure.caught : Failure → Bool
  | .http .. | .value _ | .xml => true
  | .identityConflict | .runtime _ => false

/-- `type(error).__name__`, of an exception that is caught. -/
def Failure.name : Failure → String
  | .http name _ => name
  | .value _ => "ValueError"
  | .xml => "XMLSyntaxError"
  | .identityConflict => "EventMailIdentityConflict"
  | .runtime _ => "RuntimeError"

/-- The time that `Retry-After` asks for. -/
def Failure.retryAt : Failure → Option ℤ
  | .http _ retryAt => retryAt
  | .value _ | .xml | .identityConflict | .runtime _ => none

/-! ### EventMail -/

/-- One item of `_append_items`. -/
def appendItem (items : List Item) (item : Item) : Except Failure (List Item) :=
  match items.find? fun old => old.ref = item.ref with
  | some old => if old = item then .ok items else .error .identityConflict
  | none => .ok (items ++ [item])

/-- `inspect_submission`. -/
def Source.submission (m : Source) (batchId : List Ref) : Option (List Item) :=
  (m.submissions.find? fun b => b.1 = batchId).map Prod.snd

/-- `submit`. -/
def Source.submit (m : Source) (batchId : List Ref) (items : List Item) :
    Except Failure Source :=
  match m.submission batchId with
  | some previous => if previous = items then .ok m else .error .identityConflict
  | none => do
      let kept ← items.foldlM appendItem m.items
      pure ⟨kept, m.submissions ++ [(batchId, items)]⟩

/-! ### Transactions -/

/-- The records of one reference in `_finish`. A record under `recent:` must be new. -/
def record (observedAt : ℤ) (s : Store) (ref : Ref) : Except Failure Store :=
  match s.events.get? ref with
  | some _ => .ok s
  | none =>
      match s.recent.get? (observedAt, ref) with
      | some _ => .error (.runtime "recent")
      | none => .ok { s with
          events := s.events.set ref ⟨ref, observedAt⟩
          recent := s.recent.set (observedAt, ref) ⟨ref, observedAt⟩ }

/-- The transaction of `_finish`. -/
def Store.finish (s : Store) (intent : Intent) : Except Failure Store := do
  let s ← intent.refs.foldlM (record intent.observedAt) s
  pure { s with cursor := some intent.cursor, intent := none }

/-- The transaction that stages an intent: a pending one of the same batch stays. -/
def Store.stage (s : Store) (intent : Intent) : Intent × Store :=
  match s.intent with
  | some original =>
      if original.batchId = intent.batchId then (original, s)
      else (intent, { s with intent := some intent })
  | none => (intent, { s with intent := some intent })

/-! ### Operations -/

/-- What the server answers. -/
inductive Answer where
  | notModified
  | read (feed : Feed) (etag modified : Option String)

/-- The headers of a request: `If-None-Match` and `If-Modified-Since`. -/
structure Headers where
  ifNoneMatch : Option String
  ifModifiedSince : Option String

/-- The operations of a poll. -/
inductive Op : Type → Type
  | watch : Op Watch
  | intent : Op (Option Intent)
  | submission (batchId : List Ref) : Op (Option (List Item))
  | submit (batchId : List Ref) (items : List Item) : Op Unit
  | finish (intent : Intent) : Op Unit
  | cursor : Op (Option Cursor)
  | saveCursor (cursor : Cursor) : Op Unit
  | fetch (headers : Headers) : Op Answer
  | anchors : Op (List Anchor)
  | policy (watch : Watch) : Op Policy
  | attention : Op Attention
  | stage (intent : Intent) : Op Intent

/-- A state after an operation, or the state before where it raised. -/
def after (s : Store) : Except Failure Store → Except Failure Unit × Store
  | .ok t => (.ok (), t)
  | .error e => (.error e, s)

/-- What the operations do, where the server has one answer. -/
def handler (answer : Except Failure Answer) : Handler Op Failure Store
  | _, .watch, s => (.ok s.watch, s)
  | _, .intent, s => (.ok s.intent, s)
  | _, .submission batchId, s => (.ok (s.source.submission batchId), s)
  | _, .submit batchId items, s =>
      after s ((s.source.submit batchId items).map fun m => { s with source := m })
  | _, .finish intent, s => after s (s.finish intent)
  | _, .cursor, s => (.ok s.cursor, s)
  | _, .saveCursor cursor, s => (.ok (), { s with cursor := some cursor })
  | _, .fetch _, s => (answer, s)
  | _, .anchors, s => (.ok s.anchors, s)
  | _, .policy watch, s => (.ok watch.currentPolicy, s)
  | _, .attention, s => (.ok s.attention, s)
  | _, .stage intent, s => (.ok (s.stage intent).1, (s.stage intent).2)

/-- Whether an operation may raise after its effect. -/
def Op.remote {β : Type} : Op β → Prop
  | .submit .. => True
  | _ => False

/-- What the operations may do: any of them may fail, and a submission may fail although it was
accepted. -/
def mayFail (answer : Except Failure Answer) : Program.Exec Op Failure Store := fun β o s r t =>
  (r, t) = handler answer β o s ∨
    ∃ e, r = .error e ∧ (t = s ∨ o.remote ∧ t = (handler answer β o s).2)

/-! ### Polls -/

/-- The part of a service that polls. -/
abbrev Task (α : Type) := Program Op Failure α

/-- What a poll returns. -/
inductive Status where
  | paused
  | deferred (retryAt : ℤ)
  | unchanged
  | baseline (existingEntries : ℕ)
  | submitted (refs : List Ref)
  | failed (error : String)
  deriving DecidableEq, Repr

/-- Whether the answer of the server was taken in. -/
def Status.successful : Status → Bool
  | .unchanged | .baseline _ | .submitted _ => true
  | .paused | .deferred _ | .failed _ => false

/-- `timedelta(seconds=…)`. -/
def seconds (n : ℕ) : ℤ :=
  n * 1000000

/-- `list(dict.fromkeys(…))`: every value where it comes first. -/
def fromkeys (refs : List Ref) : List Ref :=
  refs.eraseDups

/-- How many references a cursor has seen at most. -/
def maxSeen : ℕ := 4096

/-- The headers of the next request. -/
def Cursor.headers (cursor : Cursor) : Headers :=
  if cursor.initialized then ⟨cursor.etag, cursor.modified⟩ else ⟨none, none⟩

/-- The cursor after an answer without content. -/
def Cursor.notModified (cursor : Cursor) (now : ℤ) (interval : ℕ) : Cursor :=
  { cursor with
    lastChecked := some now
    lastError := none
    failures := 0
    nextCheck := some (now + seconds interval)
    retryNotBefore := none }

/-- `checkpoint`. -/
def Cursor.checkpoint (cursor : Cursor) (refs : List Ref) (etag modified : Option String)
    (now : ℤ) (interval : ℕ) : Cursor where
  initialized := true
  baseline := if cursor.initialized then cursor.baseline else refs
  seen := (fromkeys (cursor.seen ++ refs)).rtake maxSeen
  etag := etag
  modified := modified
  lastChecked := some now
  lastError := none
  failures := 0
  nextCheck := some (now + seconds interval)

/-- The cursor after a failure. -/
def Cursor.failed (cursor : Cursor) (e : Failure) (failedAt : ℤ) (interval : ℕ) : Cursor :=
  let delay := seconds (min 3600 (max 60 interval * Nat.pow 2 (min cursor.failures 5)))
  { cursor with
    lastChecked := some failedAt
    lastError := some e.name
    failures := cursor.failures + 1
    nextCheck := some (max (failedAt + delay) (e.retryAt.getD failedAt))
    retryNotBefore := e.retryAt.filter fun retryAt => failedAt < retryAt }

/-- The entries that a cursor does not know. -/
def Cursor.fresh (cursor : Cursor) (feed : Feed) : List Entry :=
  feed.entries.filter fun entry => entry.ref ∉ cursor.seen ∧ entry.ref ∉ cursor.baseline

/-- The submission of an intent, and its end. -/
def deliver (intent : Intent) : Task Unit := do
  .perform (.submit intent.batchId intent.items)
  .perform (.finish intent)

/-- `_recover`. -/
def recover (submitPending : Bool) : Task Unit := do
  match ← .perform .intent with
  | none => pure ()
  | some intent => do
      match ← .perform (.submission intent.batchId) with
      | some _ => .perform (.finish intent)
      | none =>
          if submitPending then deliver intent else pure ()

/-- The attention that items carry: none where a review is requested anyway. -/
def attentionOf (spec : Spec) : Task (Option Attention) :=
  if spec.eachUpdate then pure none
  else do
    let attention ← .perform .attention
    pure (some attention)

/-- The intent that `_accept` stages. -/
def intentOf (watch : Watch) (anchors : List Anchor) (policy : Policy)
    (attention : Option Attention) (fresh : List Entry) (checkpoint : Cursor) (now : ℤ) :
    Intent where
  batchId := fresh.map fun entry => entry.ref
  refs := fresh.map fun entry => entry.ref
  cursor := checkpoint
  observedAt := now
  reviewPolicy := watch.spec.eachUpdate
  items := fresh.map (watch.item anchors policy attention)

/-- `_accept`. -/
def accept (watch : Watch) (fresh : List Entry) (checkpoint : Cursor) (now : ℤ) :
    Task Status := do
  let anchors ← .perform .anchors
  let policy ← .perform (.policy watch)
  let attention ← attentionOf watch.spec
  let intent ← .perform (.stage (intentOf watch anchors policy attention fresh checkpoint now))
  deliver intent
  pure (.submitted intent.refs)

/-- What a poll does with the answer of the server. -/
def collect (watch : Watch) (cursor : Cursor) (now : ℤ) : Task Status := do
  match ← .perform (.fetch cursor.headers) with
  | .notModified =>
      if cursor.initialized then do
        .perform (.saveCursor (cursor.notModified now watch.spec.intervalSeconds))
        pure .unchanged
      else .raise (.value "信息源在首次读取前返回 304")
  | .read feed etag modified =>
      let checkpoint :=
        cursor.checkpoint feed.refs etag modified now watch.spec.intervalSeconds
      if cursor.initialized = false then do
        .perform (.saveCursor checkpoint)
        pure (.baseline feed.entries.length)
      else if cursor.fresh feed = [] then do
        .perform (.saveCursor checkpoint)
        pure .unchanged
      else accept watch (cursor.fresh feed) checkpoint now

/-- The handler of a poll's exceptions. -/
def handleFailure (watch : Watch) (cursor : Cursor) (failedAt : ℤ) (e : Failure) : Task Status :=
  if e.caught then do
    .perform (.saveCursor (cursor.failed e failedAt watch.spec.intervalSeconds))
    pure (.failed e.name)
  else .raise e

/-- Whether a cursor waits for the time that a server asked for. -/
def Cursor.deferredTo (cursor : Cursor) (now : ℤ) : Option ℤ :=
  cursor.retryNotBefore.filter fun retryAt => now < retryAt

/-- The part of `poll` after the recovery. -/
def pollOnce (watch : Watch) (now failedAt : ℤ) : Task Status := do
  let saved ← .perform .cursor
  let cursor := saved.getD {}
  match cursor.deferredTo now with
  | some retryAt => pure (.deferred retryAt)
  | none => (collect watch cursor now).catching (handleFailure watch cursor failedAt)

/-- `poll`. -/
def poll (now failedAt : ℤ) : Task Status := do
  let watch ← .perform .watch
  recover watch.enabled
  if watch.enabled then pollOnce watch now failedAt else pure .paused

/-! ### Batches -/

/-- No reference has two items. -/
def Consistent (items : List Item) : Prop :=
  ∀ a ∈ items, ∀ b ∈ items, a.ref = b.ref → a = b

variable {items : List Item}

theorem Consistent.subset {parts : List Item} (h : Consistent items) (hsub : parts ⊆ items) :
    Consistent parts :=
  fun a ha b hb => h a (hsub ha) b (hsub hb)

theorem Consistent.of_nodup (h : (items.map fun item => item.ref).Nodup) : Consistent items :=
  fun _ ha _ hb heq => List.inj_on_of_nodup_map h ha hb heq

theorem Consistent.batch_eq (h : Consistent items) :
    ∀ {as bs : List Item}, as ⊆ items → bs ⊆ items →
      (as.map fun item => item.ref) = bs.map (fun item => item.ref) → as = bs
  | [], [], _, _, _ => rfl
  | [], _ :: _, _, _, hrefs => by cases hrefs
  | _ :: _, [], _, _, hrefs => by cases hrefs
  | a :: as, b :: bs, ha, hb, hrefs => by
      obtain ⟨hhead, htail⟩ := List.cons.inj hrefs
      obtain ⟨ha, has⟩ := List.cons_subset.mp ha
      obtain ⟨hb, hbs⟩ := List.cons_subset.mp hb
      rw [h a ha b hb hhead, h.batch_eq has hbs htail]

/-- What a source gains by a batch. -/
structure Gains (old items new : List Item) : Prop where
  kept : old <+: new
  only : ∀ item ∈ new, item ∈ old ∨ item ∈ items
  all : items ⊆ new
  distinct : (new.map fun item => item.ref).Nodup

theorem appendItem_ok {old : List Item} {item : Item}
    (hdistinct : (old.map fun item => item.ref).Nodup)
    (hagree : ∀ a ∈ old, a.ref = item.ref → a = item) :
    ∃ new, appendItem old item = .ok new ∧ Gains old [item] new := by
  cases hfind : old.find? fun a => a.ref = item.ref with
  | some a =>
      have hmem := List.mem_of_find?_eq_some hfind
      obtain rfl := hagree a hmem (by simpa using List.find?_some hfind)
      refine ⟨old, ?_, List.prefix_rfl, fun b hb => .inl hb, ?_, hdistinct⟩
      · rw [appendItem, hfind]
        exact if_pos rfl
      · exact List.cons_subset.mpr ⟨hmem, List.nil_subset _⟩
  | none =>
      have hnew : ∀ a ∈ old, a.ref ≠ item.ref := by simpa using hfind
      refine ⟨old ++ [item], ?_, List.prefix_append .., fun b hb => ?_, ?_, ?_⟩
      · rw [appendItem, hfind]
      · exact List.mem_append.mp hb
      · exact List.subset_append_right ..
      · rw [List.map_append]
        refine hdistinct.append (List.nodup_singleton _) ?_
        simpa using hnew

/-- **A batch that agrees with what is there is accepted.** -/
theorem foldlM_appendItem_ok {old : List Item} (hdistinct : (old.map fun item => item.ref).Nodup)
    (hagree : Consistent (old ++ items)) :
    ∃ new, items.foldlM appendItem old = .ok new ∧ Gains old items new := by
  induction items generalizing old with
  | nil =>
      exact ⟨old, rfl, List.prefix_rfl, fun b hb => .inl hb, List.nil_subset _, hdistinct⟩
  | cons item items ih =>
      obtain ⟨mid, hmid, hgain⟩ := appendItem_ok hdistinct fun a ha heq =>
        hagree a (List.mem_append_left _ ha) item (by simp) heq
      have hsub : mid ++ items ⊆ old ++ item :: items := by
        intro a ha
        rcases List.mem_append.mp ha with ha | ha
        · rcases hgain.only a ha with ha | ha
          · exact List.mem_append_left _ ha
          · exact List.mem_append_right _ (List.mem_cons.mpr (.inl (List.mem_singleton.mp ha)))
        · exact List.mem_append_right _ (List.mem_cons_of_mem _ ha)
      obtain ⟨new, hnew, hgains⟩ := ih hgain.distinct (hagree.subset hsub)
      refine ⟨new, ?_, hgain.kept.trans hgains.kept, fun a ha => ?_, ?_, hgains.distinct⟩
      · rw [List.foldlM_cons, hmid]
        exact hnew
      · rcases hgains.only a ha with ha | ha
        · rcases hgain.only a ha with ha | ha
          · exact .inl ha
          · exact .inr (List.mem_cons.mpr (.inl (List.mem_singleton.mp ha)))
        · exact .inr (List.mem_cons_of_mem _ ha)
      · refine List.cons_subset.mpr ⟨?_, hgains.all⟩
        exact hgains.kept.subset (hgain.all (List.mem_singleton.mpr rfl))

/-- What holds of a source: one item for each reference, and every batch is accepted. -/
structure Source.Ok (m : Source) : Prop where
  distinct : (m.items.map fun item => item.ref).Nodup
  batches : ∀ b ∈ m.submissions, b.1 = b.2.map (fun item => item.ref) ∧ b.2 ⊆ m.items

variable {batchId : List Ref} {m : Source}

theorem Source.Ok.of_submission (h : m.Ok) {previous : List Item}
    (hp : m.submission batchId = some previous) :
    batchId = previous.map (fun item => item.ref) ∧ previous ⊆ m.items := by
  obtain ⟨b, hfind, rfl⟩ := Option.map_eq_some_iff.mp hp
  have hid : b.1 = batchId := by simpa using List.find?_some hfind
  obtain ⟨hrefs, hsub⟩ := h.batches b (List.mem_of_find?_eq_some hfind)
  exact ⟨hid.symm.trans hrefs, hsub⟩

/-- **The rule of submissions**: a batch that agrees with what is there is accepted. -/
theorem Source.Ok.submit (h : m.Ok) (hagree : Consistent (m.items ++ items)) :
    ∃ m', m.submit (items.map fun item => item.ref) items = .ok m' ∧ m'.Ok ∧
      Gains m.items items m'.items := by
  cases hp : m.submission (items.map fun item => item.ref) with
  | some previous =>
      obtain ⟨hrefs, hsub⟩ := h.of_submission hp
      obtain rfl : items = previous := hagree.batch_eq (List.subset_append_right ..)
        (List.subset_append_of_subset_left _ hsub) hrefs
      refine ⟨m, ?_, h, List.prefix_rfl, fun a ha => .inl ha, hsub, h.distinct⟩
      rw [Source.submit, hp]
      exact if_pos rfl
  | none =>
      obtain ⟨new, hnew, hgains⟩ := foldlM_appendItem_ok h.distinct hagree
      refine ⟨⟨new, m.submissions ++ [(items.map fun item => item.ref, items)]⟩, ?_,
        ⟨hgains.distinct, ?_⟩, hgains⟩
      · rw [Source.submit, hp]
        exact congrArg (Except.map _) hnew
      · intro b hb
        rcases List.mem_append.mp hb with hb | hb
        · obtain ⟨hrefs, hsub⟩ := h.batches b hb
          exact ⟨hrefs, List.Subset.trans hsub hgains.kept.subset⟩
        · rw [List.mem_singleton.mp hb]
          exact ⟨rfl, hgains.all⟩

/-! ### Events -/

/-- The two kinds of records of an event go together. -/
structure Store.Logged (s : Store) : Prop where
  own : ∀ r v, s.events.get? r = some v → v.ref = r
  recent : ∀ at' r v, s.recent.get? (at', r) = some v ↔
    s.events.get? r = some v ∧ v.observedAt = at'

/-- What a store gains by the records of some references. -/
structure Records (s : Store) (refs : List Ref) (t : Store) : Prop where
  rest : t = { s with events := t.events, recent := t.recent }
  logged : t.Logged
  kept : ∀ r v, s.events.get? r = some v → t.events.get? r = some v
  only : ∀ r v, t.events.get? r = some v → s.events.get? r = some v ∨ r ∈ refs
  all : ∀ r ∈ refs, ∃ v, t.events.get? r = some v

theorem record_ok {s : Store} (h : s.Logged) (observedAt : ℤ) (ref : Ref) :
    ∃ t, record observedAt s ref = .ok t ∧ Records s [ref] t := by
  cases hevent : s.events.get? ref with
  | some v =>
      refine ⟨s, ?_, rfl, h, fun _ _ hr => hr, fun _ _ hr => .inl hr, ?_⟩
      · rw [record, hevent]
      · exact List.forall_mem_singleton.mpr ⟨v, hevent⟩
  | none =>
      have hrecent : ∀ at', s.recent.get? (at', ref) = none := by
        intro at'
        cases hv : s.recent.get? (at', ref) with
        | none => rfl
        | some v =>
            rw [((h.recent at' ref v).mp hv).1] at hevent
            cases hevent
      let t : Store := { s with
        events := s.events.set ref ⟨ref, observedAt⟩
        recent := s.recent.set (observedAt, ref) ⟨ref, observedAt⟩ }
      have ht : record observedAt s ref = .ok t := by rw [record, hevent, hrecent]
      refine ⟨t, ht, rfl, ⟨?_, ?_⟩, ?_, ?_, ?_⟩
      · intro r v hv
        simp only [t, Dict.get?_set] at hv
        split at hv
        · next hr =>
            obtain rfl := Option.some.inj hv
            exact hr.symm
        · exact h.own r v hv
      · intro at' r v
        simp only [t, Dict.get?_set, Prod.mk.injEq]
        by_cases hr : r = ref
        · subst hr
          rw [if_pos rfl]
          by_cases hat : at' = observedAt
          · rw [if_pos ⟨hat, rfl⟩, hat]
            refine ⟨fun hv => ⟨hv, ?_⟩, fun hv => hv.1⟩
            rw [← Option.some.inj hv]
          · rw [if_neg fun hb => hat hb.1, hrecent]
            refine ⟨(by cases ·), fun hv => ?_⟩
            obtain rfl := Option.some.inj hv.1
            exact absurd hv.2.symm hat
        · rw [if_neg hr, if_neg fun hb => hr hb.2]
          exact h.recent at' r v
      · intro r v hv
        have hr : r ≠ ref := by
          rintro rfl
          rw [hevent] at hv
          cases hv
        exact (Dict.get?_set_of_ne _ _ hr).trans hv
      · intro r v hv
        simp only [t, Dict.get?_set] at hv
        split at hv
        · next hr => exact .inr (List.mem_singleton.mpr hr)
        · exact .inl hv
      · exact List.forall_mem_singleton.mpr ⟨_, Dict.get?_set_self ..⟩

theorem foldlM_record_ok {s : Store} (h : s.Logged) (observedAt : ℤ) (refs : List Ref) :
    ∃ t, refs.foldlM (record observedAt) s = .ok t ∧ Records s refs t := by
  induction refs generalizing s with
  | nil =>
      have hrecords : Records s [] s :=
        ⟨rfl, h, fun _ _ hr => hr, fun _ _ hr => .inl hr, fun _ hr => by cases hr⟩
      exact ⟨s, rfl, hrecords⟩
  | cons ref refs ih =>
      obtain ⟨u, hu, hone⟩ := record_ok h observedAt ref
      obtain ⟨t, ht, hrest⟩ := ih hone.logged
      refine ⟨t, ?_, ?_, hrest.logged, fun r v hr => hrest.kept r v (hone.kept r v hr), ?_, ?_⟩
      · rw [List.foldlM_cons, hu]
        exact ht
      · rw [hrest.rest, hone.rest]
      · intro r v hr
        rcases hrest.only r v hr with hr | hr
        · refine (hone.only r v hr).imp_right fun hr => ?_
          exact List.mem_cons.mpr (.inl (List.mem_singleton.mp hr))
        · exact .inr (List.mem_cons_of_mem _ hr)
      · intro r hr
        rcases List.mem_cons.mp hr with rfl | hr
        · obtain ⟨v, hv⟩ := hone.all r (List.mem_singleton.mpr rfl)
          exact ⟨v, hrest.kept r v hv⟩
        · exact hrest.all r hr

/-! ### The invariant -/

/-- The cursor of a poll. -/
def Store.mark (s : Store) : Cursor :=
  s.cursor.getD {}

/-- Whether a reference has an event. -/
def Store.HasEvent (s : Store) (r : Ref) : Prop :=
  ∃ v, s.events.get? r = some v

/-- What holds of a staged intent: EventMail can accept its items, and the entries that its
cursor has seen are in the baseline, recorded already, or in the batch. -/
structure Store.Staged (s : Store) (i : Intent) : Prop where
  batchId : i.batchId = i.items.map fun item => item.ref
  refs : i.refs = i.items.map fun item => item.ref
  agrees : Consistent (s.source.items ++ i.items)
  started : s.mark.initialized = true
  initialized : i.cursor.initialized = true
  baseline : i.cursor.baseline = s.mark.baseline
  seen : ∀ r ∈ i.cursor.seen, r ∈ i.cursor.baseline ∨ s.HasEvent r ∨ r ∈ i.refs

/-- **The invariant of a watch.** -/
structure Store.Sound (s : Store) : Prop where
  source : s.source.Ok
  logged : s.Logged
  accepted : ∀ r, s.HasEvent r → r ∈ s.source.items.map fun item => item.ref
  blank : s.mark.initialized = false → s.mark.baseline = []
  seen : ∀ r ∈ s.mark.seen, r ∈ s.mark.baseline ∨ s.HasEvent r
  staged : ∀ i, s.intent = some i → s.Staged i

/-- What never changes, and only grows. -/
structure Later (s t : Store) : Prop where
  events : ∀ r, s.HasEvent r → t.HasEvent r
  items : s.source.items <+: t.source.items
  started : s.mark.initialized = true →
    t.mark.initialized = true ∧ t.mark.baseline = s.mark.baseline

theorem Later.refl (s : Store) : Later s s :=
  ⟨fun _ hr => hr, List.prefix_rfl, fun h => ⟨h, rfl⟩⟩

theorem Later.trans {s t u : Store} (h : Later s t) (h' : Later t u) : Later s u where
  events r hr := h'.events r (h.events r hr)
  items := h.items.trans h'.items
  started hs := by
    obtain ⟨ht, hbaseline⟩ := h.started hs
    obtain ⟨hu, hbaseline'⟩ := h'.started ht
    exact ⟨hu, hbaseline'.trans hbaseline⟩

theorem Store.Sound.saveCursor {s : Store} (h : s.Sound) {c : Cursor}
    (hstarted : s.mark.initialized = true → c.initialized = true ∧ c.baseline = s.mark.baseline)
    (hblank : c.initialized = false → c.baseline = [])
    (hseen : ∀ r ∈ c.seen, r ∈ c.baseline ∨ s.HasEvent r) :
    Store.Sound { s with cursor := some c } ∧ Later s { s with cursor := some c } := by
  refine ⟨⟨h.source, ⟨h.logged.own, h.logged.recent⟩, h.accepted, hblank, hseen, fun i hi => ?_⟩,
    fun _ hr => hr, List.prefix_rfl, hstarted⟩
  have hi := h.staged i hi
  obtain ⟨hinit, hbaseline⟩ := hstarted hi.started
  exact ⟨hi.batchId, hi.refs, hi.agrees, hinit, hi.initialized, hi.baseline.trans hbaseline.symm,
    hi.seen⟩

/-! ### Delivery of an intent -/

/-- What the delivery of an intent changes, as far as it got. -/
structure Moved (s : Store) (i : Intent) (t : Store) : Prop where
  sound : t.Sound
  later : Later s t
  watch : t.watch = s.watch
  anchors : t.anchors = s.anchors
  attention : t.attention = s.attention
  only : ∀ item ∈ t.source.items, item ∈ s.source.items ∨ item ∈ i.items

/-- The intent is staged. -/
structure Pending (s : Store) (i : Intent) (t : Store) : Prop extends Moved s i t where
  intent : t.intent = some i
  cursor : t.cursor = s.cursor

/-- The intent is finished. -/
structure Delivered (s : Store) (i : Intent) (t : Store) : Prop extends Moved s i t where
  intent : t.intent = none
  cursor : t.cursor = some i.cursor
  events : ∀ r ∈ i.refs, t.HasEvent r

theorem Pending.refl {s : Store} (h : s.Sound) {i : Intent} (hi : s.intent = some i) :
    Pending s i s :=
  ⟨⟨h, .refl s, rfl, rfl, rfl, fun _ h => .inl h⟩, hi, rfl⟩

variable {s t : Store} {i : Intent}

theorem Pending.submit (h : Pending s i t) :
    ∃ m, t.source.submit i.batchId i.items = .ok m ∧ Pending s i { t with source := m } ∧
      i.refs ⊆ m.items.map fun item => item.ref := by
  have hstaged := h.sound.staged i h.intent
  obtain ⟨m, hm, hok, hgains⟩ := h.sound.source.submit hstaged.agrees
  refine ⟨m, by rw [hstaged.batchId, hm], ⟨⟨?_, ?_, h.watch, h.anchors, h.attention, ?_⟩,
    h.intent, h.cursor⟩, ?_⟩
  · refine ⟨hok, ⟨h.sound.logged.own, h.sound.logged.recent⟩, ?_, h.sound.blank, h.sound.seen, ?_⟩
    · exact fun r hr => List.map_subset _ hgains.kept.subset (h.sound.accepted r hr)
    · intro i' hi'
      have hi' := h.sound.staged i' hi'
      refine ⟨hi'.batchId, hi'.refs, ?_, hi'.started, hi'.initialized, hi'.baseline, hi'.seen⟩
      obtain rfl : i = i' := Option.some.inj (h.intent.symm.trans ‹_›)
      refine hi'.agrees.subset (List.append_subset.mpr ⟨fun a ha => ?_, ?_⟩)
      · exact List.mem_append.mpr (hgains.only a ha)
      · exact List.subset_append_right ..
  · exact h.later.trans ⟨fun _ hr => hr, hgains.kept, fun hs => ⟨hs, rfl⟩⟩
  · intro item hitem
    rcases hgains.only item hitem with hitem | hitem
    · exact h.only item hitem
    · exact .inr hitem
  · rw [hstaged.refs]
    exact List.map_subset _ hgains.all

theorem Pending.finish (h : Pending s i t)
    (haccepted : i.refs ⊆ t.source.items.map fun item => item.ref) :
    ∃ u, t.finish i = .ok u ∧ Delivered s i u := by
  have hstaged := h.sound.staged i h.intent
  obtain ⟨v, hv, hrecords⟩ := foldlM_record_ok h.sound.logged i.observedAt i.refs
  have hrest := hrecords.rest
  have hsource : v.source = t.source := by rw [hrest]
  refine ⟨{ v with cursor := some i.cursor, intent := none }, ?_, ⟨⟨?_, ?_, ?_, ?_, ?_, ?_⟩,
    rfl, rfl, hrecords.all⟩⟩
  · rw [Store.finish, hv]
    rfl
  · refine ⟨hsource ▸ h.sound.source, ⟨hrecords.logged.own, hrecords.logged.recent⟩, ?_, ?_, ?_, ?_⟩
    · rintro r ⟨e, he⟩
      change r ∈ v.source.items.map _
      rw [hsource]
      rcases hrecords.only r e he with he | hr
      · exact h.sound.accepted r ⟨e, he⟩
      · exact haccepted hr
    · exact fun hinit => absurd (hstaged.initialized.symm.trans hinit) (by simp)
    · intro r hr
      rcases hstaged.seen r hr with hr | ⟨e, he⟩ | hr
      · exact .inl hr
      · exact .inr ⟨e, hrecords.kept r e he⟩
      · exact .inr (hrecords.all r hr)
    · exact fun _ hi => by cases hi
  · refine h.later.trans ⟨fun r ⟨e, he⟩ => ⟨e, hrecords.kept r e he⟩, ?_, fun _ => ?_⟩
    · exact hsource ▸ List.prefix_rfl
    · exact ⟨hstaged.initialized, hstaged.baseline⟩
  · exact (congrArg Store.watch hrest).trans h.watch
  · exact (congrArg Store.anchors hrest).trans h.anchors
  · exact (congrArg Store.attention hrest).trans h.attention
  · exact fun item hitem => h.only item (hsource ▸ hitem)

/-! ### Operations that may fail -/

section Operations

variable {answer : Except Failure Answer} {β : Type} {o : Op β} {a : β} {I E : Store → Prop}

theorem secure_call {G : β → Store → Prop} (hop : handler answer β o s = (.ok a, t)) (hI : I s)
    (hI' : I t) (hE : E s) (hE' : o.remote → E t) (hG : G a t) :
    (Program.perform o).Secure (mayFail answer) I (Program.Outcome E G) s := by
  refine .perform hI fun r u hcall => ?_
  rcases hcall with hcall | ⟨e, rfl, rfl | ⟨hremote, rfl⟩⟩
  · rw [hop] at hcall
    obtain ⟨rfl, rfl⟩ := Prod.mk.inj hcall
    exact ⟨hI', hG⟩
  · exact ⟨hI, hE⟩
  · rw [hop]
    exact ⟨hI', hE' hremote⟩

theorem secure_read (hop : handler answer β o s = (.ok a, s)) (hI : I s) (hE : E s) :
    (Program.perform o).Secure (mayFail answer) I (Program.Outcome E fun b t => b = a ∧ t = s) s :=
  secure_call hop hI hI hE (fun _ => hE) ⟨rfl, rfl⟩

theorem secure_fetch (headers : Headers) (hI : I s) (hE : E s) :
    (Program.perform (.fetch headers)).Secure (mayFail answer) I
      (Program.Outcome E fun b t => answer = .ok b ∧ t = s) s := by
  refine .perform hI fun r u hcall => ?_
  rcases hcall with hcall | ⟨e, rfl, rfl | ⟨hremote, -⟩⟩
  · obtain ⟨rfl, rfl⟩ := Prod.mk.inj hcall
    cases r with
    | ok b => exact ⟨hI, rfl, rfl⟩
    | error e => exact ⟨hI, hE⟩
  · exact ⟨hI, hE⟩
  · cases hremote

theorem secure_finish (h : Pending s i t)
    (haccepted : i.refs ⊆ t.source.items.map fun item => item.ref) :
    (Program.perform (.finish i)).Secure (mayFail answer)
      (fun u => Pending s i u ∨ Delivered s i u)
      (Program.Outcome (Pending s i) fun _ => Delivered s i) t := by
  obtain ⟨u, hu, hdelivered⟩ := h.finish haccepted
  refine secure_call (t := u) (a := ()) ?_ (.inl h) (.inr hdelivered) h (fun hr => by cases hr)
    hdelivered
  rw [handler, hu]
  rfl

/-- **A delivery** leaves the intent staged, or finishes it. -/
theorem secure_deliver (h : Pending s i t) :
    (deliver i).Secure (mayFail answer) (fun u => Pending s i u ∨ Delivered s i u)
      (Program.Outcome (Pending s i) fun _ => Delivered s i) t := by
  obtain ⟨m, hm, hpending, haccepted⟩ := h.submit
  refine .andThen (G := fun _ u => u = { t with source := m }) ?_ fun _ u _ hu => ?_
  · refine secure_call (a := ()) ?_ (.inl h) (.inl hpending) h (fun _ => hpending) rfl
    rw [handler, hm]
    rfl
  · subst hu
    exact secure_finish hpending haccepted

/-! ### Recovery -/

/-- The cursor that is in force once the pending intent is finished. -/
def Store.checkpoint (s : Store) : Cursor :=
  s.intent.elim s.mark fun i => i.cursor

/-- What EventMail holds once the pending intent is finished. -/
def Store.held (s : Store) : List Item :=
  s.source.items ++ s.intent.elim [] fun i => i.items

/-- A state that a recovery leaves. -/
structure Recovering (s t : Store) : Prop where
  sound : t.Sound
  later : Later s t
  watch : t.watch = s.watch
  anchors : t.anchors = s.anchors
  attention : t.attention = s.attention
  checkpoint : t.checkpoint = s.checkpoint
  held : t.source.items ⊆ s.held

theorem Recovering.refl (h : s.Sound) : Recovering s s :=
  ⟨h, .refl s, rfl, rfl, rfl, rfl, List.subset_append_left ..⟩

theorem Moved.recovering (h : Moved s i t) (hi : s.intent = some i)
    (hcheckpoint : t.checkpoint = i.cursor) : Recovering s t where
  sound := h.sound
  later := h.later
  watch := h.watch
  anchors := h.anchors
  attention := h.attention
  checkpoint := by rw [hcheckpoint, Store.checkpoint, hi]; rfl
  held := by
    intro item hitem
    rw [Store.held, hi]
    exact List.mem_append.mpr (h.only item hitem)

theorem Delivered.recovering (h : Delivered s i t) (hi : s.intent = some i) : Recovering s t :=
  h.toMoved.recovering hi (by rw [Store.checkpoint, h.intent, Store.mark, h.cursor]; rfl)

/-- **A recovery** keeps the invariant; where submissions are allowed, no intent is left. -/
theorem secure_recover (h : s.Sound) (submitPending : Bool) :
    (recover submitPending).Secure (mayFail answer) (Recovering s)
      (Program.Outcome (fun _ => True) fun _ t =>
        Recovering s t ∧ (submitPending = true → t.intent = none)) s := by
  refine .andThen (secure_read rfl (.refl h) trivial) ?_
  rintro pending t - ⟨rfl, rfl⟩
  cases hi : t.intent with
  | none => exact .pure (.refl h) ⟨.refl h, fun _ => hi⟩
  | some i =>
      have hpending := Pending.refl h hi
      have hI : ∀ u, Pending t i u ∨ Delivered t i u → Recovering t u := by
        rintro u (hu | hu)
        · exact hu.toMoved.recovering hi (by rw [Store.checkpoint, hu.intent]; rfl)
        · exact hu.recovering hi
      have hQ : ∀ (r : Except Failure Unit) (u : Store),
          Program.Outcome (Pending t i) (fun _ => Delivered t i) r u →
          Program.Outcome (fun _ => True)
            (fun _ u => Recovering t u ∧ (submitPending = true → u.intent = none)) r u := by
        intro r u hr
        cases r with
        | ok _ => exact ⟨Delivered.recovering hr hi, fun _ => Delivered.intent hr⟩
        | error _ => trivial
      refine .andThen (secure_read rfl (.refl h) trivial) ?_
      rintro receipt u - ⟨rfl, rfl⟩
      cases hreceipt : u.source.submission i.batchId with
      | some previous =>
          obtain ⟨hid, hsub⟩ := h.source.of_submission hreceipt
          have hstaged := h.staged i hi
          refine (secure_finish hpending ?_).mono hI fun r v _ => hQ r v
          rw [hstaged.refs, ← hstaged.batchId, hid]
          exact List.map_subset _ hsub
      | none =>
          cases submitPending with
          | false => exact .pure (.refl h) ⟨.refl h, fun hb => by cases hb⟩
          | true => exact (secure_deliver hpending).mono hI fun r v _ => hQ r v

/-! ### Collection -/

/-- The item that an entry becomes now. -/
def Store.itemOf (s : Store) (entry : Entry) : Item :=
  s.watch.item s.anchors s.watch.currentPolicy
    (if s.watch.spec.eachUpdate then none else some s.attention) entry

/-- A state that a poll leaves before it changes the cursor. -/
structure Tried (s t : Store) : Prop where
  sound : t.Sound
  later : Later s t
  cursor : t.cursor = s.cursor

theorem secure_attentionOf (hI : I s) (hE : E s) :
    (attentionOf s.watch.spec).Secure (mayFail answer) I
      (Program.Outcome E fun a t =>
        a = (if s.watch.spec.eachUpdate then none else some s.attention) ∧ t = s) s := by
  unfold attentionOf
  split
  · exact .pure hI ⟨rfl, rfl⟩
  · refine .andThen (secure_read rfl hI hE) ?_
    rintro a t ht ⟨rfl, rfl⟩
    exact .pure ht ⟨rfl, rfl⟩

theorem Store.Sound.stage (h : s.Sound) (hi : s.Staged i) :
    Store.Sound { s with intent := some i } := by
  refine ⟨h.source, ⟨h.logged.own, h.logged.recent⟩, h.accepted, h.blank, h.seen, ?_⟩
  intro i' hi'
  obtain rfl := Option.some.inj hi'
  exact ⟨hi.batchId, hi.refs, hi.agrees, hi.started, hi.initialized, hi.baseline, hi.seen⟩

/-- **An admission** of entries that agree with what EventMail holds. -/
theorem secure_accept {fresh : List Entry} {checkpoint : Cursor} (now : ℤ) (h : s.Sound)
    (hintent : s.intent = none)
    (hi : i = intentOf s.watch s.anchors s.watch.currentPolicy
      (if s.watch.spec.eachUpdate then none else some s.attention) fresh checkpoint now)
    (hstaged : s.Staged i) :
    (accept s.watch fresh checkpoint now).Secure (mayFail answer)
      (fun t => t.Sound ∧ Later s t)
      (Program.Outcome (Tried s) fun _ t => t.cursor = some checkpoint ∧
        ∀ entry ∈ fresh, t.HasEvent entry.ref) s := by
  have hI : s.Sound ∧ Later s s := ⟨h, .refl s⟩
  have hE : Tried s s := ⟨h, .refl s, rfl⟩
  refine .andThen (secure_read rfl hI hE) ?_
  rintro anchors t - ⟨rfl, rfl⟩
  refine .andThen (secure_read rfl hI hE) ?_
  rintro policy t - ⟨rfl, rfl⟩
  refine .andThen (secure_attentionOf hI hE) ?_
  rintro attention t - ⟨rfl, rfl⟩
  rw [← hi]
  have hsound := h.stage hstaged
  have hlater : ∀ u, Later { t with intent := some i } u → Later t u :=
    fun u hu => ⟨hu.events, hu.items, hu.started⟩
  have hstage : handler answer Intent (.stage i) t = (.ok i, { t with intent := some i }) := by
    rw [handler, Store.stage, hintent]
  refine .andThen (G := fun a u => a = i ∧ u = { t with intent := some i }) (secure_call hstage hI
    ⟨hsound, hlater _ (.refl _)⟩ hE (fun hr => by cases hr) ⟨rfl, rfl⟩) ?_
  rintro intent u - ⟨rfl, rfl⟩
  refine .andThen (G := fun _ v => Delivered { t with intent := some intent } intent v) ?_
    fun _ v hv hdelivered => ?_
  · refine (secure_deliver (Pending.refl hsound rfl)).mono ?_ fun r v _ hr => ?_
    · rintro v (hv | hv)
      · exact ⟨hv.sound, hlater v hv.later⟩
      · exact ⟨hv.sound, hlater v hv.later⟩
    · cases r with
      | ok _ => exact hr
      | error _ => exact ⟨hr.sound, hlater v hr.later, hr.cursor⟩
  · refine .pure hv ⟨by rw [hdelivered.cursor, hi]; rfl, fun entry hentry => ?_⟩
    refine hdelivered.events _ ?_
    rw [hi]
    exact List.mem_map_of_mem hentry

/-- The references that an answer has. -/
def refsOf : Except Failure Answer → List Ref
  | .ok (.read feed _ _) => feed.refs
  | .ok .notModified | .error _ => []

/-- The entries that an answer has. -/
def entriesOf : Except Failure Answer → List Entry
  | .ok (.read feed _ _) => feed.entries
  | .ok .notModified | .error _ => []

/-- Whether references are in the baseline or recorded. -/
def Store.Covers (s : Store) (refs : List Ref) : Prop :=
  s.mark.initialized = true ∧ ∀ r ∈ refs, r ∈ s.mark.baseline ∨ s.HasEvent r

theorem mem_of_mem_rtake {n : ℕ} {r : Ref} {refs : List Ref} (hr : r ∈ refs.rtake n) : r ∈ refs :=
  List.mem_of_mem_drop hr

theorem mem_checkpoint_seen {c : Cursor} {refs : List Ref} {etag modified : Option String} {now : ℤ}
    {interval : ℕ} {r : Ref} (hr : r ∈ (c.checkpoint refs etag modified now interval).seen) :
    r ∈ c.seen ∨ r ∈ refs := by
  simp only [Cursor.checkpoint] at hr
  have hmem : r ∈ fromkeys (c.seen ++ refs) := mem_of_mem_rtake hr
  exact List.mem_append.mp (List.mem_eraseDups.mp hmem)

theorem known_of_not_fresh {feed : Feed} (h : s.Sound) {entry : Entry}
    (hentry : entry ∈ feed.entries) (hfresh : entry ∉ s.mark.fresh feed) :
    entry.ref ∈ s.mark.baseline ∨ s.HasEvent entry.ref := by
  by_contra hcon
  obtain ⟨hbaseline, hevent⟩ := not_or.mp hcon
  refine hfresh (List.mem_filter.mpr ⟨hentry, decide_eq_true ⟨fun hseen => ?_, hbaseline⟩⟩)
  exact (h.seen _ hseen).elim hbaseline hevent

/-- The fresh entries of a feed agree with what EventMail holds, where each agrees with what it
was accepted as. -/
theorem consistent_fresh {feed : Feed} {refs : Cursor} (h : s.Sound)
    (hagree : ∀ entry ∈ refs.fresh feed, ∀ item ∈ s.source.items, item.ref = entry.ref →
      item = s.itemOf entry) :
    Consistent (s.source.items ++ (refs.fresh feed).map s.itemOf) := by
  have hdistinct := Consistent.of_nodup h.source.distinct
  intro a ha b hb heq
  rcases List.mem_append.mp ha with ha | ha <;> rcases List.mem_append.mp hb with hb | hb
  · exact hdistinct a ha b hb heq
  · obtain ⟨entry, hentry, rfl⟩ := List.mem_map.mp hb
    exact hagree entry hentry a ha heq
  · obtain ⟨entry, hentry, rfl⟩ := List.mem_map.mp ha
    exact (hagree entry hentry b hb heq.symm).symm
  · obtain ⟨e, he, rfl⟩ := List.mem_map.mp ha
    obtain ⟨e', he', rfl⟩ := List.mem_map.mp hb
    have heq : e.ref = e'.ref := heq
    rw [List.inj_on_of_nodup_map feed.distinct (List.mem_of_mem_filter he)
      (List.mem_of_mem_filter he') (congrArg Ref.itemId heq)]

theorem staged_fresh {feed : Feed} (etag modified : Option String) (now : ℤ) (h : s.Sound)
    (hinit : s.mark.initialized = true)
    (hagree : ∀ entry ∈ s.mark.fresh feed, ∀ item ∈ s.source.items, item.ref = entry.ref →
      item = s.itemOf entry) :
    s.Staged (intentOf s.watch s.anchors s.watch.currentPolicy
      (if s.watch.spec.eachUpdate then none else some s.attention) (s.mark.fresh feed)
      (s.mark.checkpoint feed.refs etag modified now s.watch.spec.intervalSeconds) now) := by
  have hrefs : (s.mark.fresh feed).map (fun entry => entry.ref) =
      ((s.mark.fresh feed).map s.itemOf).map fun item => item.ref := by
    rw [List.map_map]
    rfl
  refine ⟨hrefs, hrefs, consistent_fresh h hagree, hinit, rfl, if_pos hinit, fun r hr => ?_⟩
  change r ∈ (if s.mark.initialized then s.mark.baseline else feed.refs) ∨ _
  rw [if_pos hinit]
  rcases mem_checkpoint_seen hr with hr | hr
  · exact (h.seen r hr).imp_right .inl
  · obtain ⟨entry, hentry, rfl⟩ := List.mem_map.mp hr
    by_cases hfresh : entry ∈ s.mark.fresh feed
    · exact .inr (.inr (List.mem_map_of_mem hfresh))
    · exact (known_of_not_fresh h hentry hfresh).imp_right .inl

theorem secure_saveCursor {c : Cursor} (h : s.Sound)
    (hstarted : s.mark.initialized = true → c.initialized = true ∧ c.baseline = s.mark.baseline)
    (hblank : c.initialized = false → c.baseline = [])
    (hseen : ∀ r ∈ c.seen, r ∈ c.baseline ∨ s.HasEvent r) (hE : E s) :
    (Program.perform (.saveCursor c)).Secure (mayFail answer) (fun t => t.Sound ∧ Later s t)
      (Program.Outcome E fun _ t => t = { s with cursor := some c }) s :=
  secure_call (a := ()) rfl ⟨h, .refl s⟩ (h.saveCursor hstarted hblank hseen) hE
    (fun hr => by cases hr) rfl

/-- **What a poll does with an answer**, where the fresh entries agree with what EventMail
holds: it covers the answer, or leaves the cursor. -/
theorem secure_collect (now : ℤ) (h : s.Sound) (hintent : s.intent = none)
    (hagree : ∀ entry ∈ entriesOf answer, entry.ref ∉ s.mark.seen → entry.ref ∉ s.mark.baseline →
      ∀ item ∈ s.source.items, item.ref = entry.ref → item = s.itemOf entry) :
    (collect s.watch s.mark now).Secure (mayFail answer) (fun t => t.Sound ∧ Later s t)
      (Program.Outcome (Tried s) fun _ t => t.Covers (refsOf answer)) s := by
  have hI : s.Sound ∧ Later s s := ⟨h, .refl s⟩
  have hE : Tried s s := ⟨h, .refl s, rfl⟩
  refine .andThen (secure_fetch _ hI hE) ?_
  rintro reply t - ⟨rfl, rfl⟩
  cases reply with
  | notModified =>
      dsimp only
      split
      · next hinit =>
          refine .andThen (secure_saveCursor h (fun _ => ⟨hinit, rfl⟩) h.blank h.seen hE) ?_
          rintro - u hu rfl
          exact .pure hu ⟨hinit, fun r hr => by cases hr⟩
      · exact ⟨hI, hE⟩
  | read feed etag modified =>
      have hfresh : ∀ entry ∈ t.mark.fresh feed, ∀ item ∈ t.source.items, item.ref = entry.ref →
          item = t.itemOf entry := by
        intro entry hentry
        obtain ⟨hmem, hnew⟩ := List.mem_filter.mp hentry
        exact hagree entry hmem (of_decide_eq_true hnew).1 (of_decide_eq_true hnew).2
      dsimp only
      split
      · next hinit =>
          have hbaseline : (t.mark.checkpoint feed.refs etag modified now
              t.watch.spec.intervalSeconds).baseline = feed.refs := if_neg (by simp [hinit])
          refine .andThen (secure_saveCursor h (fun hs => ?_) (fun hs => by cases hs)
            (fun r hr => ?_) hE) ?_
          · rw [hinit] at hs
            cases hs
          · rw [hbaseline]
            refine (mem_checkpoint_seen hr).symm.imp_right fun hr => ?_
            refine (h.seen r hr).resolve_left fun hmem => ?_
            rw [h.blank hinit] at hmem
            cases hmem
          · rintro - u hu rfl
            exact .pure hu ⟨rfl, fun r hr => .inl (hbaseline.symm ▸ hr)⟩
      · next hinit =>
          have hinit : t.mark.initialized = true := by simpa using hinit
          have hbaseline : (t.mark.checkpoint feed.refs etag modified now
              t.watch.spec.intervalSeconds).baseline = t.mark.baseline := if_pos hinit
          split
          · next hnone =>
              have hknown : ∀ r ∈ feed.refs, r ∈ t.mark.baseline ∨ t.HasEvent r := by
                intro r hr
                obtain ⟨entry, hentry, rfl⟩ := List.mem_map.mp hr
                exact known_of_not_fresh h hentry (hnone ▸ List.not_mem_nil)
              refine .andThen (secure_saveCursor h (fun _ => ⟨rfl, hbaseline⟩)
                (fun hs => by cases hs) (fun r hr => ?_) hE) ?_
              · rw [hbaseline]
                exact (mem_checkpoint_seen hr).elim (h.seen r) (hknown r)
              · rintro - u hu rfl
                exact .pure hu ⟨rfl, fun r hr => hbaseline.symm ▸ hknown r hr⟩
          · refine (secure_accept now h hintent rfl
              (staged_fresh etag modified now h hinit hfresh)).mono
              (fun _ hu => hu) fun r u hu hr => ?_
            cases r with
            | error _ => exact hr
            | ok _ =>
                obtain ⟨hcursor, hevents⟩ := hr
                have hmark : u.mark = t.mark.checkpoint feed.refs etag modified now
                    t.watch.spec.intervalSeconds := by rw [Store.mark, hcursor]; rfl
                refine ⟨by rw [hmark]; rfl, fun r hr => ?_⟩
                rw [hmark, hbaseline]
                obtain ⟨entry, hentry, rfl⟩ := List.mem_map.mp hr
                by_cases hmem : entry ∈ t.mark.fresh feed
                · exact .inr (hevents entry hmem)
                · exact (known_of_not_fresh h hentry hmem).imp_right (hu.2.events _)

theorem secure_handleFailure (failedAt : ℤ) (e : Failure) (h : Tried s t) :
    (handleFailure s.watch s.mark failedAt e).Secure (mayFail answer)
      (fun u => u.Sound ∧ Later s u)
      (Program.Outcome (fun _ => True) fun st u => st.successful → u.Covers (refsOf answer)) t := by
  have hmark : t.mark = s.mark := by rw [Store.mark, h.cursor]; rfl
  unfold handleFailure
  split
  · have hsave : (Program.perform (.saveCursor
        (s.mark.failed e failedAt s.watch.spec.intervalSeconds))).Secure (mayFail answer)
        (fun u => u.Sound ∧ Later t u) (Program.Outcome (fun _ => True) fun _ u =>
          u = { t with cursor := some (s.mark.failed e failedAt s.watch.spec.intervalSeconds) })
        t := by
      rw [← hmark]
      exact secure_saveCursor (E := fun _ => True) h.sound (fun hs => ⟨hs, rfl⟩) h.sound.blank
        h.sound.seen trivial
    refine .andThen (hsave.mono (fun u hu => ⟨hu.1, h.later.trans hu.2⟩) fun _ _ _ hr => hr) ?_
    exact fun _ u hu _ => .pure hu fun hs => by cases hs
  · exact ⟨⟨h.sound, h.later⟩, trivial⟩

theorem secure_pollOnce (now failedAt : ℤ) (h : s.Sound) (hintent : s.intent = none)
    (hagree : ∀ entry ∈ entriesOf answer, entry.ref ∉ s.mark.seen → entry.ref ∉ s.mark.baseline →
      ∀ item ∈ s.source.items, item.ref = entry.ref → item = s.itemOf entry) :
    (pollOnce s.watch now failedAt).Secure (mayFail answer) (fun t => t.Sound ∧ Later s t)
      (Program.Outcome (fun _ => True) fun st t => st.successful → t.Covers (refsOf answer)) s := by
  have hI : s.Sound ∧ Later s s := ⟨h, .refl s⟩
  refine .andThen (secure_read rfl hI trivial) ?_
  rintro saved t - ⟨rfl, rfl⟩
  change Program.Secure _ _ _ (match t.mark.deferredTo now with
    | some retryAt => pure (.deferred retryAt)
    | none => (collect t.watch t.mark now).catching (handleFailure t.watch t.mark failedAt)) t
  split
  · exact .pure hI fun hs => by cases hs
  · refine .orElse (E := Tried t) ?_ fun e u _ hu => secure_handleFailure failedAt e hu
    refine (secure_collect now h hintent hagree).mono (fun _ hu => hu) fun r u _ hr => ?_
    cases r with
    | ok st => exact fun _ => hr
    | error e => exact hr

/-- **The condition**: an entry that EventMail holds is in the baseline, or the cursor has still
seen it, or it would be submitted as it was. -/
def Unforgotten (s : Store) (answer : Except Failure Answer) : Prop :=
  ∀ entry ∈ entriesOf answer, ∀ item ∈ s.held, item.ref = entry.ref →
    entry.ref ∈ s.checkpoint.baseline ∨ entry.ref ∈ s.checkpoint.seen ∨ item = s.itemOf entry

/-- **A poll** that meets the condition keeps the invariant; where it succeeds, it covers the
answer. -/
theorem secure_poll (now failedAt : ℤ) (h : s.Sound) (hanswer : Unforgotten s answer) :
    (poll now failedAt).Secure (mayFail answer) (fun t => t.Sound ∧ Later s t)
      (Program.Outcome (fun _ => True) fun st t => st.successful → t.Covers (refsOf answer)) s := by
  have hI : s.Sound ∧ Later s s := ⟨h, .refl s⟩
  refine .andThen (secure_read rfl hI trivial) ?_
  rintro watch t - ⟨rfl, rfl⟩
  refine .andThen ((secure_recover h t.watch.enabled).mono (fun u hu => ⟨hu.sound, hu.later⟩)
    fun _ _ _ hr => hr) ?_
  rintro - u hu ⟨hrecovering, hnone⟩
  split
  · next henabled =>
      have hintent := hnone henabled
      have hmark : u.mark = t.checkpoint := by
        rw [← hrecovering.checkpoint, Store.checkpoint, hintent]
        rfl
      have hitem : u.itemOf = t.itemOf := by
        funext entry
        rw [Store.itemOf, hrecovering.watch, hrecovering.anchors, hrecovering.attention]
        rfl
      rw [← hrecovering.watch]
      refine (secure_pollOnce now failedAt hrecovering.sound hintent ?_).mono
        (fun v hv => ⟨hv.1, hu.2.trans hv.2⟩) fun _ _ _ hr => hr
      intro entry hentry hseen hbaseline item hitem' heq
      rw [hmark] at hseen hbaseline
      rw [hitem]
      rcases hanswer entry hentry item (hrecovering.held hitem') heq with hb | hs | heq
      · exact absurd hb hbaseline
      · exact absurd hs hseen
      · exact heq
  · exact .pure hu fun hs => by cases hs

end Operations

/-! ### Runs -/

/-- A watch, and the references of the feeds that were polled with success. -/
structure World where
  store : Store
  due : List Ref

/-- What happens to a watch. -/
inductive Action where
  /-- A poll, which the server answers. It may be cut short anywhere, and any of its operations
  may fail. -/
  | poll (answer : Except Failure Answer) (now failedAt : ℤ)
  /-- A revision of the rule, by a message. -/
  | revise (purpose messageId recordedAt : String)
  /-- Feedback that sets the attention. -/
  | rate (attention : Attention)
  | setEnabled (enabled : Bool)

/-- The references that a poll has read, where it has ended with success. -/
def collected (answer : Except Failure Answer) : Task Status → List Ref
  | .done status => if status.successful then refsOf answer else []
  | .raise _ | .call .. => []

/-- A watch with another rule. -/
def Watch.revise (watch : Watch) (purpose messageId recordedAt : String) : Watch :=
  { watch with
    policy := some
      ⟨watch.currentPolicy.revision + 1, purpose, some messageId, some recordedAt⟩ }

/-- What an action does. -/
def World.Step (w : World) : Action → World → Prop
  | .poll answer now failedAt, w' => ∃ rest t,
      (poll now failedAt).Steps (mayFail answer) w.store rest t ∧
        w' = ⟨t, w.due ++ collected answer rest⟩
  | .revise purpose messageId recordedAt, w' => w' =
      { w with store.watch := w.store.watch.revise purpose messageId recordedAt }
  | .rate attention, w' => w' = { w with store.attention := attention }
  | .setEnabled enabled, w' => w' = { w with store.watch.enabled := enabled }

/-- A watch that was never polled. -/
def World.Initial (w : World) : Prop :=
  w.store.cursor = none ∧ w.store.intent = none ∧ w.store.events = .empty ∧
    w.store.recent = .empty ∧ w.store.source = ⟨[], []⟩ ∧ w.due = []

/-- The runs of a watch. -/
def polls : Transition.System World Action where
  init := World.Initial
  step := World.Step

/-- The condition on the actions of a run. -/
def Remembers (w : World) : Action → Prop
  | .poll answer _ _ => Unforgotten w.store answer
  | .revise .. | .rate _ | .setEnabled _ => True

/-- What holds of a watch in all these runs. -/
structure World.Sound (w : World) : Prop where
  store : w.store.Sound
  covered : ∀ r ∈ w.due, w.store.mark.initialized = true ∧
    (r ∈ w.store.mark.baseline ∨ w.store.HasEvent r)

variable {w : World}

theorem World.Initial.sound (h : w.Initial) : w.Sound := by
  obtain ⟨hcursor, hintent, hevents, hrecent, hsource, hdue⟩ := h
  have hmark : w.store.mark = {} := by rw [Store.mark, hcursor]; rfl
  have hnone : ∀ r, ¬w.store.HasEvent r := by
    rintro r ⟨v, hv⟩
    rw [hevents] at hv
    cases hv
  refine ⟨⟨?_, ⟨?_, ?_⟩, ?_, ?_, ?_, ?_⟩, ?_⟩
  · rw [hsource]
    exact ⟨List.nodup_nil, fun _ hb => by cases hb⟩
  · exact fun r v hv => absurd ⟨v, hv⟩ (hnone r)
  · rw [hevents, hrecent]
    exact fun _ _ _ => ⟨fun hv => (by cases hv), fun hv => (by cases hv.1)⟩
  · exact fun r hr => absurd hr (hnone r)
  · rw [hmark]
    exact fun _ => rfl
  · rw [hmark]
    exact fun _ hr => by cases hr
  · rw [hintent]
    exact fun _ hi => by cases hi
  · rw [hdue]
    exact fun _ hr => by cases hr

theorem Later.covers (h : Later s t) {r : Ref}
    (hr : s.mark.initialized = true ∧ (r ∈ s.mark.baseline ∨ s.HasEvent r)) :
    t.mark.initialized = true ∧ (r ∈ t.mark.baseline ∨ t.HasEvent r) := by
  obtain ⟨hinit, hbaseline⟩ := h.started hr.1
  rw [hbaseline]
  exact ⟨hinit, hr.2.imp_right (h.events r)⟩

/-- **The step lemma.** -/
theorem World.Sound.step {w' : World} {a : Action} (h : w.Sound) (hguard : Remembers w a)
    (hstep : w.Step a w') : w'.Sound := by
  have hsame : ∀ s : Store, { s with watch := w.store.watch, attention := w.store.attention } =
      w.store → s.Sound := by
    intro s hs
    have hstore := h.store
    rw [← hs] at hstore
    exact ⟨hstore.source, ⟨hstore.logged.own, hstore.logged.recent⟩, hstore.accepted, hstore.blank,
      hstore.seen, fun i hi =>
        let hi := hstore.staged i hi
        ⟨hi.batchId, hi.refs, hi.agrees, hi.started, hi.initialized, hi.baseline, hi.seen⟩⟩
  cases a with
  | poll answer now failedAt =>
      obtain ⟨rest, t, hsteps, rfl⟩ := hstep
      have hsecure := (secure_poll now failedAt h.store hguard).steps hsteps
      obtain ⟨hsound, hlater⟩ := hsecure.here
      refine ⟨hsound, fun r hr => ?_⟩
      rcases List.mem_append.mp hr with hr | hr
      · exact hlater.covers (h.covered r hr)
      · cases rest with
        | done status =>
            rw [collected] at hr
            split at hr
            · next hs => exact ⟨(hsecure.2 hs).1, (hsecure.2 hs).2 r hr⟩
            · cases hr
        | raise e => cases hr
        | call o k => cases hr
  | revise purpose messageId recordedAt =>
      subst hstep
      exact ⟨hsame _ rfl, h.covered⟩
  | rate attention =>
      subst hstep
      exact ⟨hsame _ rfl, h.covered⟩
  | setEnabled enabled =>
      subst hstep
      exact ⟨hsame _ rfl, h.covered⟩

/-! ### Undisturbed polls -/

theorem Pending.run_deliver (h : Pending s i t) (answer : Except Failure Answer) :
    ∃ u, (deliver i).run (handler answer) t = (.ok (), u) ∧ Delivered s i u := by
  obtain ⟨m, hm, hpending, haccepted⟩ := h.submit
  obtain ⟨u, hu, hdelivered⟩ := hpending.finish haccepted
  have hsubmit : handler answer _ (.submit i.batchId i.items) t =
      (.ok (), { t with source := m }) := by
    rw [handler, hm]
    rfl
  refine ⟨u, ?_, hdelivered⟩
  rw [deliver, Program.run_perform_bind_of_ok hsubmit, Program.run_perform, handler, hu]
  rfl

theorem run_recover_none (hintent : s.intent = none) (submitPending : Bool)
    (answer : Except Failure Answer) :
    (recover submitPending).run (handler answer) s = (.ok (), s) := by
  have hread : handler answer _ .intent s = (.ok none, s) := by rw [handler, hintent]
  rw [recover, Program.run_perform_bind_of_ok hread]
  rfl

theorem run_attentionOf (answer : Except Failure Answer) (s : Store) :
    (attentionOf s.watch.spec).run (handler answer) s =
      (.ok (if s.watch.spec.eachUpdate then none else some s.attention), s) := by
  unfold attentionOf
  split <;> rfl

theorem run_accept {fresh : List Entry} {checkpoint : Cursor} (now : ℤ)
    (hintent : s.intent = none)
    (hi : i = intentOf s.watch s.anchors s.watch.currentPolicy
      (if s.watch.spec.eachUpdate then none else some s.attention) fresh checkpoint now)
    (answer : Except Failure Answer) :
    (accept s.watch fresh checkpoint now).run (handler answer) s =
      (deliver i >>= fun _ => pure (Status.submitted i.refs)).run (handler answer)
        { s with intent := some i } := by
  have hstage : handler answer _ (.stage i) s = (.ok i, { s with intent := some i }) := by
    rw [handler, Store.stage, hintent]
  have hanchors : handler answer _ .anchors s = (.ok s.anchors, s) := rfl
  have hpolicy : handler answer _ (.policy s.watch) s = (.ok s.watch.currentPolicy, s) := rfl
  rw [accept, Program.run_perform_bind_of_ok hanchors, Program.run_perform_bind_of_ok hpolicy,
    Program.run_bind_of_ok (run_attentionOf answer s), ← hi,
    Program.run_perform_bind_of_ok hstage]

theorem run_collect {feed : Feed} {etag modified : Option String} (now : ℤ)
    (hinit : s.mark.initialized = true) (hfresh : s.mark.fresh feed ≠ []) :
    (collect s.watch s.mark now).run (handler (.ok (.read feed etag modified))) s =
      (accept s.watch (s.mark.fresh feed)
        (s.mark.checkpoint feed.refs etag modified now s.watch.spec.intervalSeconds) now).run
        (handler (.ok (.read feed etag modified))) s := by
  have hfetch : handler (.ok (.read feed etag modified)) _ (.fetch s.mark.headers) s =
      (.ok (.read feed etag modified), s) := rfl
  rw [collect, Program.run_perform_bind_of_ok hfetch]
  dsimp only
  rw [if_neg (by simp [hinit]), if_neg hfresh]

theorem run_poll {answer : Except Failure Answer} (now failedAt : ℤ)
    (hintent : s.intent = none) (henabled : s.watch.enabled = true)
    (hretry : s.mark.retryNotBefore = none) :
    (poll now failedAt).run (handler answer) s =
      ((collect s.watch s.mark now).catching (handleFailure s.watch s.mark failedAt)).run
        (handler answer) s := by
  have hwatch : handler answer _ .watch s = (.ok s.watch, s) := rfl
  have hcursor : handler answer _ .cursor s = (.ok s.cursor, s) := rfl
  have hdeferred : s.mark.deferredTo now = none := by
    rw [Cursor.deferredTo, hretry]
    rfl
  rw [poll, Program.run_perform_bind_of_ok hwatch,
    Program.run_bind_of_ok (run_recover_none hintent _ answer), if_pos henabled, pollOnce,
    Program.run_perform_bind_of_ok hcursor]
  change Program.run _ (match s.mark.deferredTo now with
    | some retryAt => pure (.deferred retryAt)
    | none => (collect s.watch s.mark now).catching (handleFailure s.watch s.mark failedAt)) s = _
  rw [hdeferred]

/-- **A poll that nothing disturbs** delivers the fresh entries, where they agree with what
EventMail holds. -/
theorem run_poll_fresh {feed : Feed} (etag modified : Option String) (now failedAt : ℤ)
    (h : s.Sound) (hintent : s.intent = none) (henabled : s.watch.enabled = true)
    (hretry : s.mark.retryNotBefore = none) (hinit : s.mark.initialized = true)
    (hfresh : s.mark.fresh feed ≠ [])
    (hi : i = intentOf s.watch s.anchors s.watch.currentPolicy
      (if s.watch.spec.eachUpdate then none else some s.attention) (s.mark.fresh feed)
      (s.mark.checkpoint feed.refs etag modified now s.watch.spec.intervalSeconds) now)
    (hstaged : s.Staged i) :
    ∃ t, (poll now failedAt).run (handler (.ok (.read feed etag modified))) s =
        (.ok (.submitted i.refs), t) ∧ Delivered { s with intent := some i } i t := by
  obtain ⟨t, hdeliver, hdelivered⟩ :=
    (Pending.refl (h.stage hstaged) rfl).run_deliver (.ok (.read feed etag modified))
  refine ⟨t, ?_, hdelivered⟩
  rw [run_poll now failedAt hintent henabled hretry]
  refine Program.run_catching_of_ok ?_ _
  rw [run_collect now hinit hfresh, run_accept now hintent hi,
    Program.run_bind_of_ok hdeliver]
  rfl

/-! ### What is promised -/

/-- What is promised of a watch: every reference that was read and is not in the baseline is
accepted once and recorded once, the cursor has seen only what is in the baseline or accepted,
and an intent that is submitted again is finished. -/
structure World.Collected (w : World) : Prop where
  accepted : ∀ r ∈ w.due, r ∉ w.store.mark.baseline →
    (w.store.source.items.map fun item => item.ref).count r = 1
  recorded : ∀ r ∈ w.due, r ∉ w.store.mark.baseline →
    ∃ v, w.store.events.get? r = some v ∧ v.ref = r ∧
      ∀ at' v', w.store.recent.get? (at', r) = some v' ↔ at' = v.observedAt ∧ v' = v
  seen : ∀ r ∈ w.store.mark.seen,
    r ∈ w.store.mark.baseline ∨ r ∈ w.store.source.items.map fun item => item.ref
  recovers : ∀ i, w.store.intent = some i → ∀ answer, ∃ t,
    (recover true).run (handler answer) w.store = (.ok (), t) ∧ t.intent = none

theorem Store.Sound.run_recover (h : s.Sound) (hi : s.intent = some i)
    (answer : Except Failure Answer) :
    ∃ t, (recover true).run (handler answer) s = (.ok (), t) ∧ t.intent = none := by
  have hpending := Pending.refl h hi
  have hread : handler answer _ .intent s = (.ok (some i), s) := by rw [handler, hi]
  rw [recover, Program.run_perform_bind_of_ok hread]
  cases hreceipt : s.source.submission i.batchId with
  | some previous =>
      obtain ⟨hid, hsub⟩ := h.source.of_submission hreceipt
      have hstaged := h.staged i hi
      obtain ⟨u, hu, hdelivered⟩ := hpending.finish (by
        rw [hstaged.refs, ← hstaged.batchId, hid]
        exact List.map_subset _ hsub)
      have hreceipt : handler answer _ (.submission i.batchId) s = (.ok (some previous), s) := by
        rw [handler, hreceipt]
      refine ⟨u, (Program.run_perform_bind_of_ok hreceipt _).trans ?_, hdelivered.intent⟩
      dsimp only
      rw [Program.run_perform, handler, hu]
      rfl
  | none =>
      obtain ⟨u, hdeliver, hdelivered⟩ := hpending.run_deliver answer
      have hreceipt : handler answer _ (.submission i.batchId) s = (.ok none, s) := by
        rw [handler, hreceipt]
      exact ⟨u, (Program.run_perform_bind_of_ok hreceipt _).trans hdeliver, hdelivered.intent⟩

theorem World.Sound.collected (h : w.Sound) : w.Collected where
  accepted r hr hbaseline := List.count_eq_one_of_mem h.store.source.distinct
    (h.store.accepted r ((h.covered r hr).2.resolve_left hbaseline))
  recorded r hr hbaseline := by
    obtain ⟨v, hv⟩ := (h.covered r hr).2.resolve_left hbaseline
    refine ⟨v, hv, h.store.logged.own r v hv, fun at' v' => ?_⟩
    rw [h.store.logged.recent, hv]
    constructor
    · rintro ⟨hv', rfl⟩
      obtain rfl := Option.some.inj hv'
      exact ⟨rfl, rfl⟩
    · rintro ⟨rfl, rfl⟩
      exact ⟨rfl, rfl⟩
  seen r hr := (h.store.seen r hr).imp_right (h.store.accepted r)
  recovers _ hi := h.store.run_recover hi

/-! ### An entry that comes back -/

theorem World.step_of_run {answer : Except Failure Answer} {now failedAt : ℤ}
    {r : Except Failure Status} (hrun : (poll now failedAt).run (handler answer) w.store = (r, t)) :
    polls.step w (.poll answer now failedAt) ⟨t, w.due ++ collected answer (.ofExcept r)⟩ := by
  refine ⟨_, t, ?_, rfl⟩
  have hsteps := Program.steps_run (X := mayFail answer) (h := handler answer)
    (fun _ _ _ => .inl rfl) (poll now failedAt) w.store
  rw [hrun] at hsteps
  exact hsteps

/-- An intent that EventMail refuses. -/
structure Store.Refused (s : Store) (i : Intent) : Prop where
  intent : s.intent = some i
  submission : s.source.submission i.batchId = none
  submit : s.source.submit i.batchId i.items = .error .identityConflict

/-- A refused intent stays where it is: every poll ends at its recovery. -/
theorem World.Step.refused {w' : World} {a : Action} (hstep : w.Step a w') (h : w.store.Refused i) :
    w'.store.intent = w.store.intent ∧ w'.store.source = w.store.source := by
  cases a with
  | poll answer now failedAt =>
      obtain ⟨rest, t, hsteps, rfl⟩ := hstep
      suffices hsecure : (poll now failedAt).Secure (mayFail answer)
          (fun t => t.intent = some i ∧ t.source = w.store.source)
          (Program.Outcome (fun _ => True) fun _ _ => True) w.store by
        rw [h.intent]
        exact hsecure.cut ⟨rest, hsteps⟩
      have hI : w.store.intent = some i ∧ w.store.source = w.store.source := ⟨h.intent, rfl⟩
      refine .andThen (secure_read rfl hI trivial) ?_
      rintro watch s - ⟨rfl, rfl⟩
      refine .andThen (G := fun _ _ => w.store.watch.enabled = false) ?_ fun _ t ht hpaused => ?_
      · refine .andThen (secure_read rfl hI trivial) ?_
        rintro pending s - ⟨rfl, rfl⟩
        rw [h.intent]
        refine .andThen (secure_read rfl hI trivial) ?_
        rintro receipt s - ⟨rfl, rfl⟩
        rw [h.submission]
        dsimp only
        split
        · have hsubmit : handler answer _ (.submit i.batchId i.items) w.store =
              (.error .identityConflict, w.store) := by
            rw [handler, h.submit]
            rfl
          refine .andThen (G := fun _ _ => False) (.perform hI fun r t hcall => ?_)
            fun _ _ _ hfalse => hfalse.elim
          rw [mayFail, hsubmit] at hcall
          rcases hcall with hcall | ⟨e, rfl, rfl | ⟨-, rfl⟩⟩
          · obtain ⟨rfl, rfl⟩ := Prod.mk.inj hcall
            exact ⟨hI, trivial⟩
          · exact ⟨hI, trivial⟩
          · exact ⟨hI, trivial⟩
        · next hpaused => exact .pure hI (eq_false_of_ne_true hpaused)
      · rw [hpaused]
        exact .pure ht trivial
  | revise purpose messageId recordedAt =>
      subst hstep
      exact ⟨rfl, rfl⟩
  | rate attention =>
      subst hstep
      exact ⟨rfl, rfl⟩
  | setEnabled enabled =>
      subst hstep
      exact ⟨rfl, rfl⟩

theorem run_refused {w' : World} (h : w.store.Refused i) (hrun : polls.Run w w') :
    w'.store.Refused i ∧ w'.store.source = w.store.source := by
  refine hrun.preserves (I := fun w' => w'.store.Refused i ∧ w'.store.source = w.store.source)
    ?_ ⟨h, rfl⟩
  rintro w₁ a w₂ ⟨hrefused, hsource⟩ - hstep
  obtain ⟨hintent, hsame⟩ := World.Step.refused hstep hrefused
  refine ⟨⟨hintent.trans hrefused.intent, ?_, ?_⟩, hsame.trans hsource⟩
  · rw [hsame]
    exact hrefused.submission
  · rw [hsame]
    exact hrefused.submit

/-- A watch that reviews each update. -/
def sampleWatch : Watch where
  spec := ⟨"session", "Feed", "news", 900, true⟩
  project := none
  createdAt := "2026-01-01T00:00:00+00:00"
  enabled := true
  policy := none

/-- The watch before its first poll. -/
def sampleStore : Store where
  watch := sampleWatch
  anchors := []
  attention := ⟨1, false⟩
  cursor := none
  intent := none
  events := .empty
  recent := .empty
  source := ⟨[], []⟩

/-- One entry for each number. -/
def sampleEntry (n : ℕ) : Entry where
  ref := ⟨String.ofList (List.replicate n 'a'), "1"⟩
  payload := ⟨"title", "text", "https://example.org/", none, false⟩

theorem sampleEntry_ref {m n : ℕ} : (sampleEntry m).ref = (sampleEntry n).ref ↔ m = n := by
  constructor
  · intro h
    have hid := congrArg (fun r => r.itemId.toList.length) h
    simpa [sampleEntry] using hid
  · rintro rfl
    rfl

theorem nil_few : ([] : List Entry).length ≤ 100 := by decide

/-- A feed without entries. -/
def emptyFeed : Feed := ⟨[], nil_few, List.nodup_nil⟩

theorem singleton_few (entry : Entry) : [entry].length ≤ 100 := by simp

/-- A feed with one entry. -/
def feedOf (entry : Entry) : Feed :=
  ⟨[entry], singleton_few entry, List.nodup_singleton _⟩

/-- What holds after a number of polls, each of which has read a new entry alone. -/
structure Filled (n : ℕ) (w : World) : Prop where
  reach : polls.ReachableVia Remembers w
  watch : w.store.watch = sampleWatch
  anchors : w.store.anchors = []
  intent : w.store.intent = none
  initialized : w.store.mark.initialized = true
  retry : w.store.mark.retryNotBefore = none
  baseline : w.store.mark.baseline = []
  seen : w.store.mark.seen =
    ((List.range n).map fun k => (sampleEntry k).ref).rtake maxSeen
  refs : ∀ k, (sampleEntry k).ref ∈ w.store.source.items.map (fun item => item.ref) ↔ k < n
  first : ∀ item ∈ w.store.source.items, item.ref = (sampleEntry 0).ref →
    item = sampleStore.itemOf (sampleEntry 0)

theorem Filled.sound {n : ℕ} (h : Filled n w) : w.Sound :=
  h.reach.invariant (fun _ hinit => World.Initial.sound hinit) fun _ _ _ hsound hguard hstep =>
    hsound.step hguard hstep

theorem filled_zero : ∃ w, Filled 0 w := by
  let c : Cursor := Cursor.checkpoint {} [] none none 0 900
  have hrun : (poll 0 0).run (handler (.ok (.read emptyFeed none none))) sampleStore =
      (.ok (.baseline 0), { sampleStore with cursor := some c }) := rfl
  have hstep := World.step_of_run (w := ⟨sampleStore, []⟩) hrun
  refine ⟨⟨{ sampleStore with cursor := some c }, []⟩, ?_, rfl, rfl, rfl, rfl, rfl, rfl, rfl, ?_,
    ?_⟩
  · refine Transition.System.ReachableVia.step (.init ⟨rfl, rfl, rfl, rfl, rfl, rfl⟩) ?_ hstep
    exact fun _ hentry => by cases hentry
  · exact fun k => ⟨fun hk => (by cases hk), fun hk => (by cases hk)⟩
  · exact fun _ hitem => by cases hitem

theorem fromkeys_of_nodup {refs : List Ref} (h : refs.Nodup) : fromkeys refs = refs := by
  unfold fromkeys
  induction refs with
  | nil => rfl
  | cons r refs ih =>
      obtain ⟨hr, hrefs⟩ := List.nodup_cons.mp h
      have hfilter : refs.filter (fun b => !b == r) = refs := by
        refine List.filter_eq_self.mpr fun b hb => ?_
        have hne : b ≠ r := fun heq => hr (heq ▸ hb)
        simpa using hne
      rw [List.eraseDups_cons, hfilter, ih hrefs]

theorem rtake_rtake_append (refs : List Ref) (r : Ref) (m : ℕ) :
    (refs.rtake m ++ [r]).rtake m = (refs ++ [r]).rtake m := by
  cases m with
  | zero => simp
  | succ m =>
      rw [List.rtake_concat_succ, List.rtake_concat_succ]
      simp only [List.rtake_eq_reverse_take_reverse, List.reverse_reverse, List.take_take]
      rw [Nat.min_eq_left (Nat.le_succ m)]

theorem rtake_append_sublist (refs : List Ref) (r : Ref) (m : ℕ) :
    (refs.rtake m ++ [r]).Sublist (refs ++ [r]) :=
  (List.drop_sublist _ _).append (List.Sublist.refl _)

theorem Filled.next {n : ℕ} (h : Filled n w) : ∃ w', Filled (n + 1) w' := by
  have hsound := h.sound.store
  have hnew : (sampleEntry n).ref ∉ w.store.source.items.map fun item => item.ref :=
    fun hmem => absurd ((h.refs n).mp hmem) (Nat.lt_irrefl n)
  have hrange : ((List.range (n + 1)).map fun k => (sampleEntry k).ref) =
      ((List.range n).map fun k => (sampleEntry k).ref) ++ [(sampleEntry n).ref] := by
    rw [List.range_succ, List.map_append]
    rfl
  have hnodup : (((List.range n).map fun k => (sampleEntry k).ref) ++
      [(sampleEntry n).ref]).Nodup := by
    rw [← hrange]
    exact List.Nodup.map (fun _ _ heq => sampleEntry_ref.mp heq) List.nodup_range
  have hfresh : w.store.mark.fresh (feedOf (sampleEntry n)) = [sampleEntry n] := by
    refine List.filter_eq_self.mpr fun entry hentry => ?_
    obtain rfl := List.mem_singleton.mp hentry
    rw [h.baseline, h.seen]
    refine decide_eq_true ⟨fun hmem => ?_, List.not_mem_nil⟩
    exact List.disjoint_of_nodup_append hnodup (mem_of_mem_rtake hmem) (List.mem_singleton.mpr rfl)
  have hagree : ∀ entry ∈ w.store.mark.fresh (feedOf (sampleEntry n)),
      ∀ item ∈ w.store.source.items, item.ref = entry.ref → item = w.store.itemOf entry := by
    intro entry hentry item hitem heq
    rw [hfresh] at hentry
    obtain rfl := List.mem_singleton.mp hentry
    exact absurd (heq ▸ List.mem_map_of_mem hitem) hnew
  have hstaged := staged_fresh none none 0 hsound h.initialized hagree
  obtain ⟨t, hrun, hdelivered⟩ := run_poll_fresh none none 0 0 hsound
    h.intent (by rw [h.watch]; rfl) h.retry h.initialized (by simp [hfresh]) rfl hstaged
  have hmark : t.mark = w.store.mark.checkpoint [(sampleEntry n).ref] none none 0
      w.store.watch.spec.intervalSeconds := by
    rw [Store.mark, hdelivered.cursor]
    rfl
  have hitems : ∀ item ∈ t.source.items, item ∈ w.store.source.items ∨
      item = w.store.itemOf (sampleEntry n) := by
    intro item hitem
    refine (hdelivered.only item hitem).imp_right fun hitem => ?_
    change item ∈ (w.store.mark.fresh (feedOf (sampleEntry n))).map w.store.itemOf at hitem
    rw [hfresh] at hitem
    exact List.mem_singleton.mp hitem
  have hstep := World.step_of_run hrun
  refine ⟨_, h.reach.step ?_ hstep, hdelivered.watch.trans h.watch,
    hdelivered.anchors.trans h.anchors, hdelivered.intent, ?_, ?_, ?_, ?_, fun k => ?_,
    fun item hitem heq => ?_⟩
  · intro entry hentry item hitem heq
    obtain rfl := List.mem_singleton.mp hentry
    rw [Store.held, h.intent] at hitem
    exact absurd (heq ▸ List.mem_map_of_mem (by simpa using hitem)) hnew
  · exact congrArg Cursor.initialized hmark
  · exact congrArg Cursor.retryNotBefore hmark
  · refine (congrArg Cursor.baseline hmark).trans ((if_pos h.initialized).trans h.baseline)
  · refine (congrArg Cursor.seen hmark).trans ?_
    simp only [Cursor.checkpoint]
    rw [h.seen, fromkeys_of_nodup (hnodup.sublist (rtake_append_sublist ..)), rtake_rtake_append,
      hrange]
  · constructor
    · intro hk
      obtain ⟨item, hitem, heq⟩ := List.mem_map.mp hk
      rcases hitems item hitem with hitem | rfl
      · exact Nat.lt_succ_of_lt ((h.refs k).mp (heq ▸ List.mem_map_of_mem hitem))
      · exact (sampleEntry_ref.mp heq) ▸ Nat.lt_succ_self n
    · intro hk
      rcases Nat.lt_succ_iff_lt_or_eq.mp hk with hk | rfl
      · exact List.map_subset _ hdelivered.later.items.subset ((h.refs k).mpr hk)
      · refine hdelivered.sound.accepted _ (hdelivered.events _ ?_)
        change _ ∈ (w.store.mark.fresh (feedOf (sampleEntry k))).map _
        rw [hfresh]
        exact List.mem_singleton.mpr rfl
  · rcases hitems item hitem with hitem | rfl
    · exact h.first item hitem heq
    · obtain rfl := sampleEntry_ref.mp heq
      rw [Store.itemOf, h.watch, h.anchors]
      rfl

theorem exists_filled (n : ℕ) : ∃ w, Filled n w := by
  induction n with
  | zero => exact filled_zero
  | succ n ih => exact ih.elim fun _ h => h.next

/-- **Collection.** As long as no poll reads an accepted entry that is neither in the baseline nor
among the entries last seen, and that would be submitted otherwise than before, every entry that
was read with success is accepted once and recorded once, the cursor has seen nothing else, and
every staged intent gets through. -/
theorem polls_collect {w : World} (h : polls.ReachableVia Remembers w) : w.Collected := by
  refine World.Sound.collected (Transition.System.ReachableVia.invariant ?_ ?_ h)
  · exact fun _ hinit => World.Initial.sound hinit
  · exact fun w a w' hsound hguard hstep => hsound.step hguard hstep

/-- A run in which an entry was read and accepted. -/
theorem polls_collect_filled :
    ∃ w : World, (sampleEntry 0).ref ∈ w.store.source.items.map (fun item => item.ref) ∧
      w.Collected := by
  obtain ⟨w, h⟩ := exists_filled 1
  exact ⟨w, (h.refs 0).mpr Nat.one_pos, polls_collect h.reach⟩

theorem pair_few (entry entry' : Entry) : [entry, entry'].length ≤ 100 := by simp

theorem pair_distinct (n : ℕ) :
    ([sampleEntry 0, sampleEntry (n + 1)].map fun entry => entry.ref.itemId).Nodup := by
  refine List.nodup_cons.mpr ⟨fun hmem => ?_, List.nodup_singleton _⟩
  have hid := congrArg (fun id => id.toList.length) (List.mem_singleton.mp hmem)
  simp [sampleEntry] at hid

/-- The feed in which the first entry comes back, with a new one. -/
def returningFeed : Feed :=
  ⟨[sampleEntry 0, sampleEntry (maxSeen + 1)], pair_few .., pair_distinct maxSeen⟩

theorem first_not_mem_rtake (n : ℕ) :
    (sampleEntry 0).ref ∉ ((List.range (n + 1)).map fun k => (sampleEntry k).ref).rtake n := by
  intro hmem
  rw [List.rtake, List.length_map, List.length_range, Nat.add_sub_cancel_left,
    List.range_succ_eq_map, List.map_cons] at hmem
  obtain ⟨k, hk, heq⟩ := List.mem_map.mp hmem
  obtain ⟨m, -, rfl⟩ := List.mem_map.mp hk
  exact absurd (sampleEntry_ref.mp heq) (Nat.succ_ne_zero m)

theorem Source.Ok.submission_eq_none (h : m.Ok) {r : Ref} (hr : r ∈ batchId)
    (hnew : r ∉ m.items.map fun item => item.ref) : m.submission batchId = none := by
  cases hp : m.submission batchId with
  | none => rfl
  | some previous =>
      obtain ⟨rfl, hsub⟩ := h.of_submission hp
      exact absurd (List.map_subset _ hsub hr) hnew

theorem Source.submit_refused {item : Item} (hp : m.submission batchId = none)
    (hmem : item.ref ∈ m.items.map fun item => item.ref) (hother : item ∉ m.items) :
    m.submit batchId (item :: items) = .error .identityConflict := by
  have happend : appendItem m.items item = .error .identityConflict := by
    rw [appendItem]
    cases hfind : m.items.find? fun old => old.ref = item.ref with
    | none =>
        obtain ⟨old, hold, heq⟩ := List.mem_map.mp hmem
        have hne := List.find?_eq_none.mp hfind old hold
        exact absurd heq (by simpa using hne)
    | some old =>
        refine if_neg ?_
        rintro rfl
        exact hother (List.mem_of_find?_eq_some hfind)
  rw [Source.submit, hp]
  dsimp only
  rw [List.foldlM_cons, happend]
  rfl

/-- **An entry that comes back.** After 4096 other entries the cursor has forgotten an entry that is
accepted. When it is read again, together with a new one and under another rule, its batch is
refused, and every later poll ends at this intent: the new entry is never accepted. -/
theorem returned_and_stuck :
    ∃ w i, polls.Reachable w ∧ w.store.intent = some i ∧ ¬w.Collected ∧
      ∀ w', polls.Run w w' → w'.store.intent = some i ∧
        ∃ r ∈ i.refs, r ∉ w'.store.source.items.map fun item => item.ref := by
  obtain ⟨w, h⟩ := exists_filled (maxSeen + 1)
  let s : Store := { w.store with
    watch := w.store.watch.revise "other news" "m" "2026-01-02T00:00:00+00:00" }
  let i : Intent := intentOf s.watch s.anchors s.watch.currentPolicy
    (if s.watch.spec.eachUpdate then none else some s.attention) (s.mark.fresh returningFeed)
    (s.mark.checkpoint returningFeed.refs none none 0 s.watch.spec.intervalSeconds) 0
  have hfresh : s.mark.fresh returningFeed = [sampleEntry 0, sampleEntry (maxSeen + 1)] := by
    refine List.filter_eq_self.mpr fun entry hentry => ?_
    change decide (entry.ref ∉ w.store.mark.seen ∧ entry.ref ∉ w.store.mark.baseline) = true
    rw [h.baseline, h.seen]
    refine decide_eq_true ⟨?_, List.not_mem_nil⟩
    rcases List.mem_cons.mp hentry with rfl | hentry
    · exact first_not_mem_rtake maxSeen
    · obtain rfl := List.mem_singleton.mp hentry
      intro hmem
      obtain ⟨k, hk, heq⟩ := List.mem_map.mp (mem_of_mem_rtake hmem)
      exact absurd (sampleEntry_ref.mp heq) (List.mem_range.mp hk).ne
  have hnew : (sampleEntry (maxSeen + 1)).ref ∉
      w.store.source.items.map fun item => item.ref :=
    fun hmem => absurd ((h.refs _).mp hmem) (Nat.lt_irrefl _)
  have hrefs : i.refs = [(sampleEntry 0).ref, (sampleEntry (maxSeen + 1)).ref] :=
    congrArg (List.map Entry.ref) hfresh
  have hitems : i.items = [s.itemOf (sampleEntry 0), s.itemOf (sampleEntry (maxSeen + 1))] :=
    congrArg (List.map s.itemOf) hfresh
  have hsubmission : w.store.source.submission i.batchId = none := by
    have hbatch : i.batchId = [(sampleEntry 0).ref, (sampleEntry (maxSeen + 1)).ref] := hrefs
    refine h.sound.store.source.submission_eq_none ?_ hnew
    rw [hbatch]
    exact List.mem_cons_of_mem _ (List.mem_singleton.mpr rfl)
  have hother : s.itemOf (sampleEntry 0) ∉ w.store.source.items := by
    intro hmem
    have heq := congrArg (fun item => item.payload.followUp.policyRevision) (h.first _ hmem rfl)
    exact absurd heq (Nat.succ_ne_zero _)
  have hsubmit : w.store.source.submit i.batchId i.items = .error .identityConflict := by
    rw [hitems]
    exact Source.submit_refused hsubmission ((h.refs 0).mpr (Nat.succ_pos _)) hother
  let t : Store := { s with intent := some i }
  have hrefused : t.Refused i := ⟨rfl, hsubmission, hsubmit⟩
  have hdeliver : ∀ answer, (deliver i).run (handler answer) t = (.error .identityConflict, t) := by
    intro answer
    refine Program.run_bind_of_error ?_ _
    rw [Program.run_perform, handler, hrefused.submit]
    rfl
  have hrun : (poll 0 0).run (handler (.ok (.read returningFeed none none))) s =
      (.error .identityConflict, t) := by
    have hinit : s.mark.initialized = true := h.initialized
    have henabled : s.watch.enabled = true := congrArg Watch.enabled h.watch
    have hintent : s.intent = none := h.intent
    have hcollect : (collect s.watch s.mark 0).run
        (handler (.ok (.read returningFeed none none))) s = (.error .identityConflict, t) := by
      rw [run_collect 0 hinit (by simp [hfresh]), run_accept 0 hintent rfl]
      exact Program.run_bind_of_error (hdeliver _) _
    rw [run_poll 0 0 hintent henabled h.retry, Program.run_catching_of_error hcollect]
    rfl
  have hreach : polls.Reachable ⟨t, w.due⟩ := by
    have hrevise : polls.step w (.revise "other news" "m" "2026-01-02T00:00:00+00:00")
        ⟨s, w.due⟩ := rfl
    have hpoll := World.step_of_run (w := ⟨s, w.due⟩) hrun
    rw [Program.ofExcept, collected, List.append_nil] at hpoll
    exact ((h.reach.weaken fun _ _ _ => trivial).step trivial hrevise).step trivial hpoll
  refine ⟨⟨t, w.due⟩, i, hreach, rfl, fun hcollected => ?_, fun w' hrun => ?_⟩
  · obtain ⟨u, hu, -⟩ := hcollected.recovers i rfl (.ok .notModified)
    have hintent : handler (.ok .notModified) _ .intent t = (.ok (some i), t) := rfl
    have hreceipt : handler (.ok .notModified) _ (.submission i.batchId) t = (.ok none, t) := by
      rw [handler, hrefused.submission]
    have hrecover : (recover true).run (handler (.ok .notModified)) t =
        (.error .identityConflict, t) := by
      rw [recover, Program.run_perform_bind_of_ok hintent]
      exact (Program.run_perform_bind_of_ok hreceipt _).trans (hdeliver _)
    rw [hrecover] at hu
    cases hu
  · obtain ⟨hstays, hsource⟩ := run_refused (w := ⟨t, w.due⟩) hrefused hrun
    refine ⟨hstays.intent, _, ?_, by rw [hsource]; exact hnew⟩
    exact hrefs.symm ▸ List.mem_cons_of_mem _ (List.mem_singleton.mpr rfl)

end Kirakira.Followups
