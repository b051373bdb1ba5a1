import Kirakira.GoalStore

/-!
# Goal Receipts under Concurrency

`GoalStore.apply` as a process: it lists the stale receipts, commits its transaction, and
on a `MessageConflict` looks for the receipt of another request before it starts over, at
most three times. Any number of calls run at once, in any order, between `start`, `settle`
and everything else that happens to the log.

The state carries two counts that the code does not have: the operations whose action
took effect, and the receipts that were pruned.

## Main results

* `Applied.receipts` — what the commit of a call can do to the receipts.
* `Receipted.step` — the invariant: every operation has taken effect once for each time
  its receipt was pruned, and once more while its receipt is there.
* `receipts_of_unraced` — the receipts in every run in which no other call stores a
  receipt between the listing of a call and its commit.
* `receipts_exceed` — two calls that list before either commits leave one receipt too
  many.
-/

namespace Kirakira

open Exceptions Transition

/-! ### The call -/

/-- The receipts in a database, ordered by key. -/
def Db.receipts (db : Db) : List (String × OwnerRecord) :=
  (db.listRecords goalOwner).filter fun entry => isReceipt entry.1

/-- A receipt as `_stale_operations` sorts it. -/
structure DatedReceipt where
  createdAt : Instant
  key : String
  version : ℕ

/-- The receipts that decode. -/
def datedReceipts : List (String × OwnerRecord) → Except PyError (List DatedReceipt)
  | [] => .ok []
  | (key, record) :: rest =>
      match decodeOperation record.value.json with
      | .ok operation => do
          let dated ← datedReceipts rest
          return ⟨operation.createdAt, key, record.version⟩ :: dated
      | .error e => if e.isValueError then datedReceipts rest else .error e

/-- The order of `decoded.sort(key=lambda item: item[0])`. -/
def DatedReceipt.noLater (a b : DatedReceipt) : Bool :=
  decide (a.createdAt.micros.getD 0 ≤ b.createdAt.micros.getD 0)

/-- `_stale_operations`. -/
def staleOperations (db : Db) (reserve : ℕ) : Except PyError (List (String × ℕ)) :=
  let keep := maxOperations - reserve
  if db.receipts.length ≤ keep then .ok []
  else do
    let dated ← datedReceipts db.receipts
    return ((dated.mergeSort DatedReceipt.noLater).take (dated.length - keep)).map
      fun receipt => (receipt.key, receipt.version)

/-- Where a call of `apply` is. -/
inductive ApplyPhase where
  | listing (attempt : ℕ)
  | committing (attempt : ℕ) (listed : List String) (stale : List (String × ℕ))
  | checking (attempt : ℕ) (error : PyError)
  | returned (result : Except PyError (Option Goal × String))

/-- A call of `apply`. -/
structure ApplyCall where
  request : GoalRequest
  key : String
  phase : ApplyPhase

/-- The operation a request is for. -/
def GoalRequest.operation (q : GoalRequest) : String × String × String :=
  (q.kind, q.sessionId, q.operationId)

/-- The listing before an attempt. -/
def listPhase (db : Db) (attempt : ℕ) : ApplyPhase :=
  match staleOperations db 1 with
  | .ok stale => .committing attempt (db.receipts.map Prod.fst) stale
  | .error e => .returned (.error e)

/-- `continue`, or the end of the loop. -/
def retryPhase (attempt : ℕ) (error : PyError) : ApplyPhase :=
  if attempt + 1 < 3 then .listing (attempt + 1)
  else .returned (messageConflict s!"目标操作事务持续冲突：{error.text}")

/-- The `except` clause of an attempt. -/
def ApplyCall.checkPhase (call : ApplyCall) (db : Db) (attempt : ℕ) (error : PyError) :
    ApplyPhase :=
  match db.ownerRecords.lookup (goalOwner, call.key) with
  | none => retryPhase attempt error
  | some existing =>
      match decodeOperation existing.value.json with
      | .error e => .returned (.error e)
      | .ok operation =>
          if (operation.kind, operation.digest) ≠ (call.request.kind, call.request.requestDigest)
          then .returned (.error error)
          else retryPhase attempt error

/-! ### The system -/

/-- The log, the calls that were made, the operations whose action took effect, and the
receipts that were pruned. -/
structure ReceiptState where
  log : Log
  calls : List ApplyCall
  ran : List (String × String × String)
  pruned : List String

/-- What can happen. -/
inductive GoalEvent where
  | apply (q : GoalRequest)
  | list (i : ℕ)
  | commit (i : ℕ) (now : Instant)
  | check (i : ℕ)
  | start (c : GoalCall) (env : GoalEnv) (messageId text : String)
  | settle (c : GoalCall) (env : GoalEnv) (r : RoundSettlement)
      (nextMessageId nextText : Option (Goal → String)) (allowInactive : Bool)
  | other

/-- A call that has got to another phase. -/
def ReceiptState.move (s : ReceiptState) (i : ℕ) (call : ApplyCall) (phase : ApplyPhase) :
    ReceiptState :=
  { s with calls := s.calls.set i { call with phase := phase } }

/-- The commit of an attempt. An action took effect when the transaction returned and
there was no receipt. -/
def ReceiptState.committed (s : ReceiptState) (i : ℕ) (call : ApplyCall) (attempt : ℕ)
    (stale : List (String × ℕ)) (now : Instant) : ReceiptState :=
  match transact goalOwner (call.request.apply call.key stale now) s.log with
  | (.error e, log) =>
      ({ s with log := log } : ReceiptState).move i call
        (if e.isMessageConflict then .checking attempt e else .returned (.error e))
  | (.ok result, log) =>
      match s.log.db.ownerRecords.lookup (goalOwner, call.key) with
      | some _ => ({ s with log := log } : ReceiptState).move i call (.returned (.ok result))
      | none =>
          ReceiptState.move ⟨log, s.calls, s.ran ++ [call.request.operation],
            s.pruned ++ stale.map Prod.fst⟩ i call (.returned (.ok result))

/-- What an event makes of a state. -/
def receiptStep (s : ReceiptState) : GoalEvent → ReceiptState → Prop
  | .apply q, s' => ∃ key, operationKey q.kind q.sessionId q.operationId = .ok key ∧
      s' = { s with calls := s.calls ++ [⟨q, key, .listing 0⟩] }
  | .list i, s' => ∃ call attempt, s.calls[i]? = some call ∧ call.phase = .listing attempt ∧
      s' = s.move i call (listPhase s.log.db attempt)
  | .commit i now, s' => ∃ call attempt listed stale, s.calls[i]? = some call ∧
      call.phase = .committing attempt listed stale ∧ s' = s.committed i call attempt stale now
  | .check i, s' => ∃ call attempt error, s.calls[i]? = some call ∧
      call.phase = .checking attempt error ∧
      s' = s.move i call (call.checkPhase s.log.db attempt error)
  | .start c env messageId text, s' =>
      s' = { s with log := (transact goalOwner (c.start env messageId text) s.log).2 }
  | .settle c env r nextMessageId nextText allowInactive, s' =>
      s' = { s with log := (transact goalOwner
        (c.settle env r nextMessageId nextText allowInactive) s.log).2 }
  | .other, s' => ∃ log, (∀ key, log.db.ownerRecords.lookup (goalOwner, key)
      = s.log.db.ownerRecords.lookup (goalOwner, key)) ∧ s' = { s with log := log }

/-- Calls of `apply` among everything else, from a store without records. -/
def goalReceipts : System ReceiptState GoalEvent where
  init s := (∀ key, s.log.db.ownerRecords.lookup (goalOwner, key) = none) ∧
    s.calls = [] ∧ s.ran = [] ∧ s.pruned = []
  step := receiptStep

/-- Nothing disturbs a call: its key is that of no other operation, and when it stores a
receipt there are no more receipts than when it listed them, or room for one. -/
def Unraced (s : ReceiptState) : GoalEvent → Prop
  | .apply q => ∀ call ∈ s.calls,
      operationKey q.kind q.sessionId q.operationId = .ok call.key →
      q.operation = call.request.operation
  | .commit i _ => ∀ call attempt listed stale, s.calls[i]? = some call →
      call.phase = .committing attempt listed stale →
      s.log.db.ownerRecords.lookup (goalOwner, call.key) = none →
      s.log.db.receipts.length ≤ max listed.length (maxOperations - 1)
  | _ => True

/-! ### Receipts -/

variable {key : String} {record : OwnerRecord} {stale : List (String × ℕ)} {log : Log}
  {q : GoalRequest} {s : ReceiptState}

theorem mem_receipts {db : Db} :
    (key, record) ∈ db.receipts ↔
      db.ownerRecords.lookup (goalOwner, key) = some record ∧ isReceipt key = true := by
  rw [Db.receipts, List.mem_filter, mem_listRecords]

theorem mem_receiptKeys {db : Db} :
    key ∈ db.receipts.map Prod.fst ↔
      (db.ownerRecords.lookup (goalOwner, key)).isSome = true ∧ isReceipt key = true := by
  rw [List.mem_map, Option.isSome_iff_exists]
  constructor
  · rintro ⟨⟨key, record⟩, hmem, rfl⟩
    obtain ⟨hlookup, hreceipt⟩ := mem_receipts.mp hmem
    exact ⟨⟨record, hlookup⟩, hreceipt⟩
  · rintro ⟨⟨record, hlookup⟩, hreceipt⟩
    exact ⟨(key, record), mem_receipts.mpr ⟨hlookup, hreceipt⟩, rfl⟩

theorem nodup_receiptKeys (db : Db) : (db.receipts.map Prod.fst).Nodup :=
  (nodup_listRecords goalOwner db).sublist (List.filter_sublist.map _)

theorem length_receipts_congr {db db' : Db} (h : ∀ key, isReceipt key = true →
    db'.ownerRecords.lookup (goalOwner, key) = db.ownerRecords.lookup (goalOwner, key)) :
    db'.receipts.length = db.receipts.length := by
  have hperm : (db'.receipts.map Prod.fst).Perm (db.receipts.map Prod.fst) := by
    refine (List.perm_ext_iff_of_nodup (nodup_receiptKeys db') (nodup_receiptKeys db)).mpr ?_
    intro key
    rw [mem_receiptKeys, mem_receiptKeys]
    constructor <;> rintro ⟨hsome, hreceipt⟩
    · exact ⟨h key hreceipt ▸ hsome, hreceipt⟩
    · exact ⟨(h key hreceipt).symm ▸ hsome, hreceipt⟩
  simpa using hperm.length_eq

/-- Every receipt of the database decodes. -/
def ReceiptsDecode (db : Db) : Prop :=
  ∀ key record, isReceipt key = true → db.ownerRecords.lookup (goalOwner, key) = some record →
    ∃ operation, decodeOperation record.value.json = .ok operation

theorem datedReceipts_eq_ok {records : List (String × OwnerRecord)} {dated : List DatedReceipt}
    (hdecode : ∀ entry ∈ records, ∃ operation,
      decodeOperation entry.2.value.json = .ok operation)
    (h : datedReceipts records = .ok dated) :
    dated.map DatedReceipt.key = records.map Prod.fst := by
  induction records generalizing dated with
  | nil =>
      obtain rfl := Except.ok.inj h
      rfl
  | cons entry records ih =>
      obtain ⟨operation, hoperation⟩ := hdecode entry List.mem_cons_self
      simp only [datedReceipts, hoperation] at h
      obtain ⟨rest, hrest, h⟩ := bind_eq_ok.mp h
      obtain rfl := Except.ok.inj h
      rw [List.map_cons, List.map_cons,
        ih (fun e he => hdecode e (List.mem_cons_of_mem _ he)) hrest]

/-- **What `_stale_operations` returns**: as many receipts as there are too many. -/
theorem staleOperations_eq_ok {db : Db} {reserve : ℕ} (hdecode : ReceiptsDecode db)
    (h : staleOperations db reserve = .ok stale) :
    stale.length = db.receipts.length - (maxOperations - reserve) ∧
      ∀ entry ∈ stale, isReceipt entry.1 = true := by
  rw [staleOperations] at h
  split at h
  · next hfew =>
      obtain rfl := Except.ok.inj h
      refine ⟨?_, fun entry hentry => nomatch hentry⟩
      rw [List.length_nil]
      omega
  · obtain ⟨dated, hdated, h⟩ := bind_eq_ok.mp h
    obtain rfl := Except.ok.inj h
    have hkeys := datedReceipts_eq_ok (fun entry hentry => by
      obtain ⟨hlookup, hreceipt⟩ := mem_receipts.mp hentry
      exact hdecode entry.1 entry.2 hreceipt hlookup) hdated
    have hlength : dated.length = db.receipts.length := by
      have := congrArg List.length hkeys
      rwa [List.length_map, List.length_map] at this
    constructor
    · rw [List.length_map, List.length_take, List.length_mergeSort, hlength]
      omega
    · intro entry hentry
      obtain ⟨receipt, hreceipt, rfl⟩ := List.mem_map.mp hentry
      have hmem := List.mem_mergeSort.mp (List.mem_of_mem_take hreceipt)
      have hkey : receipt.key ∈ db.receipts.map Prod.fst := by
        rw [← hkeys]
        exact List.mem_map_of_mem hmem
      exact (mem_receiptKeys.mp hkey).2

/-! ### What the transactions do to the receipts -/

/-- The transaction left the receipts alone. -/
def SameReceipts (db db' : Db) : Prop :=
  ∀ key, isReceipt key = true →
    db'.ownerRecords.lookup (goalOwner, key) = db.ownerRecords.lookup (goalOwner, key)

theorem sameReceipts_insert (db db' : Db) (sessionId : String) (record : OwnerRecord)
    (h : db'.ownerRecords = db.ownerRecords.insert (goalOwner, goalRecord sessionId) record) :
    SameReceipts db db' := by
  intro key hkey
  have hne : (goalOwner, key) ≠ (goalOwner, goalRecord sessionId) := by
    intro heq
    rw [(Prod.mk.inj heq).2, isReceipt_goalRecord] at hkey
    cases hkey
  rw [h, AList.lookup_insert_ne hne]

theorem sameReceipts_of_ok {α : Type} {callback : Callback α}
    (h : ∀ a log', transact goalOwner callback log = (.ok a, log') →
      SameReceipts log.db log'.db) :
    SameReceipts log.db (transact goalOwner callback log).2.db := by
  rcases hrun : transact goalOwner callback log with ⟨result, log'⟩
  cases result with
  | ok a => exact h a log' hrun
  | error e =>
      rw [transact_eq_error hrun]
      exact fun _ _ => rfl

theorem sameReceipts_start (c : GoalCall) (env : GoalEnv) (messageId text : String) (log : Log) :
    SameReceipts log.db (transact goalOwner (c.start env messageId text) log).2.db := by
  refine sameReceipts_of_ok fun updated log' h => ?_
  obtain ⟨record, goal, -, -, ⟨metadata, m, tx, happended, record', -, -, hdb⟩⟩ := start_eq_ok h
  refine sameReceipts_insert log.db log'.db c.sessionId record' ?_
  rw [hdb]
  exact congrArg (AList.insert _ _) (ownerRecords_of_appended happended)

theorem sameReceipts_settle (c : GoalCall) (env : GoalEnv) (r : RoundSettlement)
    (nextMessageId nextText : Option (Goal → String)) (allowInactive : Bool) (log : Log) :
    SameReceipts log.db (transact goalOwner
      (c.settle env r nextMessageId nextText allowInactive) log).2.db := by
  refine sameReceipts_of_ok fun updated log' h => ?_
  obtain ⟨record, goal, settled, paused, -, -, -,
    ⟨-, -, _, _, -, -, -, ⟨metadata, m, tx, happended, record', -, -, hdb⟩⟩ |
      ⟨-, -, ⟨record', -, -, hdb⟩⟩⟩ := settle_eq_ok h
  · refine sameReceipts_insert log.db log'.db c.sessionId record' ?_
    rw [hdb]
    exact congrArg (AList.insert _ _) (ownerRecords_of_appended happended)
  · exact sameReceipts_insert log.db log'.db c.sessionId record' (by rw [hdb])

/-! ### The commit of a call -/

/-- **What an applied operation does to the receipts**: its own is there unless it was
stale itself, the stale ones are gone, and they were there. -/
theorem Applied.receipts {log' : Log} {now : Instant} {result : Option Goal × String}
    (h : Applied log log' q key stale now result)
    (hkey : operationKey q.kind q.sessionId q.operationId = .ok key) :
    ∃ receipt : OwnerRecord,
      decodeOperation receipt.value.json
        = .ok ⟨q.kind, q.requestDigest, result.2, result.1, now⟩ ∧
      (stale.map Prod.fst).Nodup ∧
      (∀ k ∈ stale.map Prod.fst, isReceipt k = true → k ≠ key →
        (log.db.ownerRecords.lookup (goalOwner, k)).isSome = true) ∧
      ∀ k, isReceipt k = true → log'.db.ownerRecords.lookup (goalOwner, k)
        = if k ∈ stale.map Prod.fst then none
          else if k = key then some receipt
          else log.db.ownerRecords.lookup (goalOwner, k) := by
  obtain ⟨written, receipt, hwritten, hdecode, hdeleted⟩ := h.records
  have hreceipt := isReceipt_of_operationKey hkey
  have hother : ∀ k, isReceipt k = true → k ≠ key →
      (written.insert (goalOwner, key) receipt).lookup (goalOwner, k)
        = log.db.ownerRecords.lookup (goalOwner, k) := by
    intro k hk hne
    rw [AList.lookup_insert_ne fun heq => hne (Prod.mk.inj heq).2]
    refine hwritten.other _ fun heq => ?_
    rw [(Prod.mk.inj heq).2, isReceipt_goalRecord] at hk
    cases hk
  refine ⟨receipt, hdecode, hdeleted.nodup, fun k hk hrec hne => ?_, fun k hk => ?_⟩
  · rw [← hother k hrec hne]
    exact hdeleted.present k hk
  · split
    · next hmem => exact hdeleted.gone k hmem
    · next hmem =>
        rw [hdeleted.other (goalOwner, k) fun _ => hmem]
        split
        · next heq => rw [heq, AList.lookup_insert]
        · next hne => exact hother k hk hne

/-- **The number of receipts afterwards**: one more, less the stale ones. -/
theorem Applied.length_receipts {log' : Log} {now : Instant} {result : Option Goal × String}
    (h : Applied log log' q key stale now result)
    (hkey : operationKey q.kind q.sessionId q.operationId = .ok key)
    (hstale : ∀ entry ∈ stale, isReceipt entry.1 = true) :
    log'.db.receipts.length + stale.length = log.db.receipts.length + 1 := by
  obtain ⟨receipt, -, hnodup, hpresent, hlookup⟩ := h.receipts hkey
  have hreceipt := isReceipt_of_operationKey hkey
  have hstaleKey : ∀ k ∈ stale.map Prod.fst, isReceipt k = true := by
    intro k hk
    obtain ⟨entry, hentry, rfl⟩ := List.mem_map.mp hk
    exact hstale entry hentry
  have hmem : ∀ k, k ∈ log'.db.receipts.map Prod.fst ↔
      k ∉ stale.map Prod.fst ∧ k ∈ key :: log.db.receipts.map Prod.fst := by
    intro k
    rw [mem_receiptKeys, List.mem_cons, mem_receiptKeys]
    constructor
    · rintro ⟨hsome, hk⟩
      rw [hlookup k hk] at hsome
      split at hsome
      · cases hsome
      · next hnot =>
          refine ⟨hnot, ?_⟩
          split at hsome
          · next heq => exact .inl heq
          · exact .inr ⟨hsome, hk⟩
    · rintro ⟨hnot, hk⟩
      have hk' : isReceipt k = true := by
        rcases hk with rfl | hk
        · exact hreceipt
        · exact hk.2
      refine ⟨?_, hk'⟩
      rw [hlookup k hk', if_neg hnot]
      split
      · rfl
      · next hne => exact (hk.resolve_left hne).1
  have hfresh : key ∉ log.db.receipts.map Prod.fst := by
    intro hin
    rw [mem_receiptKeys, h.fresh] at hin
    cases hin.1
  have hperm : (stale.map Prod.fst ++ log'.db.receipts.map Prod.fst).Perm
      (key :: log.db.receipts.map Prod.fst) := by
    refine (List.perm_ext_iff_of_nodup ?_ ?_).mpr fun k => ?_
    · refine List.nodup_append.mpr ⟨hnodup, nodup_receiptKeys _, ?_⟩
      rintro a ha b hb rfl
      exact ((hmem a).mp hb).1 ha
    · exact List.nodup_cons.mpr ⟨hfresh, nodup_receiptKeys _⟩
    · rw [List.mem_append, hmem]
      constructor
      · rintro (hin | ⟨-, hin⟩)
        · by_cases hne : k = key
          · exact List.mem_cons.mpr (.inl hne)
          · refine List.mem_cons.mpr (.inr (mem_receiptKeys.mpr ⟨?_, hstaleKey k hin⟩))
            exact hpresent k hin (hstaleKey k hin) hne
        · exact hin
      · intro hin
        by_cases hs : k ∈ stale.map Prod.fst
        · exact .inl hs
        · exact .inr ⟨hs, hin⟩
  have hlength := hperm.length_eq
  simp only [List.length_append, List.length_map, List.length_cons] at hlength
  omega

/-! ### The invariant -/

/-- The operations that were requested, with their keys. -/
def ReceiptState.identities (s : ReceiptState) : List ((String × String × String) × String) :=
  s.calls.map fun call => (call.request.operation, call.key)

/-- The receipts and what they account for: every operation took effect once for each time
its receipt was pruned, and once more while its receipt is there. -/
structure Accounted (identities : List ((String × String × String) × String)) (db : Db)
    (ran : List (String × String × String)) (pruned : List String) : Prop where
  keys : ∀ id ∈ identities, operationKey id.1.1 id.1.2.1 id.1.2.2 = .ok id.2
  named : ∀ id ∈ identities, ∀ id' ∈ identities, id.2 = id'.2 → id.1 = id'.1
  decode : ReceiptsDecode db
  stored : ∀ key, isReceipt key = true →
    (db.ownerRecords.lookup (goalOwner, key)).isSome = true → key ∈ identities.map Prod.snd
  prunedKeys : ∀ key ∈ pruned, key ∈ identities.map Prod.snd
  ranIds : ∀ o ∈ ran, o ∈ identities.map Prod.fst
  counts : ∀ id ∈ identities, ran.count id.1 = pruned.count id.2 +
    if (db.ownerRecords.lookup (goalOwner, id.2)).isSome then 1 else 0
  bound : db.receipts.length ≤ maxOperations

section Accounted

variable {identities : List ((String × String × String) × String)} {db db' : Db}
  {ran : List (String × String × String)} {pruned : List String}

theorem Accounted.isReceipt (h : Accounted identities db ran pruned)
    {id : (String × String × String) × String} (hid : id ∈ identities) :
    isReceipt id.2 = true :=
  isReceipt_of_operationKey (h.keys id hid)

theorem Accounted.same (h : Accounted identities db ran pruned) (hsame : SameReceipts db db') :
    Accounted identities db' ran pruned where
  keys := h.keys
  named := h.named
  decode key record hkey hrecord := h.decode key record hkey (hsame key hkey ▸ hrecord)
  stored key hkey hsome := h.stored key hkey (hsame key hkey ▸ hsome)
  prunedKeys := h.prunedKeys
  ranIds := h.ranIds
  counts id hid := by
    rw [hsame id.2 (h.isReceipt hid)]
    exact h.counts id hid
  bound := by
    rw [length_receipts_congr hsame]
    exact h.bound

/-- A request keeps the account, if its key is that of no other operation. -/
theorem Accounted.request (h : Accounted identities db ran pruned)
    (id : (String × String × String) × String)
    (hkey : operationKey id.1.1 id.1.2.1 id.1.2.2 = .ok id.2)
    (hnamed : ∀ id' ∈ identities, id.2 = id'.2 → id.1 = id'.1) :
    Accounted (identities ++ [id]) db ran pruned := by
  have hsub : ∀ {β : Type} (f : (String × String × String) × String → β) {b : β},
      b ∈ identities.map f → b ∈ (identities ++ [id]).map f := by
    intro β f b hb
    rw [List.map_append]
    exact List.mem_append_left _ hb
  refine ⟨?_, ?_, h.decode, fun key hr hs => hsub _ (h.stored key hr hs),
    fun key hp => hsub _ (h.prunedKeys key hp), fun o ho => hsub _ (h.ranIds o ho), ?_, h.bound⟩
  · intro id' hid'
    rcases List.mem_append.mp hid' with hold | hnew
    · exact h.keys id' hold
    · rw [List.mem_singleton.mp hnew]
      exact hkey
  · intro a ha b hb heq
    rcases List.mem_append.mp ha with ha | ha <;> rcases List.mem_append.mp hb with hb | hb
    · exact h.named a ha b hb heq
    · rw [List.mem_singleton.mp hb] at heq ⊢
      exact (hnamed a ha heq.symm).symm
    · rw [List.mem_singleton.mp ha] at heq ⊢
      exact hnamed b hb heq
    · rw [List.mem_singleton.mp ha, List.mem_singleton.mp hb]
  · intro id' hid'
    rcases List.mem_append.mp hid' with hold | hnew
    · exact h.counts id' hold
    · rw [List.mem_singleton.mp hnew]
      by_cases hin : id.2 ∈ identities.map Prod.snd
      · -- the operation was requested before
        obtain ⟨old, hold, heq⟩ := List.mem_map.mp hin
        have hop := hnamed old hold heq.symm
        have hcounts := h.counts old hold
        rwa [heq, ← hop] at hcounts
      · have hran : id.1 ∉ ran := by
          intro hmem
          obtain ⟨old, hold, heq⟩ := List.mem_map.mp (h.ranIds _ hmem)
          have hsame := h.keys old hold
          rw [heq, hkey] at hsame
          exact hin (List.mem_map.mpr ⟨old, hold, (Except.ok.inj hsame).symm⟩)
        have hpruned : id.2 ∉ pruned := fun hmem => hin (h.prunedKeys _ hmem)
        have hnone : (db.ownerRecords.lookup (goalOwner, id.2)).isSome = false := by
          rw [Bool.eq_false_iff]
          exact fun hsome => hin (h.stored _ (isReceipt_of_operationKey hkey) hsome)
        rw [List.count_eq_zero.mpr hran, List.count_eq_zero.mpr hpruned, hnone]
        rfl

/-- **An applied operation keeps the account**, if there is room for its receipt. -/
theorem Accounted.applied {log' : Log} {now : Instant} {result : Option Goal × String}
    (h : Accounted identities log.db ran pruned)
    (happlied : Applied log log' q key stale now result) (hid : (q.operation, key) ∈ identities)
    (hstale : ∀ entry ∈ stale, Kirakira.isReceipt entry.1 = true)
    (hroom : log.db.receipts.length + 1 - stale.length ≤ maxOperations) :
    Accounted identities log'.db (ran ++ [q.operation]) (pruned ++ stale.map Prod.fst) := by
  have hkey : operationKey q.kind q.sessionId q.operationId = .ok key := h.keys _ hid
  obtain ⟨receipt, hdecode, hnodup, hpresent, hlookup⟩ := happlied.receipts hkey
  have hstaleKey : ∀ k ∈ stale.map Prod.fst, Kirakira.isReceipt k = true := by
    intro k hk
    obtain ⟨entry, hentry, rfl⟩ := List.mem_map.mp hk
    exact hstale entry hentry
  have hin : key ∈ identities.map Prod.snd := List.mem_map.mpr ⟨_, hid, rfl⟩
  refine ⟨h.keys, h.named, ?_, ?_, ?_, ?_, ?_, ?_⟩
  · intro k record hk hrecord
    rw [hlookup k hk] at hrecord
    split at hrecord
    · cases hrecord
    · split at hrecord
      · obtain rfl := Option.some.inj hrecord
        exact ⟨_, hdecode⟩
      · exact h.decode k record hk hrecord
  · intro k hk hsome
    rw [hlookup k hk] at hsome
    split at hsome
    · cases hsome
    · split at hsome
      · next heq => exact heq ▸ hin
      · exact h.stored k hk hsome
  · intro k hk
    rcases List.mem_append.mp hk with hold | hnew
    · exact h.prunedKeys k hold
    · by_cases heq : k = key
      · exact heq ▸ hin
      · exact h.stored k (hstaleKey k hnew) (hpresent k hnew (hstaleKey k hnew) heq)
  · intro o ho
    rcases List.mem_append.mp ho with hold | hnew
    · exact h.ranIds o hold
    · rw [List.mem_singleton.mp hnew]
      exact List.mem_map.mpr ⟨_, hid, rfl⟩
  · intro id hmem
    have hcounts := h.counts id hmem
    have hreceipt := h.isReceipt hmem
    rw [hlookup id.2 hreceipt, List.count_append, List.count_append, List.count_singleton,
      hcounts]
    by_cases heq : id.2 = key
    · -- the operation itself: it took effect once more
      have hop : id.1 = q.operation := h.named id hmem _ hid heq
      rw [heq, happlied.fresh, hop, beq_self_eq_true, if_pos rfl]
      by_cases hpruned : key ∈ stale.map Prod.fst
      · rw [if_pos hpruned, List.count_eq_one_of_mem hnodup hpruned]
        rfl
      · rw [if_neg hpruned, if_pos rfl, List.count_eq_zero.mpr hpruned]
        rfl
    · have hop : id.1 ≠ q.operation := by
        intro hop
        have hsame := h.keys id hmem
        rw [hop] at hsame
        exact heq (Except.ok.inj (hsame.symm.trans hkey))
      rw [if_neg heq, beq_eq_false_iff_ne.mpr hop.symm]
      by_cases hpruned : id.2 ∈ stale.map Prod.fst
      · rw [if_pos hpruned, hpresent id.2 hpruned hreceipt heq,
          List.count_eq_one_of_mem hnodup hpruned]
        rfl
      · rw [if_neg hpruned, List.count_eq_zero.mpr hpruned, if_neg Bool.false_ne_true]
        omega
  · have hlength := happlied.length_receipts hkey hstale
    omega

end Accounted

/-- The invariant: the account, and the listings of the calls. -/
structure Receipted (s : ReceiptState) : Prop where
  accounted : Accounted s.identities s.log.db s.ran s.pruned
  listings : ∀ call ∈ s.calls, ∀ attempt listed stale,
    call.phase = .committing attempt listed stale →
      stale.length = listed.length - (maxOperations - 1) ∧
        ∀ entry ∈ stale, isReceipt entry.1 = true

theorem identities_move {i : ℕ} {call : ApplyCall} (phase : ApplyPhase)
    (h : s.calls[i]? = some call) : (s.move i call phase).identities = s.identities := by
  obtain ⟨hi, -⟩ := List.getElem?_eq_some_iff.mp h
  simp only [ReceiptState.identities, ReceiptState.move, List.map_set]
  refine List.ext_getElem? fun j => ?_
  rw [List.getElem?_set]
  split
  · next hij =>
      subst hij
      rw [if_pos (by rw [List.length_map]; exact hi), List.getElem?_map, h]
      rfl
  · rfl

/-- **A move keeps the invariant**, when the new phase is no commit or has a listing. -/
theorem Receipted.move {i : ℕ} {call : ApplyCall} {phase : ApplyPhase} (h : Receipted s)
    (hcall : s.calls[i]? = some call)
    (hphase : ∀ attempt listed stale, phase = .committing attempt listed stale →
      stale.length = listed.length - (maxOperations - 1) ∧
        ∀ entry ∈ stale, isReceipt entry.1 = true) : Receipted (s.move i call phase) := by
  refine ⟨?_, ?_⟩
  · rw [identities_move phase hcall]
    exact h.accounted
  · intro call' hmem attempt listed stale heq
    rcases List.mem_or_eq_of_mem_set hmem with hold | rfl
    · exact h.listings call' hold attempt listed stale heq
    · exact hphase attempt listed stale heq

/-- A phase in which nothing is committed. -/
def ApplyPhase.idle : ApplyPhase → Prop
  | .committing .. => False
  | _ => True

/-- **Every step keeps the invariant.** -/
theorem Receipted.step {s' : ReceiptState} {e : GoalEvent} (h : Receipted s) (hguard : Unraced s e)
    (hstep : goalReceipts.step s e s') : Receipted s' := by
  have hidle : ∀ {i : ℕ} {call : ApplyCall} {phase : ApplyPhase} {t : ReceiptState},
      Receipted t → t.calls[i]? = some call → phase.idle → Receipted (t.move i call phase) := by
    intro i call phase t ht hcall hphase
    refine ht.move hcall fun attempt listed stale heq => ?_
    rw [heq] at hphase
    exact hphase.elim
  have hlog : ∀ log : Log, SameReceipts s.log.db log.db → Receipted { s with log := log } :=
    fun log hsame => ⟨h.accounted.same hsame, h.listings⟩
  cases e with
  | apply q =>
      obtain ⟨key, hkey, rfl⟩ := hstep
      refine ⟨?_, fun call hcall => ?_⟩
      · rw [ReceiptState.identities, List.map_append]
        refine h.accounted.request (q.operation, key) hkey fun id' hid' heq => ?_
        obtain ⟨call, hcall, rfl⟩ := List.mem_map.mp hid'
        have heq : key = call.key := heq
        exact hguard call hcall (heq ▸ hkey)
      · rcases List.mem_append.mp hcall with hold | hnew
        · exact h.listings call hold
        · rw [List.mem_singleton.mp hnew]
          exact fun _ _ _ hphase => nomatch hphase
  | list i =>
      obtain ⟨call, attempt, hcall, -, rfl⟩ := hstep
      refine h.move hcall fun attempt' listed stale heq => ?_
      rw [listPhase] at heq
      split at heq
      · next stale' hstale =>
          obtain ⟨-, rfl, rfl⟩ := ApplyPhase.committing.inj heq
          rw [List.length_map]
          exact staleOperations_eq_ok h.accounted.decode hstale
      · cases heq
  | commit i now =>
      obtain ⟨call, attempt, listed, stale, hcall, hphase, rfl⟩ := hstep
      obtain ⟨hlength, hstale⟩ :=
        h.listings call (List.mem_of_getElem? hcall) attempt listed stale hphase
      rw [ReceiptState.committed]
      split
      · next error log hrun =>
          rw [transact_eq_error hrun]
          refine hidle h hcall ?_
          split <;> trivial
      · next result log hrun =>
          split
          · next record hrecord =>
              rcases apply_eq_ok hrun with ⟨_, _, -, -, -, -, hdb⟩ | happlied
              · exact hidle (hlog log fun key _ => by rw [hdb]) hcall trivial
              · exact nomatch hrecord.symm.trans happlied.fresh
          · next hnone =>
              rcases apply_eq_ok hrun with ⟨_, _, hrecord, -⟩ | happlied
              · exact nomatch hrecord.symm.trans hnone
              · have hid : (call.request.operation, call.key) ∈ s.identities :=
                  List.mem_map.mpr ⟨call, List.mem_of_getElem? hcall, rfl⟩
                have hroom := hguard call attempt listed stale hcall hphase hnone
                have hbound := h.accounted.bound
                refine hidle (t := ⟨log, s.calls, s.ran ++ [call.request.operation],
                  s.pruned ++ stale.map Prod.fst⟩) ⟨?_, h.listings⟩ hcall trivial
                refine h.accounted.applied happlied hid hstale ?_
                simp only [maxOperations] at hroom hlength ⊢
                omega
  | check i =>
      obtain ⟨call, attempt, error, hcall, -, rfl⟩ := hstep
      refine hidle h hcall ?_
      simp only [ApplyCall.checkPhase, retryPhase]
      split
      · split <;> trivial
      · split
        · trivial
        · split
          · trivial
          · split <;> trivial
  | start c env messageId text =>
      obtain rfl : s' = _ := hstep
      exact hlog _ (sameReceipts_start c env messageId text s.log)
  | settle c env r nextMessageId nextText allowInactive =>
      obtain rfl : s' = _ := hstep
      exact hlog _ (sameReceipts_settle c env r nextMessageId nextText allowInactive s.log)
  | other =>
      obtain ⟨log, hsame, rfl⟩ := hstep
      exact hlog log fun key _ => hsame key

theorem receipted_of_reachable (h : goalReceipts.ReachableVia Unraced s) : Receipted s := by
  refine h.invariant (I := Receipted) ?_ fun s e s' hs hguard hstep => hs.step hguard hstep
  rintro s ⟨hempty, hcalls, hran, hpruned⟩
  have hreceipts : s.log.db.receipts = [] := by
    refine List.eq_nil_iff_forall_not_mem.mpr fun entry hentry => ?_
    exact nomatch (hempty entry.1).symm.trans (mem_receipts.mp hentry).1
  have hidentities : s.identities = [] := by
    rw [ReceiptState.identities, hcalls, List.map_nil]
  refine ⟨?_, fun call hcall => ?_⟩
  · rw [hidentities, hran, hpruned]
    refine ⟨(fun _ hid => nomatch hid), (fun _ hid => nomatch hid),
      fun key record _ hrecord => ?_, fun key _ hsome => ?_, (fun _ hkey => nomatch hkey),
      (fun _ ho => nomatch ho), (fun _ hid => nomatch hid), ?_⟩
    · exact nomatch (hempty key).symm.trans hrecord
    · rw [hempty key] at hsome
      cases hsome
    · rw [hreceipts]
      exact Nat.zero_le _
  · rw [hcalls] at hcall
    cases hcall

/-! ### Repeats -/

/-- **A repeat of the recorded request** returns what the receipt says and changes
nothing. -/
theorem apply_of_receipt {o : Operation}
    (hrecord : log.db.ownerRecords.lookup (goalOwner, key) = some record)
    (ho : decodeOperation record.value.json = .ok o)
    (hsame : (o.kind, o.digest) = (q.kind, q.requestDigest)) (stale : List (String × ℕ))
    (now : Instant) :
    ∃ log', transact goalOwner (q.apply key stale now) log = (.ok (o.goal, o.response), log') ∧
      log'.db = log.db := by
  refine transact_of_run (Tx.start log.db) ?_
  rw [GoalRequest.apply, Program.run_perform_bind_of_ok (execute_read _ _ _)]
  have hlookup : (Tx.start log.db).db.ownerRecords.lookup (goalOwner, key) = some record := hrecord
  rw [hlookup]
  dsimp only
  rw [Program.run_ofExcept_bind_of_ok ho, if_neg (not_not.mpr hsame)]
  rfl

/-- The exception of a request under the key of another one. -/
def keyReused : PyError :=
  ⟨.messageConflict, "目标操作 key 已用于不同请求"⟩

/-- **Another request under the same key** is rejected, by the transaction and by the
check after it. -/
theorem apply_of_other {o : Operation}
    (hrecord : log.db.ownerRecords.lookup (goalOwner, key) = some record)
    (ho : decodeOperation record.value.json = .ok o)
    (hother : (o.kind, o.digest) ≠ (q.kind, q.requestDigest)) (stale : List (String × ℕ))
    (now : Instant) : transact goalOwner (q.apply key stale now) log = (.error keyReused, log) := by
  refine transact_of_run_error (t := ⟨false, Tx.start log.db⟩) ?_
  rw [GoalRequest.apply, Program.run_perform_bind_of_ok (execute_read _ _ _)]
  have hlookup : (Tx.start log.db).db.ownerRecords.lookup (goalOwner, key) = some record := hrecord
  rw [hlookup]
  dsimp only
  rw [Program.run_ofExcept_bind_of_ok ho, if_pos hother]
  rfl

/-- What a retained receipt means for the request of a call: a repeat of the recorded
request returns what is recorded and leaves the database alone, and any other request is
rejected and changes nothing. -/
def Binding (log : Log) (call : ApplyCall) (o : Operation) : Prop :=
  ((o.kind, o.digest) = (call.request.kind, call.request.requestDigest) →
    ∀ stale now, ∃ log', transact goalOwner (call.request.apply call.key stale now) log
      = (.ok (o.goal, o.response), log') ∧ log'.db = log.db) ∧
  ((o.kind, o.digest) ≠ (call.request.kind, call.request.requestDigest) →
    (∀ stale now, transact goalOwner (call.request.apply call.key stale now) log
      = (.error keyReused, log)) ∧
    ∀ attempt error, call.checkPhase log.db attempt error = .returned (.error error))

/-! ### Clears -/

/-- A `clear` of a session without a goal, under the `n`th operation id. -/
def clearRequest (n : ℕ) : GoalRequest where
  sessionId := "s"
  operationId := String.ofList (List.replicate (n + 1) 'x')
  kind := "clear"
  requestDigest := String.ofList (List.replicate 64 '0')
  action := fun _ => .ok (none, "cleared")
  expectedHead := none
  expectedGoal := none

/-- Its key. -/
def clearKey (n : ℕ) : String :=
  operationPrefix ++ ("clear" ++ ":" ++ "s" ++ ":" ++ (clearRequest n).operationId)

/-- The time of every clear. -/
def clearTime : Instant :=
  ⟨"2026-01-01T00:00:00+00:00"⟩

/-- The operation every clear stores. -/
def clearOperation : Operation :=
  ⟨"clear", (clearRequest 0).requestDigest, "cleared", none, clearTime⟩

theorem operationKey_clearRequest (n : ℕ) :
    operationKey "clear" "s" (clearRequest n).operationId = .ok (clearKey n) := by
  have hne : (clearRequest n).operationId ≠ "" := by
    intro h
    have := congrArg String.toList h
    rw [clearRequest, String.toList_ofList, List.replicate_succ] at this
    cases this
  have hs : ¬ ("s" = "" ∨ (clearRequest n).operationId = "") := by
    rintro (h | h)
    · exact absurd h (by decide)
    · exact hne h
  rw [operationKey, if_neg (by decide), if_neg hs]
  rfl

theorem clearKey_injective : Function.Injective clearKey := by
  intro n m h
  have h := congrArg (fun key => key.toList.length) h
  simp only [clearKey, clearRequest, String.toList_append, List.length_append,
    String.toList_ofList, List.length_replicate] at h
  omega

theorem encodeOperation_clearOperation :
    encodeOperation clearOperation = .ok (operationDict clearOperation) := by
  decide +kernel

/-- The record a clear stores. -/
def clearReceipt : OwnerRecord where
  version := 0
  value := ⟨operationDict clearOperation, canonical_operationDict clearOperation⟩
  value_ok := rfl

/-- **The transaction of a clear** that finds neither a receipt nor a goal. -/
theorem transact_clearRequest {n : ℕ}
    (hkey : log.db.ownerRecords.lookup (goalOwner, clearKey n) = none)
    (hgoal : log.db.ownerRecords.lookup (goalOwner, goalRecord "s") = none) :
    ∃ log', transact goalOwner ((clearRequest n).apply (clearKey n) [] clearTime) log
        = (.ok (none, "cleared"), log') ∧
      log'.db = { log.db with
        ownerRecords := log.db.ownerRecords.insert (goalOwner, clearKey n) clearReceipt } := by
  have hkey' : (Tx.start log.db).db.ownerRecords.lookup (goalOwner, clearKey n) = none := hkey
  have hgoal' : (Tx.start log.db).db.ownerRecords.lookup (goalOwner, goalRecord "s") = none := hgoal
  have hne : clearKey n ≠ "" := by
    intro h
    have := congrArg String.toList h
    rw [clearKey, String.toList_append] at this
    cases this
  have hsave : saveRecord goalOwner (clearKey n) (operationDict clearOperation) none
      (Tx.start log.db).db = .ok (clearReceipt, { log.db with
        ownerRecords := log.db.ownerRecords.insert (goalOwner, clearKey n) clearReceipt }) := by
    rw [saveRecord, if_neg hne, if_neg (by simp),
      freezeJson_json ⟨operationDict clearOperation, canonical_operationDict clearOperation⟩]
    simp only [hkey', Option.isSome_none, Bool.false_eq_true, if_false]
    rfl
  refine transact_of_run { Tx.start log.db with db := { log.db with
    ownerRecords := log.db.ownerRecords.insert (goalOwner, clearKey n) clearReceipt } } ?_
  rw [GoalRequest.apply, Program.run_perform_bind_of_ok (execute_read _ _ _), hkey']
  dsimp only
  rw [Program.run_bind]
  change Program.run (execute goalOwner) (Program.perform (.read (goalRecord "s")) >>= _) _ = _
  rw [Program.run_perform_bind_of_ok (execute_read _ _ _), hgoal']
  rw [Program.run_ofExcept_bind_of_ok (rfl : decodeCurrent (clearRequest n).sessionId none = .ok none)]
  rw [Program.run_ofExcept_bind_of_ok (rfl : (clearRequest n).checkGoal none = .ok ())]
  rw [Program.run_ofExcept_bind_of_ok
    (rfl : (clearRequest n).action (Option.map Prod.snd none) = .ok (none, "cleared"))]
  rw [Program.run_bind]
  change Program.run (execute goalOwner) (Program.ofExcept (encodeOperation clearOperation) >>= _)
    _ = _
  rw [Program.run_ofExcept_bind_of_ok encodeOperation_clearOperation,
    Program.run_perform_bind_of_ok (execute_save_of_ok hsave)]
  rfl

/-- A reachable state whose only records are the receipts of the first `n` clears. -/
structure Cleared (G : ReceiptState → GoalEvent → Prop) (n : ℕ) (s : ReceiptState) : Prop where
  reachable : goalReceipts.ReachableVia G s
  records : ∀ key, (s.log.db.ownerRecords.lookup (goalOwner, key)).isSome = true ↔
    key ∈ (List.range n).map clearKey

section Cleared

variable {G : ReceiptState → GoalEvent → Prop}

theorem Cleared.length_receipts {n : ℕ} (h : Cleared G n s) : s.log.db.receipts.length = n := by
  have hperm : (s.log.db.receipts.map Prod.fst).Perm ((List.range n).map clearKey) := by
    refine (List.perm_ext_iff_of_nodup (nodup_receiptKeys _)
      (List.nodup_range.map clearKey_injective)).mpr fun key => ?_
    rw [mem_receiptKeys, h.records]
    constructor
    · exact And.left
    · intro hkey
      obtain ⟨m, -, rfl⟩ := List.mem_map.mp hkey
      exact ⟨hkey, isReceipt_of_operationKey (operationKey_clearRequest m)⟩
  simpa using hperm.length_eq

/-- The call of a clear, with its listing done. -/
def clearCall (m : ℕ) (listed : List String) : ApplyCall :=
  ⟨clearRequest m, clearKey m, .committing 0 listed []⟩

theorem Cleared.list {n : ℕ} (h : Cleared G n s) (hn : n < maxOperations) (m : ℕ)
    (hspawnable : G s (.apply (clearRequest m))) (hlistable : ∀ t i, G t (.list i)) :
    ∃ s' listed, Cleared G n s' ∧ s'.calls = s.calls ++ [clearCall m listed] := by
  have hspawn : goalReceipts.step s (.apply (clearRequest m))
      { s with calls := s.calls ++ [⟨clearRequest m, clearKey m, .listing 0⟩] } :=
    ⟨clearKey m, operationKey_clearRequest m, rfl⟩
  have hfew : staleOperations s.log.db 1 = .ok [] := by
    have hlength := h.length_receipts
    rw [staleOperations, if_pos (by omega)]
  have hlist : goalReceipts.step
      { s with calls := s.calls ++ [⟨clearRequest m, clearKey m, .listing 0⟩] }
      (.list s.calls.length)
      { s with calls := s.calls ++ [clearCall m (s.log.db.receipts.map Prod.fst)] } := by
    refine ⟨⟨clearRequest m, clearKey m, .listing 0⟩, 0, ?_, rfl, ?_⟩
    · rw [List.getElem?_append_right (le_refl _), Nat.sub_self]
      rfl
    · simp only [ReceiptState.move, listPhase, hfew, clearCall]
      rw [List.set_append_right _ _ (le_refl _), Nat.sub_self]
      rfl
  exact ⟨_, _, ⟨(h.reachable.step hspawnable hspawn).step (hlistable _ _) hlist, h.records⟩, rfl⟩

theorem Cleared.commit {n i : ℕ} {listed : List String} (h : Cleared G n s)
    (hcall : s.calls[i]? = some (clearCall n listed)) (hguard : G s (.commit i clearTime)) :
    ∃ s', Cleared G (n + 1) s' ∧ ∀ j, j ≠ i → s'.calls[j]? = s.calls[j]? := by
  have hkey : s.log.db.ownerRecords.lookup (goalOwner, clearKey n) = none := by
    rw [← Option.not_isSome_iff_eq_none, h.records]
    intro hmem
    obtain ⟨m, hm, heq⟩ := List.mem_map.mp hmem
    obtain rfl := clearKey_injective heq
    exact absurd (List.mem_range.mp hm) (lt_irrefl _)
  have hgoal : s.log.db.ownerRecords.lookup (goalOwner, goalRecord "s") = none := by
    rw [← Option.not_isSome_iff_eq_none, h.records]
    intro hmem
    obtain ⟨m, -, heq⟩ := List.mem_map.mp hmem
    have hreceipt := isReceipt_of_operationKey (operationKey_clearRequest m)
    rw [heq, isReceipt_goalRecord] at hreceipt
    cases hreceipt
  obtain ⟨log, hrun, hdb⟩ := transact_clearRequest hkey hgoal
  have hstep : goalReceipts.step s (.commit i clearTime)
      (s.committed i (clearCall n listed) 0 [] clearTime) :=
    ⟨clearCall n listed, 0, listed, [], hcall, rfl, rfl⟩
  refine ⟨_, ⟨h.reachable.step hguard hstep, fun key => ?_⟩, fun j hj => ?_⟩
  · rw [ReceiptState.committed, clearCall, hrun]
    dsimp only
    rw [hkey]
    simp only [ReceiptState.move, hdb]
    rw [List.range_succ, List.map_append, List.mem_append, ← h.records]
    by_cases hk : key = clearKey n
    · rw [hk, AList.lookup_insert]
      simp
    · rw [AList.lookup_insert_ne fun heq => hk (Prod.mk.inj heq).2]
      simp [hk]
  · rw [ReceiptState.committed, clearCall, hrun]
    dsimp only
    rw [hkey]
    simp only [ReceiptState.move]
    exact List.getElem?_set_ne hj.symm

theorem cleared_zero : Cleared G 0 ⟨⟨.fresh, .empty⟩, [], [], []⟩ := by
  refine ⟨.init ⟨fun _ => rfl, rfl, rfl, rfl⟩, fun key => ?_⟩
  simp [Db.fresh]

end Cleared

theorem exists_cleared (n : ℕ) (hn : n ≤ maxOperations) : ∃ s, Cleared (fun _ _ => True) n s := by
  induction n with
  | zero => exact ⟨_, cleared_zero⟩
  | succ n ih =>
      obtain ⟨s, hs⟩ := ih (by omega)
      obtain ⟨s', listed, hs', hcalls⟩ := hs.list hn n trivial fun _ _ => trivial
      have hcall : s'.calls[s.calls.length]? = some (clearCall n listed) := by
        rw [hcalls, List.getElem?_append_right (le_refl _), Nat.sub_self]
        rfl
      obtain ⟨s'', hs'', -⟩ := hs'.commit hcall trivial
      exact ⟨s'', hs''⟩

/-! ### Runs of calls -/

/-- **Receipts in unraced runs.** In every state such a run reaches: the action of an
operation took effect as often as its receipt was pruned, and once more while its receipt
is there; a receipt binds every call for its operation; where there is none, a transaction
that returns has run the action on the goal of the session and stored its receipt; and
there are at most `MAX_OPERATIONS` receipts. -/
theorem receipts_of_unraced {s : ReceiptState} (h : goalReceipts.ReachableVia Unraced s) :
    (∀ call ∈ s.calls, s.ran.count call.request.operation = s.pruned.count call.key +
      if (s.log.db.ownerRecords.lookup (goalOwner, call.key)).isSome then 1 else 0) ∧
    (∀ call ∈ s.calls, ∀ record,
      s.log.db.ownerRecords.lookup (goalOwner, call.key) = some record →
        ∃ o, decodeOperation record.value.json = .ok o ∧ Binding s.log call o) ∧
    (∀ call ∈ s.calls, s.log.db.ownerRecords.lookup (goalOwner, call.key) = none →
      ∀ stale now result log',
        transact goalOwner (call.request.apply call.key stale now) s.log = (.ok result, log') →
          Applied s.log log' call.request call.key stale now result) ∧
    s.log.db.receipts.length ≤ maxOperations := by
  have hs := (receipted_of_reachable h).accounted
  have hid : ∀ call ∈ s.calls, (call.request.operation, call.key) ∈ s.identities :=
    fun call hcall => List.mem_map.mpr ⟨call, hcall, rfl⟩
  refine ⟨fun call hcall => hs.counts _ (hid call hcall), ?_, ?_, hs.bound⟩
  · intro call hcall record hrecord
    obtain ⟨o, ho⟩ := hs.decode call.key record (hs.isReceipt (hid call hcall)) hrecord
    refine ⟨o, ho, fun hsame stale now => apply_of_receipt hrecord ho hsame stale now,
      fun hother => ⟨fun stale now => apply_of_other hrecord ho hother stale now, ?_⟩⟩
    intro attempt error
    simp only [ApplyCall.checkPhase, hrecord, ho]
    rw [if_pos hother]
  · intro call _ hnone stale now result log' hrun
    rcases apply_eq_ok hrun with ⟨_, _, hrecord, -⟩ | happlied
    · exact nomatch hrecord.symm.trans hnone
    · exact happlied

/-- The receipts after one clear. -/
theorem receipts_of_unraced_clear : ∃ s : ReceiptState, s.log.db.receipts.length = 1 ∧
    (∀ call ∈ s.calls, s.ran.count call.request.operation = s.pruned.count call.key +
      if (s.log.db.ownerRecords.lookup (goalOwner, call.key)).isSome then 1 else 0) ∧
    s.log.db.receipts.length ≤ maxOperations := by
  obtain ⟨s₁, listed, hs₁, hcalls⟩ := (cleared_zero (G := Unraced)).list (by decide) 0
    (fun _ hcall => nomatch hcall) fun _ _ => trivial
  have hcall : s₁.calls[0]? = some (clearCall 0 listed) := by
    rw [hcalls]
    rfl
  have hroom : Unraced s₁ (.commit 0 clearTime) := by
    intro call attempt listed stale _ _ _
    rw [hs₁.length_receipts]
    exact Nat.zero_le _
  obtain ⟨s₂, hs₂, -⟩ := hs₁.commit hcall hroom
  obtain ⟨hcounts, -, -, hbound⟩ := receipts_of_unraced hs₂.reachable
  exact ⟨s₂, hs₂.length_receipts, hcounts, hbound⟩

/-- **Two calls at the limit** that list before either commits leave more receipts than
`MAX_OPERATIONS`: neither saw the receipt of the other. -/
theorem receipts_exceed :
    ¬ ∀ s, goalReceipts.Reachable s → s.log.db.receipts.length ≤ maxOperations := by
  intro hbound
  have hlimit : maxOperations - 1 < maxOperations := by decide
  obtain ⟨s, hs⟩ := exists_cleared (maxOperations - 1) hlimit.le
  obtain ⟨s₁, listed₁, hs₁, hcalls₁⟩ := hs.list hlimit (maxOperations - 1) trivial fun _ _ => trivial
  obtain ⟨s₂, listed₂, hs₂, hcalls₂⟩ :=
    hs₁.list hlimit (maxOperations - 1 + 1) trivial fun _ _ => trivial
  have hfirst : s₂.calls[s.calls.length]? = some (clearCall (maxOperations - 1) listed₁) := by
    rw [hcalls₂, hcalls₁, List.append_assoc, List.getElem?_append_right (le_refl _), Nat.sub_self]
    rfl
  have hsecond : s₂.calls[s₁.calls.length]?
      = some (clearCall (maxOperations - 1 + 1) listed₂) := by
    rw [hcalls₂, List.getElem?_append_right (le_refl _), Nat.sub_self]
    rfl
  obtain ⟨s₃, hs₃, hother⟩ := hs₂.commit hfirst trivial
  have hne : s₁.calls.length ≠ s.calls.length := by
    rw [hcalls₁, List.length_append, List.length_singleton]
    omega
  obtain ⟨s₄, hs₄, -⟩ := hs₃.commit ((hother _ hne).trans hsecond) trivial
  have hmany := hbound s₄ hs₄.reachable
  rw [hs₄.length_receipts] at hmany
  omega

end Kirakira
