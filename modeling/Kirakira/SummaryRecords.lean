import Kirakira.Lib.Exceptions
import Kirakira.Lib.Transition
import Kirakira.OwnerRows

/-!
# Summary Records

The records of `plugins/compaction/records.py`: summaries of a session, each built on its
parent, and one head for each session. A record is valid by construction. Imported records
keep of their old row what their checks read; its digest is left out.

`_check_lineage` follows the parents of a record to the root; it is given as many steps as
there are records, which every reachable store has enough of (`checkLineage_of_chain`).

## Main results

* `Link` — what the check of one record against its parent establishes.
* `Chain` — the records of a session, from the root to the head.
* `publish_cases` — a publication changes nothing or extends the chain of its session.
* `summaryLineage` — the lineage of every reachable store.
-/

namespace Kirakira.Compaction

open Exceptions Transition

/-! ### Records -/

/-- What made the summary necessary. -/
inductive Trigger where
  | softLimit
  | contextOverflow
  deriving DecidableEq, Repr

/-- The conditions of a model summary. -/
structure Conditions where
  modelCallIds : List String
  trigger : Trigger
  contextWindow : ℕ
  maxOutputTokens : ℕ
  keepRecentTokens : ℕ
  tokensBefore : ℕ
  tokensAfter : ℕ
  deriving DecidableEq

/-- What the checks read of a `LegacySummaryRow`; `sourceMessageIds` is the list that
`source_message_ids_json` holds, and `others` has the remaining scalars. -/
structure LegacySummaryRow where
  sessionKey : String
  generation : ℤ
  parentGeneration : ℤ
  summary : String
  sourceMessageIds : List String
  invalidatedAt : Option String
  invalidatedReason : Option String
  others : List (String × Json)
  deriving DecidableEq

/-- What a record is apart from its identity and its source. -/
inductive SummaryKind where
  /-- `ImportedSummaryRecord`, version 0. -/
  | imported (legacy : LegacySummaryRow)
  /-- `NativeSummaryRecordV1`. -/
  | nativeV1 (conditions : Conditions)
  /-- `SummaryRecord`, version 2 when `contiguous` and version 3 otherwise. -/
  | summary (contiguous : Bool) (summaryMessageIds omittedMessageIds : List String)
      (conditions : Conditions)
  /-- `ManualResetRecord`, version 3 when `old` and version 4 otherwise. -/
  | manualReset (old : Bool)
  deriving DecidableEq

/-- The fields of a record. -/
structure SummaryFields where
  reference : String
  sessionId : String
  generation : ℕ
  parent : Option String
  sourceMessageIds : List String
  content : String
  kind : SummaryKind
  deriving DecidableEq

/-- `version`. -/
def SummaryKind.version : SummaryKind → ℕ
  | .imported _ => 0
  | .nativeV1 _ => 1
  | .summary contiguous _ _ _ => if contiguous then 2 else 3
  | .manualReset old => if old then 3 else 4

/-- The constraints on the fields that model summaries share. -/
def Conditions.WellTyped (c : Conditions) : Prop :=
  c.modelCallIds ≠ [] ∧ (∀ id ∈ c.modelCallIds, id ≠ "") ∧ 0 < c.contextWindow ∧
    0 < c.maxOutputTokens ∧ 0 < c.keepRecentTokens

/-- The constraints on the fields and `check_shared_identity`. -/
def SummaryFields.SharedIdentity (r : SummaryFields) : Prop :=
  r.reference ≠ "" ∧ r.sessionId ≠ "" ∧ 1 ≤ r.generation ∧ r.parent ≠ some "" ∧
    r.sourceMessageIds ≠ [] ∧ (∀ id ∈ r.sourceMessageIds, id ≠ "") ∧ r.content ≠ "" ∧
    r.parent ≠ some r.reference ∧ r.sourceMessageIds.Nodup

/-- Only the first generation has no parent. -/
def SummaryFields.Rooted (r : SummaryFields) : Prop :=
  r.generation = 1 ↔ r.parent = none

/-- `check_legacy_projection`. -/
def SummaryFields.LegacyProjection (r : SummaryFields) (row : LegacySummaryRow) : Prop :=
  row.sessionKey = r.sessionId ∧ row.generation = r.generation ∧ row.summary = r.content ∧
    row.invalidatedAt = none ∧ row.invalidatedReason = none ∧
    row.sourceMessageIds ≠ [] ∧ row.sourceMessageIds <:+ r.sourceMessageIds ∧
    (r.parent = none → row.parentGeneration = 0 ∧ row.sourceMessageIds = r.sourceMessageIds) ∧
    (r.parent ≠ none → row.parentGeneration < row.generation)

/-- `check_native_identity` of a `SummaryRecord`. -/
def SummaryFields.Partitioned (r : SummaryFields) (summarized omitted : List String) : Prop :=
  summarized.Nodup ∧ omitted.Nodup ∧ (∀ id ∈ summarized, id ∉ omitted) ∧
    (∀ id ∈ summarized ++ omitted, id ∈ r.sourceMessageIds) ∧
    r.sourceMessageIds.filter (summarized.contains ·) = summarized ∧
    r.sourceMessageIds.filter (omitted.contains ·) = omitted ∧
    (r.parent = none → r.sourceMessageIds.length = summarized.length + omitted.length)

/-- What the validators of a record accept. -/
def SummaryFields.Valid (r : SummaryFields) : Prop :=
  r.SharedIdentity ∧
    match r.kind with
    | .imported legacy => r.LegacyProjection legacy
    | .nativeV1 conditions =>
        conditions.WellTyped ∧ r.Rooted ∧ conditions.modelCallIds.Nodup
    | .summary _ summarized omitted conditions =>
        conditions.WellTyped ∧ conditions.modelCallIds.length ≤ 2 ∧ r.Rooted ∧
          r.Partitioned summarized omitted
    | .manualReset _ => r.Rooted

/-- `StoredSummary`. -/
structure StoredSummary extends SummaryFields where
  valid : toSummaryFields.Valid
  deriving DecidableEq

/-- Whether a record is one that is published: a `SummaryRecord` or a `ManualResetRecord`. -/
def SummaryKind.isPublished : SummaryKind → Bool
  | .summary _ _ _ _ | .manualReset _ => true
  | _ => false

/-- Whether a record is native. -/
def SummaryKind.isNative : SummaryKind → Bool
  | .imported _ => false
  | _ => true

/-! ### Lineage -/

/-- What a record inherits, as its version reads it: the first ids, or the ids of the parent
wherever they stand. -/
def inherited (current parent : StoredSummary) : List String :=
  if current.kind.version < 3 then
    current.sourceMessageIds.take parent.sourceMessageIds.length
  else current.sourceMessageIds.filter (parent.sourceMessageIds.contains ·)

/-- Whether the generations of a record and its parent fit. -/
def generationMatches (current parent : StoredSummary) : Bool :=
  match current.kind with
  | .imported legacy => (parent.generation : ℤ) = legacy.parentGeneration
  | _ => parent.generation + 1 = current.generation

/-- The check of a record against its parent. -/
def checkInherited (current parent : StoredSummary) : Except PyError Unit :=
  if generationMatches current parent = false ∨
      inherited current parent ≠ parent.sourceMessageIds then
    valueError "摘要父链的 generation 或累计来源不连续"
  else .ok ()

/-- The ids that a record adds over its parent. -/
def added (current : StoredSummary) (parent : Option StoredSummary) : List String :=
  current.sourceMessageIds.filter fun id =>
    !(parent.elim [] fun parent => parent.sourceMessageIds).contains id

/-- The check that a model summary partitions what it adds. -/
def checkAdded (current : StoredSummary) (parent : Option StoredSummary) : Except PyError Unit :=
  match current.kind with
  | .summary _ summarized omitted _ =>
      let added := added current parent
      if ((parent = none ∨ added ≠ []) ∧ summarized = []) ∨
          added.length ≠ summarized.length + omitted.length ∨
          added.filter (summarized.contains ·) ≠ summarized ∨
          added.filter (omitted.contains ·) ≠ omitted then
        valueError "摘要本代覆盖没有被模型输入与省略消息完整分区"
      else .ok ()
  | _ => .ok ()

/-- `_check_lineage`, for that many records; the source would not end where this one runs
out. -/
def checkLineage (read : String → Except PyError (Option StoredSummary)) (sessionId : String) :
    ℕ → StoredSummary → Except PyError Unit
  | 0, _ => .error ⟨.runtimeError, "摘要父链没有终点"⟩
  | n + 1, current =>
      match current.parent with
      | none => checkAdded current none
      | some reference => do
          match ← read reference with
          | none => valueError "摘要父链缺失或跨 Session"
          | some parent =>
              if parent.sessionId ≠ sessionId then valueError "摘要父链缺失或跨 Session"
              else do
                checkInherited current parent
                checkAdded current (some parent)
                checkLineage read sessionId n parent

/-! ### The store -/

/-- The rows under `summary:` and under `head:`. -/
structure SummaryStore where
  summaries : OwnerRows String StoredSummary
  heads : OwnerRows String String

/-- `_read_record`. -/
def SummaryStore.readRecord (store : SummaryStore) (reference : String) :
    Except PyError (Option StoredSummary) :=
  match store.summaries.get? reference with
  | none => .ok none
  | some row =>
      if row.value.reference ≠ reference ∨ row.version ≠ 0 then
        valueError "摘要记录的身份或不可变版本损坏"
      else .ok (some row.value)

/-- `_check_lineage` in a store. -/
def SummaryStore.checkLineage (store : SummaryStore) (record : StoredSummary) :
    Except PyError Unit :=
  Compaction.checkLineage store.readRecord record.sessionId (store.summaries.entries.length + 1)
    record

/-- `SummaryRecords.read`. -/
def SummaryStore.read (store : SummaryStore) (reference : String) :
    Except PyError (Option StoredSummary) := do
  match ← store.readRecord reference with
  | none => return none
  | some record => do
      store.checkLineage record
      return some record

/-- `SummaryRecords.head`. -/
def SummaryStore.head (store : SummaryStore) (sessionId : String) :
    Except PyError (Option StoredSummary) :=
  match store.heads.get? sessionId with
  | none => .ok none
  | some row => do
      match ← store.read row.value with
      | none => valueError "摘要 head 没有对应 Session 的已发布记录"
      | some record =>
          if record.sessionId ≠ sessionId then
            valueError "摘要 head 没有对应 Session 的已发布记录"
          else return some record

/-! ### Publication -/

/-- The position of a message in a snapshot. -/
def position (snapshot : List Message) (id : String) : Option ℕ :=
  snapshot.findIdx? fun message => message.messageId = id

/-- `summary_indexes` of `plugins/context/api.py`. -/
def summaryIndexes (snapshot : List Message) (sourceMessageIds : List String) :
    Except PyError (List ℕ) :=
  match sourceMessageIds.mapM (position snapshot) with
  | none => valueError "摘要来源缺少实际消息"
  | some indexes =>
      if sourceMessageIds = [] then valueError "摘要来源缺少实际消息"
      else if (indexes.zip indexes.tail).any (fun pair => pair.2 ≤ pair.1) then
        valueError "摘要来源必须按实际消息顺序且不能重复"
      else .ok indexes

/-- A call of `publish`: the record, the parent it was built on, and what the reader gives —
whether it belongs to the log, its session and its snapshot. -/
structure Publication where
  record : StoredSummary
  published : record.kind.isPublished = true
  parent : Option StoredSummary
  ownLog : Bool
  readerSessionId : String
  snapshot : List Message

/-- The check of the record against the parent it was built on. -/
def Publication.checkParent (p : Publication) : Except PyError Unit :=
  if p.record.generation ≠ p.parent.elim 1 (·.generation + 1) ∨
      p.record.parent ≠ p.parent.map (·.reference) then
    valueError "摘要 generation 与 parent 不连续"
  else
    match p.parent with
    | none => .ok ()
    | some parent =>
        if p.record.sourceMessageIds.filter (parent.sourceMessageIds.contains ·) ≠
            parent.sourceMessageIds then
          valueError "后续摘要不能撤回已有来源"
        else .ok ()

/-- Whether the positions are those of a range. -/
def isContiguous (indexes : List ℕ) : Bool :=
  match indexes.head?, indexes.getLast? with
  | some first, some last => indexes = List.range' first (last + 1 - first)
  | _, _ => false

/-- The check of the source against the messages. -/
def Publication.checkSource (p : Publication) : Except PyError Unit :=
  match p.record.kind with
  | .manualReset _ =>
      if p.snapshot.length ≠ p.record.sourceMessageIds.length then
        .error ⟨.messageConflict, "会话已变化，请刷新后再开始新对话"⟩
      else do
        let _ ← summaryIndexes p.snapshot p.record.sourceMessageIds
        return ()
  | .summary true _ _ _ => do
      let indexes ← summaryIndexes p.snapshot p.record.sourceMessageIds
      if isContiguous indexes = false then valueError "v2 摘要来源必须是连续消息范围"
      else return ()
  | _ => do
      let _ ← summaryIndexes p.snapshot p.record.sourceMessageIds
      return ()

/-- The two saves of a publication. -/
def SummaryStore.write (store : SummaryStore) (record : StoredSummary) :
    Except PyError SummaryStore := do
  let (_, summaries) ← store.summaries.save record.reference record none
  let previous := store.heads.get? record.sessionId
  let (_, heads) ← store.heads.save record.sessionId record.reference (previous.map (·.version))
  return ⟨summaries, heads⟩

/-- `commit` of `publish`. -/
def SummaryStore.commit (store : SummaryStore) (p : Publication) :
    Except PyError (StoredSummary × SummaryStore) := do
  match ← store.read p.record.reference with
  | some existing =>
      if existing ≠ p.record then valueError "同一摘要出处的内容发生漂移"
      else return (existing, store)
  | none => do
      let current ← store.head p.record.sessionId
      if current ≠ p.parent then .error ⟨.messageConflict, "摘要 parent 已被其他发布推进"⟩
      else do
        p.checkParent
        store.checkLineage p.record
        p.checkSource
        let store ← store.write p.record
        return (p.record, store)

/-- `SummaryRecords.publish`: one transaction. -/
def SummaryStore.publish (store : SummaryStore) (p : Publication) :
    Except PyError StoredSummary × SummaryStore :=
  if p.ownLog = false then (valueError "原子提交不能跨存储 authority", store)
  else if p.readerSessionId ≠ p.record.sessionId then
    (valueError "摘要 reader 与记录必须属于同一 Session", store)
  else match store.commit p with
    | .ok (record, store) => (.ok record, store)
    | .error e => (.error e, store)

/-! ### Links -/

/-- What the check of a record against its parent establishes. -/
structure Link (parent child : StoredSummary) : Prop where
  reference : child.parent = some parent.reference
  session : parent.sessionId = child.sessionId
  inherits : checkInherited child parent = .ok ()
  adds : checkAdded child (some parent) = .ok ()

/-- What the check of a record without a parent establishes. -/
structure Root (record : StoredSummary) : Prop where
  reference : record.parent = none
  adds : checkAdded record none = .ok ()

/-- The records of a session, from the head to the root. -/
def Chain : List StoredSummary → Prop
  | [] => True
  | [record] => Root record
  | child :: parent :: rest => Link parent child ∧ Chain (parent :: rest)

variable {record child parent : StoredSummary}

theorem Chain.tail {rest : List StoredSummary} (h : Chain (record :: rest)) : Chain rest := by
  cases rest with
  | nil => trivial
  | cons parent rest => exact h.2

theorem Chain.suffix {front rest : List StoredSummary} (h : Chain (front ++ rest)) :
    Chain rest := by
  induction front with
  | nil => exact h
  | cons _ front ih => exact ih h.tail

theorem checkInherited_eq_ok (h : checkInherited child parent = .ok ()) :
    generationMatches child parent = true ∧ inherited child parent = parent.sourceMessageIds := by
  rw [checkInherited] at h
  obtain ⟨-, ⟨⟩⟩ | ⟨hnot, h⟩ := ite_eq_iff.mp h
  obtain ⟨hgeneration, hinherited⟩ := not_or.mp hnot
  exact ⟨Bool.not_eq_false _ ▸ hgeneration, not_not.mp hinherited⟩

/-- **What is covered stays covered, in order.** -/
theorem Link.sublist (h : Link parent child) :
    parent.sourceMessageIds.Sublist child.sourceMessageIds := by
  obtain ⟨-, hinherited⟩ := checkInherited_eq_ok h.inherits
  rw [← hinherited, inherited]
  split
  · exact List.take_sublist _ _
  · exact List.filter_sublist

theorem Link.generation (h : Link parent child) (hnative : child.kind.isNative = true) :
    child.generation = parent.generation + 1 := by
  obtain ⟨hgeneration, -⟩ := checkInherited_eq_ok h.inherits
  rw [generationMatches] at hgeneration
  split at hgeneration
  · next hkind =>
      rw [hkind] at hnative
      cases hnative
  · exact (of_decide_eq_true hgeneration).symm

theorem Root.generation (h : Root record) (hnative : record.kind.isNative = true) :
    record.generation = 1 := by
  have hvalid := record.valid.2
  have hrooted : record.Rooted := by
    split at hvalid
    · next hkind =>
        rw [hkind] at hnative
        cases hnative
    · exact hvalid.2.1
    · exact hvalid.2.2.1
    · exact hvalid
  exact hrooted.mpr h.reference

theorem mem_filter_contains {ids part : List String} {id : String} :
    id ∈ ids.filter (part.contains ·) ↔ id ∈ ids ∧ id ∈ part := by
  rw [List.mem_filter, List.contains_iff_mem]

section Parts

variable {a b : List String}

theorem length_parts_cons (hdisjoint : ∀ id ∈ a, id ∉ b) (first : String) (rest : List String) :
    ((first :: rest).filter (a.contains ·)).length +
        ((first :: rest).filter (b.contains ·)).length =
      (if first ∈ a ∨ first ∈ b then 1 else 0) +
        ((rest.filter (a.contains ·)).length + (rest.filter (b.contains ·)).length) := by
  by_cases ha : first ∈ a
  · have hb : first ∉ b := hdisjoint first ha
    simp [ha, hb]
    omega
  · by_cases hb : first ∈ b
    · simp [ha, hb]
      omega
    · simp [ha, hb]

theorem length_parts_le (hdisjoint : ∀ id ∈ a, id ∉ b) (ids : List String) :
    (ids.filter (a.contains ·)).length + (ids.filter (b.contains ·)).length ≤ ids.length := by
  induction ids with
  | nil => simp
  | cons first rest ih =>
      rw [length_parts_cons hdisjoint, List.length_cons]
      split <;> omega

theorem mem_of_length_parts (hdisjoint : ∀ id ∈ a, id ∉ b) {ids : List String}
    (hlength : ids.length =
      (ids.filter (a.contains ·)).length + (ids.filter (b.contains ·)).length) :
    ∀ id ∈ ids, id ∈ a ∨ id ∈ b := by
  induction ids with
  | nil => exact fun _ h => nomatch h
  | cons first rest ih =>
      have hle := length_parts_le hdisjoint rest
      rw [length_parts_cons hdisjoint, List.length_cons] at hlength
      split at hlength
      · next hfirst =>
          intro id hid
          rcases List.mem_cons.mp hid with rfl | hrest
          · exact hfirst
          · exact ih (by omega) id hrest
      · omega

end Parts

/-- **A model summary partitions what it adds.** -/
theorem checkAdded_eq_ok {parent : Option StoredSummary} {contiguous : Bool}
    {summarized omitted : List String} {conditions : Conditions}
    (hkind : record.kind = .summary contiguous summarized omitted conditions)
    (h : checkAdded record parent = .ok ()) :
    (∀ id ∈ summarized, id ∉ omitted) ∧
      ∀ id, id ∈ summarized ∨ id ∈ omitted ↔ id ∈ added record parent := by
  have hvalid := record.valid.2
  rw [hkind] at hvalid
  obtain ⟨-, -, -, -, -, hdisjoint, -⟩ := hvalid
  rw [checkAdded, hkind] at h
  dsimp only at h
  obtain ⟨-, ⟨⟩⟩ | ⟨hnot, h⟩ := ite_eq_iff.mp h
  obtain ⟨-, hnot⟩ := not_or.mp hnot
  obtain ⟨hlength, hnot⟩ := not_or.mp hnot
  obtain ⟨hsummarized, homitted⟩ := not_or.mp hnot
  have hlength := not_not.mp hlength
  have hsummarized := not_not.mp hsummarized
  have homitted := not_not.mp homitted
  refine ⟨hdisjoint, fun id => ⟨?_, fun hid => ?_⟩⟩
  · rintro (hid | hid)
    · exact (mem_filter_contains.mp (hsummarized ▸ hid)).1
    · exact (mem_filter_contains.mp (homitted ▸ hid)).1
  · refine mem_of_length_parts hdisjoint ?_ id hid
    rw [hsummarized, homitted]
    exact hlength

theorem mem_added {parent : Option StoredSummary} {id : String} :
    id ∈ added record parent ↔
      id ∈ record.sourceMessageIds ∧ ∀ p ∈ parent, id ∉ p.sourceMessageIds := by
  rw [added, List.mem_filter, Bool.not_eq_true', ← Bool.not_eq_true, List.contains_iff_mem]
  cases parent with
  | none => simp
  | some p => simp

/-! ### What a store keeps -/

/-- The records of one session form a chain that ends in the head. -/
structure SessionChain (store : SummaryStore) (sessionId : String)
    (chain : List StoredSummary) : Prop where
  linked : Chain chain
  nodup : chain.Nodup
  mem_iff : ∀ record, record ∈ chain ↔
    store.summaries.get? record.reference = some ⟨0, record⟩ ∧ record.sessionId = sessionId
  head : (store.heads.get? sessionId).map (·.value) = chain.head?.map (·.reference)

/-- Every record stands under its reference, and every session has its chain. -/
structure Sound (store : SummaryStore) : Prop where
  row : ∀ reference row, store.summaries.get? reference = some row →
    row.value.reference = reference ∧ row.version = 0
  session : ∀ sessionId, ∃ chain, SessionChain store sessionId chain

section Reads

variable {store : SummaryStore}

theorem Sound.readRecord (h : Sound store) (reference : String) :
    store.readRecord reference = .ok ((store.summaries.get? reference).map (·.value)) := by
  rw [SummaryStore.readRecord]
  cases hrow : store.summaries.get? reference with
  | none => rfl
  | some row =>
      obtain ⟨hreference, hversion⟩ := h.row reference row hrow
      dsimp only
      rw [if_neg (not_or.mpr ⟨not_not.mpr hreference, not_not.mpr hversion⟩)]
      rfl

variable {chain : List StoredSummary} {record : StoredSummary}

variable {s : String}

theorem SessionChain.readRecord (hchain : SessionChain store s chain) (h : Sound store)
    (hrecord : record ∈ chain) : store.readRecord record.reference = .ok (some record) := by
  rw [h.readRecord, ((hchain.mem_iff record).mp hrecord).1]
  rfl

/-- **The lineage of a chain is accepted**, with as many steps as it has records. -/
theorem checkLineage_of_chain {read : String → Except PyError (Option StoredSummary)}
    {sessionId : String} {rest : List StoredSummary} {n : ℕ} (hchain : Chain (record :: rest))
    (hsession : ∀ r ∈ rest, r.sessionId = sessionId)
    (hread : ∀ r ∈ rest, read r.reference = .ok (some r)) (hn : rest.length < n) :
    checkLineage read sessionId n record = .ok () := by
  induction rest generalizing record n with
  | nil =>
      obtain ⟨m, rfl⟩ := Nat.exists_eq_succ_of_ne_zero (Nat.ne_of_gt hn)
      rw [checkLineage, Root.reference hchain]
      exact Root.adds hchain
  | cons parent rest ih =>
      obtain ⟨hlink, hrest⟩ := hchain
      obtain ⟨m, rfl⟩ := Nat.exists_eq_succ_of_ne_zero (Nat.ne_of_gt (Nat.zero_lt_of_lt hn))
      rw [checkLineage, hlink.reference]
      refine bind_eq_ok.mpr ⟨some parent, hread parent List.mem_cons_self, ?_⟩
      dsimp only
      rw [if_neg (not_not.mpr (hsession parent List.mem_cons_self))]
      refine bind_eq_ok.mpr ⟨(), hlink.inherits, bind_eq_ok.mpr ⟨(), hlink.adds, ?_⟩⟩
      exact ih hrest (fun r hr => hsession r (List.mem_cons_of_mem _ hr))
        (fun r hr => hread r (List.mem_cons_of_mem _ hr)) (Nat.lt_of_succ_lt_succ hn)

theorem SessionChain.length_le (hchain : SessionChain store s chain) :
    chain.length ≤ store.summaries.entries.length := by
  have hinj : ∀ a ∈ chain, ∀ b ∈ chain, a.reference = b.reference → a = b := by
    intro a ha b hb hab
    have hrow := ((hchain.mem_iff a).mp ha).1
    rw [hab, ((hchain.mem_iff b).mp hb).1] at hrow
    exact (congrArg OwnerRow.value (Option.some.inj hrow)).symm
  have hnodup : (chain.map (·.reference)).Nodup :=
    List.Nodup.map_on (fun a ha b hb => hinj a ha b hb) hchain.nodup
  have hsubset : chain.map (·.reference) ⊆ store.summaries.entries.map Prod.fst := by
    intro reference hreference
    obtain ⟨record, hrecord, rfl⟩ := List.mem_map.mp hreference
    exact List.mem_map.mpr
      ⟨_, Dict.get?_eq_some_iff.mp ((hchain.mem_iff record).mp hrecord).1, rfl⟩
  have hle := (List.subperm_of_subset hnodup hsubset).length_le
  rwa [List.length_map, List.length_map] at hle

theorem SessionChain.read (hchain : SessionChain store s chain) (h : Sound store)
    (hrecord : record ∈ chain) : store.read record.reference = .ok (some record) := by
  obtain ⟨front, rest, hsplit⟩ := List.append_of_mem hrecord
  have hrest : ∀ r ∈ rest, r ∈ chain := by
    intro r hr
    rw [hsplit]
    exact List.mem_append_right _ (List.mem_cons_of_mem _ hr)
  have hlength := hchain.length_le
  rw [hsplit, List.length_append, List.length_cons] at hlength
  have hlineage : store.checkLineage record = .ok () := by
    refine checkLineage_of_chain (Chain.suffix (hsplit ▸ hchain.linked))
      (fun r hr => ?_) (fun r hr => hchain.readRecord h (hrest r hr)) (by omega)
    rw [((hchain.mem_iff r).mp (hrest r hr)).2, ((hchain.mem_iff record).mp hrecord).2]
  rw [SummaryStore.read]
  exact bind_eq_ok.mpr ⟨some record, hchain.readRecord h hrecord,
    bind_eq_ok.mpr ⟨(), hlineage, rfl⟩⟩

theorem Sound.mem_chain (h : Sound store) {reference : String} {row : OwnerRow StoredSummary}
    (hrow : store.summaries.get? reference = some row)
    (hchain : SessionChain store row.value.sessionId chain) : row.value ∈ chain := by
  obtain ⟨hreference, hversion⟩ := h.row reference row hrow
  refine (hchain.mem_iff row.value).mpr ⟨?_, rfl⟩
  rw [hreference, hrow, ← hversion]

/-- **Reads of a sound store return what it holds.** -/
theorem Sound.read (h : Sound store) (reference : String) :
    store.read reference = .ok ((store.summaries.get? reference).map (·.value)) := by
  cases hrow : store.summaries.get? reference with
  | none =>
      rw [SummaryStore.read]
      refine bind_eq_ok.mpr ⟨none, ?_, rfl⟩
      rw [h.readRecord, hrow]
      rfl
  | some row =>
      obtain ⟨chain, hchain⟩ := h.session row.value.sessionId
      have hread := hchain.read h (h.mem_chain hrow hchain)
      rwa [(h.row reference row hrow).1] at hread

/-- **The head of a sound store is the head of its chain.** -/
theorem SessionChain.readHead (hchain : SessionChain store s chain) (h : Sound store) :
    store.head s = .ok chain.head? := by
  have hhead := hchain.head
  rw [SummaryStore.head]
  cases hrow : store.heads.get? s with
  | none =>
      rw [hrow] at hhead
      cases chain with
      | nil => rfl
      | cons record rest => cases hhead
  | some row =>
      rw [hrow] at hhead
      cases chain with
      | nil => cases hhead
      | cons record rest =>
          have hvalue : row.value = record.reference := Option.some.inj hhead
          have hread := hchain.read h List.mem_cons_self
          refine bind_eq_ok.mpr ⟨some record, by rw [hvalue]; exact hread, ?_⟩
          have hsession := ((hchain.mem_iff record).mp List.mem_cons_self).2
          dsimp only
          rw [if_neg (not_not.mpr hsession)]
          rfl

end Reads

/-! ### What a publication does -/

section Publish

variable {store store' : SummaryStore} {p : Publication} {result : StoredSummary}

/-- **What a commit that returned did.** -/
theorem commit_eq_ok (h : store.commit p = .ok (result, store')) :
    (store.read p.record.reference = .ok (some p.record) ∧ result = p.record ∧ store' = store) ∨
    (store.read p.record.reference = .ok none ∧ store.head p.record.sessionId = .ok p.parent ∧
      p.checkParent = .ok () ∧ store.checkLineage p.record = .ok () ∧
      store.write p.record = .ok store' ∧ result = p.record) := by
  rw [SummaryStore.commit] at h
  obtain ⟨existing, hread, h⟩ := bind_eq_ok.mp h
  cases existing with
  | some existing =>
      dsimp only at h
      obtain ⟨-, ⟨⟩⟩ | ⟨hsame, h⟩ := ite_eq_iff.mp h
      obtain rfl := not_not.mp hsame
      obtain ⟨rfl, rfl⟩ := Prod.mk.inj (Except.ok.inj h)
      exact .inl ⟨hread, rfl, rfl⟩
  | none =>
      obtain ⟨current, hhead, h⟩ := bind_eq_ok.mp h
      split at h
      · cases h
      · next hcurrent =>
          obtain rfl := not_not.mp hcurrent
          obtain ⟨_, hparent, h⟩ := bind_eq_ok.mp h
          obtain ⟨_, hlineage, h⟩ := bind_eq_ok.mp h
          obtain ⟨_, -, h⟩ := bind_eq_ok.mp h
          obtain ⟨written, hwrite, h⟩ := bind_eq_ok.mp h
          obtain ⟨rfl, rfl⟩ := Prod.mk.inj (Except.ok.inj h)
          exact .inr ⟨hread, hhead, hparent, hlineage, hwrite, rfl⟩

theorem write_eq_ok (h : store.write record = .ok store') :
    store'.summaries = store.summaries.set record.reference ⟨0, record⟩ ∧
      ∃ version, store'.heads = store.heads.set record.sessionId ⟨version, record.reference⟩ := by
  rw [SummaryStore.write] at h
  obtain ⟨⟨row, summaries⟩, hsummaries, h⟩ := bind_eq_ok.mp h
  obtain ⟨⟨headRow, heads⟩, hheads, h⟩ := bind_eq_ok.mp h
  obtain rfl := Except.ok.inj h
  obtain ⟨-, rfl, rfl⟩ := OwnerRows.save_none_eq_ok hsummaries
  obtain ⟨-, rfl, rfl⟩ := OwnerRows.save_eq_ok hheads
  exact ⟨rfl, _, rfl⟩

theorem checkParent_eq_ok (h : p.checkParent = .ok ()) :
    p.record.generation = p.parent.elim 1 (·.generation + 1) ∧
      p.record.parent = p.parent.map (·.reference) := by
  rw [Publication.checkParent] at h
  obtain ⟨-, ⟨⟩⟩ | ⟨hnot, h⟩ := ite_eq_iff.mp h
  obtain ⟨hgeneration, hparent⟩ := not_or.mp hnot
  exact ⟨not_not.mp hgeneration, not_not.mp hparent⟩

theorem checkLineage_eq_ok {read : String → Except PyError (Option StoredSummary)}
    {sessionId : String} {n : ℕ} (h : checkLineage read sessionId n record = .ok ()) :
    (record.parent = none ∧ checkAdded record none = .ok ()) ∨
    ∃ reference parent, record.parent = some reference ∧ read reference = .ok (some parent) ∧
      parent.sessionId = sessionId ∧ checkInherited record parent = .ok () ∧
      checkAdded record (some parent) = .ok () := by
  cases n with
  | zero => cases h
  | succ n =>
      rw [checkLineage] at h
      split at h
      · next hparent => exact .inl ⟨hparent, h⟩
      · next reference hparent =>
          obtain ⟨found, hread, h⟩ := bind_eq_ok.mp h
          cases found with
          | none => cases h
          | some parent =>
              dsimp only at h
              obtain ⟨-, ⟨⟩⟩ | ⟨hsession, h⟩ := ite_eq_iff.mp h
              obtain ⟨_, hinherits, h⟩ := bind_eq_ok.mp h
              obtain ⟨_, hadds, -⟩ := bind_eq_ok.mp h
              exact .inr ⟨reference, parent, hparent, hread, not_not.mp hsession,
                hinherits, hadds⟩

variable {chain : List StoredSummary}

theorem chain_cons (hchain : SessionChain store p.record.sessionId chain) (h : Sound store)
    (hhead : store.head p.record.sessionId = .ok p.parent) (hparent : p.checkParent = .ok ())
    (hlineage : store.checkLineage p.record = .ok ()) : Chain (p.record :: chain) := by
  have hcurrent : chain.head? = p.parent := Except.ok.inj ((hchain.readHead h).symm.trans hhead)
  obtain ⟨-, hreference⟩ := checkParent_eq_ok hparent
  rw [← hcurrent] at hreference
  rcases checkLineage_eq_ok hlineage with ⟨hnone, hadds⟩ |
    ⟨reference, parent, hsome, hread, hsession, hinherits, hadds⟩
  · cases chain with
    | nil => exact ⟨hnone, hadds⟩
    | cons record rest =>
        rw [hnone] at hreference
        cases hreference
  · cases chain with
    | nil =>
        rw [hsome] at hreference
        cases hreference
    | cons record rest =>
        have hrecord : record.reference = reference :=
          Option.some.inj (hreference.symm.trans hsome)
        rw [← hrecord, hchain.readRecord h List.mem_cons_self] at hread
        obtain rfl := Option.some.inj (Except.ok.inj hread)
        exact ⟨⟨hrecord ▸ hsome, hsession, hinherits, hadds⟩, hchain.linked⟩

theorem get?_write (hnew : store.summaries.get? p.record.reference = none)
    (hwrite : store.write p.record = .ok store') (record : StoredSummary) :
    store'.summaries.get? record.reference = some ⟨0, record⟩ ↔
      record = p.record ∨ store.summaries.get? record.reference = some ⟨0, record⟩ := by
  obtain ⟨hsummaries, -⟩ := write_eq_ok hwrite
  rw [hsummaries, Dict.get?_set]
  split
  · next hsame =>
      rw [hsame, hnew]
      constructor
      · intro hrow
        exact .inl (congrArg OwnerRow.value (Option.some.inj hrow)).symm
      · rintro (rfl | hrow)
        · rfl
        · cases hrow
  · next hother =>
      refine ⟨.inr, ?_⟩
      rintro (rfl | hrow)
      · exact absurd rfl hother
      · exact hrow

theorem SessionChain.write (hchain : SessionChain store p.record.sessionId chain)
    (hlinked : Chain (p.record :: chain)) (hnew : store.summaries.get? p.record.reference = none)
    (hwrite : store.write p.record = .ok store') :
    SessionChain store' p.record.sessionId (p.record :: chain) := by
  refine ⟨hlinked, List.nodup_cons.mpr ⟨fun hmem => ?_, hchain.nodup⟩, fun record => ?_, ?_⟩
  · rw [((hchain.mem_iff p.record).mp hmem).1] at hnew
    cases hnew
  · rw [List.mem_cons, get?_write hnew hwrite, hchain.mem_iff, or_and_right]
    exact or_congr_left ⟨fun heq => ⟨heq, by rw [heq]⟩, And.left⟩
  · obtain ⟨-, version, hheads⟩ := write_eq_ok hwrite
    rw [hheads, Dict.get?_set_self]
    rfl

theorem SessionChain.write_other {sessionId : String} (hchain : SessionChain store sessionId chain)
    (hother : sessionId ≠ p.record.sessionId)
    (hnew : store.summaries.get? p.record.reference = none)
    (hwrite : store.write p.record = .ok store') : SessionChain store' sessionId chain := by
  refine ⟨hchain.linked, hchain.nodup, fun record => ?_, ?_⟩
  · rw [hchain.mem_iff, get?_write hnew hwrite, or_and_right]
    refine ⟨.inr, ?_⟩
    rintro (⟨rfl, hsame⟩ | hrow)
    · exact absurd hsame.symm hother
    · exact hrow
  · obtain ⟨-, version, hheads⟩ := write_eq_ok hwrite
    rw [hheads, Dict.get?_set_of_ne _ _ hother]
    exact hchain.head

/-- **A publication that writes keeps the store sound.** -/
theorem Sound.write (h : Sound store) (hchain : SessionChain store p.record.sessionId chain)
    (hlinked : Chain (p.record :: chain)) (hnew : store.summaries.get? p.record.reference = none)
    (hwrite : store.write p.record = .ok store') : Sound store' := by
  refine ⟨fun reference row hrow => ?_, fun sessionId => ?_⟩
  · obtain ⟨hsummaries, -⟩ := write_eq_ok hwrite
    rw [hsummaries, Dict.get?_set] at hrow
    split at hrow
    · next hsame =>
        obtain rfl := Option.some.inj hrow
        exact ⟨hsame.symm, rfl⟩
    · exact h.row reference row hrow
  · by_cases hsession : sessionId = p.record.sessionId
    · exact ⟨p.record :: chain, hsession ▸ hchain.write hlinked hnew hwrite⟩
    · obtain ⟨other, hother⟩ := h.session sessionId
      exact ⟨other, hother.write_other hsession hnew hwrite⟩

/-- **A publication changes nothing or extends the chain of its session.** -/
theorem publish_cases (h : Sound store) (p : Publication) :
    (store.publish p).2 = store ∨
    ∃ chain, SessionChain store p.record.sessionId chain ∧ p.parent = chain.head? ∧
      p.record.generation = p.parent.elim 1 (·.generation + 1) ∧
      Sound (store.publish p).2 ∧
      SessionChain (store.publish p).2 p.record.sessionId (p.record :: chain) ∧
      ∀ sessionId other, sessionId ≠ p.record.sessionId →
        SessionChain store sessionId other → SessionChain (store.publish p).2 sessionId other := by
  rw [SummaryStore.publish]
  split
  · exact .inl rfl
  split
  · exact .inl rfl
  split
  · next record store' hcommit =>
      rcases commit_eq_ok hcommit with ⟨-, -, rfl⟩ |
        ⟨hread, hhead, hparent, hlineage, hwrite, -⟩
      · exact .inl rfl
      · right
        obtain ⟨chain, hchain⟩ := h.session p.record.sessionId
        have hnew : store.summaries.get? p.record.reference = none := by
          rw [h.read] at hread
          exact Option.map_eq_none_iff.mp (Except.ok.inj hread)
        have hlinked := chain_cons hchain h hhead hparent hlineage
        refine ⟨chain, hchain, ?_, (checkParent_eq_ok hparent).1,
          h.write hchain hlinked hnew hwrite, hchain.write hlinked hnew hwrite, ?_⟩
        · exact (Except.ok.inj ((hchain.readHead h).symm.trans hhead)).symm
        · exact fun _ _ hsession hother => hother.write_other hsession hnew hwrite
  · exact .inl rfl

theorem Sound.publish (h : Sound store) (p : Publication) : Sound (store.publish p).2 := by
  rcases publish_cases h p with hsame | ⟨_, -, -, -, hsound, -⟩
  · rw [hsame]
    exact h
  · exact hsound

/-- **An identical publication returns the record and changes nothing.** -/
theorem publish_again (h : Sound store) {row : OwnerRow StoredSummary}
    (hrow : store.summaries.get? p.record.reference = some row) (hsame : row.value = p.record)
    (hlog : p.ownLog = true) (hreader : p.readerSessionId = p.record.sessionId) :
    store.publish p = (.ok p.record, store) := by
  have hcommit : store.commit p = .ok (p.record, store) := by
    rw [SummaryStore.commit]
    refine bind_eq_ok.mpr ⟨some p.record, ?_, ?_⟩
    · rw [h.read, hrow, ← hsame]
      rfl
    · exact if_neg (not_not.mpr rfl)
  rw [SummaryStore.publish, hlog, if_neg Bool.true_eq_false.mp, if_neg (not_not.mpr hreader),
    hcommit]

/-- **A different record under the same reference is rejected.** -/
theorem publish_conflict (h : Sound store) {row : OwnerRow StoredSummary}
    (hrow : store.summaries.get? p.record.reference = some row) (hother : row.value ≠ p.record) :
    ∃ e, store.publish p = (.error e, store) := by
  rw [SummaryStore.publish]
  split
  · exact ⟨_, rfl⟩
  split
  · exact ⟨_, rfl⟩
  split
  · next hcommit =>
      rcases commit_eq_ok hcommit with ⟨hread, -⟩ | ⟨hread, -⟩
      · rw [h.read, hrow] at hread
        exact absurd (Option.some.inj (Except.ok.inj hread)) hother
      · rw [h.read, hrow] at hread
        cases Except.ok.inj hread
  · exact ⟨_, rfl⟩

end Publish

/-! ### Lineages -/

section Lineages

variable {store : SummaryStore} {s : String} {chain : List StoredSummary}

theorem SessionChain.eq_of_reference (hchain : SessionChain store s chain)
    {a b : StoredSummary} (ha : a ∈ chain) (hb : b ∈ chain) (hab : a.reference = b.reference) :
    a = b := by
  have hrow := ((hchain.mem_iff a).mp ha).1
  rw [hab, ((hchain.mem_iff b).mp hb).1] at hrow
  exact (congrArg OwnerRow.value (Option.some.inj hrow)).symm

theorem SessionChain.link (hchain : SessionChain store s chain) (hparent : parent ∈ chain)
    (hchild : child ∈ chain) (href : child.parent = some parent.reference) : Link parent child := by
  obtain ⟨front, rest, hsplit⟩ := List.append_of_mem hchild
  have hsuffix := Chain.suffix (hsplit ▸ hchain.linked)
  cases rest with
  | nil =>
      rw [Root.reference hsuffix] at href
      cases href
  | cons next rest =>
      have hnext : next ∈ chain := by
        rw [hsplit]
        exact List.mem_append_right _ (List.mem_cons_of_mem _ List.mem_cons_self)
      have hlink : Link next child := hsuffix.1
      obtain rfl := hchain.eq_of_reference hnext hparent
        (Option.some.inj (hlink.reference.symm.trans href))
      exact hlink

theorem SessionChain.root (hchain : SessionChain store s chain) (hrecord : record ∈ chain)
    (hnone : record.parent = none) : Root record := by
  obtain ⟨front, rest, hsplit⟩ := List.append_of_mem hrecord
  have hsuffix := Chain.suffix (hsplit ▸ hchain.linked)
  cases rest with
  | nil => exact hsuffix
  | cons next rest =>
      have hlink : Link next record := hsuffix.1
      have hreference := hlink.reference
      rw [hnone] at hreference
      cases hreference

theorem generations_of_chain (hlinked : Chain chain)
    (hnative : ∀ record ∈ chain, record.kind.isNative = true) :
    chain.map (·.generation) = (List.range' 1 chain.length).reverse := by
  induction chain with
  | nil => rfl
  | cons record rest ih =>
      have hrest := ih hlinked.tail fun r hr => hnative r (List.mem_cons_of_mem _ hr)
      have hself := hnative record List.mem_cons_self
      have hgeneration : record.generation = rest.length + 1 := by
        cases rest with
        | nil => exact Root.generation hlinked hself
        | cons parent rest =>
            rw [Link.generation hlinked.1 hself]
            rw [List.map_cons, List.length_cons, List.range'_concat, List.reverse_append] at hrest
            have hhead := (List.cons.inj hrest).1
            rw [hhead, List.length_cons]
            omega
      rw [List.map_cons, hrest, hgeneration, List.length_cons, List.range'_concat,
        List.reverse_append]
      simp [Nat.add_comm]

/-- What the records of a session satisfy. -/
structure Lineage (store : SummaryStore) (sessionId : String) (chain : List StoredSummary) :
    Prop extends SessionChain store sessionId chain where
  /-- Generations count from one when all records are native. -/
  generations : (∀ record ∈ chain, record.kind.isNative = true) →
    chain.map (·.generation) = (List.range' 1 chain.length).reverse
  /-- A record covers what its parent covers, in the same relative order. -/
  covers : ∀ parent ∈ chain, ∀ child ∈ chain, child.parent = some parent.reference →
    parent.sourceMessageIds.Sublist child.sourceMessageIds
  /-- A model summary partitions what it adds over its parent. -/
  partitions : ∀ record ∈ chain, ∀ parent : Option StoredSummary,
    record.parent = parent.map (·.reference) → (∀ p ∈ parent, p ∈ chain) →
    ∀ contiguous summarized omitted conditions,
      record.kind = .summary contiguous summarized omitted conditions →
      (∀ id ∈ summarized, id ∉ omitted) ∧
        ∀ id, id ∈ summarized ∨ id ∈ omitted ↔
          id ∈ record.sourceMessageIds ∧ ∀ p ∈ parent, id ∉ p.sourceMessageIds

theorem SessionChain.lineage (hchain : SessionChain store s chain) : Lineage store s chain where
  toSessionChain := hchain
  generations := generations_of_chain hchain.linked
  covers := fun _ hparent _ hchild href => (hchain.link hparent hchild href).sublist
  partitions := by
    intro record hrecord parent href hparent contiguous summarized omitted conditions hkind
    have hadds : checkAdded record parent = .ok () := by
      cases parent with
      | none => exact (hchain.root hrecord href).adds
      | some parent => exact (hchain.link (hparent parent rfl) hrecord href).adds
    obtain ⟨hdisjoint, hmem⟩ := checkAdded_eq_ok hkind hadds
    exact ⟨hdisjoint, fun id => (hmem id).trans mem_added⟩

end Lineages

/-! ### Runs -/

/-- Publications, from a sound store; it may be empty, or hold imported records. -/
def summaryRecords : System SummaryStore Publication where
  init := Sound
  step store p store' := store' = (store.publish p).2

/-- The generation of the head of a session; zero before the first publication. -/
def headGeneration (store : SummaryStore) (sessionId : String) : ℕ :=
  match store.head sessionId with
  | .ok (some record) => record.generation
  | _ => 0

/-- The heads of one store are no later than those of another. -/
def HeadsLe (store store' : SummaryStore) : Prop :=
  ∀ sessionId, headGeneration store sessionId ≤ headGeneration store' sessionId

/-- **A publication never moves a head back.** -/
theorem headsLe_publish {store : SummaryStore} (h : Sound store) (p : Publication) :
    HeadsLe store (store.publish p).2 := by
  intro sessionId
  rcases publish_cases h p with hsame | ⟨chain, hchain, hparent, hgen, hsound, hext, hothers⟩
  · rw [hsame]
  · by_cases hsession : sessionId = p.record.sessionId
    · rw [hsession, headGeneration, headGeneration, hchain.readHead h, hext.readHead hsound]
      cases chain with
      | nil => exact Nat.zero_le _
      | cons record rest =>
          rw [hparent] at hgen
          have hle : record.generation ≤ p.record.generation := by
            rw [hgen]
            exact Nat.le_succ _
          exact hle
    · obtain ⟨other, hother⟩ := h.session sessionId
      have hother' := hothers sessionId other hsession hother
      rw [headGeneration, headGeneration, hother.readHead h, hother'.readHead hsound]

theorem sound_of_reachable {store : SummaryStore} (h : summaryRecords.Reachable store) :
    Sound store := by
  refine System.ReachableVia.invariant (fun _ hinit => hinit) ?_ h
  rintro store p store' hsound - rfl
  exact hsound.publish p

/-- **Summary lineage.** In every store that publications reach: the records of a session are
one chain that ends in its head, with its generations, its growing coverage and its
partitions; along a run no head moves back; an identical publication returns the record and
changes nothing; a different record under a reference that is taken is rejected. -/
theorem summaryLineage :
    (∀ store, summaryRecords.Reachable store →
      ∀ sessionId, ∃ chain, Lineage store sessionId chain) ∧
    (∀ store store', summaryRecords.Reachable store → summaryRecords.Run store store' →
      HeadsLe store store') ∧
    (∀ store p row, summaryRecords.Reachable store →
      store.summaries.get? p.record.reference = some row →
        (row.value = p.record → p.ownLog = true → p.readerSessionId = p.record.sessionId →
          store.publish p = (.ok p.record, store)) ∧
        (row.value ≠ p.record → ∃ e, store.publish p = (.error e, store))) := by
  refine ⟨fun store h sessionId => ?_, fun store store' h hrun => ?_, fun store p row h hrow => ?_⟩
  · obtain ⟨chain, hchain⟩ := (sound_of_reachable h).session sessionId
    exact ⟨chain, hchain.lineage⟩
  · refine System.RunVia.relates (I := Sound) (fun _ _ => Nat.le_refl _)
      (fun _ _ _ h₁ h₂ sessionId => Nat.le_trans (h₁ sessionId) (h₂ sessionId)) ?_ ?_ hrun
      (sound_of_reachable h)
    · rintro store p store' hsound - rfl
      exact hsound.publish p
    · rintro store p store' hsound - rfl
      exact headsLe_publish hsound p
  · have hsound := sound_of_reachable h
    exact ⟨publish_again hsound hrow, publish_conflict hsound hrow⟩

end Kirakira.Compaction
