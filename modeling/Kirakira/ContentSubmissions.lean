import Kirakira.Lib.JsonAscii
import Kirakira.MailRecovery

/-!
# Content Is Submitted Once

A batch names itself by its source and batch id, an item by its source, item and revision, and
an envelope by these three joined with colons. A batch that is repeated is answered from its
receipt; of a new one, the items that are not there yet get a row, a number and an envelope.

## Main results

* `appendItems_spec` — **what a batch adds**: the new items, numbered in their order.
* `appendItems_returns` — a batch is taken exactly when its items agree with the rows of their
  own revisions and the new ones share no mail id with another revision.
* `submissions_hold` — **submission is exactly once**, and when a batch is taken.
* `submissions_collide` — two revisions of one mail id, the second of which is refused.
-/

namespace Kirakira.EventMail

open Exceptions

variable {lib : Stdlib} {now source : String} {s t : Store}

/-! ### Fingerprints -/

/-- The object `json.dumps` writes of an item. -/
def NormalizedItem.json (item : NormalizedItem) : Json :=
  .obj [("item_id", .str item.itemId), ("revision", .str item.revision),
    ("payload_json", .str item.payloadJson), ("not_before", .str item.notBefore),
    ("requires_ack", .bool item.requiresAck)]

/-- The text `_batch_fingerprint` hashes. -/
def batchText (items : List NormalizedItem) : String :=
  (Json.arr (items.map NormalizedItem.json)).sortKeys.asciiDumps

/-- `_batch_fingerprint`. -/
def batchFingerprint (sha256 : String → String) (items : List NormalizedItem) : String :=
  sha256 (batchText items)

/-- A standard library with the fingerprints of the source. -/
def hashingStdlib (digest : Detail → String) (sha256 : String → String)
    (fromIso : String → Except PyError Datetime) : Stdlib where
  digest := digest
  sha256 := sha256
  fingerprint := batchFingerprint sha256
  fromIso := fromIso

theorem NormalizedItem.sortKeys_json (item : NormalizedItem) : item.json.sortKeys =
    .obj [("item_id", .str item.itemId), ("not_before", .str item.notBefore),
      ("payload_json", .str item.payloadJson), ("requires_ack", .bool item.requiresAck),
      ("revision", .str item.revision)] := by
  simp +decide only [NormalizedItem.json, Json.sortKeys, Json.sortFields, List.insertionSort_cons,
    List.insertionSort_nil, List.orderedInsert_nil, List.orderedInsert_cons, Json.fieldLe, ite_true,
    ite_false]

variable {items normalized : List NormalizedItem} {accepted duplicates inserted : List ItemKey}
  {i : Item} {batch : String} {batchId sourceId : Json} {r : SubmissionReceipt}

/-- **The text of a batch names its items.** -/
theorem batchText_inj {items' : List NormalizedItem} (h : batchText items = batchText items') :
    items = items' := by
  have hfinite : ∀ items : List NormalizedItem,
      (Json.arr (items.map NormalizedItem.json)).sortKeys.Finite := by
    intro items
    rw [Json.sortKeys, Json.sortItems_eq_map, List.map_map, Json.Finite, Json.all,
      Json.allItems_eq_true_iff]
    intro j hj
    obtain ⟨item, -, rfl⟩ := List.mem_map.mp hj
    rw [Function.comp_apply, NormalizedItem.sortKeys_json]
    rfl
  have hitems := Json.asciiDumps_inj (hfinite items) (hfinite items') h
  rw [Json.sortKeys, Json.sortKeys, Json.sortItems_eq_map, Json.sortItems_eq_map, List.map_map,
    List.map_map] at hitems
  refine List.map_injective_iff.mpr (fun item item' hitem => ?_) (Json.arr.inj hitems)
  simp only [Function.comp_apply, NormalizedItem.sortKeys_json, Json.obj.injEq, List.cons.injEq,
    Prod.mk.injEq, Json.str.injEq, Json.bool.injEq, true_and, and_true] at hitem
  obtain ⟨hid, htime, hpayload, hack, hrevision⟩ := hitem
  cases item
  cases item'
  simp_all

/-! ### One item -/

/-- The revision an envelope is of. -/
def Envelope.key (e : Envelope) : ItemKey :=
  ⟨e.sourceId, e.itemId, e.revision⟩

/-- **What submissions keep of the store**: an envelope for each item, of its mail id and
payload, and the first numbers for the items, in their order; versions start from one. -/
structure Store.Numbered (s : Store) (seq : ℕ) : Prop where
  mailed : s.Mailed
  named : ∀ e ∈ s.mailEnvelopes.rows, e.mailId = mailId e.kind e.sourceId e.itemId e.revision
  payloads : ∀ i ∈ s.items.rows, ∀ e ∈ s.mailEnvelopes.rows, e.kind = .content →
    e.key = i.key → e.payloadJson = i.payloadJson
  seqs : s.items.rows.map Item.snapshotSeq = List.range' 1 seq
  versions : ∀ i ∈ s.items.rows, 1 ≤ i.itemStateVersion

variable {seq : ℕ} {item : NormalizedItem}

theorem Store.Numbered.free_iff (hs : s.Numbered seq) {key : ItemKey} :
    (∀ e ∈ s.mailEnvelopes.rows, e.mailId ≠ key.mailId) ↔
      ∀ i ∈ s.items.rows, i.key.mailId ≠ key.mailId := by
  constructor
  · intro h i hi hmail
    obtain ⟨e, he, hid, -⟩ := hs.mailed.envelope i hi
    exact h e he (hid.trans hmail)
  · intro h e he hmail
    have hname := (hs.named e he).symm.trans hmail
    have hkind : e.kind = .content := mailId_kind hname
    obtain ⟨i, hi, hkey⟩ := hs.mailed.item e he hkind
    refine h i hi ?_
    rw [hkey, ← hname, hkind]
    rfl

/-- A new item with its row and its envelope. -/
structure Store.Adds (s t : Store) (source now : String) (seq : ℕ) (item : NormalizedItem) :
    Prop where
  items : t.items.rows = s.items.rows ++ [item.row source now seq]
  envelopes : t.mailEnvelopes.rows = s.mailEnvelopes.rows ++ [item.envelope source now]
  submissions : t.submissions = s.submissions
  state : t.contentState = s.contentState

theorem Store.insertItem_adds (h : s.insertItem lib now source seq item = .ok t) :
    s.Adds t source now seq item ∧
      ∀ e ∈ s.mailEnvelopes.rows, e.mailId ≠ (item.key source).mailId := by
  obtain ⟨hfree, items, envelopes, hitems, henvelopes, rfl⟩ := insertItem_cases h
  exact ⟨⟨hitems, henvelopes, rfl, rfl⟩, hfree⟩

theorem Store.Numbered.rows_holds (hs : s.Numbered seq)
    (hnew : ∀ i ∈ s.items.rows, i.key ≠ item.key source) (now : String) :
    ∀ index ∈ itemIndexes, index.Holds (s.items.rows ++ [item.row source now (seq + 1)]) := by
  intro index hindex
  refine (s.items.holds index hindex).append fun i hi k hk => ?_
  rw [itemIndexes] at hindex
  simp only [List.mem_cons, List.not_mem_nil, or_false] at hindex
  rcases hindex with rfl | rfl | rfl | rfl | rfl
  · obtain rfl := Option.some.inj hk
    exact fun hkey => hnew i hi (Option.some.inj hkey)
  · obtain rfl := Option.some.inj hk
    intro hseq
    have hmem : i.snapshotSeq ∈ List.range' 1 seq := hs.seqs ▸ List.mem_map_of_mem hi
    have hlast : i.snapshotSeq = seq + 1 := Option.some.inj hseq
    rw [hlast, List.mem_range'_1] at hmem
    omega
  · cases hk
  · cases hk
  · cases hk

theorem Store.Numbered.envelopes_holds (hs : s.Numbered seq)
    (hnew : ∀ i ∈ s.items.rows, i.key ≠ item.key source)
    (hfree : ∀ e ∈ s.mailEnvelopes.rows, e.mailId ≠ (item.key source).mailId) (now : String) :
    ∀ index ∈ envelopeIndexes,
      index.Holds (s.mailEnvelopes.rows ++ [item.envelope source now]) := by
  intro index hindex
  refine (s.mailEnvelopes.holds index hindex).append fun e he k hk => ?_
  rw [envelopeIndexes] at hindex
  simp only [List.mem_cons, List.not_mem_nil, or_false] at hindex
  rcases hindex with rfl | rfl
  · obtain rfl := Option.some.inj hk
    exact fun hmail => hfree e he (Option.some.inj hmail)
  · obtain rfl := Option.some.inj hk
    intro hkey
    simp only [onKey, Option.some.injEq, Prod.mk.injEq] at hkey
    obtain ⟨hkind, hsource, hitem, hrevision⟩ := hkey
    obtain ⟨i, hi, hik⟩ := hs.mailed.item e he hkind
    refine hnew i hi ?_
    rw [hik, hsource, hitem, hrevision]
    rfl

/-- **An unseen item of a free mail id is taken.** -/
theorem Store.Numbered.insertItem_isOk (hs : s.Numbered seq)
    (hnew : ∀ i ∈ s.items.rows, i.key ≠ item.key source)
    (hfree : ∀ e ∈ s.mailEnvelopes.rows, e.mailId ≠ (item.key source).mailId) (lib : Stdlib)
    (now : String) : ∃ t, s.insertItem lib now source (seq + 1) item = .ok t := by
  let items : Table.Rows itemIndexes := ⟨_, hs.rows_holds hnew now⟩
  let envelopes : Table.Rows envelopeIndexes := ⟨_, hs.envelopes_holds hnew hfree now⟩
  have hwrite : s.writeItems (s.items.rows ++ [item.row source now (seq + 1)])
      = .ok { s with items := items } := Store.writeItems_eq_ok.mpr ⟨items, rfl, rfl⟩
  have hnone : s.envelope? (item.key source).mailId = none := by
    rw [Store.envelope?, List.find?_eq_none]
    exact fun e he hmail => hfree e he (of_decide_eq_true hmail)
  have happend : Store.appendEnvelope (item.envelope source now) { s with items := items }
      = .ok (true, { s with items := items, mailEnvelopes := envelopes }) := by
    rw [Store.appendEnvelope]
    have hnone' : Store.envelope? { s with items := items } (item.envelope source now).mailId
        = none := hnone
    rw [hnone']
    exact bind_eq_ok.mpr ⟨envelopes, write_eq_ok.mpr rfl, rfl⟩
  exact ⟨_, bind_eq_ok.mpr ⟨_, hwrite, bind_eq_ok.mpr ⟨_, happend, rfl⟩⟩⟩

theorem Store.Adds.numbered (h : s.Adds t source now (seq + 1) item) (hs : s.Numbered seq)
    (hnew : ∀ i ∈ s.items.rows, i.key ≠ item.key source) : t.Numbered (seq + 1) := by
  refine ⟨⟨fun i hi => ?_, fun e he hkind => ?_⟩, fun e he => ?_, fun i hi e he hkind hkey => ?_,
    ?_, fun i hi => ?_⟩
  · rw [h.items] at hi
    rw [h.envelopes]
    rcases List.mem_append.mp hi with hi | hi
    · obtain ⟨e, he, hmail⟩ := hs.mailed.envelope i hi
      exact ⟨e, List.mem_append_left _ he, hmail⟩
    · rw [List.mem_singleton.mp hi]
      exact ⟨_, List.mem_append_right _ (List.mem_singleton_self _), rfl, rfl, rfl⟩
  · rw [h.envelopes] at he
    rw [h.items]
    rcases List.mem_append.mp he with he | he
    · obtain ⟨i, hi, hik⟩ := hs.mailed.item e he hkind
      exact ⟨i, List.mem_append_left _ hi, hik⟩
    · rw [List.mem_singleton.mp he]
      exact ⟨_, List.mem_append_right _ (List.mem_singleton_self _), rfl⟩
  · rw [h.envelopes] at he
    rcases List.mem_append.mp he with he | he
    · exact hs.named e he
    · rw [List.mem_singleton.mp he]
      rfl
  · rw [h.items] at hi
    rw [h.envelopes] at he
    rcases List.mem_append.mp hi with hi | hi <;> rcases List.mem_append.mp he with he | he
    · exact hs.payloads i hi e he hkind hkey
    · obtain rfl := List.mem_singleton.mp he
      exact absurd hkey.symm (hnew i hi)
    · -- an envelope that was there is that of an item that was there
      obtain ⟨j, hj, hjk⟩ := hs.mailed.item e he hkind
      obtain rfl := List.mem_singleton.mp hi
      exact absurd (hjk.trans hkey) (hnew j hj)
    · rw [List.mem_singleton.mp hi, List.mem_singleton.mp he]
      rfl
  · rw [h.items, List.map_append, hs.seqs, List.range'_1_concat, Nat.add_comm 1]
    rfl
  · rw [h.items] at hi
    rcases List.mem_append.mp hi with hi | hi
    · exact hs.versions i hi
    · rw [List.mem_singleton.mp hi]
      exact le_rfl

/-! ### When a batch is taken -/

/-- **The items of a batch agree** with the rows of their revisions, and those of a revision that
has no row with each other. -/
structure Store.Agrees (s : Store) (source : String) (items : List NormalizedItem) : Prop where
  rows : ∀ n ∈ items, ∀ i ∈ s.items.rows, i.key = n.key source → n.sameRevision i = true
  batch : ∀ n ∈ items, (∀ i ∈ s.items.rows, i.key ≠ n.key source) →
    ∀ m ∈ items, m.key source = n.key source → m = n

/-- **No new revision of a batch shares its mail id** with another one that is accepted or in
the batch. -/
def Unshared (accepted keys : List ItemKey) : Prop :=
  ∀ key ∈ keys, key ∉ accepted → ∀ other, other ∈ accepted ∨ other ∈ keys →
    other.mailId = key.mailId → other = key

/-- The revisions of the rows. -/
def Store.keys (s : Store) : List ItemKey :=
  s.items.rows.map Item.key

theorem Store.not_mem_keys {key : ItemKey} : key ∉ s.keys ↔ ∀ i ∈ s.items.rows, i.key ≠ key := by
  rw [Store.keys, List.mem_map, not_exists]
  exact forall_congr' fun i => not_and

variable {n : NormalizedItem}

theorem NormalizedItem.sameRevision_row (hkey : n.key source = item.key source) :
    n.sameRevision (item.row source now seq) = true ↔ n = item := by
  obtain ⟨-, hitem, hrevision⟩ := ItemKey.mk.inj hkey
  rw [NormalizedItem.sameRevision, NormalizedItem.row]
  simp only [lt_irrefl, decide_false, Bool.false_or, Bool.and_eq_true, decide_eq_true_iff]
  constructor
  · rintro ⟨⟨hpayload, htime⟩, hack⟩
    cases n
    cases item
    simp_all
  · rintro rfl
    exact ⟨⟨rfl, rfl⟩, rfl⟩

theorem Unshared.cons_known {keys : List ItemKey} {key : ItemKey} (h : key ∈ accepted) :
    Unshared accepted (key :: keys) ↔ Unshared accepted keys := by
  constructor
  · intro hall new hnew hunknown other hother
    exact hall new (List.mem_cons_of_mem _ hnew) hunknown other
      (hother.imp_right (List.mem_cons_of_mem _))
  · intro hall new hnew hunknown other hother
    rcases List.mem_cons.mp hnew with rfl | hnew
    · exact absurd h hunknown
    · refine hall new hnew hunknown other (hother.elim .inl fun hother => ?_)
      rcases List.mem_cons.mp hother with rfl | hother
      · exact .inl h
      · exact .inr hother

/-- A batch whose first item is new: its mail id is free, and it is accepted then. -/
theorem Unshared.cons_new {keys : List ItemKey} {key : ItemKey} (h : key ∉ accepted) :
    Unshared accepted (key :: keys) ↔
      (∀ other ∈ accepted, other.mailId ≠ key.mailId) ∧ Unshared (accepted ++ [key]) keys := by
  constructor
  · intro hall
    refine ⟨fun other hother hmail => ?_, fun new hnew hunknown other hother hmail => ?_⟩
    · exact h (hall key List.mem_cons_self h other (.inl hother) hmail ▸ hother)
    · rw [List.mem_append, not_or] at hunknown
      refine hall new (List.mem_cons_of_mem _ hnew) hunknown.1 other ?_ hmail
      rcases hother with hother | hother
      · rcases List.mem_append.mp hother with hother | hother
        · exact .inl hother
        · rw [List.mem_singleton.mp hother]
          exact .inr List.mem_cons_self
      · exact .inr (List.mem_cons_of_mem _ hother)
  · rintro ⟨hfree, hrest⟩ new hnew hunknown other hother hmail
    have hlast : ∀ k, k ∉ accepted → k ≠ key → k ∉ accepted ++ [key] := fun k hk hne hmem =>
      (List.mem_append.mp hmem).elim hk fun hmem => hne (List.mem_singleton.mp hmem)
    by_cases hkey : new = key
    · subst hkey
      rcases hother with hother | hother
      · exact absurd hmail (hfree other hother)
      · rcases List.mem_cons.mp hother with rfl | hother
        · rfl
        · -- another one of the batch would meet the first
          by_contra hne
          have haccepted : other ∉ accepted := fun hmem => hfree other hmem hmail
          exact hne (hrest other hother (hlast other haccepted hne) new
            (.inl (List.mem_append_right _ (List.mem_singleton_self _))) hmail.symm).symm
    · have hin : new ∈ keys := (List.mem_cons.mp hnew).resolve_left hkey
      refine hrest new hin (hlast new hunknown hkey) other ?_ hmail
      rcases hother with hother | hother
      · exact .inl (List.mem_append_left _ hother)
      · rcases List.mem_cons.mp hother with rfl | hother
        · exact .inl (List.mem_append_right _ (List.mem_singleton_self _))
        · exact .inr hother

theorem Store.Agrees.cons_known (hi : i ∈ s.items.rows) (hkey : i.key = item.key source) :
    s.Agrees source (item :: items) ↔ item.sameRevision i = true ∧ s.Agrees source items := by
  constructor
  · intro h
    exact ⟨h.rows item List.mem_cons_self i hi hkey,
      fun n hn => h.rows n (List.mem_cons_of_mem _ hn),
      fun n hn hnew m hm => h.batch n (List.mem_cons_of_mem _ hn) hnew m (List.mem_cons_of_mem _ hm)⟩
  · rintro ⟨hsame, h⟩
    refine ⟨fun n hn j hj hjk => ?_, fun n hn hnew m hm hmk => ?_⟩
    · rcases List.mem_cons.mp hn with rfl | hn
      · rw [s.item_ext hj hi (hjk.trans hkey.symm)]
        exact hsame
      · exact h.rows n hn j hj hjk
    · rcases List.mem_cons.mp hn with rfl | hn
      · exact absurd hkey (hnew i hi)
      · rcases List.mem_cons.mp hm with rfl | hm
        · exact absurd (hkey.trans hmk) (hnew i hi)
        · exact h.batch n hn hnew m hm hmk

/-- Items whose first is new agree when they agree with its row. -/
theorem Store.Agrees.cons_new (hnew : ∀ i ∈ s.items.rows, i.key ≠ item.key source)
    (ht : t.items.rows = s.items.rows ++ [item.row source now seq]) :
    s.Agrees source (item :: items) ↔ t.Agrees source items := by
  constructor
  · intro h
    refine ⟨fun n hn j hj hjk => ?_, fun n hn hunknown m hm hmk => ?_⟩
    · rw [ht] at hj
      rcases List.mem_append.mp hj with hj | hj
      · exact h.rows n (List.mem_cons_of_mem _ hn) j hj hjk
      · rw [List.mem_singleton.mp hj] at hjk ⊢
        exact (NormalizedItem.sameRevision_row hjk.symm).mpr
          (h.batch item List.mem_cons_self hnew n (List.mem_cons_of_mem _ hn) hjk.symm)
    · refine h.batch n (List.mem_cons_of_mem _ hn) (fun j hj => hunknown j ?_) m
        (List.mem_cons_of_mem _ hm) hmk
      rw [ht]
      exact List.mem_append_left _ hj
  · intro h
    have hrow : item.row source now seq ∈ t.items.rows := by
      rw [ht]
      exact List.mem_append_right _ (List.mem_singleton_self _)
    have hold : ∀ j ∈ s.items.rows, j ∈ t.items.rows := fun j hj => by
      rw [ht]
      exact List.mem_append_left _ hj
    -- an item of the new revision is the first one
    have hfirst : ∀ m ∈ item :: items, m.key source = item.key source → m = item := by
      intro m hm hmk
      rcases List.mem_cons.mp hm with rfl | hm
      · rfl
      · exact (NormalizedItem.sameRevision_row hmk).mp (h.rows m hm _ hrow hmk.symm)
    refine ⟨fun n hn j hj hjk => ?_, fun n hn hunknown m hm hmk => ?_⟩
    · rcases List.mem_cons.mp hn with rfl | hn
      · exact absurd hjk (hnew j hj)
      · exact h.rows n hn j (hold j hj) hjk
    · by_cases hkey : n.key source = item.key source
      · rw [hfirst n hn hkey, hfirst m hm (hmk.trans hkey)]
      · have hin : ∀ k ∈ item :: items, k.key source = n.key source → k ∈ items := by
          intro k hk hkk
          rcases List.mem_cons.mp hk with rfl | hk
          · exact absurd hkk.symm hkey
          · exact hk
        refine h.batch n (hin n hn rfl) (fun j hj => ?_) m (hin m hm hmk) hmk
        rw [ht] at hj
        rcases List.mem_append.mp hj with hj | hj
        · exact hunknown j hj
        · rw [List.mem_singleton.mp hj]
          exact fun hrowKey => hkey hrowKey.symm

/-- **When the items of a batch are taken**: they agree with what is there of their own
revisions, and the new ones share no mail id. -/
theorem appendItems_returns (lib : Stdlib) (now : String) (hs : s.Numbered seq) :
    (∃ r, s.appendItems lib now source items seq = .ok r) ↔
      s.Agrees source items ∧ Unshared s.keys (items.map (NormalizedItem.key source)) := by
  induction items generalizing s seq with
  | nil =>
      refine iff_of_true ⟨_, rfl⟩ ⟨⟨?_, ?_⟩, ?_⟩
      · exact fun n hn => absurd hn List.not_mem_nil
      · exact fun n hn => absurd hn List.not_mem_nil
      · exact fun key hkey => absurd hkey List.not_mem_nil
  | cons item items ih =>
      rw [Store.appendItems, List.map_cons]
      cases hrow : s.item? ⟨source, item.itemId, item.revision⟩ with
      | some row =>
          obtain ⟨hmem, hkey⟩ := Store.item?_eq_some.mp hrow
          have hknown : item.key source ∈ s.keys := List.mem_map.mpr ⟨row, hmem, hkey⟩
          rw [Store.Agrees.cons_known hmem hkey, Unshared.cons_known hknown, and_assoc, ← ih hs]
          dsimp only
          split_ifs with hsame
          · constructor
            · rintro ⟨r, h⟩
              obtain ⟨r', hrest, -⟩ := bind_eq_ok.mp h
              exact ⟨hsame, r', hrest⟩
            · rintro ⟨-, r, hrest⟩
              exact ⟨_, bind_eq_ok.mpr ⟨r, hrest, rfl⟩⟩
          · constructor
            · rintro ⟨r, h⟩
              cases h
            · rintro ⟨hsame', -⟩
              exact absurd hsame' hsame
      | none =>
          have hnew : ∀ i ∈ s.items.rows, i.key ≠ item.key source := by
            intro i hi hkey
            have hsome := Store.item?_eq_some.mpr ⟨hi, hkey⟩
            cases hrow.symm.trans hsome
          rw [Unshared.cons_new (Store.not_mem_keys.mpr hnew)]
          have hfree : (∀ e ∈ s.mailEnvelopes.rows, e.mailId ≠ (item.key source).mailId) ↔
              ∀ other ∈ s.keys, other.mailId ≠ (item.key source).mailId := by
            rw [hs.free_iff, Store.keys, List.forall_mem_map]
          dsimp only
          constructor
          · rintro ⟨r, h⟩
            obtain ⟨t, hinsert, h⟩ := bind_eq_ok.mp h
            obtain ⟨r', hrest, -⟩ := bind_eq_ok.mp h
            obtain ⟨hadds, hmail⟩ := Store.insertItem_adds hinsert
            obtain ⟨hagrees, hunshared⟩ := (ih (hadds.numbered hs hnew)).mp ⟨r', hrest⟩
            refine ⟨(Store.Agrees.cons_new hnew hadds.items).mpr hagrees, hfree.mp hmail, ?_⟩
            rw [Store.keys, hadds.items, List.map_append] at hunshared
            exact hunshared
          · rintro ⟨hagrees, hmail, hunshared⟩
            obtain ⟨t, hinsert⟩ := hs.insertItem_isOk hnew (hfree.mpr hmail) lib now
            obtain ⟨hadds, -⟩ := Store.insertItem_adds hinsert
            obtain ⟨r, hrest⟩ := (ih (hadds.numbered hs hnew)).mpr
              ⟨(Store.Agrees.cons_new hnew hadds.items).mp hagrees, by
                rw [Store.keys, hadds.items, List.map_append]
                exact hunshared⟩
            exact ⟨_, bind_eq_ok.mpr ⟨t, hinsert, bind_eq_ok.mpr ⟨r, hrest, rfl⟩⟩⟩

/-! ### What a batch adds -/

/-- **The revisions of a batch in two lists**, each in the order of the batch: the inserted ones,
new and different, and the duplicates, accepted before or inserted. -/
structure Splits (accepted keys inserted duplicates : List ItemKey) : Prop where
  first : inserted.Sublist keys
  again : duplicates.Sublist keys
  perm : (inserted ++ duplicates).Perm keys
  nodup : inserted.Nodup
  new : ∀ key ∈ inserted, key ∉ accepted
  known : ∀ key ∈ duplicates, key ∈ accepted ∨ key ∈ inserted

theorem Splits.cons_known {keys : List ItemKey} {key : ItemKey} (hkey : key ∈ accepted)
    (h : Splits accepted keys inserted duplicates) :
    Splits accepted (key :: keys) inserted (key :: duplicates) where
  first := h.first.cons key
  again := h.again.cons_cons key
  perm := List.perm_middle.trans (h.perm.cons key)
  nodup := h.nodup
  new := h.new
  known := List.forall_mem_cons.mpr ⟨.inl hkey, h.known⟩

theorem Splits.cons_new {keys : List ItemKey} {key : ItemKey} (hkey : key ∉ accepted)
    (h : Splits (accepted ++ [key]) keys inserted duplicates) :
    Splits accepted (key :: keys) (key :: inserted) duplicates where
  first := h.first.cons_cons key
  again := h.again.cons key
  perm := h.perm.cons key
  nodup := List.nodup_cons.mpr
    ⟨fun hmem => h.new key hmem (List.mem_append_right _ (List.mem_singleton_self _)), h.nodup⟩
  new := List.forall_mem_cons.mpr
    ⟨hkey, fun new hnew hmem => h.new new hnew (List.mem_append_left _ hmem)⟩
  known old hold := by
    rcases h.known old hold with hmem | hmem
    · rcases List.mem_append.mp hmem with hmem | hmem
      · exact .inl hmem
      · rw [List.mem_singleton.mp hmem]
        exact .inr List.mem_cons_self
    · exact .inr (List.mem_cons_of_mem _ hmem)

/-- The rows and envelopes of a batch. -/
structure Store.Appends (s t : Store) (source now : String) (items : List NormalizedItem)
    (inserted : List ItemKey) : Prop where
  rows : ∃ new, t.items.rows = s.items.rows ++ new ∧ new.map Item.key = inserted ∧
    ∀ i ∈ new, ∃ n ∈ items, ∃ seq, i = n.row source now seq
  mails : ∃ new, t.mailEnvelopes.rows = s.mailEnvelopes.rows ++ new

/-- **What a batch adds**: a row and an envelope for each new item, numbered in their order. -/
theorem appendItems_spec (hs : s.Numbered seq)
    (h : s.appendItems lib now source items seq = .ok (inserted, duplicates, t)) :
    s.Appends t source now items inserted ∧
      Splits s.keys (items.map (NormalizedItem.key source)) inserted duplicates ∧
      t.Numbered (seq + inserted.length) ∧ t.submissions = s.submissions ∧
      t.contentState = s.contentState := by
  induction items generalizing s seq inserted duplicates with
  | nil =>
      cases h
      exact ⟨⟨⟨[], (List.append_nil _).symm, rfl, by simp⟩, ⟨[], (List.append_nil _).symm⟩⟩,
        ⟨.slnil, .slnil, .nil, .nil, by simp, by simp⟩, hs, rfl, rfl⟩
  | cons item items ih =>
      rw [Store.appendItems] at h
      cases hrow : s.item? ⟨source, item.itemId, item.revision⟩ with
      | some row =>
          rw [hrow] at h
          dsimp only at h
          split_ifs at h
          · obtain ⟨⟨inserted', duplicates', t'⟩, hrest, h⟩ := bind_eq_ok.mp h
            cases h
            obtain ⟨hmem, hkey⟩ := Store.item?_eq_some.mp hrow
            obtain ⟨happends, hsplits, hrest⟩ := ih hs hrest
            obtain ⟨new, hnew, hkeys, hrows⟩ := happends.rows
            refine ⟨⟨⟨new, hnew, hkeys, fun i hi => ?_⟩, happends.mails⟩, ?_, hrest⟩
            · obtain ⟨n, hn, hi⟩ := hrows i hi
              exact ⟨n, List.mem_cons_of_mem _ hn, hi⟩
            · rw [hkey]
              exact hsplits.cons_known (List.mem_map.mpr ⟨row, hmem, hkey⟩)
          · cases h
      | none =>
          have hnew : ∀ i ∈ s.items.rows, i.key ≠ item.key source := by
            intro i hi hkey
            have hsome := Store.item?_eq_some.mpr ⟨hi, hkey⟩
            cases hrow.symm.trans hsome
          rw [hrow] at h
          obtain ⟨s₁, hinsert, h⟩ := bind_eq_ok.mp h
          obtain ⟨⟨inserted', duplicates', t'⟩, hrest, h⟩ := bind_eq_ok.mp h
          cases h
          obtain ⟨hadds, -⟩ := Store.insertItem_adds hinsert
          obtain ⟨happends, hsplits, hnumbered, hsubmissions, hstate⟩ :=
            ih (hadds.numbered hs hnew) hrest
          obtain ⟨new, hitems, hkeys, hrows⟩ := happends.rows
          obtain ⟨mails, henvelopes⟩ := happends.mails
          refine ⟨⟨⟨item.row source now (seq + 1) :: new, ?_, ?_, fun i hi => ?_⟩,
            ⟨item.envelope source now :: mails, ?_⟩⟩, ?_, ?_, hsubmissions.trans hadds.submissions,
            hstate.trans hadds.state⟩
          · rw [hitems, hadds.items, List.append_assoc]
            rfl
          · rw [List.map_cons, hkeys]
            rfl
          · rcases List.mem_cons.mp hi with rfl | hi
            · exact ⟨item, List.mem_cons_self, _, rfl⟩
            · obtain ⟨n, hn, hi⟩ := hrows i hi
              exact ⟨n, List.mem_cons_of_mem _ hn, hi⟩
          · rw [henvelopes, hadds.envelopes, List.append_assoc]
            rfl
          · rw [Store.keys, hadds.items, List.map_append] at hsplits
            exact hsplits.cons_new (Store.not_mem_keys.mpr hnew)
          · rw [List.length_cons, Nat.add_comm _ 1, ← Nat.add_assoc]
            exact hnumbered

/-! ### Submissions -/

theorem Store.submissions_unique (s : Store) :
    Table.Unique (fun b => some (b.sourceId, b.batchId)) s.submissions.rows :=
  s.submissions.holds (onKey _ fun b => (b.sourceId, b.batchId)) List.mem_cons_self

theorem Store.Mailed.appendProjections_isOk (hs : s.Mailed) {keys : List ItemKey}
    (hkeys : ∀ key ∈ keys, key ∈ s.keys) (lib : Stdlib) (now : String) :
    ∃ t, s.appendProjections lib now keys = .ok t := by
  induction keys generalizing s with
  | nil => exact ⟨s, rfl⟩
  | cons key keys ih =>
      obtain ⟨i, hi, rfl⟩ := List.mem_map.mp (hkeys key List.mem_cons_self)
      obtain ⟨e, he, hmail, hkind, hkey⟩ := hs.envelope i hi
      have henvelope : s.envelope? i.key.mailId = some e := Store.envelope?_eq_some.mpr ⟨he, hmail⟩
      have hitem : s.item? ⟨e.sourceId, e.itemId, e.revision⟩ = some i :=
        Store.item?_eq_some.mpr ⟨hi, hkey.symm⟩
      have hfirst : s.appendProjection lib now i.key.mailId = .ok
          (s.appendTransition lib.digest now i.key.mailId .content .projected (s.fact i)) := by
        rw [Store.appendProjection, henvelope]
        dsimp only
        rw [if_neg (not_not.mpr hkind), hitem]
      have hmailed : (s.appendTransition lib.digest now i.key.mailId .content .projected
          (s.fact i)).Mailed := ⟨hs.envelope, hs.item⟩
      obtain ⟨t, hrest⟩ := ih hmailed fun key hkey => hkeys key (List.mem_cons_of_mem _ hkey)
      exact ⟨t, by rw [Store.appendProjections, List.foldlM_cons, hfirst]; exact hrest⟩

theorem Store.Numbered.congr (hs : s.Numbered seq) (hitems : t.items = s.items)
    (henvelopes : t.mailEnvelopes = s.mailEnvelopes) : t.Numbered seq := by
  refine ⟨⟨?_, ?_⟩, ?_, ?_, ?_, ?_⟩
  · rw [hitems, henvelopes]
    exact hs.mailed.envelope
  · rw [hitems, henvelopes]
    exact hs.mailed.item
  · rw [henvelopes]
    exact hs.named
  · rw [hitems, henvelopes]
    exact hs.payloads
  · rw [hitems]
    exact hs.seqs
  · rw [hitems]
    exact hs.versions

/-- The `UPDATE` of `content_state` after the items of a batch. -/
theorem Store.advance_eq (inserted : ℕ) (s : Store) :
    ∃ state : ContentState, s.advance inserted = { s with contentState := state } ∧
      state.nextSeq = s.contentState.nextSeq + inserted := by
  rw [Store.advance]
  split_ifs with hzero
  · exact ⟨s.contentState, rfl, by rw [hzero, Nat.add_zero]⟩
  · exact ⟨_, rfl, rfl⟩

theorem Store.advance_rest {inserted : ℕ} {keys : List ItemKey}
    (h : ((s.advance inserted).recomputeWake).appendProjections lib now keys = .ok t) :
    t.items = s.items ∧ t.mailEnvelopes = s.mailEnvelopes ∧ t.submissions = s.submissions ∧
      t.contentState.nextSeq = s.contentState.nextSeq + inserted := by
  obtain ⟨state, hadvance, hseq⟩ := s.advance_eq inserted
  have hrest := appendProjections_rest h
  rw [hadvance] at hrest
  refine ⟨?_, ?_, ?_, ?_⟩
  · rw [hrest]
    rfl
  · rw [hrest]
    rfl
  · rw [hrest]
    rfl
  · rw [hrest]
    exact hseq

/-- **What a new batch leaves**, with its receipt. -/
structure Store.TakesBatch (lib : Stdlib) (now : String) (s t : Store) (source batch : String)
    (items : List NormalizedItem) (r : SubmissionReceipt) : Prop
    extends s.Appends t source now items r.inserted where
  splits : Splits s.keys (items.map (NormalizedItem.key source)) r.inserted r.duplicates
  numbered : t.Numbered t.contentState.nextSeq
  submissions : t.submissions.rows
    = s.submissions.rows ++ [⟨source, batch, lib.fingerprint items, r, now⟩]

/-- A source and batch id that no submission has. -/
def Store.Unrecorded (s : Store) (source batch : String) : Prop :=
  ∀ b ∈ s.submissions.rows, (b.sourceId, b.batchId) ≠ (source, batch)

instance (s : Store) (source batch : String) : Decidable (s.Unrecorded source batch) :=
  inferInstanceAs (Decidable (∀ b ∈ s.submissions.rows, _))

theorem identity_of_isIdentity {text : String} (h : isIdentity text = true) (field : String) :
    identity field (some (.str text)) = .ok text := by
  rw [identity, if_pos h]

theorem Store.submit_recorded (now : String) {items : List Json} {b : Submission}
    (hsource : isIdentity source = true) (hbatch : isIdentity batch = true)
    (hitems : items.mapM (normalizeItem lib) = .ok normalized) (hb : b ∈ s.submissions.rows)
    (hkey : (b.sourceId, b.batchId) = (source, batch)) :
    s.submit lib now (.str source) (.str batch) items
      = if b.fingerprint ≠ lib.fingerprint normalized then
          runtimeError ("Content batch identity conflict: " ++ source ++ "/" ++ batch)
        else .ok (b.receipt, s) := by
  have hfind : (s.submissions.rows.find? fun b => (b.sourceId, b.batchId) = (source, batch))
      = some b := (Table.find?_eq_some_iff s.submissions_unique).mpr ⟨hb, hkey⟩
  rw [Store.submit, identity_of_isIdentity hsource, identity_of_isIdentity hbatch, hitems]
  simp only [bind, Except.bind, hfind]

/-- **What a submission that returns leaves**: nothing new, or a new batch. -/
theorem Store.submit_cases {items : List Json} (hs : s.Numbered s.contentState.nextSeq)
    (h : s.submit lib now sourceId batchId items = .ok (r, t)) :
    ∃ source batch normalized, sourceId = .str source ∧ isIdentity source = true ∧
      batchId = .str batch ∧ isIdentity batch = true ∧
      items.mapM (normalizeItem lib) = .ok normalized ∧
      ((∃ b ∈ s.submissions.rows, (b.sourceId, b.batchId) = (source, batch) ∧
          b.fingerprint = lib.fingerprint normalized ∧ r = b.receipt ∧ t = s) ∨
        s.Unrecorded source batch ∧ s.TakesBatch lib now t source batch normalized r) := by
  obtain ⟨source, batch, normalized, hsource, hbatch, hnormalized, hcases⟩ := submit_steps h
  obtain ⟨hsourceId, hsource⟩ := identity_eq_ok hsource
  obtain ⟨hbatchId, hbatch⟩ := identity_eq_ok hbatch
  refine ⟨source, batch, normalized, Option.some.inj hsourceId, hsource, Option.some.inj hbatchId,
    hbatch, hnormalized, hcases.imp_right ?_⟩
  rintro ⟨hnew, s₁, s₂, submissions, happend, hprojections, hrows, rfl⟩
  obtain ⟨happends, hsplits, hnumbered, hsubmissions, hstate⟩ := appendItems_spec hs happend
  obtain ⟨hitems, henvelopes, hsame, hnext⟩ := advance_rest hprojections
  refine ⟨hnew, ⟨?_, ?_⟩, hsplits, ?_, ?_⟩
  · rw [hitems]
    exact happends.rows
  · rw [henvelopes]
    exact happends.mails
  · rw [hnext, hstate]
    exact hnumbered.congr hitems henvelopes
  · rw [← hsubmissions, ← hsame]
    exact hrows

/-- **When a new batch is taken.** -/
theorem Store.submit_returns {items : List Json} (hs : s.Numbered s.contentState.nextSeq)
    (hsource : isIdentity source = true) (hbatch : isIdentity batch = true)
    (hitems : items.mapM (normalizeItem lib) = .ok normalized) (hnew : s.Unrecorded source batch) :
    (∃ r t, s.submit lib now (.str source) (.str batch) items = .ok (r, t)) ↔
      s.Agrees source normalized ∧
        Unshared s.keys (normalized.map (NormalizedItem.key source)) := by
  have hfind : (s.submissions.rows.find? fun b => (b.sourceId, b.batchId) = (source, batch))
      = none := List.find?_eq_none.mpr fun b hb hkey => hnew b hb (of_decide_eq_true hkey)
  rw [← appendItems_returns lib now hs, Store.submit,
    identity_of_isIdentity hsource, identity_of_isIdentity hbatch, hitems]
  simp only [bind, Except.bind, hfind]
  constructor
  · rintro ⟨r, t, h⟩
    obtain ⟨result, happend, -⟩ := bind_eq_ok.mp h
    exact ⟨result, happend⟩
  · rintro ⟨⟨inserted, duplicates, s₁⟩, happend⟩
    obtain ⟨happends, hsplits, hnumbered, hsubmissions, hstate⟩ := appendItems_spec hs happend
    obtain ⟨state, hadvance, -⟩ := s₁.advance_eq inserted.length
    have hmailed : (s₁.advance inserted.length).recomputeWake.Mailed := by
      rw [hadvance]
      exact ⟨hnumbered.mailed.envelope, hnumbered.mailed.item⟩
    have hkeys : ∀ key ∈ inserted, key ∈ (s₁.advance inserted.length).recomputeWake.keys := by
      obtain ⟨new, hnew, hnewKeys, -⟩ := happends.rows
      intro key hkey
      rw [hadvance, Store.keys]
      exact hnew ▸ List.mem_map.mpr (by
        obtain ⟨i, hi, hik⟩ := List.mem_map.mp (hnewKeys ▸ hkey)
        exact ⟨i, List.mem_append_right _ hi, hik⟩)
    obtain ⟨s₂, hprojections⟩ := hmailed.appendProjections_isOk hkeys lib now
    obtain ⟨-, -, hsame, -⟩ := advance_rest hprojections
    let receipt : SubmissionReceipt := ⟨source, batch, inserted, duplicates,
      s₂.contentState.nextSeq, s₂.contentState.stateVersion, s₂.contentState.wakeNeeded⟩
    let b : Submission := ⟨source, batch, lib.fingerprint normalized, receipt, now⟩
    have hholds : ∀ index ∈ submissionIndexes, index.Holds (s₂.submissions.rows ++ [b]) := by
      intro index hindex
      rw [hsame, hsubmissions]
      refine (s.submissions.holds index hindex).append fun b' hb' k hk => ?_
      obtain rfl := List.mem_singleton.mp hindex
      obtain rfl := Option.some.inj hk
      exact fun hkey => hnew b' hb' (Option.some.inj hkey)
    let submissions : Table.Rows submissionIndexes := ⟨_, hholds⟩
    refine ⟨receipt, { s₂ with submissions := submissions }, ?_⟩
    refine bind_eq_ok.mpr ⟨_, happend, bind_eq_ok.mpr ⟨_, hprojections, ?_⟩⟩
    exact bind_eq_ok.mpr ⟨submissions, write_eq_ok.mpr rfl, rfl⟩

/-! ### Stores over time -/

/-- **A store over time**: its items keep what they are, its envelopes and submissions stay. -/
structure Store.Grows (s t : Store) : Prop where
  items : ∃ (f : Item → Item) (new : List Item), (∀ i : Item, i.Keeps (f i)) ∧
    t.items.rows = s.items.rows.map f ++ new
  envelopes : ∃ new, t.mailEnvelopes.rows = s.mailEnvelopes.rows ++ new
  submissions : ∃ new, t.submissions.rows = s.submissions.rows ++ new

theorem Store.Grows.refl (s : Store) : s.Grows s :=
  ⟨⟨id, [], Item.Keeps.refl, by rw [List.map_id, List.append_nil]⟩, ⟨[], (List.append_nil _).symm⟩,
    ⟨[], (List.append_nil _).symm⟩⟩

theorem Store.Grows.trans {u : Store} (h : s.Grows t) (h' : t.Grows u) : s.Grows u := by
  obtain ⟨f, new, hf, hitems⟩ := h.items
  obtain ⟨f', new', hf', hitems'⟩ := h'.items
  obtain ⟨mails, henvelopes⟩ := h.envelopes
  obtain ⟨mails', henvelopes'⟩ := h'.envelopes
  obtain ⟨batches, hsubmissions⟩ := h.submissions
  obtain ⟨batches', hsubmissions'⟩ := h'.submissions
  refine ⟨⟨f' ∘ f, new.map f' ++ new', fun i => (hf i).trans (hf' (f i)), ?_⟩,
    ⟨mails ++ mails', by rw [henvelopes', henvelopes, List.append_assoc]⟩,
    ⟨batches ++ batches', by rw [hsubmissions', hsubmissions, List.append_assoc]⟩⟩
  rw [hitems', hitems, List.map_append, List.map_map, List.append_assoc]

theorem Store.Grows.keeps (h : s.Grows t) (hi : i ∈ s.items.rows) :
    ∃ j ∈ t.items.rows, i.Keeps j := by
  obtain ⟨f, new, hf, hitems⟩ := h.items
  refine ⟨f i, ?_, hf i⟩
  rw [hitems]
  exact List.mem_append_left _ (List.mem_map_of_mem hi)

theorem Store.Grows.envelope (h : s.Grows t) {e : Envelope} (he : e ∈ s.mailEnvelopes.rows) :
    e ∈ t.mailEnvelopes.rows := by
  obtain ⟨new, henvelopes⟩ := h.envelopes
  rw [henvelopes]
  exact List.mem_append_left _ he

theorem Store.Grows.submission (h : s.Grows t) {b : Submission} (hb : b ∈ s.submissions.rows) :
    b ∈ t.submissions.rows := by
  obtain ⟨new, hsubmissions⟩ := h.submissions
  rw [hsubmissions]
  exact List.mem_append_left _ hb

theorem Store.Aside.grows (h : s.Aside t) : s.Grows t := by
  obtain ⟨new, henvelopes, -⟩ := h.envelopes
  refine ⟨⟨id, [], Item.Keeps.refl, ?_⟩, ⟨new, henvelopes⟩, ⟨[], ?_⟩⟩
  · rw [h.tables.items, List.map_id, List.append_nil]
  · rw [h.submissions, List.append_nil]

theorem Store.Works.grows (h : s.Works t) : s.Grows t := by
  obtain ⟨f, hf, hitems⟩ := h.items
  exact ⟨⟨f, [], hf, by rw [hitems, List.append_nil]⟩,
    ⟨[], by rw [h.envelopes, List.append_nil]⟩, ⟨[], by rw [h.submissions, List.append_nil]⟩⟩

theorem Store.TakesBatch.grows (h : s.TakesBatch lib now t source batch items r) : s.Grows t := by
  obtain ⟨new, hrows, -⟩ := h.rows
  exact ⟨⟨id, new, Item.Keeps.refl, by rw [hrows, List.map_id]⟩, h.mails, ⟨_, h.submissions⟩⟩

theorem Store.Numbered.aside (hs : s.Numbered seq) (h : s.Aside t) : t.Numbered seq := by
  obtain ⟨new, henvelopes, hnew⟩ := h.envelopes
  have hcontent : ∀ e ∈ t.mailEnvelopes.rows, e.kind = .content → e ∈ s.mailEnvelopes.rows := by
    intro e he hkind
    rw [henvelopes] at he
    exact (List.mem_append.mp he).resolve_right fun he => (hnew e he).1 hkind
  refine ⟨⟨fun i hi => ?_, fun e he hkind => ?_⟩, fun e he => ?_, fun i hi e he hkind => ?_, ?_,
    ?_⟩
  · rw [h.tables.items] at hi
    obtain ⟨e, he, hmail⟩ := hs.mailed.envelope i hi
    exact ⟨e, h.grows.envelope he, hmail⟩
  · rw [h.tables.items]
    exact hs.mailed.item e (hcontent e he hkind) hkind
  · rw [henvelopes] at he
    exact (List.mem_append.mp he).elim (hs.named e) fun he => (hnew e he).2
  · rw [h.tables.items] at hi
    exact hs.payloads i hi e (hcontent e he hkind) hkind
  · rw [h.tables.items]
    exact hs.seqs
  · rw [h.tables.items]
    exact hs.versions

theorem Item.Keeps.fixed {j : Item} (h : i.Keeps j) :
    j.key = i.key ∧ j.payloadJson = i.payloadJson ∧ j.snapshotSeq = i.snapshotSeq ∧
      j.requiresAck = i.requiresAck := by
  have hfixed := h.1
  simp only [Item.fixed, Prod.mk.injEq] at hfixed
  exact hfixed

theorem Item.Keeps.le {j : Item} (h : i.Keeps j) : i.itemStateVersion ≤ j.itemStateVersion :=
  h.2.elim le_of_lt fun h => h.1.le

theorem Store.Works.keys (h : s.Works t) : t.keys = s.keys := by
  obtain ⟨f, hf, hitems⟩ := h.items
  rw [Store.keys, Store.keys, hitems, List.map_map]
  exact List.map_congr_left fun i _ => (hf i).fixed.1

theorem Store.Numbered.works (hs : s.Numbered seq) (h : s.Works t) : t.Numbered seq := by
  obtain ⟨f, hf, hitems⟩ := h.items
  refine ⟨hs.mailed.map hitems (fun i => (hf i).fixed.1) h.envelopes, ?_, fun i hi e he => ?_, ?_,
    fun i hi => ?_⟩
  · rw [h.envelopes]
    exact hs.named
  · rw [hitems] at hi
    rw [h.envelopes] at he
    obtain ⟨j, hj, rfl⟩ := List.mem_map.mp hi
    rw [(hf j).fixed.1, (hf j).fixed.2.1]
    exact hs.payloads j hj e he
  · rw [← hs.seqs, hitems, List.map_map]
    exact List.map_congr_left fun i _ => (hf i).fixed.2.2.1
  · rw [hitems] at hi
    obtain ⟨j, hj, rfl⟩ := List.mem_map.mp hi
    exact (hs.versions j hj).trans (hf j).le

/-! ### Runs of submissions -/

/-- The revisions a content call reports as inserted. -/
def ContentCall.inserts (lib : Stdlib) (s : Store) : ContentCall → List ItemKey
  | .submit now sourceId batchId items =>
      match s.submit lib now sourceId batchId items with
      | .ok (r, _) => r.inserted
      | .error _ => []
  | _ => []

/-- The revisions a call reports as inserted. -/
def MailCall.inserts (lib : Stdlib) (s : Store) : MailCall → List ItemKey
  | .content call => call.inserts lib s
  | _ => []

/-- The store, with the revisions its receipts report as inserted, in the order of the first
report of each. -/
structure Submitted where
  store : Store
  accepted : List ItemKey

/-- The store and the revisions after a call. -/
def Submitted.after (lib : Stdlib) (st : Submitted) (call : MailCall) : Submitted where
  store := call.after lib st.store
  accepted := st.accepted ++ (call.inserts lib st.store).filter fun key => key ∉ st.accepted

/-- Submissions as a transition system. -/
def submissionRuns (lib : Stdlib) : Transition.System Submitted MailCall where
  init st := st = ⟨.empty, []⟩
  step st call st' := st' = st.after lib call

/-- A call of the lifecycle; a rebuild, which recovers the projections from the log, is none. -/
def MailCall.Lifecycle (_ : Submitted) (call : MailCall) : Prop :=
  call ≠ .rebuild

/-- **What holds of every run of submissions**: the rows are of the accepted revisions, in their
order, and the receipts report no others. -/
structure Submitted.Sound (st : Submitted) : Prop where
  numbered : st.store.Numbered st.store.contentState.nextSeq
  accepted : st.store.keys = st.accepted
  receipts : ∀ b ∈ st.store.submissions.rows, ∀ key ∈ b.receipt.inserted, key ∈ st.accepted

theorem Submitted.sound_empty : Submitted.Sound ⟨.empty, []⟩ where
  numbered := ⟨⟨fun _ h => absurd h List.not_mem_nil, fun _ h => absurd h List.not_mem_nil⟩,
    fun _ h => absurd h List.not_mem_nil, fun _ h => absurd h List.not_mem_nil, rfl,
    fun _ h => absurd h List.not_mem_nil⟩
  accepted := rfl
  receipts _ h := absurd h List.not_mem_nil

variable {st : Submitted}

theorem Submitted.after_of_silent {call : MailCall} (h : call.inserts lib st.store = []) :
    st.after lib call = ⟨call.after lib st.store, st.accepted⟩ := by
  rw [Submitted.after, h, List.filter_nil, List.append_nil]

theorem Submitted.Sound.aside (hst : st.Sound) (h : st.store.Aside t) :
    Submitted.Sound ⟨t, st.accepted⟩ where
  numbered := by
    rw [h.tables.state]
    exact hst.numbered.aside h
  accepted := by
    rw [Store.keys, h.tables.items]
    exact hst.accepted
  receipts := by
    rw [h.submissions]
    exact hst.receipts

theorem Submitted.Sound.works (hst : st.Sound) (h : st.store.Works t) :
    Submitted.Sound ⟨t, st.accepted⟩ where
  numbered := by
    rw [h.nextSeq]
    exact hst.numbered.works h
  accepted := h.keys.trans hst.accepted
  receipts := by
    rw [h.submissions]
    exact hst.receipts

theorem Submitted.Sound.takesBatch (hst : st.Sound)
    (h : st.store.TakesBatch lib now t source batch items r) :
    Submitted.Sound ⟨t, st.accepted ++ r.inserted.filter fun key => key ∉ st.accepted⟩ := by
  have hnew : (r.inserted.filter fun key => key ∉ st.accepted) = r.inserted := by
    refine List.filter_eq_self.mpr fun key hkey => decide_eq_true ?_
    rw [← hst.accepted]
    exact h.splits.new key hkey
  rw [hnew]
  refine ⟨h.numbered, ?_, fun b hb key hkey => ?_⟩
  · obtain ⟨new, hrows, hkeys, -⟩ := h.rows
    rw [Store.keys, hrows, List.map_append, hkeys, ← hst.accepted]
    rfl
  · rw [h.submissions] at hb
    rcases List.mem_append.mp hb with hb | hb
    · exact List.mem_append_left _ (hst.receipts b hb key hkey)
    · rw [List.mem_singleton.mp hb] at hkey
      exact List.mem_append_right _ hkey

/-- **What every call keeps.** -/
theorem Submitted.Sound.after (hst : st.Sound) (lib : Stdlib) {call : MailCall}
    (hcall : call ≠ .rebuild) :
    (st.after lib call).Sound ∧ st.store.Grows (st.after lib call).store := by
  cases call with
  | alert call =>
      rw [Submitted.after_of_silent rfl]
      have haside := call.aside lib.digest st.store
      exact ⟨hst.aside haside, haside.grows⟩
  | context now sourceId eventId payload observedAt expiresAt =>
      rw [Submitted.after_of_silent rfl, MailCall.after]
      split
      · next hcall =>
          have haside := Store.reportContext_aside hcall
          exact ⟨hst.aside haside, haside.grows⟩
      · exact ⟨hst, .refl _⟩
  | content call =>
      by_cases hsubmit : ∀ now sourceId batchId items, call ≠ .submit now sourceId batchId items
      · have hsilent : (MailCall.content call).inserts lib st.store = [] := by
          rw [MailCall.inserts, ContentCall.inserts.eq_def]
          split
          · exact absurd rfl (hsubmit _ _ _ _)
          · rfl
        rw [Submitted.after_of_silent hsilent]
        have hworks := ContentCall.works lib st.store hsubmit
        exact ⟨hst.works hworks, hworks.grows⟩
      · push Not at hsubmit
        obtain ⟨now, sourceId, batchId, items, rfl⟩ := hsubmit
        rw [Submitted.after, MailCall.inserts, ContentCall.inserts, MailCall.after,
          ContentCall.after, ContentCall.exec]
        cases hrun : st.store.submit lib now sourceId batchId items with
        | error e =>
            rw [List.filter_nil, List.append_nil]
            exact ⟨hst, .refl _⟩
        | ok result =>
            obtain ⟨r, t⟩ := result
            obtain ⟨source, batch, normalized, -, -, -, -, -, hcases⟩ :=
              Store.submit_cases hst.numbered hrun
            rcases hcases with ⟨b, hb, -, -, rfl, rfl⟩ | ⟨-, htakes⟩
            · have hold : (b.receipt.inserted.filter fun key => key ∉ st.accepted) = [] :=
                List.filter_eq_nil_iff.mpr fun key hkey hnew =>
                  of_decide_eq_true hnew (hst.receipts b hb key hkey)
              dsimp only
              rw [hold, List.append_nil]
              exact ⟨hst, .refl _⟩
            · exact ⟨hst.takesBatch htakes, htakes.grows⟩
  | rebuild => exact absurd rfl hcall

theorem Submitted.Sound.of_reachable (h : (submissionRuns lib).ReachableVia MailCall.Lifecycle st) :
    st.Sound := by
  refine Transition.System.ReachableVia.invariant ?_ ?_ h
  · rintro st rfl
    exact Submitted.sound_empty
  · rintro st call st' hst hcall rfl
    exact (hst.after lib hcall).1

theorem Submitted.Sound.grows {st' : Submitted} (hst : st.Sound)
    (h : (submissionRuns lib).RunVia MailCall.Lifecycle st st') : st.store.Grows st'.store := by
  refine Transition.System.RunVia.relates (I := Submitted.Sound)
    (R := fun st st' => st.store.Grows st'.store) (fun st => .refl st.store)
    (fun _ _ _ h h' => h.trans h') ?_ ?_ h hst
  · rintro st call st' hst hcall rfl
    exact (hst.after lib hcall).1
  · rintro st call st' hst hcall rfl
    exact (hst.after lib hcall).2

/-! ### Exactly once -/

/-- **A revision is held once**: one row and one envelope, of the payload. -/
structure Store.HoldsOnce (s : Store) (key : ItemKey) (payload : String) : Prop where
  row : ∃! i, i ∈ s.items.rows ∧ i.key = key
  mail : ∃! e, e ∈ s.mailEnvelopes.rows ∧ e.kind = .content ∧ e.key = key
  rowPayload : ∀ i ∈ s.items.rows, i.key = key → i.payloadJson = payload
  mailPayload : ∀ e ∈ s.mailEnvelopes.rows, e.kind = .content → e.key = key →
    e.payloadJson = payload

theorem Store.Numbered.holdsOnce (hs : s.Numbered seq) (hi : i ∈ s.items.rows) :
    s.HoldsOnce i.key i.payloadJson := by
  obtain ⟨e, he, -, hkind, hkey⟩ := hs.mailed.envelope i hi
  refine ⟨⟨i, ⟨hi, rfl⟩, fun j hj => s.item_ext hj.1 hi hj.2⟩,
    ⟨e, ⟨he, hkind, hkey⟩, fun e' he' => ?_⟩, fun j hj hjk => ?_, fun e' he' hkind' hkey' => ?_⟩
  · obtain ⟨he', hkind', hkey'⟩ := he'
    have hsame : e'.key = e.key := hkey'.trans hkey.symm
    obtain ⟨hsource, hitem, hrevision⟩ := ItemKey.mk.inj hsame
    refine s.envelopes_unique.eq_of_key he' he rfl (congrArg some ?_)
    rw [hs.named e he, hs.named e' he', hkind, hkind', hsource, hitem, hrevision]
  · rw [s.item_ext hj hi hjk]
  · exact hs.payloads i hi e' he' hkind' hkey'

theorem NormalizedItem.payload_of_sameRevision (h : n.sameRevision i = true) :
    i.payloadJson = n.payloadJson := by
  simp only [NormalizedItem.sameRevision, Bool.and_eq_true, decide_eq_true_iff] at h
  exact h.1.1

theorem NormalizedItem.sameRevision_keeps {j : Item} (h : i.Keeps j)
    (hsame : n.sameRevision i = true) (hversion : 1 ≤ i.itemStateVersion) :
    n.sameRevision j = true := by
  obtain ⟨-, hpayload, -, hack⟩ := h.fixed
  simp only [NormalizedItem.sameRevision, Bool.and_eq_true, Bool.or_eq_true,
    decide_eq_true_iff] at hsame ⊢
  obtain ⟨⟨hsamePayload, htime⟩, hsameAck⟩ := hsame
  refine ⟨⟨hpayload.trans hsamePayload, ?_⟩, hack.trans hsameAck⟩
  rcases h.2 with hlt | ⟨heq, hkept⟩
  · exact .inl (hversion.trans_lt hlt)
  · rw [← heq, ← hkept]
    exact htime

theorem Store.TakesBatch.agrees (h : s.TakesBatch lib now t source batch items r)
    (hagrees : s.Agrees source items) : ∀ n ∈ items, ∃ i ∈ t.items.rows, i.key = n.key source ∧
      n.sameRevision i = true := by
  intro n hn
  obtain ⟨new, hrows, hkeys, hmade⟩ := h.rows
  rw [hrows]
  by_cases hold : n.key source ∈ s.keys
  · obtain ⟨i, hi, hkey⟩ := List.mem_map.mp hold
    exact ⟨i, List.mem_append_left _ hi, hkey, hagrees.rows n hn i hi hkey⟩
  · have hinserted : n.key source ∈ r.inserted := by
      have hmem := h.splits.perm.mem_iff.mpr (List.mem_map_of_mem (f := NormalizedItem.key source) hn)
      rcases List.mem_append.mp hmem with hmem | hmem
      · exact hmem
      · exact (h.splits.known _ hmem).resolve_left hold
    obtain ⟨i, hi, hkey⟩ := List.mem_map.mp (hkeys ▸ hinserted)
    obtain ⟨m, hm, seq, rfl⟩ := hmade i hi
    obtain rfl := hagrees.batch n hn (Store.not_mem_keys.mp hold) m hm hkey
    exact ⟨_, List.mem_append_right _ hi, rfl, (NormalizedItem.sameRevision_row rfl).mpr rfl⟩

theorem Submitted.after_submit {items : List Json}
    (h : st.store.submit lib now sourceId batchId items = .ok (r, t)) :
    (st.after lib (.content (.submit now sourceId batchId items))).store = t := by
  rw [Submitted.after, MailCall.after, ContentCall.after, ContentCall.exec, h]
  rfl

theorem Submitted.Sound.grows_after {st' : Submitted} (hst : st.Sound) {items : List Json}
    (h : st.store.submit lib now sourceId batchId items = .ok (r, t))
    (hrun : (submissionRuns lib).RunVia MailCall.Lifecycle
      (st.after lib (.content (.submit now sourceId batchId items))) st') : t.Grows st'.store := by
  have hcall : MailCall.content (.submit now sourceId batchId items) ≠ .rebuild := fun h => by
    cases h
  have hgrows := (hst.after lib hcall).1.grows hrun
  rw [Submitted.after_submit h] at hgrows
  exact hgrows

theorem Submitted.Sound.seq_iff (hst : st.Sound) {n : ℕ} {key : ItemKey} :
    st.accepted[n]? = some key ↔ ∃ i ∈ st.store.items.rows, i.key = key ∧ i.snapshotSeq = n + 1 := by
  have hseq : ∀ (m : ℕ) (i : Item), st.store.items.rows[m]? = some i → i.snapshotSeq = m + 1 := by
    intro m i hi
    have hget : (st.store.items.rows.map Item.snapshotSeq)[m]? = some i.snapshotSeq := by
      rw [List.getElem?_map, hi]
      rfl
    rw [hst.numbered.seqs] at hget
    obtain ⟨hm, hget⟩ := List.getElem?_eq_some_iff.mp hget
    rw [List.getElem_range'] at hget
    omega
  rw [← hst.accepted, Store.keys, List.getElem?_map, Option.map_eq_some_iff]
  constructor
  · rintro ⟨i, hi, hkey⟩
    exact ⟨i, List.mem_of_getElem? hi, hkey, hseq n i hi⟩
  · rintro ⟨i, hi, hkey, hnumber⟩
    obtain ⟨m, hm⟩ := List.mem_iff_getElem?.mp hi
    have hsame : m = n := by
      have := hseq m i hm
      omega
    exact ⟨i, hsame ▸ hm, hkey⟩

/-- **Content submission is exactly once**, in every state that submissions and calls of the
lifecycle reach. -/
structure Submissions (lib : Stdlib) : Prop where
  /-- Each accepted revision has one row and one envelope, and nothing else has any. -/
  once : ∀ st, (submissionRuns lib).ReachableVia MailCall.Lifecycle st →
    (∀ key ∈ st.accepted, ∃ payload, st.store.HoldsOnce key payload) ∧
    (∀ i ∈ st.store.items.rows, i.key ∈ st.accepted) ∧
    ∀ e ∈ st.store.mailEnvelopes.rows, e.kind = .content → e.key ∈ st.accepted
  /-- No call changes the payload. -/
  kept : ∀ st st', (submissionRuns lib).ReachableVia MailCall.Lifecycle st →
    (submissionRuns lib).RunVia MailCall.Lifecycle st st' →
    ∀ key payload, st.store.HoldsOnce key payload → st'.store.HoldsOnce key payload
  /-- The revisions are numbered from one in the order of their acceptance. -/
  numbered : ∀ st, (submissionRuns lib).ReachableVia MailCall.Lifecycle st →
    st.accepted.Nodup ∧ st.accepted.length = st.store.contentState.nextSeq ∧
    ∀ n key, st.accepted[n]? = some key ↔
      ∃ i ∈ st.store.items.rows, i.key = key ∧ i.snapshotSeq = n + 1
  /-- The receipt of a new batch has its items in two lists; each is held with its payload. -/
  split : ∀ st, (submissionRuns lib).ReachableVia MailCall.Lifecycle st →
    ∀ now source batch items normalized r t, items.mapM (normalizeItem lib) = .ok normalized →
    st.store.Unrecorded source batch →
    st.store.submit lib now (.str source) (.str batch) items = .ok (r, t) →
    Splits st.accepted (normalized.map (NormalizedItem.key source)) r.inserted r.duplicates ∧
    ∀ n ∈ normalized, t.HoldsOnce (n.key source) n.payloadJson
  /-- An item that was taken agrees with its row whatever becomes of that. -/
  agreed : ∀ st st', (submissionRuns lib).ReachableVia MailCall.Lifecycle st →
    ∀ now source batch items normalized r t, items.mapM (normalizeItem lib) = .ok normalized →
    st.store.Unrecorded source batch →
    st.store.submit lib now (.str source) (.str batch) items = .ok (r, t) →
    (submissionRuns lib).RunVia MailCall.Lifecycle
      (st.after lib (.content (.submit now (.str source) (.str batch) items))) st' →
    ∀ n ∈ normalized, ∀ i ∈ st'.store.items.rows, i.key = n.key source → n.sameRevision i = true
  /-- A batch that is repeated is answered with its receipt; another one of its name is refused,
  where the hash tells their texts apart. -/
  repeated : ∀ st st', (submissionRuns lib).ReachableVia MailCall.Lifecycle st →
    ∀ now sourceId batchId items normalized r t, items.mapM (normalizeItem lib) = .ok normalized →
    st.store.submit lib now sourceId batchId items = .ok (r, t) →
    (submissionRuns lib).RunVia MailCall.Lifecycle
      (st.after lib (.content (.submit now sourceId batchId items))) st' →
    ∀ now' items' normalized', items'.mapM (normalizeItem lib) = .ok normalized' →
    (normalized' = normalized →
      st'.store.submit lib now' sourceId batchId items' = .ok (r, st'.store)) ∧
    (normalized' ≠ normalized →
      (lib.sha256 (batchText normalized') = lib.sha256 (batchText normalized) →
        batchText normalized' = batchText normalized) →
      (∃ e, st'.store.submit lib now' sourceId batchId items' = .error e) ∧
      (ContentCall.submit now' sourceId batchId items').after lib st'.store = st'.store)
  /-- A new batch is taken exactly when its items agree with what is there of their own revisions
  and no new one shares its mail id with another revision. -/
  returns : ∀ st, (submissionRuns lib).ReachableVia MailCall.Lifecycle st →
    ∀ now source batch items normalized, isIdentity source = true → isIdentity batch = true →
    items.mapM (normalizeItem lib) = .ok normalized → st.store.Unrecorded source batch →
    ((∃ r t, st.store.submit lib now (.str source) (.str batch) items = .ok (r, t)) ↔
      st.store.Agrees source normalized ∧
        Unshared st.accepted (normalized.map (NormalizedItem.key source)))

theorem Store.takesBatch_of_submit {items : List Json} (hs : s.Numbered s.contentState.nextSeq)
    (hitems : items.mapM (normalizeItem lib) = .ok normalized) (hnew : s.Unrecorded source batch)
    (h : s.submit lib now (.str source) (.str batch) items = .ok (r, t)) :
    s.TakesBatch lib now t source batch normalized r ∧ s.Agrees source normalized := by
  obtain ⟨source', batch', normalized', hsource, hsourceId, hbatch, hbatchId, hitems', hcases⟩ :=
    Store.submit_cases hs h
  obtain rfl := Json.str.inj hsource
  obtain rfl := Json.str.inj hbatch
  obtain rfl := Except.ok.inj (hitems.symm.trans hitems')
  rcases hcases with ⟨b, hb, hkey, -⟩ | ⟨-, htakes⟩
  · exact absurd hkey (hnew b hb)
  · exact ⟨htakes, ((Store.submit_returns hs hsourceId hbatchId hitems hnew).mp ⟨r, t, h⟩).1⟩

theorem Store.recorded_of_submit {items : List Json} (hs : s.Numbered s.contentState.nextSeq)
    (hitems : items.mapM (normalizeItem lib) = .ok normalized)
    (h : s.submit lib now sourceId batchId items = .ok (r, t)) :
    ∃ source batch, sourceId = .str source ∧ batchId = .str batch ∧ isIdentity source = true ∧
      isIdentity batch = true ∧ ∃ b ∈ t.submissions.rows, (b.sourceId, b.batchId) = (source, batch) ∧
        b.fingerprint = lib.fingerprint normalized ∧ b.receipt = r := by
  obtain ⟨source, batch, normalized', hsourceId, hsource, hbatchId, hbatch, hitems', hcases⟩ :=
    Store.submit_cases hs h
  obtain rfl := Except.ok.inj (hitems.symm.trans hitems')
  refine ⟨source, batch, hsourceId, hbatchId, hsource, hbatch, ?_⟩
  rcases hcases with ⟨b, hb, hkey, hfingerprint, hreceipt, rfl⟩ | ⟨-, htakes⟩
  · exact ⟨b, hb, hkey, hfingerprint, hreceipt.symm⟩
  · refine ⟨⟨source, batch, lib.fingerprint normalized, r, now⟩, ?_, rfl, rfl, rfl⟩
    rw [htakes.submissions]
    exact List.mem_append_right _ (List.mem_singleton_self _)

/-- **Content submission is exactly once**, and a new batch is taken exactly when its new
revisions share no mail id with others. -/
theorem submissions_hold (digest : Detail → String) (sha256 : String → String)
    (fromIso : String → Except PyError Datetime) :
    Submissions (hashingStdlib digest sha256 fromIso) where
  once st hreach := by
    have hst := Submitted.Sound.of_reachable hreach
    refine ⟨fun key hkey => ?_, fun i hi => ?_, fun e he hkind => ?_⟩
    · rw [← hst.accepted] at hkey
      obtain ⟨i, hi, rfl⟩ := List.mem_map.mp hkey
      exact ⟨_, hst.numbered.holdsOnce hi⟩
    · rw [← hst.accepted]
      exact List.mem_map_of_mem hi
    · obtain ⟨i, hi, hkey⟩ := hst.numbered.mailed.item e he hkind
      rw [← hst.accepted]
      exact List.mem_map.mpr ⟨i, hi, hkey⟩
  kept st st' hreach hrun key payload hholds := by
    have hst := Submitted.Sound.of_reachable hreach
    obtain ⟨i, ⟨hi, rfl⟩, -⟩ := hholds.row
    obtain ⟨j, hj, hkeeps⟩ := (hst.grows hrun).keeps hi
    have hst' := Submitted.Sound.of_reachable (hreach.run hrun)
    rw [← hkeeps.fixed.1, ← hholds.rowPayload i hi rfl, ← hkeeps.fixed.2.1]
    exact hst'.numbered.holdsOnce hj
  numbered st hreach := by
    have hst := Submitted.Sound.of_reachable hreach
    refine ⟨?_, ?_, fun n key => hst.seq_iff⟩
    · have hunique := st.store.items_unique
      rw [Table.Unique, List.filterMap_eq_map'] at hunique
      rw [← hst.accepted]
      exact hunique
    · have hlength := congrArg List.length hst.numbered.seqs
      rw [List.length_map, List.length_range'] at hlength
      rw [← hst.accepted, Store.keys, List.length_map, hlength]
  split st hreach now source batch items normalized r t hitems hnew h := by
    have hst := Submitted.Sound.of_reachable hreach
    obtain ⟨htakes, hagrees⟩ := Store.takesBatch_of_submit hst.numbered hitems hnew h
    refine ⟨hst.accepted ▸ htakes.splits, fun n hn => ?_⟩
    obtain ⟨i, hi, hkey, hsame⟩ := htakes.agrees hagrees n hn
    rw [← hkey, ← NormalizedItem.payload_of_sameRevision hsame]
    exact htakes.numbered.holdsOnce hi
  agreed st st' hreach now source batch items normalized r t hitems hnew h hrun n hn j hj hkey := by
    have hst := Submitted.Sound.of_reachable hreach
    have hgrows := hst.grows_after h hrun
    obtain ⟨htakes, hagrees⟩ := Store.takesBatch_of_submit hst.numbered hitems hnew h
    obtain ⟨i, hi, hik, hsame⟩ := htakes.agrees hagrees n hn
    obtain ⟨j', hj', hkeeps⟩ := hgrows.keeps hi
    rw [st'.store.item_ext hj hj' (hkey.trans (hik.symm.trans hkeeps.fixed.1.symm))]
    exact NormalizedItem.sameRevision_keeps hkeeps hsame (htakes.numbered.versions i hi)
  repeated st st' hreach now sourceId batchId items normalized r t hitems h hrun now' items'
      normalized' hitems' := by
    have hst := Submitted.Sound.of_reachable hreach
    have hgrows := hst.grows_after h hrun
    obtain ⟨source, batch, rfl, rfl, hsource, hbatch, b, hb, hkey, hfingerprint, rfl⟩ :=
      Store.recorded_of_submit hst.numbered hitems h
    have hanswer := Store.submit_recorded now' hsource hbatch hitems'
      (hgrows.submission hb) hkey
    rw [hfingerprint] at hanswer
    constructor
    · rintro rfl
      rw [hanswer, if_neg (not_not.mpr rfl)]
    · intro hne hapart
      have hother : (hashingStdlib digest sha256 fromIso).fingerprint normalized
          ≠ (hashingStdlib digest sha256 fromIso).fingerprint normalized' :=
        fun hsame => hne (batchText_inj (hapart hsame.symm))
      rw [if_pos hother] at hanswer
      refine ⟨⟨_, hanswer⟩, ?_⟩
      rw [ContentCall.after, ContentCall.exec, hanswer]
      rfl
  returns st hreach now source batch items normalized hsource hbatch hitems hnew := by
    have hst := Submitted.Sound.of_reachable hreach
    rw [← hst.accepted]
    exact Store.submit_returns hst.numbered hsource hbatch hitems hnew

/-- A standard library for the run below. -/
def collidingStdlib : Stdlib :=
  hashingStdlib plainDigest id fun _ => valueError ""

/-- An item of the run below. -/
def collidingItem (itemId : String) : Json :=
  .obj [("item_id", .str itemId), ("revision", .str "r"), ("payload", .obj [])]

/-- The item `c` of the source `a:b` is accepted. -/
def collidingRun : Submitted :=
  Submitted.after collidingStdlib ⟨.empty, []⟩
    (.content (.submit "0" (.str "a:b") (.str "x") [collidingItem "c"]))

/-- **An accepted revision makes another one fail**: the item `b:c` of the source `a` has the mail
id of the item `c` of the source `a:b`. -/
theorem submissions_collide : ¬∀ (lib : Stdlib) st,
    (submissionRuns lib).ReachableVia MailCall.Lifecycle st →
    ∀ now source batch items normalized, isIdentity source = true → isIdentity batch = true →
    items.mapM (normalizeItem lib) = .ok normalized → st.store.Unrecorded source batch →
    st.store.Agrees source normalized →
    ∃ r t, st.store.submit lib now (.str source) (.str batch) items = .ok (r, t) := by
  intro h
  let n : NormalizedItem := ⟨"b:c", "r", "\x7b\x7d", immediateNotBefore, true⟩
  have hnew : ∀ i ∈ collidingRun.store.items.rows, i.key ≠ n.key "a" := by decide +kernel
  have hagrees : collidingRun.store.Agrees "a" [n] := by
    refine ⟨fun m hm i hi hkey => ?_, fun m hm _ m' hm' _ => ?_⟩
    · rw [List.mem_singleton.mp hm] at hkey
      exact absurd hkey (hnew i hi)
    · rw [List.mem_singleton.mp hm, List.mem_singleton.mp hm']
  have hreach : (submissionRuns collidingStdlib).ReachableVia MailCall.Lifecycle collidingRun :=
    Transition.System.ReachableVia.step (.init rfl) (fun hrebuild => by cases hrebuild) rfl
  obtain ⟨r, t, htaken⟩ := h collidingStdlib collidingRun hreach "1" "a" "x" [collidingItem "b:c"]
    [n] (by decide) (by decide) (by decide +kernel) (by decide +kernel) hagrees
  have hfails : (collidingRun.store.submit collidingStdlib "1" (.str "a") (.str "x")
      [collidingItem "b:c"]).toOption.isNone = true := by decide +kernel
  rw [htaken] at hfails
  cases hfails

end Kirakira.EventMail
