import Kirakira.Lib.Transition
import Kirakira.MailContent

/-!
# What a Content Call Does

Everything the content calls of the event mail can make of the items, the selections and
their members. The statements of a call become one change of each table; what it adds to the
log and to the state of the content is left to the rebuild.

## Main results

* `Store.ContentMove` — **everything a call can make of the content**.
* `ContentCall.moves` — a call makes one of these moves, or none.
-/

namespace Kirakira.EventMail

open Exceptions

variable {lib : Stdlib} {now : String} {s t : Store}

/-! ### Rows by key -/

theorem Store.items_unique (s : Store) : Table.Unique (fun i => some i.key) s.items.rows :=
  s.items.holds (onKey _ Item.key) List.mem_cons_self

theorem Store.items_settlement (s : Store) : Table.Unique Item.settlementRef s.items.rows :=
  s.items.holds (onOption _ Item.settlementRef) (List.mem_cons_of_mem _
    (List.mem_cons_of_mem _ (List.mem_cons_of_mem _ List.mem_cons_self)))

theorem Store.selections_unique (s : Store) :
    Table.Unique (fun c => some c.token) s.contentSelections.rows :=
  s.contentSelections.holds (onKey _ Selection.token) List.mem_cons_self

theorem Store.selections_turn (s : Store) :
    Table.Unique (fun c => some c.acceptedTurn) s.contentSelections.rows :=
  s.contentSelections.holds (onKey _ Selection.acceptedTurn)
    (List.mem_cons_of_mem _ (List.mem_cons_of_mem _ List.mem_cons_self))

theorem Store.members_unique (s : Store) :
    Table.Unique (fun m => some (m.token, m.item)) s.contentSelectionMembers.rows :=
  s.contentSelectionMembers.holds (onKey _ fun m => (m.token, m.item)) List.mem_cons_self

variable {i : Item} {source hex settlement : String} {snapshotSeq : ℕ} {acceptedTurn : Json}

theorem Store.item_ext {j : Item} (hi : i ∈ s.items.rows) (hj : j ∈ s.items.rows)
    (hkey : i.key = j.key) : i = j :=
  s.items_unique.eq_of_key hi hj rfl (congrArg some hkey.symm)

variable {c : Selection} {token instant : String} {sourceId : Json} {refs : List ContentRef}
  {itemRefs : List Json} {r : SelectResult} {selectedRefs : Option (List Json)}
  {action : ContentAction}

theorem Store.selection_ext {d : Selection} (hc : c ∈ s.contentSelections.rows)
    (hd : d ∈ s.contentSelections.rows) (htoken : c.token = d.token) : c = d :=
  s.selections_unique.eq_of_key hc hd rfl (congrArg some htoken.symm)

theorem Store.member_ext {m n : Member} (hm : m ∈ s.contentSelectionMembers.rows)
    (hn : n ∈ s.contentSelectionMembers.rows) (htoken : m.token = n.token)
    (hitem : m.item = n.item) : m = n :=
  s.members_unique.eq_of_key hm hn rfl (by rw [htoken, hitem])

theorem Store.item?_eq_some {key : ItemKey} :
    s.item? key = some i ↔ i ∈ s.items.rows ∧ i.key = key :=
  Table.find?_eq_some_iff s.items_unique

theorem Store.selection?_eq_some :
    s.selection? token = some c ↔ c ∈ s.contentSelections.rows ∧ c.token = token :=
  Table.find?_eq_some_iff s.selections_unique

theorem Store.mem_membersOf {m : Member} :
    m ∈ s.membersOf token ↔ m ∈ s.contentSelectionMembers.rows ∧ m.token = token := by
  rw [Store.membersOf, List.mem_insertionSort, List.mem_filter, decide_eq_true_eq]

/-! ### Statements -/

theorem Store.writeItems_eq_ok {rows : List Item} :
    s.writeItems rows = .ok t ↔
      ∃ p : Table.Rows itemIndexes, p.rows = rows ∧ t = { s with items := p } :=
  map_write_eq_ok

theorem Store.writeSelections_eq_ok {rows : List Selection} :
    s.writeSelections rows = .ok t ↔
      ∃ p : Table.Rows selectionIndexes, p.rows = rows ∧ t = { s with contentSelections := p } :=
  map_write_eq_ok

theorem Store.writeMembers_eq_ok {rows : List Member} :
    s.writeMembers rows = .ok t ↔
      ∃ p : Table.Rows memberIndexes, p.rows = rows ∧
        t = { s with contentSelectionMembers := p } :=
  map_write_eq_ok

/-- A store whose content tables are those of another. -/
structure Store.SameContent (s t : Store) : Prop where
  items : t.items = s.items
  selections : t.contentSelections = s.contentSelections
  members : t.contentSelectionMembers = s.contentSelectionMembers

theorem Store.SameContent.refl (s : Store) : s.SameContent s :=
  ⟨rfl, rfl, rfl⟩

theorem Store.SameContent.trans {u : Store} (h : s.SameContent t) (h' : t.SameContent u) :
    s.SameContent u :=
  ⟨h'.items.trans h.items, h'.selections.trans h.selections, h'.members.trans h.members⟩

theorem Store.logEach_content (lib : Stdlib) (now : String) (action : Action) (detail : Detail)
    (keys : List ItemKey) (s : Store) : s.SameContent (s.logEach lib now action detail keys) := by
  induction keys generalizing s with
  | nil => exact .refl _
  | cons key keys ih => exact ⟨(ih _).items, (ih _).selections, (ih _).members⟩

theorem Store.appendProjection_content {id : String}
    (h : s.appendProjection lib now id = .ok t) : s.SameContent t := by
  rw [Store.appendProjection] at h
  split at h
  · cases h
  · split_ifs at h
    · cases h
    · split at h
      · cases h
      · cases h
        exact ⟨rfl, rfl, rfl⟩

theorem Store.appendProjections_content {keys : List ItemKey}
    (h : s.appendProjections lib now keys = .ok t) : s.SameContent t := by
  induction keys generalizing s with
  | nil =>
      cases h
      exact .refl _
  | cons key keys ih =>
      rw [Store.appendProjections, List.foldlM_cons] at h
      obtain ⟨s₁, hfirst, hrest⟩ := bind_eq_ok.mp h
      exact (appendProjection_content hfirst).trans (ih hrest)

/-! ### Moves -/

/-- A row of `items` that a submission inserts. -/
def Item.IsNew (i : Item) : Prop :=
  i.status = .pending ∧ i.selectionToken = none ∧ i.settlementRef = none

/-- The rows of a call that names references at their versions. -/
def expiring (refs : List ContentRef) (i : Item) : Bool :=
  refs.any fun ref => ref.expires i

/-- The rows of the driver of a selection. -/
def Item.isDriverOf (token : String) (i : Item) : Bool :=
  i.selectionToken = some token

/-- The rows `settle_delivery` leaves of the items of a message. -/
def settledRows (members : List Item) (refOf : ItemKey → String) (now : String)
    (rows : List Item) : List Item :=
  rows.map fun i =>
    if i ∈ members then i.settle (settledStatus i.requiresAck) (refOf i.key) now else i

/-- The rows `settle_delivery` leaves of the members of a message. -/
def settledMembers (token : String) (members : List Item) (refOf : ItemKey → String)
    (rows : List Member) : List Member :=
  Table.update (fun m => m.token = token && members.any fun d => m.item = d.key)
    (fun m => { m with settlementRef := some (refOf m.item) }) rows

/-- The rows `settle_delivery` leaves of the items: those of the message are settled, and a
driver that is none of them is released. -/
def Store.settledItems (s : Store) (now : String) (c : Selection) (refOf : ItemKey → String) :
    List Item :=
  let members := s.deliveryMembers c.token
  let rows := settledRows members refOf now s.items.rows
  if members.any fun d => d.key = c.driver then rows
  else Table.update (fun i => i.isDriverOf c.token && i.status.isDriving) (Item.release now) rows

/-- What `settle_delivery` does to the content of a selection that is ready. -/
structure Store.Settles (s t : Store) (now settlement : String) (c : Selection)
    (refOf : ItemKey → String) : Prop where
  isOpen : ∀ d ∈ s.deliveryMembers c.token, d.status.isOpen = true
  nonempty : s.deliveryMembers c.token ≠ []
  items : t.items.rows = s.settledItems now c refOf
  selections : t.contentSelections.rows
    = Table.update (fun d => d.token = c.token && d.status = .readyForDelivery)
        (Selection.settle (deliveredStatus (s.deliveryMembers c.token)) settlement now)
        s.contentSelections.rows
  members : t.contentSelectionMembers.rows
    = settledMembers c.token (s.deliveryMembers c.token) refOf s.contentSelectionMembers.rows

/-- What a move is about. -/
inductive ContentLabel where
  | selection (token : String)
  | expiry (refs : List ContentRef)
  | other

/-- **Everything a call can make of the content.** A move about a selection is labelled with
its token, an expiry with its references. -/
inductive Store.ContentMove (s t : Store) : ContentLabel → Prop
  | same (h : s.SameContent t) : s.ContentMove t .other
  | submitted (new : List Item) (hnew : ∀ i ∈ new, i.IsNew)
      (hitems : t.items.rows = s.items.rows ++ new)
      (hselections : t.contentSelections = s.contentSelections)
      (hmembers : t.contentSelectionMembers = s.contentSelectionMembers) : s.ContentMove t .other
  | expired (refs : List ContentRef) (instant : String)
      (hitems : t.items.rows
        = s.items.rows.map fun i => if expiring refs i then i.become .expired instant else i)
      (hselections : t.contentSelections = s.contentSelections)
      (hmembers : t.contentSelectionMembers = s.contentSelectionMembers) : s.ContentMove t (.expiry refs)
  | claimed (token now : String) (turn : AcceptedTurn) (c : Selection) (keys : List ItemKey)
      (htoken : c.token = token) (hstatus : c.status = .selected)
      (hdriver : c.driver ∈ keys) (hkeys : keys.Nodup)
      (hcandidates : ∀ key ∈ keys, s.isClaimed key = false ∧
        ∃ i ∈ s.items.rows, i.key = key ∧ i.status.isWaiting = true)
      (hitems : t.items.rows
        = s.items.rows.map fun i => if i.key = c.driver then i.drive token turn now else i)
      (hselections : t.contentSelections.rows = s.contentSelections.rows ++ [c])
      (hmembers : t.contentSelectionMembers.rows
        = s.contentSelectionMembers.rows ++ newMembers token keys) : s.ContentMove t .other
  | readied (now : String) (c : Selection) (hc : c ∈ s.contentSelections.rows)
      (hstatus : c.status = .selected) (chosen : List ItemKey) (hchosen : chosen ≠ [])
      (havailable : ∀ key ∈ chosen, ∃ m ∈ s.contentSelectionMembers.rows,
        m.token = c.token ∧ m.item = key)
      (hitems : t.items.rows = s.items.rows.map fun i =>
        if c.driver ∈ chosen then
          if i.isDriverOf c.token && i.status = .selected then i.become .readyForDelivery now else i
        else if i.isDriverOf c.token && i.status.isDriving then i.release now else i)
      (hselections : t.contentSelections.rows = Table.update (fun d => d.token = c.token)
        (Selection.become .readyForDelivery now) s.contentSelections.rows)
      (hmembers : t.contentSelectionMembers.rows
        = Table.update (fun m => m.token = c.token && chosen.contains m.item)
            (fun m => { m with selectedForDelivery := true }) s.contentSelectionMembers.rows) :
      s.ContentMove t (.selection c.token)
  | released (now : String) (c : Selection) (hc : c ∈ s.contentSelections.rows)
      (hstatus : c.status = .selected)
      (hitems : t.items.rows = s.items.rows.map fun i =>
        if i.isDriverOf c.token && i.status.isDriving then i.release now else i)
      (hselections : t.contentSelections.rows = Table.update (fun d => d.token = c.token)
        (Selection.become .released now) s.contentSelections.rows)
      (hmembers : t.contentSelectionMembers = s.contentSelectionMembers) :
      s.ContentMove t (.selection c.token)
  | finished (now : String) (c : Selection) (hc : c ∈ s.contentSelections.rows)
      (action : ContentAction) (hallows : action.allows c.status = true)
      (hending : action ≠ .readyForDelivery ∧ action ≠ .release ∧ action ≠ .delivered)
      (hfailed : action = .failed → c.status ≠ .readyForDelivery)
      (deadline : Option String)
      (hitems : t.items.rows = s.items.rows.map fun i =>
        if i.isDriverOf c.token then i.finish action.itemStatus deadline now else i)
      (hselections : t.contentSelections.rows = Table.update (fun d => d.token = c.token)
        (Selection.become action.status now) s.contentSelections.rows)
      (hmembers : t.contentSelectionMembers = s.contentSelectionMembers) :
      s.ContentMove t (.selection c.token)
  | failed (now : String) (c : Selection) (hc : c ∈ s.contentSelections.rows)
      (hstatus : c.status = .readyForDelivery)
      (hitems : t.items.rows = s.items.rows.map fun i =>
        if (s.deliveryMembers c.token).any (fun d => i.key = d.key) && i.status.isOpen then
          i.become .failed now else i)
      (hselections : t.contentSelections.rows = Table.update (fun d => d.token = c.token)
        (Selection.become .failed now) s.contentSelections.rows)
      (hmembers : t.contentSelectionMembers = s.contentSelectionMembers) :
      s.ContentMove t (.selection c.token)
  | settled (now settlement : String) (c : Selection) (hc : c ∈ s.contentSelections.rows)
      (hstatus : c.status = .readyForDelivery) (refOf : ItemKey → String)
      (h : s.Settles t now settlement c refOf) : s.ContentMove t (.selection c.token)
  | acknowledged (now : String) (i : Item) (hi : i ∈ s.items.rows) (hstatus : i.status = .delivered)
      (hitems : t.items.rows = s.items.rows.map fun j =>
        if j.key = i.key then j.become .settled now else j)
      (hselections : t.contentSelections = s.contentSelections)
      (hmembers : t.contentSelectionMembers = s.contentSelectionMembers) : s.ContentMove t .other

/-! ### Submissions and expiries -/

theorem NormalizedItem.row_isNew (source now : String) (seq : ℕ) (item : NormalizedItem) :
    (item.row source now seq).IsNew :=
  ⟨rfl, rfl, rfl⟩

/-- The revision an item of a batch is. -/
def NormalizedItem.key (source : String) (item : NormalizedItem) : ItemKey :=
  ⟨source, item.itemId, item.revision⟩

/-- The envelope of a new row. -/
def NormalizedItem.envelope (source now : String) (item : NormalizedItem) : Envelope :=
  ⟨(item.key source).mailId, .content, source, item.itemId, item.revision, item.payloadJson, now,
    some item.notBefore, none, now⟩

/-- **An unseen item** gets its row and its envelope, whose mail id was free. -/
theorem Store.insertItem_cases {seq : ℕ} {item : NormalizedItem}
    (h : s.insertItem lib now source seq item = .ok t) :
    (∀ e ∈ s.mailEnvelopes.rows, e.mailId ≠ (item.key source).mailId) ∧
      ∃ (items : Table.Rows itemIndexes) (envelopes : Table.Rows envelopeIndexes),
        items.rows = s.items.rows ++ [item.row source now seq] ∧
        envelopes.rows = s.mailEnvelopes.rows ++ [item.envelope source now] ∧
        t = Store.logContent lib now (item.key source) .received .empty
          { s with items := items, mailEnvelopes := envelopes } := by
  rw [Store.insertItem] at h
  obtain ⟨s₁, hwrite, h⟩ := bind_eq_ok.mp h
  obtain ⟨⟨inserted, s₂⟩, hmail, h⟩ := bind_eq_ok.mp h
  dsimp only at h
  split_ifs at h with hinserted
  · cases h
  · cases h
    obtain ⟨items, hitems, rfl⟩ := Store.writeItems_eq_ok.mp hwrite
    rcases Store.appendEnvelope_cases hmail with ⟨hold, -⟩ | ⟨-, hfree, envelopes, hrows, rfl⟩
    · exact absurd hold hinserted
    · exact ⟨hfree, items, envelopes, hitems, hrows, rfl⟩

theorem Store.insertItem_eq_ok {seq : ℕ} {item : NormalizedItem}
    (h : s.insertItem lib now source seq item = .ok t) :
    t.items.rows = s.items.rows ++ [item.row source now seq] ∧
      t.contentSelections = s.contentSelections ∧
      t.contentSelectionMembers = s.contentSelectionMembers := by
  obtain ⟨-, items, envelopes, hitems, -, rfl⟩ := insertItem_cases h
  exact ⟨hitems, rfl, rfl⟩

theorem Store.appendItems_eq_ok {items : List NormalizedItem} {seq : ℕ}
    {inserted duplicates : List ItemKey}
    (h : s.appendItems lib now source items seq = .ok (inserted, duplicates, t)) :
    ∃ new : List Item, (∀ i ∈ new, i.IsNew) ∧ new.map Item.key = inserted ∧
      t.items.rows = s.items.rows ++ new ∧
      t.contentSelections = s.contentSelections ∧
      t.contentSelectionMembers = s.contentSelectionMembers := by
  induction items generalizing s seq inserted duplicates with
  | nil =>
      cases h
      exact ⟨[], by simp, rfl, (List.append_nil _).symm, rfl, rfl⟩
  | cons item items ih =>
      rw [Store.appendItems] at h
      split at h
      · split_ifs at h
        · obtain ⟨⟨inserted', duplicates', s₁⟩, hrest, h⟩ := bind_eq_ok.mp h
          cases h
          exact ih hrest
        · cases h
      · obtain ⟨s₁, hinsert, h⟩ := bind_eq_ok.mp h
        obtain ⟨⟨inserted', duplicates', s₂⟩, hrest, h⟩ := bind_eq_ok.mp h
        cases h
        obtain ⟨hitems, hselections, hmembers⟩ := insertItem_eq_ok hinsert
        obtain ⟨new, hnew, hkeys, hitems', hselections', hmembers'⟩ := ih hrest
        refine ⟨item.row source now (seq + 1) :: new, ?_, ?_, ?_, hselections'.trans hselections,
          hmembers'.trans hmembers⟩
        · intro i hi
          rcases List.mem_cons.mp hi with rfl | hi
          · exact NormalizedItem.row_isNew ..
          · exact hnew i hi
        · rw [List.map_cons, hkeys]
          rfl
        · rw [hitems', hitems, List.append_assoc]
          rfl

theorem Store.advance_content (n : ℕ) (s : Store) : s.SameContent (s.advance n) := by
  rw [Store.advance]
  split
  · exact .refl s
  · exact ⟨rfl, rfl, rfl⟩

theorem Store.recomputeWake_content (s : Store) : s.SameContent s.recomputeWake :=
  ⟨rfl, rfl, rfl⟩

theorem Store.bumpVersion_content (s : Store) : s.SameContent s.bumpVersion :=
  ⟨rfl, rfl, rfl⟩

/-- **The statements of a submission** that returns: a recorded batch is answered, and a new one is
appended, projected and recorded. -/
theorem Store.submit_steps {batchId : Json} {items : List Json} {r : SubmissionReceipt}
    (h : s.submit lib now sourceId batchId items = .ok (r, t)) :
    ∃ source batch normalized, identity "source_id" (some sourceId) = .ok source ∧
      identity "batch_id" (some batchId) = .ok batch ∧
      items.mapM (normalizeItem lib) = .ok normalized ∧
      ((∃ b ∈ s.submissions.rows, (b.sourceId, b.batchId) = (source, batch) ∧
          b.fingerprint = lib.fingerprint normalized ∧ r = b.receipt ∧ t = s) ∨
        (∀ b ∈ s.submissions.rows, (b.sourceId, b.batchId) ≠ (source, batch)) ∧
        ∃ (s₁ s₂ : Store) (submissions : Table.Rows submissionIndexes),
          s.appendItems lib now source normalized s.contentState.nextSeq
            = .ok (r.inserted, r.duplicates, s₁) ∧
          ((s₁.advance r.inserted.length).recomputeWake).appendProjections lib now r.inserted
            = .ok s₂ ∧
          submissions.rows
            = s₂.submissions.rows ++ [⟨source, batch, lib.fingerprint normalized, r, now⟩] ∧
          t = { s₂ with submissions := submissions }) := by
  rw [Store.submit] at h
  obtain ⟨source, hsource, h⟩ := bind_eq_ok.mp h
  obtain ⟨batch, hbatch, h⟩ := bind_eq_ok.mp h
  obtain ⟨normalized, hnormalized, h⟩ := bind_eq_ok.mp h
  refine ⟨source, batch, normalized, hsource, hbatch, hnormalized, ?_⟩
  dsimp only at h
  split at h
  · next b hfind =>
      obtain ⟨hb, hkey⟩ := Table.find?_eq_some hfind
      split_ifs at h with hfingerprint
      · cases h
      · cases h
        exact .inl ⟨b, hb, hkey, not_not.mp hfingerprint, rfl, rfl⟩
  · next hfind =>
      obtain ⟨⟨inserted, duplicates, s₁⟩, happend, h⟩ := bind_eq_ok.mp h
      obtain ⟨s₂, hprojections, h⟩ := bind_eq_ok.mp h
      obtain ⟨submissions, hwrite, h⟩ := bind_eq_ok.mp h
      cases h
      refine .inr ⟨fun b hb hkey => List.find?_eq_none.mp hfind b hb (decide_eq_true hkey), ?_⟩
      exact ⟨s₁, s₂, submissions, happend, hprojections, write_eq_ok.mp hwrite, rfl⟩

theorem Store.submit_moves {batchId : Json} {items : List Json} {receipt : SubmissionReceipt}
    (h : s.submit lib now sourceId batchId items = .ok (receipt, t)) : s.ContentMove t .other := by
  obtain ⟨source, batch, normalized, -, -, -, ⟨b, -, -, -, -, rfl⟩ |
    ⟨-, s₁, s₂, submissions, happend, hprojections, -, rfl⟩⟩ := submit_steps h
  · exact .same (.refl _)
  · obtain ⟨new, hnew, -, hitems, hselections, hmembers⟩ := appendItems_eq_ok happend
    have hcontent := ((advance_content _ s₁).trans (recomputeWake_content _)).trans
      (appendProjections_content hprojections)
    refine .submitted new hnew ?_ (hcontent.selections.trans hselections)
      (hcontent.members.trans hmembers)
    rw [← hitems]
    exact congrArg Table.Rows.rows hcontent.items

/-- The loop of `expire` expires every row a reference names at its version. -/
theorem Store.expireRefs_eq_ok {expired stale : List ContentRef}
    (h : s.expireRefs lib now instant refs = .ok (expired, stale, t)) :
    t.items.rows
        = (s.items.rows.map fun i => if expiring refs i then i.become .expired instant else i) ∧
      t.contentSelections = s.contentSelections ∧
      t.contentSelectionMembers = s.contentSelectionMembers := by
  induction refs generalizing s expired stale with
  | nil =>
      cases h
      exact ⟨(List.map_id _).symm, rfl, rfl⟩
  | cons ref refs ih =>
      rw [Store.expireRefs] at h
      obtain ⟨s₁, hwrite, h⟩ := bind_eq_ok.mp h
      obtain ⟨p, hp, rfl⟩ := Store.writeItems_eq_ok.mp hwrite
      have hrest : ∃ expired' stale', ∃ s₂ : Store, s₂.items.rows = p.rows ∧
          s₂.contentSelections = s.contentSelections ∧
          s₂.contentSelectionMembers = s.contentSelectionMembers ∧
          s₂.expireRefs lib now instant refs = .ok (expired', stale', t) := by
        split_ifs at h
        · obtain ⟨⟨expired', stale', t'⟩, hrest, h⟩ := bind_eq_ok.mp h
          cases h
          refine ⟨_, _, _, ?_, ?_, ?_, hrest⟩ <;> rfl
        · obtain ⟨⟨expired', stale', t'⟩, hrest, h⟩ := bind_eq_ok.mp h
          cases h
          refine ⟨_, _, _, ?_, ?_, ?_, hrest⟩ <;> rfl
      obtain ⟨expired', stale', s₂, hitems, hselections, hmembers, hrest⟩ := hrest
      obtain ⟨hitems', hselections', hmembers'⟩ := ih hrest
      refine ⟨?_, hselections'.trans hselections, hmembers'.trans hmembers⟩
      rw [hitems', hitems, hp, Table.update, List.map_map]
      refine List.map_congr_left fun i _ => ?_
      simp only [Function.comp_apply, expiring, List.any_cons]
      by_cases hhit : ref.expires i = true
      · have hgone : ∀ ref' : ContentRef, ref'.expires (i.become .expired instant) = false := by
          intro ref'
          simp [ContentRef.expires, Item.become, ItemStatus.isWaiting]
        simp [hhit, hgone]
      · simp [hhit]

theorem Store.expire_moves {instant : Datetime} {r : ExpireResult}
    (h : s.expire lib now itemRefs instant = .ok (r, t)) :
    ∃ refs text, itemRefs.mapM normalizeRef = .ok refs ∧
      t.items.rows
          = (s.items.rows.map fun i => if expiring refs i then i.become .expired text else i) ∧
        t.contentSelections = s.contentSelections ∧
        t.contentSelectionMembers = s.contentSelectionMembers := by
  rw [Store.expire] at h
  obtain ⟨refs, hrefs, h⟩ := bind_eq_ok.mp h
  obtain ⟨_, -, h⟩ := bind_eq_ok.mp h
  obtain ⟨text, -, h⟩ := bind_eq_ok.mp h
  obtain ⟨⟨expired, stale, s₁⟩, hexpire, h⟩ := bind_eq_ok.mp h
  obtain ⟨hitems, hselections, hmembers⟩ := expireRefs_eq_ok hexpire
  refine ⟨refs, text, hrefs, ?_⟩
  dsimp only at h
  split_ifs at h with hnone
  · cases h
    exact ⟨hitems, hselections, hmembers⟩
  · obtain ⟨s₂, hprojections, h⟩ := bind_eq_ok.mp h
    cases h
    have hcontent := appendProjections_content hprojections
    refine ⟨?_, hcontent.selections.trans hselections, hcontent.members.trans hmembers⟩
    rw [← hitems]
    exact congrArg Table.Rows.rows hcontent.items

/-! ### Claims -/

theorem Store.candidates_eq_some {candidates : List Item}
    (h : s.candidates refs snapshotSeq instant = some candidates) :
    candidates.map Item.key = refs.map ContentRef.key ∧
      ∀ i ∈ candidates, i ∈ s.items.rows ∧ i.status.isWaiting = true ∧
        s.isClaimed i.key = false ∧ i.snapshotSeq ≤ snapshotSeq ∧ i.notBefore ≤ instant := by
  induction refs generalizing candidates with
  | nil =>
      cases h
      exact ⟨rfl, by simp⟩
  | cons ref refs ih =>
      rw [Store.candidates, List.mapM_cons] at h
      obtain ⟨i, hi, h⟩ := Option.bind_eq_some_iff.mp h
      obtain ⟨rest, hrest, h⟩ := Option.bind_eq_some_iff.mp h
      cases h
      obtain ⟨hkeys, hall⟩ := ih hrest
      have hcandidate := List.find?_some hi
      simp only [Store.isCandidate, Bool.and_eq_true, decide_eq_true_eq, Bool.not_eq_true']
        at hcandidate
      obtain ⟨⟨⟨⟨⟨hkey, hseq⟩, -⟩, hwaiting⟩, hdue⟩, hfree⟩ := hcandidate
      refine ⟨by rw [List.map_cons, List.map_cons, hkey, hkeys], fun j hj => ?_⟩
      rcases List.mem_cons.mp hj with rfl | hj
      · exact ⟨List.mem_of_find?_eq_some hi, hwaiting, hfree, hseq, hdue⟩
      · exact hall j hj

theorem Item.isDriver_iff {driver : Item} (hdriver : driver ∈ s.items.rows)
    (hwaiting : driver.status.isWaiting = true) (hseq : driver.snapshotSeq ≤ snapshotSeq)
    (hdue : driver.notBefore ≤ instant) (hi : i ∈ s.items.rows) :
    driver.isDriver snapshotSeq instant i = true ↔ i = driver := by
  simp only [Item.isDriver, Bool.and_eq_true, decide_eq_true_eq]
  constructor
  · rintro ⟨⟨⟨⟨hkey, -⟩, -⟩, -⟩, -⟩
    exact Store.item_ext hi hdriver hkey
  · rintro rfl
    exact ⟨⟨⟨⟨rfl, hseq⟩, rfl⟩, hwaiting⟩, hdue⟩

theorem checkRefs_eq_ok {limit : ℕ} {size repeated : String} {u : Unit}
    (h : checkRefs refs limit size repeated = .ok u) : (refs.map ContentRef.key).Nodup := by
  rw [checkRefs] at h
  split_ifs at h with hsize hrepeated
  all_goals cases h
  exact hrepeated

/-- **What a claim does**: its selection, members and driver are there, and its items are
recorded. -/
structure Store.ClaimsBatch (lib : Stdlib) (now : String) (s t : Store) (c : Selection)
    (keys : List ItemKey) : Prop where
  status : c.status = .selected
  driver : c.driver ∈ keys
  nodup : keys.Nodup
  candidates : ∀ key ∈ keys, s.isClaimed key = false ∧
    ∃ i ∈ s.items.rows, i.key = key ∧ i.status.isWaiting = true
  claims : ∃ (items : Table.Rows itemIndexes) (selections : Table.Rows selectionIndexes)
      (members : Table.Rows memberIndexes),
    items.rows = (s.items.rows.map fun i =>
      if i.key = c.driver then i.drive c.token c.acceptedTurn now else i) ∧
    selections.rows = s.contentSelections.rows ++ [c] ∧
    members.rows = s.contentSelectionMembers.rows ++ newMembers c.token keys ∧
    Store.appendProjections lib now keys (Store.recomputeWake (Store.bumpVersion (Store.logEach lib
      now .selected (.claim c.token c.acceptedTurn) keys { s with
        items := items
        contentSelections := selections
        contentSelectionMembers := members }))) = .ok t

theorem Store.claimBatch_eq_ok {turn : AcceptedTurn} {driver : Item} {candidates : List Item}
    (hall : ∀ i ∈ candidates, i ∈ s.items.rows ∧ i.status.isWaiting = true ∧
      s.isClaimed i.key = false ∧ i.snapshotSeq ≤ snapshotSeq ∧ i.notBefore ≤ instant)
    (hdriver : driver ∈ candidates) (hnodup : (candidates.map Item.key).Nodup)
    (h : s.claimBatch lib now token turn snapshotSeq instant driver (candidates.map Item.key)
      = .ok (r, t)) :
    ∃ c : Selection, c.token = token ∧ s.ClaimsBatch lib now t c (candidates.map Item.key) := by
  obtain ⟨hmem, hwaiting, -, hseq, hdue⟩ := hall driver hdriver
  have hhit : ∀ i ∈ s.items.rows, driver.isDriver snapshotSeq instant i = true ↔ i = driver :=
    fun i hi => Item.isDriver_iff hmem hwaiting hseq hdue hi
  have hone := Table.countP_eq_one s.items_unique.nodup hmem hhit
  rw [Store.claimBatch] at h
  obtain ⟨s₁, hwrite, h⟩ := bind_eq_ok.mp h
  rw [hone, if_neg (not_not.mpr rfl)] at h
  obtain ⟨s₂, hopen, h⟩ := bind_eq_ok.mp h
  obtain ⟨s₃, hprojections, h⟩ := bind_eq_ok.mp h
  cases h
  obtain ⟨items, hitems, rfl⟩ := Store.writeItems_eq_ok.mp hwrite
  rw [Store.openSelection] at hopen
  obtain ⟨s₄, hwriteSelections, hopen⟩ := bind_eq_ok.mp hopen
  obtain ⟨selections, hselections, rfl⟩ := Store.writeSelections_eq_ok.mp hwriteSelections
  obtain ⟨s₅, hwriteMembers, hopen⟩ := bind_eq_ok.mp hopen
  obtain ⟨members, hmembers, rfl⟩ := Store.writeMembers_eq_ok.mp hwriteMembers
  cases hopen
  refine ⟨⟨token, turn, snapshotSeq, .selected, driver.key, "items_v1", none, now, now⟩, rfl, rfl,
    List.mem_map_of_mem hdriver, hnodup, ?_, items, selections, members, ?_, hselections,
    hmembers, hprojections⟩
  · intro key hkey
    obtain ⟨i, hi, rfl⟩ := List.mem_map.mp hkey
    obtain ⟨hmem, hwaiting, hfree, -⟩ := hall i hi
    exact ⟨hfree, i, hmem, rfl, hwaiting⟩
  · refine hitems.trans (List.map_congr_left fun i hi => ?_)
    by_cases hsame : i = driver
    · rw [if_pos ((hhit i hi).mpr hsame), if_pos (congrArg Item.key hsame)]
    · rw [if_neg fun hdrives => hsame ((hhit i hi).mp hdrives),
        if_neg fun hkey => hsame (Store.item_ext hi hmem hkey)]

/-- **The statements of `select_batch`** where it changes anything: the turn has no selection yet,
and the candidates of all references are claimed. -/
theorem Store.selectBatch_steps {snapshotSeq : ℤ} {instant : Datetime}
    (h : s.selectBatch lib now hex itemRefs snapshotSeq acceptedTurn instant = .ok (r, t)) :
    t = s ∨ ∃ refs turn text candidates, itemRefs.mapM normalizeRef = .ok refs ∧
      normalizeAcceptedTurn acceptedTurn = .ok turn ∧ awareUtc instant = .ok text ∧
      (s.contentSelections.rows.any fun c => c.acceptedTurn = turn) = false ∧
      s.candidates refs snapshotSeq.toNat text = some candidates ∧
      ∃ c : Selection, c.token = "content-selection:" ++ hex ∧
        s.ClaimsBatch lib now t c (candidates.map Item.key) := by
  rw [Store.selectBatch] at h
  obtain ⟨refs, hrefs, h⟩ := bind_eq_ok.mp h
  obtain ⟨_, hcheck, h⟩ := bind_eq_ok.mp h
  split at h
  · cases h
  · obtain ⟨turn, hturn, h⟩ := bind_eq_ok.mp h
    obtain ⟨text, htext, h⟩ := bind_eq_ok.mp h
    split at h
    · cases h
      exact .inl rfl
    · next hfresh =>
        split at h
        · cases h
          exact .inl rfl
        · cases h
          exact .inl rfl
        · next driver rest hcandidates =>
            obtain ⟨hkeys, hall⟩ := candidates_eq_some hcandidates
            exact .inr ⟨refs, turn, text, _, hrefs, hturn, htext, by simpa using hfresh,
              hcandidates,
              claimBatch_eq_ok hall List.mem_cons_self (hkeys ▸ checkRefs_eq_ok hcheck) h⟩

theorem Store.selectBatch_eq_ok {snapshotSeq : ℤ} {instant : Datetime}
    (h : s.selectBatch lib now hex itemRefs snapshotSeq acceptedTurn instant = .ok (r, t)) :
    t = s ∨ ∃ c keys, c.token = "content-selection:" ++ hex ∧ s.ClaimsBatch lib now t c keys := by
  rcases selectBatch_steps h with hsame | ⟨-, -, -, candidates, -, -, -, -, -, c, htoken, hclaims⟩
  · exact .inl hsame
  · exact .inr ⟨c, _, htoken, hclaims⟩

theorem Store.selectBatch_moves {snapshotSeq : ℤ} {instant : Datetime}
    (h : s.selectBatch lib now hex itemRefs snapshotSeq acceptedTurn instant = .ok (r, t)) :
    s.ContentMove t .other := by
  rcases selectBatch_eq_ok h with rfl | ⟨c, keys, -, hstatus, hdriver, hnodup, hcandidates, items,
    selections, members, hitems, hselections, hmembers, hprojections⟩
  · exact .same (.refl _)
  · have hcontent := ((logEach_content lib now .selected (.claim c.token c.acceptedTurn) keys
      _).trans (bumpVersion_content _)).trans
      ((recomputeWake_content _).trans (appendProjections_content hprojections))
    exact .claimed c.token now c.acceptedTurn c keys rfl hstatus hdriver hnodup hcandidates
      ((congrArg _ hcontent.items).trans hitems)
      ((congrArg _ hcontent.selections).trans hselections)
      ((congrArg _ hcontent.members).trans hmembers)

/-! ### Endings -/

theorem Store.selectDeliveryMembers_eq_ok {driver : ItemKey} {chosen : List ItemKey}
    (h : s.selectDeliveryMembers token driver selectedRefs = .ok (chosen, t)) :
    chosen ≠ [] ∧ (∀ key ∈ chosen, ∃ m ∈ s.contentSelectionMembers.rows,
        m.token = token ∧ m.item = key) ∧
      ∃ members : Table.Rows memberIndexes,
        members.rows = Table.update (fun m => m.token = token && chosen.contains m.item)
          (fun m => { m with selectedForDelivery := true }) s.contentSelectionMembers.rows ∧
        t = { s with contentSelectionMembers := members } := by
  rw [Store.selectDeliveryMembers] at h
  obtain ⟨chosen', -, h⟩ := bind_eq_ok.mp h
  split_ifs at h with hsize havailable
  · cases h
  · obtain ⟨s₁, hwrite, h⟩ := bind_eq_ok.mp h
    cases h
    exact ⟨fun hnil => hsize (.inl hnil), havailable, Store.writeMembers_eq_ok.mp hwrite⟩
  · cases h

theorem Store.failMembers_eq_ok {members : List Item} (h : s.failMembers now members = .ok t) :
    ∃ items : Table.Rows itemIndexes, t = { s with items := items } ∧
      items.rows = s.items.rows.map fun i =>
        if members.any (fun d => i.key = d.key) && i.status.isOpen then i.become .failed now
        else i := by
  induction members generalizing s with
  | nil =>
      cases h
      exact ⟨_, rfl, (List.map_id _).symm⟩
  | cons member members ih =>
      rw [Store.failMembers, List.foldlM_cons] at h
      obtain ⟨s₁, hwrite, hrest⟩ := bind_eq_ok.mp h
      obtain ⟨p, hp, rfl⟩ := Store.writeItems_eq_ok.mp hwrite
      obtain ⟨items, rfl, hitems⟩ := ih hrest
      refine ⟨items, rfl, ?_⟩
      rw [hitems, hp, Table.update, List.map_map]
      refine List.map_congr_left fun i _ => ?_
      simp only [Function.comp_apply, List.any_cons]
      by_cases hhit : (decide (i.key = member.key) && i.status.isOpen) = true
      · rw [Bool.and_eq_true, decide_eq_true_eq] at hhit
        have hclosed : (i.become .failed now).status.isOpen = false := rfl
        simp [hhit.1, hhit.2, hclosed]
      · rw [Bool.and_eq_true, decide_eq_true_eq, not_and] at hhit
        by_cases hkey : i.key = member.key
        · simp [hkey, hhit hkey]
        · simp [hkey]

/-- What the statements of `transition` do to the items and the members. -/
inductive Store.Applied (s t : Store) (now : String) (c : Selection) (action : ContentAction)
    (deadline : Option String) : Prop
  | readied (haction : action = .readyForDelivery) (chosen : List ItemKey) (hchosen : chosen ≠ [])
      (havailable : ∀ key ∈ chosen, ∃ m ∈ s.contentSelectionMembers.rows,
        m.token = c.token ∧ m.item = key)
      (hitems : t.items.rows = s.items.rows.map fun i =>
        if c.driver ∈ chosen then
          if i.isDriverOf c.token && i.status = .selected then i.become .readyForDelivery now else i
        else if i.isDriverOf c.token && i.status.isDriving then i.release now else i)
      (hmembers : t.contentSelectionMembers.rows
        = Table.update (fun m => m.token = c.token && chosen.contains m.item)
            (fun m => { m with selectedForDelivery := true }) s.contentSelectionMembers.rows)
  | released (haction : action = .release)
      (hitems : t.items.rows = s.items.rows.map fun i =>
        if i.isDriverOf c.token && i.status.isDriving then i.release now else i)
      (hmembers : t.contentSelectionMembers = s.contentSelectionMembers)
  | failed (haction : action = .failed) (hstatus : c.status = .readyForDelivery)
      (hitems : t.items.rows = s.items.rows.map fun i =>
        if (s.deliveryMembers c.token).any (fun d => i.key = d.key) && i.status.isOpen then
          i.become .failed now else i)
      (hmembers : t.contentSelectionMembers = s.contentSelectionMembers)
  | finished (haction : action ≠ .readyForDelivery ∧ action ≠ .release)
      (hfailed : action = .failed → c.status ≠ .readyForDelivery)
      (hitems : t.items.rows = s.items.rows.map fun i =>
        if i.isDriverOf c.token then i.finish action.itemStatus deadline now else i)
      (hmembers : t.contentSelectionMembers = s.contentSelectionMembers)

theorem Store.applyTransition_eq_ok {deadline : Option String}
    (h : s.applyTransition now c action deadline selectedRefs = .ok t) :
    t.contentSelections = s.contentSelections ∧ s.Applied t now c action deadline := by
  rw [Store.applyTransition.eq_def] at h
  split at h
  · obtain ⟨⟨chosen, s₁⟩, hselect, h⟩ := bind_eq_ok.mp h
    obtain ⟨hchosen, havailable, members, hmembers, rfl⟩ := selectDeliveryMembers_eq_ok hselect
    dsimp only at h
    split_ifs at h with hdriver
    · obtain ⟨items, hitems, rfl⟩ := Store.writeItems_eq_ok.mp h
      refine ⟨rfl, .readied rfl chosen hchosen havailable ?_ hmembers⟩
      simp only [if_pos (List.contains_iff_mem.mp hdriver)]
      exact hitems
    · rw [Store.releaseDriver] at h
      obtain ⟨items, hitems, rfl⟩ := Store.writeItems_eq_ok.mp h
      refine ⟨rfl, .readied rfl chosen hchosen havailable ?_ hmembers⟩
      simp only [if_neg fun hmem => hdriver (List.contains_iff_mem.mpr hmem)]
      exact hitems
  · dsimp only at h
    split_ifs at h
    · cases h
    · obtain ⟨items, rfl, hitems⟩ := failMembers_eq_ok h
      exact ⟨rfl, .failed rfl ‹_› hitems rfl⟩
  · rw [Store.releaseDriver] at h
    obtain ⟨items, hitems, rfl⟩ := Store.writeItems_eq_ok.mp h
    exact ⟨rfl, .released rfl hitems rfl⟩
  · next hready hrelease hfailed =>
      obtain ⟨items, hitems, rfl⟩ := Store.writeItems_eq_ok.mp h
      exact ⟨rfl, .finished ⟨hready, hrelease⟩ hfailed hitems rfl⟩

theorem ContentAction.selected_of_allows {status : SelectionStatus}
    (h : action.allows status = true) (habandoned : action ≠ .abandoned)
    (hfailed : action ≠ .failed) : status = .selected := by
  simpa [ContentAction.allows, habandoned, hfailed] using h

theorem Store.runTransition_moves {deadline : Option String} {r : TransitionResult}
    (hdelivered : action ≠ .delivered)
    (h : s.runTransition lib now token action deadline selectedRefs = .ok (r, t)) :
    t = s ∨ s.ContentMove t (.selection token) := by
  rw [Store.runTransition] at h
  split at h
  · cases h
    exact .inl rfl
  · next c hselection =>
      split_ifs at h with hallows
      · cases h
        exact .inl rfl
      · obtain ⟨hc, rfl⟩ := Store.selection?_eq_some.mp hselection
        rw [Bool.not_eq_false] at hallows
        dsimp only at h
        obtain ⟨s₁, happly, h⟩ := bind_eq_ok.mp h
        obtain ⟨s₂, hwrite, h⟩ := bind_eq_ok.mp h
        obtain ⟨s₃, hprojections, h⟩ := bind_eq_ok.mp h
        cases h
        obtain ⟨hsame, happlied⟩ := applyTransition_eq_ok happly
        obtain ⟨selections, hselections, rfl⟩ := Store.writeSelections_eq_ok.mp hwrite
        rw [hsame] at hselections
        have hcontent := ((logEach_content lib now action.logged (.selection c.token deadline)
          ((s.membersOf c.token).map Member.item) _).trans (bumpVersion_content _)).trans
          ((recomputeWake_content _).trans (appendProjections_content hprojections))
        have hselections' := (congrArg Table.Rows.rows hcontent.selections).trans hselections
        have hitems' := congrArg Table.Rows.rows hcontent.items
        have hmembers' := hcontent.members
        refine .inr ?_
        cases happlied with
        | readied haction chosen hchosen havailable hitems hmembers =>
            subst haction
            exact .readied now c hc
              (ContentAction.selected_of_allows hallows (by decide) (by decide)) chosen hchosen
              havailable (hitems'.trans hitems) hselections'
              ((congrArg Table.Rows.rows hmembers').trans hmembers)
        | released haction hitems hmembers =>
            subst haction
            exact .released now c hc
              (ContentAction.selected_of_allows hallows (by decide) (by decide))
              (hitems'.trans hitems) hselections' (hmembers'.trans hmembers)
        | failed haction hstatus hitems hmembers =>
            subst haction
            exact .failed now c hc hstatus (hitems'.trans hitems) hselections'
              (hmembers'.trans hmembers)
        | finished haction hfailed hitems hmembers =>
            exact .finished now c hc action hallows ⟨haction.1, haction.2, hdelivered⟩ hfailed
              deadline (hitems'.trans hitems) hselections' (hmembers'.trans hmembers)

/-! ### Settlements -/

theorem Store.mem_deliveryMembers :
    i ∈ s.deliveryMembers token ↔ i ∈ s.items.rows ∧
      ∃ m ∈ s.contentSelectionMembers.rows, m.token = token ∧ m.item = i.key ∧
        m.selectedForDelivery = true := by
  simp only [Store.deliveryMembers, List.mem_filterMap, List.mem_filter, Store.mem_membersOf,
    Store.item?_eq_some]
  constructor
  · rintro ⟨m, ⟨⟨hm, htoken⟩, hchosen⟩, hi, hkey⟩
    exact ⟨hi, m, hm, htoken, hkey.symm, hchosen⟩
  · rintro ⟨hi, m, hm, htoken, hitem, hchosen⟩
    exact ⟨m, ⟨⟨hm, htoken⟩, hchosen⟩, hi, hitem.symm⟩

theorem Store.item?_keys_sublist (s : Store) (members : List Member) :
    ((members.filterMap fun m => s.item? m.item).map Item.key).Sublist
      (members.map Member.item) := by
  induction members with
  | nil => exact .slnil
  | cons m members ih =>
      rw [List.map_cons]
      cases hi : s.item? m.item with
      | none =>
          simp only [List.filterMap_cons, hi]
          exact ih.cons _
      | some i =>
          simp only [List.filterMap_cons, hi, List.map_cons, (Store.item?_eq_some.mp hi).2]
          exact ih.cons_cons _

theorem Store.membersOf_nodup (s : Store) (token : String) :
    ((s.membersOf token).map Member.item).Nodup := by
  have hrows := s.members_unique
  rw [Table.Unique, List.filterMap_eq_map'] at hrows
  have hfilter := (List.filter_sublist (p := fun m => decide (m.token = token))
    (l := s.contentSelectionMembers.rows)).map (fun m => (m.token, m.item))
  have hnodup := hrows.sublist hfilter
  have hitems : ((s.contentSelectionMembers.rows.filter fun m => m.token = token).map
      Member.item).Nodup := by
    refine List.Nodup.map_on ?_ hnodup.of_map
    intro m hm m' hm' hitem
    obtain ⟨hmem, htoken⟩ := List.mem_filter.mp hm
    obtain ⟨hmem', htoken'⟩ := List.mem_filter.mp hm'
    exact Store.member_ext hmem hmem'
      ((of_decide_eq_true htoken).trans (of_decide_eq_true htoken').symm) hitem
  exact ((List.perm_insertionSort _ _).map _).nodup_iff.mpr hitems

theorem Store.deliveryMembers_nodup (s : Store) (token : String) :
    ((s.deliveryMembers token).map Item.key).Nodup :=
  ((s.membersOf_nodup token).sublist (List.filter_sublist.map _)).sublist
    (s.item?_keys_sublist _)

theorem Store.settleMember_eq_ok {ref : String} {member : Item} (hmember : member ∈ s.items.rows)
    (h : s.settleMember lib now token ref member = .ok t) :
    member.status.isOpen = true ∧
      t.items.rows = (s.items.rows.map fun i =>
        if i = member then i.settle (settledStatus i.requiresAck) ref now else i) ∧
      t.contentSelections = s.contentSelections ∧
      t.contentSelectionMembers.rows
        = Table.update (fun m => m.token = token && m.item = member.key)
            (fun m => { m with settlementRef := some ref }) s.contentSelectionMembers.rows := by
  rw [Store.settleMember] at h
  obtain ⟨s₁, hwrite, h⟩ := bind_eq_ok.mp h
  obtain ⟨items, hitems, rfl⟩ := Store.writeItems_eq_ok.mp hwrite
  split_ifs at h with hone
  · cases h
  · obtain ⟨members, hmembers, rfl⟩ := Store.writeMembers_eq_ok.mp h
    have hkey : ∀ i ∈ s.items.rows, i.key = member.key → i = member :=
      fun i hi => Store.item_ext hi hmember
    have hopen : member.status.isOpen = true := by
      obtain ⟨i, hi, hhit⟩ := List.countP_pos_iff.mp (Nat.lt_of_sub_eq_succ (not_not.mp hone))
      rw [Bool.and_eq_true, decide_eq_true_eq] at hhit
      exact hkey i hi hhit.1 ▸ hhit.2
    refine ⟨hopen, hitems.trans (List.map_congr_left fun i hi => ?_), rfl, hmembers⟩
    by_cases hsame : i = member
    · subst hsame
      simp [hopen]
    · have hne : ¬i.key = member.key := fun h => hsame (hkey i hi h)
      simp [hsame, hne]

theorem Store.settleMembers_eq_ok {single : Bool} {members : List Item}
    (hmem : ∀ d ∈ members, d ∈ s.items.rows) (hkeys : (members.map Item.key).Nodup)
    (h : s.settleMembers lib now token settlement single members = .ok t) :
    (∀ d ∈ members, d.status.isOpen = true) ∧
      t.items.rows = settledRows members (settlementOf lib settlement single) now s.items.rows ∧
      t.contentSelections = s.contentSelections ∧
      t.contentSelectionMembers.rows
        = settledMembers token members (settlementOf lib settlement single)
            s.contentSelectionMembers.rows := by
  induction members generalizing s with
  | nil =>
      cases h
      refine ⟨by simp, ?_, rfl, ?_⟩
      · simp [settledRows]
      · simp [settledMembers, Table.update]
  | cons member members ih =>
      rw [Store.settleMembers, List.foldlM_cons] at h
      obtain ⟨s₁, hfirst, hrest⟩ := bind_eq_ok.mp h
      obtain ⟨hopen, hitems, hselections, hmembers⟩ :=
        settleMember_eq_ok (hmem member List.mem_cons_self) hfirst
      rw [List.map_cons, List.nodup_cons] at hkeys
      have hne : ∀ d ∈ members, d ≠ member := fun d hd hsame =>
        hkeys.1 (hsame ▸ List.mem_map_of_mem hd)
      have hmem' : ∀ d ∈ members, d ∈ s₁.items.rows := by
        intro d hd
        rw [hitems, List.mem_map]
        exact ⟨d, hmem d (List.mem_cons_of_mem _ hd), if_neg (hne d hd)⟩
      obtain ⟨hopens, hitems', hselections', hmembers'⟩ := ih hmem' hkeys.2 hrest
      refine ⟨?_, ?_, hselections'.trans hselections, ?_⟩
      · intro d hd
        rcases List.mem_cons.mp hd with rfl | hd
        · exact hopen
        · exact hopens d hd
      · rw [hitems', hitems, settledRows, settledRows, List.map_map]
        refine List.map_congr_left fun i _ => ?_
        simp only [Function.comp_apply, List.mem_cons]
        by_cases hsame : i = member
        · subst hsame
          have hgone : i.settle (settledStatus i.requiresAck)
              (settlementOf lib settlement single i.key) now ∉ members :=
            fun hin => hkeys.1 (List.mem_map.mpr ⟨_, hin, rfl⟩)
          simp [hgone]
        · simp only [hsame, if_false, false_or]
      · rw [hmembers', hmembers, settledMembers, settledMembers, Table.update, Table.update,
          Table.update, List.map_map]
        refine List.map_congr_left fun m _ => ?_
        simp only [Function.comp_apply, List.any_cons]
        by_cases htoken : m.token = token
        · by_cases hitem : m.item = member.key
          · simp [htoken, hitem]
          · simp [htoken, hitem]
        · simp [htoken]

/-- **The statements of `settle_delivery`** on a selection that is ready, one after the other. -/
theorem Store.settleSelection_steps {r : SelectionStatus}
    (h : s.settleSelection lib now settlement c = .ok (r, t)) :
    s.deliveryMembers c.token ≠ [] ∧ r = deliveredStatus (s.deliveryMembers c.token) ∧
      ∃ s₁ s₂ s₃ : Store,
        s.settleMembers lib now c.token settlement ((s.deliveryMembers c.token).length = 1)
          (s.deliveryMembers c.token) = .ok s₁ ∧
        (if (s.deliveryMembers c.token).any fun d => d.key = c.driver then s₂ = s₁
          else s₁.releaseDriver now c.token = .ok s₂) ∧
        s₂.writeSelections
          (Table.update (fun d => d.token = c.token && d.status = .readyForDelivery)
            (Selection.settle (deliveredStatus (s.deliveryMembers c.token)) settlement now)
            s₂.contentSelections.rows) = .ok s₃ ∧
        s₃.bumpVersion.recomputeWake.appendProjections lib now
          ((s₃.membersOf c.token).map Member.item) = .ok t := by
  rw [Store.settleSelection] at h
  by_cases hnonempty : s.deliveryMembers c.token = []
  · rw [if_pos hnonempty] at h
    cases h
  · rw [if_neg hnonempty] at h
    obtain ⟨s₁, hsettle, h⟩ := bind_eq_ok.mp h
    dsimp only at h
    -- both branches go on with the same statements
    split_ifs at h ⊢ with hdriver
    · obtain ⟨s₂, hsame, h⟩ := bind_eq_ok.mp h
      obtain rfl := Except.ok.inj hsame
      obtain ⟨s₃, hwrite, h⟩ := bind_eq_ok.mp h
      obtain ⟨s₄, hprojections, h⟩ := bind_eq_ok.mp h
      cases h
      exact ⟨hnonempty, rfl, s₁, s₁, s₃, hsettle, rfl, hwrite, hprojections⟩
    · obtain ⟨s₂, hrelease, h⟩ := bind_eq_ok.mp h
      obtain ⟨s₃, hwrite, h⟩ := bind_eq_ok.mp h
      obtain ⟨s₄, hprojections, h⟩ := bind_eq_ok.mp h
      cases h
      exact ⟨hnonempty, rfl, s₁, s₂, s₃, hsettle, hrelease, hwrite, hprojections⟩

theorem Store.settleSelection_eq_ok {r : SelectionStatus}
    (h : s.settleSelection lib now settlement c = .ok (r, t)) :
    r = deliveredStatus (s.deliveryMembers c.token) ∧
      s.Settles t now settlement c
        (settlementOf lib settlement ((s.deliveryMembers c.token).length = 1)) := by
  obtain ⟨hnonempty, rfl, s₁, s₂, s₃, hsettle, hrelease, hwrite, hprojections⟩ :=
    settleSelection_steps h
  obtain ⟨hopen, hitems, hselections, hmembers⟩ := settleMembers_eq_ok
    (fun d hd => (Store.mem_deliveryMembers.mp hd).1) (s.deliveryMembers_nodup c.token) hsettle
  obtain ⟨hitems', hselections', hmembers'⟩ : s₂.items.rows = s.settledItems now c
        (settlementOf lib settlement ((s.deliveryMembers c.token).length = 1)) ∧
      s₂.contentSelections = s₁.contentSelections ∧
      s₂.contentSelectionMembers = s₁.contentSelectionMembers := by
    rw [Store.settledItems]
    split_ifs at hrelease ⊢
    · rw [hrelease]
      exact ⟨hitems, rfl, rfl⟩
    · obtain ⟨items, hrows, rfl⟩ := Store.writeItems_eq_ok.mp hrelease
      refine ⟨hrows.trans ?_, rfl, rfl⟩
      rw [hitems]
      rfl
  obtain ⟨selections, hwritten, rfl⟩ := Store.writeSelections_eq_ok.mp hwrite
  have hcontent := ((bumpVersion_content _).trans (recomputeWake_content _)).trans
    (appendProjections_content hprojections)
  rw [hselections', hselections] at hwritten
  exact ⟨rfl, hopen, hnonempty, (congrArg _ hcontent.items).trans hitems',
    (congrArg _ hcontent.selections).trans hwritten,
    (congrArg _ (hcontent.members.trans hmembers')).trans hmembers⟩

/-- **What `settle_delivery` comes to**: nothing, or the settlement of the ready selection its
token names. -/
theorem Store.settleDelivery_steps {token settlement : Json} {r : TransitionResult}
    (h : s.settleDelivery lib now token settlement = .ok (r, t)) :
    t = s ∨ ∃ c ∈ s.contentSelections.rows,
      identity "selection_token" (some token) = .ok c.token ∧ c.status = .readyForDelivery ∧
        ∃ ref status, s.settleSelection lib now ref c = .ok (status, t) := by
  rw [Store.settleDelivery] at h
  obtain ⟨text, htoken, h⟩ := bind_eq_ok.mp h
  obtain ⟨ref, -, h⟩ := bind_eq_ok.mp h
  dsimp only at h
  split at h
  · cases h
    exact .inl rfl
  · next c hselection =>
      obtain ⟨hc, rfl⟩ := Store.selection?_eq_some.mp hselection
      split_ifs at h with hended hconflict hready
      · cases h
      · cases h
        exact .inl rfl
      · cases h
        exact .inl rfl
      · obtain ⟨⟨status, s₁⟩, hsettle, h⟩ := bind_eq_ok.mp h
        cases h
        exact .inr ⟨c, hc, htoken, not_not.mp hready, ref, status, hsettle⟩

theorem Store.settleDelivery_moves {token settlement : Json} {r : TransitionResult}
    (h : s.settleDelivery lib now token settlement = .ok (r, t)) :
    t = s ∨ ∃ text, identity "selection_token" (some token) = .ok text ∧
      s.ContentMove t (.selection text) := by
  rcases settleDelivery_steps h with hsame | ⟨c, hc, htoken, hready, ref, status, hsettle⟩
  · exact .inl hsame
  · exact .inr ⟨_, htoken, .settled now ref c hc hready _ (settleSelection_eq_ok hsettle).2⟩

theorem Store.transition_moves {token : Json} {action : String} {notBefore : Option Datetime}
    {settlementRef : Option Json} {r : TransitionResult}
    (h : s.transition lib now token action notBefore settlementRef selectedRefs = .ok (r, t)) :
    t = s ∨ ∃ text, identity "selection_token" (some token) = .ok text ∧
      s.ContentMove t (.selection text) := by
  rw [Store.transition] at h
  obtain ⟨text, htoken, h⟩ := bind_eq_ok.mp h
  obtain ⟨named, -, h⟩ := bind_eq_ok.mp h
  obtain ⟨_, hcheck, h⟩ := bind_eq_ok.mp h
  obtain ⟨deadline, -, h⟩ := bind_eq_ok.mp h
  split at h
  · obtain ⟨settlement, -, h⟩ := bind_eq_ok.mp h
    rcases settleDelivery_moves h with hsame | ⟨text', htext', hmove⟩
    · exact .inl hsame
    · obtain ⟨hstr, -⟩ := identity_eq_ok htext'
      cases hstr
      exact .inr ⟨_, htoken, hmove⟩
  · have hdelivered : named ≠ .delivered := by
      rintro rfl
      cases hcheck
    exact (runTransition_moves hdelivered h).imp_right fun hmove => ⟨text, htoken, hmove⟩

/-- What `ack` does: nothing, or one delivered item is settled and recorded. -/
theorem Store.ack_eq_ok {settlementRef : Json} {r : AckResult}
    (h : s.ack lib now sourceId settlementRef = .ok (r, t)) :
    t = s ∨ ∃ i ∈ s.items.rows, i.status = .delivered ∧
      ∃ (items : Table.Rows itemIndexes) (settlement : String),
        items.rows = (s.items.rows.map fun j =>
          if j.key = i.key then j.become .settled now else j) ∧
        Store.appendProjections lib now [i.key] (Store.bumpVersion (Store.logContent lib now i.key
          .acknowledged (.settlement settlement) { s with items := items })) = .ok t := by
  rw [Store.ack] at h
  obtain ⟨source, -, h⟩ := bind_eq_ok.mp h
  obtain ⟨settlement, -, h⟩ := bind_eq_ok.mp h
  dsimp only at h
  split at h
  · cases h
    exact .inl rfl
  · next row hrow =>
      split_ifs at h with hsettled hdelivered
      · cases h
        exact .inl rfl
      · cases h
        exact .inl rfl
      · obtain ⟨s₁, hwrite, h⟩ := bind_eq_ok.mp h
        obtain ⟨s₂, hprojections, h⟩ := bind_eq_ok.mp h
        cases h
        obtain ⟨items, hitems, rfl⟩ := Store.writeItems_eq_ok.mp hwrite
        have hmem := List.mem_of_find?_eq_some hrow
        have hfound := List.find?_some hrow
        rw [Bool.and_eq_true, decide_eq_true_eq, decide_eq_true_eq] at hfound
        refine .inr ⟨row, hmem, not_not.mp hdelivered, items, settlement, ?_, hprojections⟩
        refine hitems.trans (List.map_congr_left fun i hi => ?_)
        by_cases hsame : i = row
        · subst hsame
          simp [hfound.1, hfound.2, not_not.mp hdelivered]
        · have hkey : ¬i.key = row.key := fun h => hsame (Store.item_ext hi hmem h)
          have href : ¬i.settlementRef = some settlement := fun h =>
            hsame (s.items_settlement.eq_of_key hi hmem h hfound.2)
          simp [hkey, href]

theorem Store.ack_moves {settlementRef : Json} {r : AckResult}
    (h : s.ack lib now sourceId settlementRef = .ok (r, t)) : s.ContentMove t .other := by
  rcases ack_eq_ok h with rfl | ⟨i, hi, hstatus, items, settlement, hitems, hprojections⟩
  · exact .same (.refl _)
  · have hcontent := appendProjections_content hprojections
    exact .acknowledged now i hi hstatus ((congrArg _ hcontent.items).trans hitems)
      hcontent.selections hcontent.members

/-! ### Calls -/

/-- The content calls. -/
inductive ContentCall where
  | submit (now : String) (sourceId batchId : Json) (items : List Json)
  | select (now hex : String) (itemRefs : List Json) (snapshotSeq : ℤ) (acceptedTurn : Json)
      (instant : Datetime)
  | transition (now : String) (token : Json) (action : String) (notBefore : Option Datetime)
      (settlementRef : Option Json) (selectedRefs : Option (List Json))
  | settle (now : String) (token settlement : Json)
  | expire (now : String) (itemRefs : List Json) (instant : Datetime)
  | ack (now : String) (sourceId settlementRef : Json)

/-- What a call answers. -/
inductive ContentAnswer where
  | submitted (receipt : SubmissionReceipt)
  | selected (r : SelectResult)
  | ended (r : TransitionResult)
  | expired (r : ExpireResult)
  | acknowledged (r : AckResult)

/-- A call. -/
def ContentCall.exec (lib : Stdlib) (s : Store) :
    ContentCall → Except PyError (ContentAnswer × Store)
  | .submit now sourceId batchId items =>
      (s.submit lib now sourceId batchId items).map (Prod.map .submitted id)
  | .select now hex itemRefs snapshotSeq acceptedTurn instant =>
      (s.selectBatch lib now hex itemRefs snapshotSeq acceptedTurn instant).map
        (Prod.map .selected id)
  | .transition now token action notBefore settlementRef selectedRefs =>
      (s.transition lib now token action notBefore settlementRef selectedRefs).map
        (Prod.map .ended id)
  | .settle now token settlement =>
      (s.settleDelivery lib now token settlement).map (Prod.map .ended id)
  | .expire now itemRefs instant =>
      (s.expire lib now itemRefs instant).map (Prod.map .expired id)
  | .ack now sourceId settlementRef =>
      (s.ack lib now sourceId settlementRef).map (Prod.map .acknowledged id)

/-- The store after a call: a call that raises is rolled back. -/
def ContentCall.after (lib : Stdlib) (s : Store) (call : ContentCall) : Store :=
  match call.exec lib s with
  | .ok (_, t) => t
  | .error _ => s

/-- The selection a call names. -/
def ContentCall.token? : ContentCall → Option String
  | .transition _ (.str token) _ _ _ _ | .settle _ (.str token) _ => some token
  | _ => none

theorem ContentCall.after_eq {call : ContentCall} {answer : ContentAnswer}
    (h : call.exec lib s = .ok (answer, t)) : call.after lib s = t := by
  rw [ContentCall.after, h]

/-- A call makes the move it asks for. -/
def ContentCall.AsksFor (call : ContentCall) : ContentLabel → Prop
  | .selection token => call.token? = some token
  | .expiry refs => ∃ now itemRefs instant, call = .expire now itemRefs instant ∧
      itemRefs.mapM normalizeRef = .ok refs
  | .other => True

/-- **A call makes one of the moves**, about the selection or the references it names. -/
theorem ContentCall.moves (lib : Stdlib) (s : Store) (call : ContentCall) :
    ∃ label, s.ContentMove (call.after lib s) label ∧ call.AsksFor label := by
  cases hexec : call.exec lib s with
  | error e =>
      rw [ContentCall.after, hexec]
      exact ⟨.other, .same (.refl _), trivial⟩
  | ok r =>
      obtain ⟨answer, t⟩ := r
      rw [ContentCall.after_eq hexec]
      cases call with
      | submit now sourceId batchId items =>
          obtain ⟨_, h, heq⟩ := map_eq_ok.mp hexec
          cases heq
          exact ⟨.other, Store.submit_moves h, trivial⟩
      | select now hex itemRefs snapshotSeq acceptedTurn instant =>
          obtain ⟨_, h, heq⟩ := map_eq_ok.mp hexec
          cases heq
          exact ⟨.other, Store.selectBatch_moves h, trivial⟩
      | transition now token action notBefore settlementRef selectedRefs =>
          obtain ⟨_, h, heq⟩ := map_eq_ok.mp hexec
          cases heq
          rcases Store.transition_moves h with rfl | ⟨text, htoken, hmove⟩
          · exact ⟨.other, .same (.refl _), trivial⟩
          · obtain ⟨hstr, -⟩ := identity_eq_ok htoken
            cases hstr
            exact ⟨.selection text, hmove, rfl⟩
      | settle now token settlement =>
          obtain ⟨_, h, heq⟩ := map_eq_ok.mp hexec
          cases heq
          rcases Store.settleDelivery_moves h with rfl | ⟨text, htoken, hmove⟩
          · exact ⟨.other, .same (.refl _), trivial⟩
          · obtain ⟨hstr, -⟩ := identity_eq_ok htoken
            cases hstr
            exact ⟨.selection text, hmove, rfl⟩
      | expire now itemRefs instant =>
          obtain ⟨_, h, heq⟩ := map_eq_ok.mp hexec
          cases heq
          obtain ⟨refs, text, hrefs, hitems, hselections, hmembers⟩ := Store.expire_moves h
          exact ⟨.expiry refs, .expired refs text hitems hselections hmembers,
            _, _, _, rfl, hrefs⟩
      | ack now sourceId settlementRef =>
          obtain ⟨_, h, heq⟩ := map_eq_ok.mp hexec
          cases heq
          exact ⟨.other, Store.ack_moves h, trivial⟩

end Kirakira.EventMail
