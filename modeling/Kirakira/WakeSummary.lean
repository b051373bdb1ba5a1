import Kirakira.MailRecovery

/-!
# The Wake Summary of the Event Mail

`content_state` carries a summary of the content for a scheduler: whether there is anything to
wake for, and the earliest `not_before`. `_recompute_wake` makes it from the statuses of the
rows. `snapshot` and `select_batch` also exclude what a live selection claims, and a claim
changes the status of its driver only, so the other items of a batch stay in the summary.

## Main results

* `Store.wakeAgrees_iff` — the summary of a state is that of its candidates exactly when every
  waiting item that is claimed has a candidate that is due no later.
* `wakes_hold` — it is so in every reachable state, and in every run whose claims are of their
  drivers alone the summary is always that of the candidates.
* `wakes_claimed` — a batch of two leaves nothing to select and a summary that asks to wake.
-/

namespace Kirakira.EventMail

open Exceptions

variable {lib : Stdlib} {now : String} {s t : Store}

/-! ### The snapshot -/

/-- `ContentSnapshotItem`; the payload stands as the text that `json.loads` reads. -/
structure ContentSnapshotItem where
  ref : ContentRef
  payloadJson : String
  snapshotSeq : ℕ
  status : ItemStatus
  notBefore : String
  observedAt : String
  due : Bool
  deriving DecidableEq

/-- `ContentSnapshot`. -/
structure ContentSnapshot where
  snapshotSeq : ℕ
  stateVersion : ℕ
  wakeNeeded : Bool
  earliestNotBefore : Option String
  items : List ContentSnapshotItem
  deriving DecidableEq

/-- The item of a row. -/
def Item.snapshot (instant : String) (i : Item) : ContentSnapshotItem where
  ref := ⟨i.key, i.itemStateVersion⟩
  payloadJson := i.payloadJson
  snapshotSeq := i.snapshotSeq
  status := i.status
  notBefore := i.notBefore
  observedAt := i.createdAt
  due := i.notBefore ≤ instant

/-- The rows `snapshot` selects. -/
def Store.eligible (s : Store) : List Item :=
  (s.items.rows.filter fun i =>
    i.snapshotSeq ≤ s.contentState.nextSeq && i.status.isWaiting
      && !s.isClaimed i.key).insertionSort fun i j => i.snapshotSeq ≤ j.snapshotSeq

/-- `EventMailStore.snapshot`. -/
def Store.snapshot (instant : Datetime) (s : Store) : Except PyError ContentSnapshot := do
  let instant ← awareUtc instant
  return ⟨s.contentState.nextSeq, s.contentState.stateVersion, s.contentState.wakeNeeded,
    s.contentState.earliestNotBefore, s.eligible.map (Item.snapshot instant)⟩

/-- The summary of a snapshot is that of its items. -/
structure ContentSnapshot.Agrees (r : ContentSnapshot) : Prop where
  needed : r.wakeNeeded = true ↔ r.items ≠ []
  earliest : ∀ text, r.earliestNotBefore = some text ↔
    text ∈ r.items.map ContentSnapshotItem.notBefore ∧
      ∀ t ∈ r.items.map ContentSnapshotItem.notBefore, text ≤ t

/-- The summary of a store is that of its candidates, at any time. -/
def Store.WakeAgrees (s : Store) : Prop :=
  ∀ instant r, s.snapshot instant = .ok r → r.Agrees

/-! ### The summary of a state -/

theorem foldl_earliest (texts : List String) (best : String) :
    texts.foldl (fun best t => some (best.elim t (min t))) (some best)
      = some (texts.foldl min best) := by
  induction texts generalizing best with
  | nil => rfl
  | cons t texts ih =>
      rw [List.foldl_cons, List.foldl_cons, min_comm best t]
      exact ih (min t best)

theorem earliestWaiting_eq_min? (rows : List Item) :
    earliestWaiting rows
      = ((rows.filter fun i => i.status.isWaiting).map Item.notBefore).min? := by
  rw [earliestWaiting]
  cases (rows.filter fun i => i.status.isWaiting).map Item.notBefore with
  | nil => rfl
  | cons t texts => exact foldl_earliest texts t

theorem earliestWaiting_eq_some {rows : List Item} {text : String} :
    earliestWaiting rows = some text ↔
      (∃ i ∈ rows, i.status.isWaiting = true ∧ i.notBefore = text) ∧
        ∀ i ∈ rows, i.status.isWaiting = true → text ≤ i.notBefore := by
  rw [earliestWaiting_eq_min?, List.min?_eq_some_iff]
  simp only [List.mem_map, List.mem_filter, and_assoc]
  refine and_congr_right fun _ => ⟨fun h i hi hwaiting => h _ ⟨i, hi, hwaiting, rfl⟩, ?_⟩
  rintro h _ ⟨i, hi, hwaiting, rfl⟩
  exact h i hi hwaiting

theorem earliestWaiting_isSome {rows : List Item} :
    (earliestWaiting rows).isSome = true ↔ ∃ i ∈ rows, i.status.isWaiting = true := by
  rw [earliestWaiting_eq_min?, List.isSome_min?_iff, Ne, List.map_eq_nil_iff,
    List.filter_eq_nil_iff]
  push Not
  rfl

/-- The numbers of the items are those that were given out. -/
def Store.Bounded (s : Store) : Prop :=
  ∀ i ∈ s.items.rows, i.snapshotSeq ≤ s.contentState.nextSeq

theorem Store.Bounded.mem_eligible (hs : s.Bounded) {i : Item} :
    i ∈ s.eligible ↔ i ∈ s.items.rows ∧ i.status.isWaiting = true ∧ s.isClaimed i.key = false := by
  rw [Store.eligible, List.mem_insertionSort, List.mem_filter]
  simp only [Bool.and_eq_true, decide_eq_true_eq, Bool.not_eq_true', and_assoc]
  exact and_congr_right fun hi => and_iff_right (hs i hi)

/-- Every waiting item that is claimed has a candidate that is due no later. -/
def Store.Covered (s : Store) : Prop :=
  ∀ i ∈ s.items.rows, i.status.isWaiting = true → s.isClaimed i.key = true →
    ∃ j ∈ s.items.rows, j.status.isWaiting = true ∧ s.isClaimed j.key = false ∧
      j.notBefore ≤ i.notBefore

theorem Store.Covered.candidate (h : s.Covered) (hs : s.Bounded) {i : Item}
    (hi : i ∈ s.items.rows) (hwaiting : i.status.isWaiting = true) :
    ∃ j ∈ s.eligible, j.notBefore ≤ i.notBefore := by
  cases hclaimed : s.isClaimed i.key with
  | false => exact ⟨i, hs.mem_eligible.mpr ⟨hi, hwaiting, hclaimed⟩, le_rfl⟩
  | true =>
      obtain ⟨j, hj, hjwaiting, hfree, hle⟩ := h i hi hwaiting hclaimed
      exact ⟨j, hs.mem_eligible.mpr ⟨hj, hjwaiting, hfree⟩, hle⟩

theorem Store.wakeAgrees_def : s.WakeAgrees ↔
    (s.contentState.wakeNeeded = true ↔ s.eligible ≠ []) ∧
      ∀ text, s.contentState.earliestNotBefore = some text ↔
        text ∈ s.eligible.map Item.notBefore ∧ ∀ t ∈ s.eligible.map Item.notBefore, text ≤ t := by
  have htimes : ∀ text, (s.eligible.map (Item.snapshot text)).map ContentSnapshotItem.notBefore
      = s.eligible.map Item.notBefore := fun text => by
    rw [List.map_map]
    rfl
  constructor
  · intro h
    obtain ⟨hneeded, hearliest⟩ := h ⟨0, some 0⟩ _ rfl
    rw [Ne, List.map_eq_nil_iff] at hneeded
    rw [htimes] at hearliest
    exact ⟨hneeded, hearliest⟩
  · rintro ⟨hneeded, hearliest⟩ instant r hr
    obtain ⟨text, -, hr⟩ := bind_eq_ok.mp hr
    cases hr
    refine ⟨?_, ?_⟩
    · rwa [Ne, List.map_eq_nil_iff]
    · rw [htimes]
      exact hearliest

/-- **The summary is that of the candidates exactly when every claimed item is covered.** -/
theorem Store.wakeAgrees_iff (hawake : s.Awake) (hs : s.Bounded) : s.WakeAgrees ↔ s.Covered := by
  have hstate := congrArg Store.contentState hawake
  have hneeded : (earliestWaiting s.items.rows).isSome = s.contentState.wakeNeeded :=
    congrArg ContentState.wakeNeeded hstate
  have hearliest : earliestWaiting s.items.rows = s.contentState.earliestNotBefore :=
    congrArg ContentState.earliestNotBefore hstate
  rw [Store.wakeAgrees_def, ← hneeded, ← hearliest]
  constructor
  · rintro ⟨-, hleast⟩ i hi hwaiting -
    obtain ⟨text, htext⟩ := Option.isSome_iff_exists.mp
      (earliestWaiting_isSome.mpr ⟨i, hi, hwaiting⟩)
    obtain ⟨j, hj, rfl⟩ := List.mem_map.mp ((hleast text).mp htext).1
    obtain ⟨hj, hjwaiting, hfree⟩ := hs.mem_eligible.mp hj
    exact ⟨j, hj, hjwaiting, hfree, (earliestWaiting_eq_some.mp htext).2 i hi hwaiting⟩
  · intro h
    refine ⟨?_, fun text => ?_⟩
    · rw [earliestWaiting_isSome]
      constructor
      · rintro ⟨i, hi, hwaiting⟩
        obtain ⟨j, hj, -⟩ := h.candidate hs hi hwaiting
        exact List.ne_nil_of_mem hj
      · intro hne
        obtain ⟨j, hj⟩ := List.exists_mem_of_ne_nil _ hne
        obtain ⟨hj, hwaiting, -⟩ := hs.mem_eligible.mp hj
        exact ⟨j, hj, hwaiting⟩
    · rw [earliestWaiting_eq_some]
      constructor
      · rintro ⟨⟨i, hi, hwaiting, rfl⟩, hle⟩
        have hall : ∀ j ∈ s.eligible, i.notBefore ≤ j.notBefore := fun j hj =>
          hle j (hs.mem_eligible.mp hj).1 (hs.mem_eligible.mp hj).2.1
        -- The candidate that covers the earliest item is as early.
        obtain ⟨j, hj, hji⟩ := h.candidate hs hi hwaiting
        refine ⟨List.mem_map.mpr ⟨j, hj, le_antisymm hji (hall j hj)⟩, ?_⟩
        rwa [List.forall_mem_map]
      · rintro ⟨hmem, hle⟩
        obtain ⟨j, hj, rfl⟩ := List.mem_map.mp hmem
        obtain ⟨hrow, hwaiting, -⟩ := hs.mem_eligible.mp hj
        refine ⟨⟨j, hrow, hwaiting, rfl⟩, fun i hi hiwaiting => ?_⟩
        obtain ⟨k, hk, hki⟩ := h.candidate hs hi hiwaiting
        exact (hle _ (List.mem_map_of_mem hk)).trans hki

/-! ### Numbers -/

/-- The numbers of the items of a batch are given out. -/
theorem Store.appendItems_bounded {source : String} {items : List NormalizedItem} {seq : ℕ}
    {inserted duplicates : List ItemKey}
    (h : s.appendItems lib now source items seq = .ok (inserted, duplicates, t)) :
    t.contentState = s.contentState ∧
      ∀ i ∈ t.items.rows, i ∈ s.items.rows ∨ i.snapshotSeq ≤ seq + inserted.length := by
  induction items generalizing s seq inserted duplicates with
  | nil =>
      cases h
      exact ⟨rfl, fun i hi => .inl hi⟩
  | cons item items ih =>
      rw [Store.appendItems] at h
      split at h
      · split_ifs at h
        · obtain ⟨⟨inserted', duplicates', s₁⟩, hrest, h⟩ := bind_eq_ok.mp h
          cases h
          exact ih hrest
        · cases h
      · obtain ⟨s₁, hinsert, h⟩ := bind_eq_ok.mp h
        obtain ⟨⟨inserted', duplicates', s₂⟩, hrest, h⟩ := bind_eq_ok.mp h
        cases h
        obtain ⟨hstate, hbound⟩ := ih hrest
        obtain ⟨-, hsame, -⟩ := insertItem_notes hinsert
        obtain ⟨hitems, -, -⟩ := insertItem_eq_ok hinsert
        refine ⟨hstate.trans hsame, fun i hi => ?_⟩
        rw [List.length_cons]
        rcases hbound i hi with hi | hi
        · rw [hitems] at hi
          rcases List.mem_append.mp hi with hi | hi
          · exact .inl hi
          · rw [List.mem_singleton.mp hi]
            exact .inr (by simp [NormalizedItem.row])
        · exact .inr (by omega)

theorem Store.Bounded.submit (hs : s.Bounded) {sourceId batchId : Json} {items : List Json}
    {r : SubmissionReceipt} (h : s.submit lib now sourceId batchId items = .ok (r, t)) :
    t.Bounded := by
  obtain ⟨source, batch, normalized, -, -, -, ⟨b, -, -, -, -, rfl⟩ |
    ⟨-, s₁, s₂, submissions, happend, hprojections, -, rfl⟩⟩ := submit_steps h
  · exact hs
  · obtain ⟨hstate, hbound⟩ := appendItems_bounded happend
    have hrest := appendProjections_rest hprojections
    have hnext : s₂.contentState.nextSeq = s.contentState.nextSeq + r.inserted.length := by
      rw [hrest, Store.recomputeWake, Store.advance, ← hstate]
      split_ifs with hnone
      · rw [hnone]
        rfl
      · rfl
    have hitems : s₂.items = s₁.items :=
      ((advance_content _ s₁).trans (recomputeWake_content _)).trans
        (appendProjections_content hprojections) |>.items
    intro i hi
    change i.snapshotSeq ≤ s₂.contentState.nextSeq
    rw [hnext]
    rcases hbound i (hitems ▸ hi) with hold | hnew
    · exact (hs i hold).trans (Nat.le_add_right _ _)
    · exact hnew

theorem Store.Bounded.works (hs : s.Bounded) (h : s.Works t) : t.Bounded := by
  obtain ⟨f, hf, hitems⟩ := h.items
  intro i hi
  rw [hitems] at hi
  obtain ⟨j, hj, rfl⟩ := List.mem_map.mp hi
  have hseq : (f j).snapshotSeq = j.snapshotSeq := by
    have hfixed := (hf j).1
    simp only [Item.fixed, Prod.mk.injEq] at hfixed
    exact hfixed.2.2.1
  rw [hseq, h.nextSeq]
  exact hs j hj

theorem Store.Bounded.aside (hs : s.Bounded) (h : s.Aside t) : t.Bounded := by
  intro i hi
  rw [h.tables.items] at hi
  rw [h.tables.state]
  exact hs i hi

theorem Store.Bounded.rebuilt (hs : s.Bounded) (h : s.SameRows t) : t.Bounded := by
  intro i hi
  rw [h.rest]
  exact hs i (h.items.mem_iff.mp hi)

/-- **The numbers of the items are given out** after every call. -/
theorem MailCall.bounded (call : MailCall) (hs : s.Bounded) (hrecorded : s.Recorded)
    (hsound : s.ContentSound) : (call.after lib s).Bounded := by
  cases call with
  | alert call => exact hs.aside (call.aside _ s)
  | context now sourceId eventId payload observedAt expiresAt =>
      rw [MailCall.after]
      split
      · next hcall => exact hs.aside (Store.reportContext_aside hcall)
      · exact hs
  | content call =>
      by_cases hsubmit : ∀ now sourceId batchId items, call ≠ .submit now sourceId batchId items
      · exact hs.works (ContentCall.works lib s hsubmit)
      · push Not at hsubmit
        obtain ⟨now, sourceId, batchId, items, rfl⟩ := hsubmit
        rw [MailCall.after, ContentCall.after]
        split
        · next answer t hexec =>
            obtain ⟨⟨r, t'⟩, hcall, heq⟩ := map_eq_ok.mp hexec
            cases heq
            exact hs.submit hcall
        · exact hs
  | rebuild =>
      rw [MailCall.after]
      split
      · next hcall =>
          obtain ⟨u, hsame, haside⟩ :=
            Store.rebuildMailProjections_content hrecorded hsound hcall
          exact (hs.rebuilt hsame).aside haside
      · exact hs

/-! ### Claims of one item -/

/-- Every member of a selection is its driver. -/
def Store.Single (s : Store) : Prop :=
  ∀ m ∈ s.contentSelectionMembers.rows, ∀ c ∈ s.contentSelections.rows, c.token = m.token →
    m.item = c.driver

/-- `select_batch` claims no more than its driver: the call names one item, or its turn has a
selection already, or some item it names is no candidate. -/
def ContentCall.ClaimsDriver (s : Store) : ContentCall → Prop
  | .select _ _ itemRefs snapshotSeq acceptedTurn instant =>
      itemRefs.length ≤ 1 ∨ ∀ refs turn text, itemRefs.mapM normalizeRef = .ok refs →
        normalizeAcceptedTurn acceptedTurn = .ok turn → awareUtc instant = .ok text →
        (s.contentSelections.rows.any fun c => c.acceptedTurn = turn) = true ∨
          s.candidates refs snapshotSeq.toNat text = none
  | _ => True

/-- A call claims no more than a driver. -/
def MailCall.ClaimsDriver (s : Store) : MailCall → Prop
  | .content call => call.ClaimsDriver s
  | _ => True

theorem Store.Single.congr (hs : s.Single) (hselections : t.contentSelections = s.contentSelections)
    (hmembers : t.contentSelectionMembers = s.contentSelectionMembers) : t.Single := by
  rw [Store.Single, hselections, hmembers]
  exact hs

theorem Store.Single.moved (hs : s.Single) (hsound : s.ContentSound) {token : String}
    (h : s.ContentMove t (.selection token)) : t.Single := by
  obtain ⟨c, hc, -, c', f, g, htouches, -⟩ := h.changesBy hsound
  intro m hm d hd htoken
  rw [htouches.members] at hm
  rw [htouches.selections] at hd
  obtain ⟨m, hmem, rfl⟩ := List.mem_map.mp hm
  obtain ⟨d, hold, rfl⟩ := List.mem_map.mp hd
  obtain ⟨hmtoken, hmitem⟩ := htouches.member m
  rw [hmtoken] at htoken
  rw [hmitem]
  split_ifs at htoken ⊢ with hsame
  · rw [htouches.driver]
    exact hs m hmem c hc (htouches.token.symm.trans htoken)
  · exact hs m hmem d hold htoken

theorem Store.Single.claims (hs : s.Single) (hsound : s.ContentSound) {c : Selection}
    {keys : List ItemKey} (h : s.ClaimsBatch lib now t c keys) (hkeys : keys.length ≤ 1) :
    t.Single := by
  obtain ⟨-, hdriver, -, -, items, selections, members, -, hselections, hmembers,
    hprojections⟩ := h
  have hcontent := ((logEach_content lib now .selected (.claim c.token c.acceptedTurn) keys
    _).trans (bumpVersion_content _)).trans
    ((recomputeWake_content _).trans (appendProjections_content hprojections))
  have htselections : t.contentSelections.rows = s.contentSelections.rows ++ [c] :=
    (congrArg _ hcontent.selections).trans hselections
  have hfresh := Store.fresh_of_append htselections
  intro m hm d hd htoken
  rw [htselections, List.mem_append, List.mem_singleton] at hd
  rw [(congrArg _ hcontent.members).trans hmembers, List.mem_append] at hm
  rcases hm with hm | hm
  · obtain ⟨d', hd', htoken'⟩ := hsound.selection m hm
    rcases hd with hd | rfl
    · exact hs m hm d hd htoken
    · exact absurd (htoken'.trans htoken.symm) (hfresh d' hd')
  · obtain ⟨hmtoken, hitem, -, -⟩ := mem_newMembers hm
    rcases hd with hd | rfl
    · exact absurd (htoken.trans hmtoken) (hfresh d hd)
    · obtain ⟨key, rfl⟩ : ∃ key, keys = [key] := by
        refine List.length_eq_one_iff.mp ?_
        have := List.length_pos_of_mem hdriver
        omega
      rw [List.mem_singleton.mp hitem, List.mem_singleton.mp hdriver]

theorem Store.Single.submit (hs : s.Single) {sourceId batchId : Json} {items : List Json}
    {r : SubmissionReceipt} (h : s.submit lib now sourceId batchId items = .ok (r, t)) :
    t.Single := by
  obtain ⟨source, batch, normalized, -, -, -, ⟨b, -, -, -, -, rfl⟩ |
    ⟨-, s₁, s₂, submissions, happend, hprojections, -, rfl⟩⟩ := submit_steps h
  · exact hs
  · obtain ⟨-, -, -, -, hselections, hmembers⟩ := appendItems_eq_ok happend
    have hcontent := ((advance_content _ s₁).trans (recomputeWake_content _)).trans
      (appendProjections_content hprojections)
    exact hs.congr (hcontent.selections.trans hselections) (hcontent.members.trans hmembers)

theorem Store.Single.select (hs : s.Single) (hsound : s.ContentSound) {hex : String}
    {itemRefs : List Json} {snapshotSeq : ℤ} {acceptedTurn : Json} {instant : Datetime}
    {r : SelectResult}
    (hcall : (ContentCall.select now hex itemRefs snapshotSeq acceptedTurn instant).ClaimsDriver s)
    (h : s.selectBatch lib now hex itemRefs snapshotSeq acceptedTurn instant = .ok (r, t)) :
    t.Single := by
  rcases Store.selectBatch_steps h with rfl | ⟨refs, turn, text, candidates, hrefs, hturn, htext,
    hfresh, hcandidates, c, -, hclaims⟩
  · exact hs
  · rcases hcall with hone | hnone
    · refine hs.claims hsound hclaims ?_
      rw [(Store.candidates_eq_some hcandidates).1, List.length_map,
        ← (mapM_eq_ok_iff.mp hrefs).length_eq]
      exact hone
    · rcases hnone refs turn text hrefs hturn htext with hold | hchanged
      · rw [hfresh] at hold
        cases hold
      · rw [hcandidates] at hchanged
        cases hchanged

/-- **Every member stays a driver** after a content call that claims no more. -/
theorem ContentCall.single (call : ContentCall) (hcall : call.ClaimsDriver s) (hs : s.Single)
    (hsound : s.ContentSound) : (call.after lib s).Single := by
  rw [ContentCall.after]
  split
  · next answer t hexec =>
      cases call with
      | submit now sourceId batchId items =>
          obtain ⟨⟨r, t'⟩, h, heq⟩ := map_eq_ok.mp hexec
          cases heq
          exact hs.submit h
      | select now hex itemRefs snapshotSeq acceptedTurn instant =>
          obtain ⟨⟨r, t'⟩, h, heq⟩ := map_eq_ok.mp hexec
          cases heq
          exact hs.select hsound hcall h
      | transition now token action notBefore settlementRef selectedRefs =>
          obtain ⟨⟨r, t'⟩, h, heq⟩ := map_eq_ok.mp hexec
          cases heq
          rcases Store.transition_moves h with rfl | ⟨text, -, hmove⟩
          · exact hs
          · exact hs.moved hsound hmove
      | settle now token settlement =>
          obtain ⟨⟨r, t'⟩, h, heq⟩ := map_eq_ok.mp hexec
          cases heq
          rcases Store.settleDelivery_moves h with rfl | ⟨text, -, hmove⟩
          · exact hs
          · exact hs.moved hsound hmove
      | expire now itemRefs instant =>
          obtain ⟨⟨r, t'⟩, h, heq⟩ := map_eq_ok.mp hexec
          cases heq
          obtain ⟨refs, text, -, -, hselections, hmembers⟩ := Store.expire_moves h
          exact hs.congr hselections hmembers
      | ack now sourceId settlementRef =>
          obtain ⟨⟨r, t'⟩, h, heq⟩ := map_eq_ok.mp hexec
          cases heq
          rcases Store.ack_eq_ok h with rfl | ⟨i, -, -, items, settlement, -, hprojections⟩
          · exact hs
          · have hcontent := Store.appendProjections_content hprojections
            exact hs.congr hcontent.selections hcontent.members
  · exact hs

theorem MailCall.single (call : MailCall) (hcall : call.ClaimsDriver s) (hs : s.Single)
    (hrecorded : s.Recorded) (hsound : s.ContentSound) : (call.after lib s).Single := by
  cases call with
  | alert call =>
      have haside := call.aside lib.digest s
      exact hs.congr haside.tables.selections haside.tables.members
  | context now sourceId eventId payload observedAt expiresAt =>
      rw [MailCall.after]
      split
      · next hcall =>
          have haside := Store.reportContext_aside hcall
          exact hs.congr haside.tables.selections haside.tables.members
      · exact hs
  | content call => exact call.single hcall hs hsound
  | rebuild =>
      rw [MailCall.after]
      split
      · next hcall =>
          obtain ⟨u, hsame, haside⟩ :=
            Store.rebuildMailProjections_content hrecorded hsound hcall
          have hu : u.Single := fun m hm c hc =>
            hs m (hsame.members.mem_iff.mp hm) c (hsame.selections.mem_iff.mp hc)
          exact hu.congr haside.tables.selections haside.tables.members
      · exact hs

theorem Store.Single.covered (hs : s.Single) (hsound : s.ContentSound) : s.Covered := by
  intro i hi hwaiting hclaimed
  obtain ⟨c, hc, m, hm, hitem, hclaim⟩ := Store.isClaimed_iff.mp hclaimed
  have hdriver : i.key = c.driver := by
    rw [← hitem]
    exact hs m hm c hc (Member.isClaimedBy_iff.mp hclaim).1.symm
  have hkeeps := hsound.keeps c hc i hi ⟨m, hm, hitem, hclaim⟩
  rw [Selection.Keeps, if_pos hdriver] at hkeeps
  rw [hkeeps.2] at hwaiting
  split_ifs at hwaiting <;> cases hwaiting

/-! ### The summary over every run -/

/-- **The numbers of the items are given out in every reachable state.** -/
theorem bounded_of_reachable (h : (mailRuns lib).ReachableVia (MailCall.Apart lib) s) :
    s.Bounded := by
  have hinv : s.Bounded ∧ s.Recorded ∧ s.ContentSound := by
    refine h.invariant (I := fun s => s.Bounded ∧ s.Recorded ∧ s.ContentSound) ?_ ?_
    · rintro s rfl
      exact ⟨(fun i hi => by cases hi), Store.recorded_empty, Store.contentSound_empty⟩
    · rintro s call t ⟨hs, hrecorded, hsound⟩ hapart rfl
      exact ⟨call.bounded hs hrecorded hsound, call.recorded hapart hrecorded hsound⟩
  exact hinv.1

/-- **The wake summary**, over the runs without collisions of digests: in a state it is that of the
candidates exactly when every waiting item that is claimed is covered by a candidate, and in a
run whose claims are of their drivers alone it always is. -/
structure WakeSummaries (lib : Stdlib) : Prop where
  agrees_iff : ∀ s, (mailRuns lib).ReachableVia (MailCall.Apart lib) s →
    (s.WakeAgrees ↔ s.Covered)
  agrees : ∀ s, (mailRuns lib).ReachableVia
      (fun s call => call.Apart lib s ∧ call.ClaimsDriver s) s → s.WakeAgrees

/-- **The wake summary is that of the candidates where claims are of their drivers alone.** -/
theorem wakes_hold (lib : Stdlib) : WakeSummaries lib where
  agrees_iff s h := Store.wakeAgrees_iff (recorded_of_reachable h).1.awake (bounded_of_reachable h)
  agrees s h := by
    have hapart : (mailRuns lib).ReachableVia (MailCall.Apart lib) s :=
      h.weaken fun _ _ hguard => hguard.1
    obtain ⟨hrecorded, hsound⟩ := recorded_of_reachable hapart
    have hinv : s.Single ∧ s.Recorded ∧ s.ContentSound := by
      refine h.invariant (I := fun s => s.Single ∧ s.Recorded ∧ s.ContentSound) ?_ ?_
      · rintro s rfl
        exact ⟨(fun m hm => by cases hm), Store.recorded_empty, Store.contentSound_empty⟩
      · rintro s call t ⟨hs, hrecorded, hsound⟩ ⟨hapart, hcall⟩ rfl
        exact ⟨call.single hcall hs hrecorded hsound, call.recorded hapart hrecorded hsound⟩
    exact (Store.wakeAgrees_iff hrecorded.awake (bounded_of_reachable hapart)).mpr
      (hinv.1.covered hsound)

/-- **A summary that asks to wake with nothing to select**: the two items of `claimingCalls` are
claimed together, and the second one waits on in its row. -/
theorem wakes_claimed : ¬∀ (lib : Stdlib) s, (mailRuns lib).Reachable s → s.WakeAgrees := by
  intro h
  let calls : List MailCall := claimingCalls.map .content
  have hagrees := h plainStdlib (runMail plainStdlib calls) (reachable_runMail _ _)
  rw [Store.wakeAgrees_def] at hagrees
  exact hagrees.1.mp (by decide) (by decide)

end Kirakira.EventMail
