import Kirakira.MailReplay
import Kirakira.MailSettlement

/-!
# Recovering the Projections

`rebuild_mail_projections` drops every projection and makes them again from the log of
transitions and the envelopes. Over the calls whose transitions are new to the log it makes
what was there: the content from its facts, the alerts and contexts from their newest
envelopes.

## Main results

* `Store.Works` — what a content call that submits nothing may change.
* `Store.Beside` — the content calls leave the alerts, the contexts and their logs alone.
* `MailCall.Fresh` — the transitions a call logs are new to the log.
* `recoveries_hold` — **over such calls a rebuild leaves every projection as it was**.
* `recoveries_repeated` — an alert that a turn claims again is rebuilt as it was deferred.
-/

namespace Kirakira.EventMail

open Exceptions

variable {lib : Stdlib} {digest : Detail → String} {now : String} {s t : Store}

/-! ### Content calls -/

/-- The alerts, the contexts and their logs are untouched: what is new belongs to items. -/
structure Store.Beside (s t : Store) : Prop where
  alerts : t.alertProjection = s.alertProjection
  contexts : t.contextProjection = s.contextProjection
  envelopes : ∃ new, t.mailEnvelopes.rows = s.mailEnvelopes.rows ++ new ∧
    ∀ e ∈ new, e.kind = .content ∧ e.Named
  log : ∃ more, t.mailTransitions = s.mailTransitions ++ more ∧
    ∀ x ∈ more, ∃ key : ItemKey, x.mailId = key.mailId

theorem Store.beside_of_eq (halerts : t.alertProjection = s.alertProjection)
    (hcontexts : t.contextProjection = s.contextProjection)
    (henvelopes : t.mailEnvelopes = s.mailEnvelopes) (hlog : t.mailTransitions = s.mailTransitions) :
    s.Beside t :=
  ⟨halerts, hcontexts, ⟨[], by rw [henvelopes, List.append_nil], by simp⟩,
    ⟨[], by rw [hlog, List.append_nil], by simp⟩⟩

theorem Store.Beside.refl (s : Store) : s.Beside s :=
  beside_of_eq rfl rfl rfl rfl

theorem Store.Beside.trans {u : Store} (h : s.Beside t) (h' : t.Beside u) : s.Beside u := by
  obtain ⟨new, henvelopes, hnew⟩ := h.envelopes
  obtain ⟨new', henvelopes', hnew'⟩ := h'.envelopes
  obtain ⟨more, hlog, hmore⟩ := h.log
  obtain ⟨more', hlog', hmore'⟩ := h'.log
  refine ⟨h'.alerts.trans h.alerts, h'.contexts.trans h.contexts,
    ⟨new ++ new', by rw [henvelopes', henvelopes, List.append_assoc], fun e he => ?_⟩,
    ⟨more ++ more', by rw [hlog', hlog, List.append_assoc], fun x hx => ?_⟩⟩
  · exact (List.mem_append.mp he).elim (hnew e) (hnew' e)
  · exact (List.mem_append.mp hx).elim (hmore x) (hmore' x)

/-- What no call changes of an item. -/
def Item.fixed (i : Item) : ItemKey × String × ℕ × Bool :=
  (i.key, i.payloadJson, i.snapshotSeq, i.requiresAck)

/-- An item over time: only under a new version is it due at another time. -/
def Item.Keeps (i j : Item) : Prop :=
  j.fixed = i.fixed ∧ (i.itemStateVersion < j.itemStateVersion ∨
    i.itemStateVersion = j.itemStateVersion ∧ i.notBefore = j.notBefore)

theorem Item.Keeps.refl (i : Item) : i.Keeps i :=
  ⟨rfl, .inr ⟨rfl, rfl⟩⟩

theorem Item.Keeps.trans {i j k : Item} (h : i.Keeps j) (h' : j.Keeps k) : i.Keeps k := by
  refine ⟨h'.1.trans h.1, ?_⟩
  rcases h.2 with hlt | ⟨heq, htime⟩
  · rcases h'.2 with hlt' | ⟨heq', -⟩
    · exact .inl (hlt.trans hlt')
    · exact .inl (hlt.trans_eq heq')
  · rcases h'.2 with hlt' | ⟨heq', htime'⟩
    · exact .inl (heq.trans_lt hlt')
    · exact .inr ⟨heq.trans heq', htime.trans htime'⟩

/-- A content call that submits nothing: it changes rows of the items, the selections and their
members, the wake and the version of the content, and logs what belongs to items. -/
structure Store.Works (s t : Store) : Prop where
  alerts : t.alertProjection = s.alertProjection
  contexts : t.contextProjection = s.contextProjection
  items : ∃ f : Item → Item, (∀ i : Item, i.Keeps (f i)) ∧ t.items.rows = s.items.rows.map f
  envelopes : t.mailEnvelopes = s.mailEnvelopes
  submissions : t.submissions = s.submissions
  nextSeq : t.contentState.nextSeq = s.contentState.nextSeq
  log : ∃ more, t.mailTransitions = s.mailTransitions ++ more ∧
    ∀ x ∈ more, ∃ key : ItemKey, x.mailId = key.mailId

theorem Store.works_of_eq (halerts : t.alertProjection = s.alertProjection)
    (hcontexts : t.contextProjection = s.contextProjection) (hitems : t.items = s.items)
    (henvelopes : t.mailEnvelopes = s.mailEnvelopes) (hsubmissions : t.submissions = s.submissions)
    (hseq : t.contentState.nextSeq = s.contentState.nextSeq)
    (hlog : t.mailTransitions = s.mailTransitions) : s.Works t :=
  ⟨halerts, hcontexts, ⟨id, Item.Keeps.refl, by rw [hitems, List.map_id]⟩, henvelopes,
    hsubmissions, hseq, ⟨[], by rw [hlog, List.append_nil], by simp⟩⟩

theorem Store.Works.refl (s : Store) : s.Works s :=
  works_of_eq rfl rfl rfl rfl rfl rfl rfl

theorem Store.Works.trans {u : Store} (h : s.Works t) (h' : t.Works u) : s.Works u := by
  obtain ⟨f, hf, hitems⟩ := h.items
  obtain ⟨f', hf', hitems'⟩ := h'.items
  obtain ⟨more, hlog, hmore⟩ := h.log
  obtain ⟨more', hlog', hmore'⟩ := h'.log
  refine ⟨h'.alerts.trans h.alerts, h'.contexts.trans h.contexts,
    ⟨f' ∘ f, fun i => (hf i).trans (hf' (f i)), by rw [hitems', hitems, List.map_map]⟩,
    h'.envelopes.trans h.envelopes, h'.submissions.trans h.submissions,
    h'.nextSeq.trans h.nextSeq,
    ⟨more ++ more', by rw [hlog', hlog, List.append_assoc], fun x hx => ?_⟩⟩
  exact (List.mem_append.mp hx).elim (hmore x) (hmore' x)

theorem Store.Works.beside (h : s.Works t) : s.Beside t :=
  ⟨h.alerts, h.contexts, ⟨[], by rw [h.envelopes, List.append_nil], by simp⟩, h.log⟩

theorem Store.works_items {f : Item → Item} {p : Item → Bool} {items : Table.Rows itemIndexes}
    (hf : ∀ i, (f i).fixed = i.fixed ∧ (f i).itemStateVersion = i.itemStateVersion + 1)
    (hitems : items.rows = s.items.rows.map fun i => if p i then f i else i) :
    s.Works { s with items := items } := by
  refine ⟨rfl, rfl, ⟨_, fun i => ?_, hitems⟩, rfl, rfl, rfl,
    ⟨[], (List.append_nil _).symm, by simp⟩⟩
  split
  · exact ⟨(hf i).1, .inl (by rw [(hf i).2]; exact Nat.lt_succ_self _)⟩
  · exact .refl i

theorem Store.writeItems_works {f : Item → Item} {p : Item → Bool}
    (h : s.writeItems (Table.update p f s.items.rows) = .ok t)
    (hf : ∀ i, (f i).fixed = i.fixed ∧ (f i).itemStateVersion = i.itemStateVersion + 1) :
    s.Works t := by
  obtain ⟨items, hitems, rfl⟩ := Store.writeItems_eq_ok.mp h
  exact works_items hf hitems

theorem Store.writeSelections_works {rows : List Selection} (h : s.writeSelections rows = .ok t) :
    s.Works t := by
  obtain ⟨p, -, rfl⟩ := Store.writeSelections_eq_ok.mp h
  exact works_of_eq rfl rfl rfl rfl rfl rfl rfl

theorem Store.writeMembers_works {rows : List Member} (h : s.writeMembers rows = .ok t) :
    s.Works t := by
  obtain ⟨p, -, rfl⟩ := Store.writeMembers_eq_ok.mp h
  exact works_of_eq rfl rfl rfl rfl rfl rfl rfl

theorem Store.works_logContent (lib : Stdlib) (now : String) (key : ItemKey) (action : Action)
    (detail : Detail) (s : Store) : s.Works (s.logContent lib now key action detail) := by
  refine ⟨rfl, rfl, ⟨id, Item.Keeps.refl, (List.map_id _).symm⟩, rfl, rfl, rfl, ?_⟩
  rw [Store.logContent, Store.appendTransition, EventMail.appendTransition]
  split_ifs
  · exact ⟨[], (List.append_nil _).symm, by simp⟩
  · refine ⟨_, rfl, fun x hx => ⟨key, ?_⟩⟩
    rw [List.mem_singleton.mp hx]

theorem Store.works_logEach (lib : Stdlib) (now : String) (action : Action) (detail : Detail)
    (keys : List ItemKey) (s : Store) : s.Works (s.logEach lib now action detail keys) := by
  induction keys generalizing s with
  | nil => exact .refl s
  | cons key keys ih => exact (works_logContent lib now key action detail s).trans (ih _)

variable {keys : List ItemKey} {token : String}

theorem Store.appendProjections_works (h : s.appendProjections lib now keys = .ok t) :
    s.Works t := by
  induction keys generalizing s with
  | nil =>
      cases h
      exact .refl _
  | cons key keys ih =>
      rw [Store.appendProjections, List.foldlM_cons] at h
      obtain ⟨s₁, hfirst, hrest⟩ := bind_eq_ok.mp h
      refine .trans ?_ (ih hrest)
      rw [Store.appendProjection] at hfirst
      split at hfirst
      · cases hfirst
      · split_ifs at hfirst
        · cases hfirst
        · split at hfirst
          · cases hfirst
          · next i hi =>
              cases hfirst
              exact works_logContent lib now key .projected (s.fact i) s

theorem Store.works_state {state : ContentState} (s : Store)
    (hseq : state.nextSeq = s.contentState.nextSeq) : s.Works { s with contentState := state } :=
  works_of_eq rfl rfl rfl rfl rfl hseq rfl

theorem Store.appendProjections_state {state : ContentState}
    (h : Store.appendProjections lib now keys { s with contentState := state } = .ok t)
    (hseq : state.nextSeq = s.contentState.nextSeq) : s.Works t :=
  (works_state s hseq).trans (appendProjections_works h)

theorem Store.insertItem_beside {source : String} {seq : ℕ} {item : NormalizedItem}
    (h : s.insertItem lib now source seq item = .ok t) : s.Beside t := by
  obtain ⟨-, items, envelopes, -, henvelopes, rfl⟩ := insertItem_cases h
  have hrows : s.Beside { s with items := items, mailEnvelopes := envelopes } := by
    refine ⟨rfl, rfl, ⟨_, henvelopes, fun e he => ?_⟩, ⟨[], (List.append_nil _).symm, by simp⟩⟩
    rw [List.mem_singleton.mp he]
    exact ⟨rfl, rfl, fun hkind => absurd rfl hkind⟩
  exact hrows.trans (works_logContent ..).beside

theorem Store.appendItems_beside {source : String} {items : List NormalizedItem} {seq : ℕ}
    {inserted duplicates : List ItemKey}
    (h : s.appendItems lib now source items seq = .ok (inserted, duplicates, t)) :
    s.Beside t := by
  induction items generalizing s seq inserted duplicates with
  | nil =>
      cases h
      exact .refl _
  | cons item items ih =>
      rw [Store.appendItems] at h
      split at h
      · split_ifs at h
        · obtain ⟨⟨inserted', duplicates', s₁⟩, hrest, h⟩ := bind_eq_ok.mp h
          cases h
          exact ih hrest
        · cases h
      · obtain ⟨s₁, hinsert, h⟩ := bind_eq_ok.mp h
        obtain ⟨⟨inserted', duplicates', s₂⟩, hrest, h⟩ := bind_eq_ok.mp h
        cases h
        exact (insertItem_beside hinsert).trans (ih hrest)

theorem Store.submit_beside {sourceId batchId : Json} {items : List Json} {r : SubmissionReceipt}
    (h : s.submit lib now sourceId batchId items = .ok (r, t)) : s.Beside t := by
  obtain ⟨source, batch, normalized, -, -, -, ⟨b, -, -, -, -, rfl⟩ |
    ⟨-, s₁, s₂, submissions, happend, hprojections, -, rfl⟩⟩ := submit_steps h
  · exact .refl _
  · have hadvance : s₁.Beside (s₁.advance r.inserted.length) := by
      rw [Store.advance]
      split_ifs
      · exact .refl _
      · exact beside_of_eq rfl rfl rfl rfl
    have hfacts := hadvance.trans (appendProjections_state hprojections rfl).beside
    exact ((appendItems_beside happend).trans hfacts).trans (beside_of_eq rfl rfl rfl rfl)

theorem Store.expireRefs_works {instant : String} {refs expired stale : List ContentRef}
    (h : s.expireRefs lib now instant refs = .ok (expired, stale, t)) : s.Works t := by
  induction refs generalizing s expired stale with
  | nil =>
      cases h
      exact .refl _
  | cons ref refs ih =>
      rw [Store.expireRefs] at h
      obtain ⟨s₁, hwrite, h⟩ := bind_eq_ok.mp h
      split_ifs at h
      · obtain ⟨⟨expired', stale', t'⟩, hrest, h⟩ := bind_eq_ok.mp h
        cases h
        exact (writeItems_works hwrite fun _ => ⟨rfl, rfl⟩).trans (ih hrest)
      · obtain ⟨⟨expired', stale', t'⟩, hrest, h⟩ := bind_eq_ok.mp h
        cases h
        exact (writeItems_works hwrite fun _ => ⟨rfl, rfl⟩).trans
          ((works_logContent ..).trans (ih hrest))

theorem Store.expire_works {itemRefs : List Json} {instant : Datetime} {r : ExpireResult}
    (h : s.expire lib now itemRefs instant = .ok (r, t)) : s.Works t := by
  rw [Store.expire] at h
  obtain ⟨refs, -, h⟩ := bind_eq_ok.mp h
  obtain ⟨_, -, h⟩ := bind_eq_ok.mp h
  obtain ⟨text, -, h⟩ := bind_eq_ok.mp h
  obtain ⟨⟨expired, stale, s₁⟩, hrefs, h⟩ := bind_eq_ok.mp h
  dsimp only at h
  split_ifs at h
  · cases h
    exact expireRefs_works hrefs
  · obtain ⟨s₂, hprojections, h⟩ := bind_eq_ok.mp h
    cases h
    exact (expireRefs_works hrefs).trans (appendProjections_state hprojections rfl)

theorem Store.claimBatch_works {turn : AcceptedTurn} {snapshotSeq : ℕ} {instant : String}
    {driver : Item} {r : SelectResult}
    (h : s.claimBatch lib now token turn snapshotSeq instant driver keys = .ok (r, t)) :
    s.Works t := by
  rw [Store.claimBatch] at h
  obtain ⟨s₁, hwrite, h⟩ := bind_eq_ok.mp h
  split_ifs at h
  · cases h
    exact (writeItems_works hwrite fun _ => ⟨rfl, rfl⟩).trans (works_state _ rfl)
  · obtain ⟨s₂, hopen, h⟩ := bind_eq_ok.mp h
    obtain ⟨s₃, hprojections, h⟩ := bind_eq_ok.mp h
    cases h
    rw [Store.openSelection] at hopen
    obtain ⟨s₄, hselections, hopen⟩ := bind_eq_ok.mp hopen
    obtain ⟨s₅, hmembers, hopen⟩ := bind_eq_ok.mp hopen
    cases hopen
    have hclaimed :=
      ((writeItems_works hwrite fun _ => ⟨rfl, rfl⟩).trans (writeSelections_works hselections)).trans
      (writeMembers_works hmembers)
    exact hclaimed.trans (.trans (works_logEach ..) (appendProjections_state hprojections rfl))

theorem Store.selectBatch_works {hex : String} {itemRefs : List Json} {snapshotSeq : ℤ}
    {acceptedTurn : Json} {instant : Datetime} {r : SelectResult}
    (h : s.selectBatch lib now hex itemRefs snapshotSeq acceptedTurn instant = .ok (r, t)) :
    s.Works t := by
  rw [Store.selectBatch] at h
  obtain ⟨refs, -, h⟩ := bind_eq_ok.mp h
  obtain ⟨_, -, h⟩ := bind_eq_ok.mp h
  split_ifs at h
  · cases h
  · obtain ⟨turn, -, h⟩ := bind_eq_ok.mp h
    obtain ⟨text, -, h⟩ := bind_eq_ok.mp h
    split_ifs at h
    · cases h
      exact .refl _
    · split at h
      · cases h
        exact .refl _
      · cases h
        exact .refl _
      · exact claimBatch_works h

variable {selectedRefs : Option (List Json)} {r : TransitionResult}

/-- The statements of `transition` on the rows of the selection. -/
theorem Store.applyTransition_works {c : Selection} {action : ContentAction}
    {deadline : Option String} (h : s.applyTransition now c action deadline selectedRefs = .ok t) :
    s.Works t := by
  rw [Store.applyTransition.eq_def] at h
  split at h
  · obtain ⟨⟨chosen, s₁⟩, hselect, h⟩ := bind_eq_ok.mp h
    obtain ⟨-, -, members, -, rfl⟩ := selectDeliveryMembers_eq_ok hselect
    have hchosen : s.Works { s with contentSelectionMembers := members } :=
      works_of_eq rfl rfl rfl rfl rfl rfl rfl
    dsimp only at h
    split_ifs at h
    · exact hchosen.trans (writeItems_works h fun _ => ⟨rfl, rfl⟩)
    · exact hchosen.trans (writeItems_works h fun _ => ⟨rfl, rfl⟩)
  · dsimp only at h
    split_ifs at h
    · cases h
    · obtain ⟨items, rfl, hitems⟩ := failMembers_eq_ok h
      exact works_items (f := Item.become .failed now) (fun _ => ⟨rfl, rfl⟩) hitems
  · exact writeItems_works h fun _ => ⟨rfl, rfl⟩
  · exact writeItems_works h fun _ => ⟨rfl, rfl⟩

theorem Store.runTransition_works {action : ContentAction} {deadline : Option String}
    (h : s.runTransition lib now token action deadline selectedRefs = .ok (r, t)) : s.Works t := by
  rw [Store.runTransition] at h
  split at h
  · cases h
    exact .refl _
  · split_ifs at h
    · cases h
      exact .refl _
    · dsimp only at h
      obtain ⟨s₁, happly, h⟩ := bind_eq_ok.mp h
      obtain ⟨s₂, hwrite, h⟩ := bind_eq_ok.mp h
      obtain ⟨s₃, hprojections, h⟩ := bind_eq_ok.mp h
      cases h
      have hrows := (applyTransition_works happly).trans (writeSelections_works hwrite)
      exact hrows.trans (.trans (works_logEach ..) (appendProjections_state hprojections rfl))

theorem Store.settleMembers_works {settlement : String} {single : Bool} {members : List Item}
    (h : s.settleMembers lib now token settlement single members = .ok t) : s.Works t := by
  induction members generalizing s with
  | nil =>
      cases h
      exact .refl _
  | cons member members ih =>
      rw [Store.settleMembers, List.foldlM_cons] at h
      obtain ⟨s₁, hfirst, hrest⟩ := bind_eq_ok.mp h
      rw [Store.settleMember] at hfirst
      obtain ⟨s₂, hwrite, hfirst⟩ := bind_eq_ok.mp hfirst
      split_ifs at hfirst
      · cases hfirst
      · exact ((writeItems_works hwrite fun _ => ⟨rfl, rfl⟩).trans (works_logContent ..)).trans
          ((writeMembers_works hfirst).trans (ih hrest))

theorem Store.settleSelection_works {settlement : String} {c : Selection} {r : SelectionStatus}
    (h : s.settleSelection lib now settlement c = .ok (r, t)) : s.Works t := by
  obtain ⟨-, rfl, s₁, s₂, s₃, hsettle, hrelease, hwrite, hprojections⟩ := settleSelection_steps h
  have hworks : s.Works s₂ := by
    split_ifs at hrelease
    · rw [hrelease]
      exact settleMembers_works hsettle
    · exact (settleMembers_works hsettle).trans (writeItems_works hrelease fun _ => ⟨rfl, rfl⟩)
  exact (hworks.trans (writeSelections_works hwrite)).trans (appendProjections_state hprojections rfl)

theorem Store.settleDelivery_works {token settlement : Json}
    (h : s.settleDelivery lib now token settlement = .ok (r, t)) : s.Works t := by
  rcases settleDelivery_steps h with rfl | ⟨c, -, -, -, ref, status, hsettle⟩
  · exact .refl _
  · exact settleSelection_works hsettle

theorem Store.transition_works {token : Json} {action : String} {notBefore : Option Datetime}
    {settlementRef : Option Json}
    (h : s.transition lib now token action notBefore settlementRef selectedRefs = .ok (r, t)) :
    s.Works t := by
  rw [Store.transition] at h
  obtain ⟨selection, -, h⟩ := bind_eq_ok.mp h
  obtain ⟨action, -, h⟩ := bind_eq_ok.mp h
  obtain ⟨_, -, h⟩ := bind_eq_ok.mp h
  obtain ⟨deadline, -, h⟩ := bind_eq_ok.mp h
  split at h
  · obtain ⟨ref, -, h⟩ := bind_eq_ok.mp h
    exact settleDelivery_works h
  · exact runTransition_works h

theorem Store.ack_works {sourceId settlementRef : Json} {r : AckResult}
    (h : s.ack lib now sourceId settlementRef = .ok (r, t)) : s.Works t := by
  rw [Store.ack] at h
  obtain ⟨source, -, h⟩ := bind_eq_ok.mp h
  obtain ⟨settlement, -, h⟩ := bind_eq_ok.mp h
  split at h
  · cases h
    exact .refl _
  · split_ifs at h
    · cases h
      exact .refl _
    · cases h
      exact .refl _
    · obtain ⟨s₁, hwrite, h⟩ := bind_eq_ok.mp h
      obtain ⟨s₂, hprojections, h⟩ := bind_eq_ok.mp h
      cases h
      exact (writeItems_works hwrite fun _ => ⟨rfl, rfl⟩).trans
        (.trans (works_logContent ..) (appendProjections_state hprojections rfl))

/-- **A content call that submits nothing works on the items it is about.** -/
theorem ContentCall.works (lib : Stdlib) (s : Store) {call : ContentCall}
    (hsubmit : ∀ now sourceId batchId items, call ≠ .submit now sourceId batchId items) :
    s.Works (call.after lib s) := by
  rw [ContentCall.after]
  split
  · next answer t hexec =>
      cases call with
      | submit now sourceId batchId items => exact absurd rfl (hsubmit now sourceId batchId items)
      | select now hex itemRefs snapshotSeq acceptedTurn instant =>
          obtain ⟨⟨r, t'⟩, hcall, heq⟩ := map_eq_ok.mp hexec
          cases heq
          exact Store.selectBatch_works hcall
      | transition now token action notBefore settlementRef selectedRefs =>
          obtain ⟨⟨r, t'⟩, hcall, heq⟩ := map_eq_ok.mp hexec
          cases heq
          exact Store.transition_works hcall
      | settle now token settlement =>
          obtain ⟨⟨r, t'⟩, hcall, heq⟩ := map_eq_ok.mp hexec
          cases heq
          exact Store.settleDelivery_works hcall
      | expire now itemRefs instant =>
          obtain ⟨⟨r, t'⟩, hcall, heq⟩ := map_eq_ok.mp hexec
          cases heq
          exact Store.expire_works hcall
      | ack now sourceId settlementRef =>
          obtain ⟨⟨r, t'⟩, hcall, heq⟩ := map_eq_ok.mp hexec
          cases heq
          exact Store.ack_works hcall
  · exact .refl s

/-- **A content call leaves the alerts and contexts alone.** -/
theorem ContentCall.beside (lib : Stdlib) (s : Store) (call : ContentCall) :
    s.Beside (call.after lib s) := by
  by_cases hsubmit : ∀ now sourceId batchId items, call ≠ .submit now sourceId batchId items
  · exact (ContentCall.works lib s hsubmit).beside
  · push Not at hsubmit
    obtain ⟨now, sourceId, batchId, items, rfl⟩ := hsubmit
    rw [ContentCall.after]
    split
    · next answer t hexec =>
        obtain ⟨⟨r, t'⟩, hcall, heq⟩ := map_eq_ok.mp hexec
        cases heq
        exact Store.submit_beside hcall
    · exact .refl s

/-- **What is beside the alerts and contexts keeps their projections.** -/
theorem Store.Beside.projects (h : s.Beside t) (hs : s.Projects) : t.Projects := by
  obtain ⟨new, henvelopes, hnew⟩ := h.envelopes
  obtain ⟨more, hlog, hmore⟩ := h.log
  have hfound : ∀ id e, s.envelope? id = some e → t.envelope? id = some e :=
    fun id e he => Store.envelope?_mono ⟨new, henvelopes.symm⟩ he
  refine ⟨fun e he => ?_, fun x hx => ?_, ?_, fun a ha => ?_, ?_, fun c hc => ?_⟩
  · rw [henvelopes] at he
    exact (List.mem_append.mp he).elim (hs.named e) fun he => (hnew e he).2
  · rw [hlog] at hx
    rcases List.mem_append.mp hx with hx | hx
    · refine (hs.heard x hx).imp_left ?_
      rintro ⟨e, he, hmail⟩
      exact ⟨e, by rw [henvelopes]; exact List.mem_append_left _ he, hmail⟩
    · exact .inr (hmore x hx)
  · rw [h.alerts]
    exact hs.alerts.append_others henvelopes fun e he hkind => by
      rw [(hnew e he).1] at hkind
      cases hkind
  · rw [h.alerts] at ha
    obtain ⟨e, he⟩ := hs.replays a ha
    -- the mail of an alert is no mail of an item
    have hother : ∀ key : ItemKey, key.mailId ≠ a.mailId := by
      intro key hkey
      obtain ⟨e', he', -, hmail⟩ := hs.alerts.row _ (List.mem_map_of_mem ha)
      obtain ⟨hmem, hkind, -⟩ := Store.mem_latestEnvelopes.mp he'
      have hsame : mailId .content key.sourceId key.itemId key.revision = e'.mailId :=
        hkey.trans hmail.symm
      rw [(hs.named e' hmem).mailId, hkind] at hsame
      cases mailId_kind hsame
    have hnone : more.filter (fun x => x.mailId = a.mailId) = [] := by
      refine List.filter_eq_nil_iff.mpr fun x hx hmail => ?_
      obtain ⟨key, hkey⟩ := hmore x hx
      exact hother key (hkey.symm.trans (of_decide_eq_true hmail))
    refine ⟨e, (Store.Edit.kept ?_).replays he (hfound _ _ he.envelope)⟩
    rw [Store.logOf, hlog, List.filter_append, hnone, List.append_nil]
    rfl
  · rw [h.contexts]
    exact hs.contexts.append_others henvelopes fun e he hkind => by
      rw [(hnew e he).1] at hkind
      cases hkind
  · rw [h.contexts] at hc
    obtain ⟨e, he, hexpiry⟩ := hs.expiries c hc
    exact ⟨e, hfound _ _ he, hexpiry⟩

/-! ### Calls whose transitions are new -/

/-- No envelope of another event has the mail id of a report. -/
def Store.ReportsOwn (s : Store) (kind : Kind) (sourceId eventId : Json) (observedAt : Datetime) :
    Prop :=
  ∀ source event observed, identity "source_id" (some sourceId) = .ok source →
    identity "event_id" (some eventId) = .ok event → awareUtc observedAt = .ok observed →
    s.Unmistaken kind source event observed

/-- The deferral of an alert to a time is not logged yet. -/
def Store.DefersNewly (digest : Detail → String) (s : Store) (a : Alert) (notBefore : Datetime) :
    Prop :=
  ∀ text, awareUtc notBefore = .ok text →
    logged digest s.mailTransitions a.mailId .deferred (.notBefore text) = false

/-- **What a call on the alerts logs is new**: a turn does not claim an alert again that it has
claimed before, a claim does not defer an alert again to a time it was deferred to before, and
a report has a mail id of its own. -/
def AlertCall.Fresh (digest : Detail → String) (s : Store) : AlertCall → Prop
  | .report _ sourceId eventId _ observedAt _ => s.ReportsOwn .alert sourceId eventId observedAt
  | .select now acceptedTurn instant itemRef =>
      ∀ accepted text s₁ row, normalizeAcceptedTurn acceptedTurn = .ok accepted →
        awareUtc instant = .ok text → s.expireAlerts digest now text = .ok s₁ →
        s₁.findAlert accepted text itemRef = .ok (.due row) →
        logged digest s₁.mailTransitions row.1.mailId .selected (.turn accepted) = false
  | .change _ itemRef acceptedTurn _ _ notBefore =>
      ∀ later turn, notBefore = some later → normalizeAcceptedTurn acceptedTurn = .ok turn →
        ∀ a ∈ s.alertProjection.rows, itemRef.get? "mail_id" = some (.str a.mailId) →
        a.status = .selected turn → s.DefersNewly digest a later
  | .defer _ sourceId eventId notBefore =>
      ∀ a ∈ s.alertProjection.rows, sourceId = .str a.sourceId → eventId = .str a.eventId →
        ∀ turn, a.status = .selected turn → s.DefersNewly digest a notBefore
  | .deadline _ _ | .expire _ _ _ _ | .close _ _ _ _ => True

theorem changeArguments_ends {itemRef : Json} {action : String} {status : AlertStatus}
    {logged : Action} {notBefore : Option Datetime} {later : Option String}
    (h : changeArguments itemRef action notBefore.isSome = .ok (status, logged))
    (hlater : notBefore.mapM awareUtc = .ok later) : Ends status logged later := by
  rw [changeArguments] at h
  split at h
  · cases h
  · next change hchange =>
      split_ifs at h with hkeys hdefer
      · cases h
      · obtain rfl := Except.ok.inj h
        rw [changeOf] at hchange
        by_cases haction : action = "defer"
        · rw [if_pos haction] at hchange
          obtain ⟨rfl, rfl⟩ := Prod.mk.inj (Option.some.inj hchange)
          cases notBefore with
          | none => simp [haction] at hdefer
          | some instant =>
              obtain ⟨text, htext, hsome⟩ := bind_eq_ok.mp hlater
              cases hsome
              exact .deferred text (awareUtc_isIdentity htext)
        · rw [if_neg haction] at hchange
          cases notBefore with
          | some instant => simp [haction] at hdefer
          | none =>
              cases hlater
              split_ifs at hchange <;> cases hchange <;> exact .ended _ _ (fun _ => rfl) rfl rfl
      · cases h

/-- **A call whose transitions are new keeps the projections.** -/
theorem AlertCall.projects (call : AlertCall) (hfresh : call.Fresh digest s) (hs : s.Projects) :
    (call.after digest s).Projects := by
  rw [AlertCall.after]
  split
  · next answer t hexec =>
      cases call with
      | report now sourceId eventId payload observedAt expiresAt =>
          obtain ⟨⟨r, t'⟩, hcall, heq⟩ := map_eq_ok.mp hexec
          cases heq
          exact hs.reportAlert hfresh hcall
      | deadline now instant =>
          obtain ⟨⟨r, t'⟩, hcall, heq⟩ := map_eq_ok.mp hexec
          cases heq
          rw [Store.alertDeadline] at hcall
          obtain ⟨text, -, hcall⟩ := bind_eq_ok.mp hcall
          obtain ⟨s₁, hexpire, hcall⟩ := bind_eq_ok.mp hcall
          cases hcall
          exact (hs.expireAlerts hexpire).projects hs
      | select now acceptedTurn instant itemRef =>
          obtain ⟨⟨r, t'⟩, hcall, heq⟩ := map_eq_ok.mp hexec
          cases heq
          exact hs.selectAlert hfresh hcall
      | expire now sourceId eventId instant =>
          obtain ⟨⟨r, t'⟩, hcall, heq⟩ := map_eq_ok.mp hexec
          cases heq
          exact (hs.expireAlert hcall).projects hs
      | change now itemRef acceptedTurn action instant notBefore =>
          obtain ⟨⟨r, t'⟩, hcall, heq⟩ := map_eq_ok.mp hexec
          cases heq
          rw [Store.changeAlert] at hcall
          obtain ⟨⟨status, logged⟩, hchange, hcall⟩ := bind_eq_ok.mp hcall
          obtain ⟨_, -, hcall⟩ := bind_eq_ok.mp hcall
          obtain ⟨source, -, hcall⟩ := bind_eq_ok.mp hcall
          obtain ⟨event, -, hcall⟩ := bind_eq_ok.mp hcall
          obtain ⟨mail, hmail, hcall⟩ := bind_eq_ok.mp hcall
          obtain ⟨accepted, haccepted, hcall⟩ := bind_eq_ok.mp hcall
          obtain ⟨text, -, hcall⟩ := bind_eq_ok.mp hcall
          obtain ⟨later, hlater, hcall⟩ := bind_eq_ok.mp hcall
          refine (hs.transitionAlert (changeArguments_ends hchange hlater) ?_ hcall).projects hs
          rintro a turn text hclaimed hexpected rfl
          obtain ⟨ha, hturn⟩ := Store.claimedAlert?_eq_some.mp hclaimed
          obtain ⟨rfl, rfl⟩ := Prod.mk.inj (hexpected _ rfl)
          cases notBefore with
          | none => cases hlater
          | some instant =>
              obtain ⟨text', htext, hsome⟩ := bind_eq_ok.mp hlater
              cases hsome
              exact hfresh instant accepted rfl haccepted a (Store.alert?_eq_some.mp ha).1
                (identity_eq_ok hmail).1 hturn text htext
      | defer now sourceId eventId notBefore =>
          obtain ⟨t', hcall, heq⟩ := map_eq_ok.mp hexec
          cases heq
          obtain ⟨text, htext, hcall⟩ := bind_eq_ok.mp hcall
          obtain ⟨source, hsource, hcall⟩ := bind_eq_ok.mp hcall
          obtain ⟨event, hevent, hcall⟩ := bind_eq_ok.mp hcall
          obtain ⟨⟨answer, t'⟩, htransition, hcall⟩ := bind_eq_ok.mp hcall
          cases hcall
          refine (hs.transitionAlert (.deferred text (awareUtc_isIdentity htext)) ?_
            htransition).projects hs
          intro a turn text' hclaimed _ hsome
          obtain rfl := Option.some.inj hsome
          obtain ⟨ha, hturn⟩ := Store.claimedAlert?_eq_some.mp hclaimed
          obtain ⟨hmem, hkey⟩ := Store.alert?_eq_some.mp ha
          obtain ⟨rfl, rfl⟩ := Prod.mk.inj hkey
          exact hfresh a hmem (Option.some.inj (identity_eq_ok hsource).1)
            (Option.some.inj (identity_eq_ok hevent).1) turn hturn text htext
      | close now sourceId eventId status =>
          obtain ⟨t', hcall, heq⟩ := map_eq_ok.mp hexec
          cases heq
          obtain ⟨⟨status', action⟩, hclosing, hcall⟩ := bind_eq_ok.mp hcall
          obtain ⟨source, -, hcall⟩ := bind_eq_ok.mp hcall
          obtain ⟨event, -, hcall⟩ := bind_eq_ok.mp hcall
          obtain ⟨⟨answer, t'⟩, htransition, hcall⟩ := bind_eq_ok.mp hcall
          cases hcall
          refine (hs.transitionAlert ?_ (fun _ _ _ _ _ hsome => by cases hsome)
            htransition).projects hs
          rw [closingOf] at hclosing
          split_ifs at hclosing <;> cases hclosing <;> exact .ended _ _ (fun _ => rfl) rfl rfl
  · exact hs

/-! ### The rebuild -/

/-- A store whose projections are those of another, in some order of their rows. -/
structure Store.Rebuilt (s t : Store) : Prop where
  alerts : t.alertProjection.rows.Perm s.alertProjection.rows
  contexts : t.contextProjection.rows.Perm s.contextProjection.rows
  items : t.items.rows.Perm s.items.rows
  selections : t.contentSelections.rows.Perm s.contentSelections.rows
  members : t.contentSelectionMembers.rows.Perm s.contentSelectionMembers.rows
  state : t.contentState = s.contentState

theorem Store.latestEnvelopes_nodup (s : Store) (kind : Kind) :
    ((s.latestEnvelopes kind).map Envelope.mailId).Nodup := by
  have hindex := s.envelopes_unique
  rw [Table.Unique, List.filterMap_eq_map'] at hindex
  exact hindex.sublist (List.filter_sublist.map _)

theorem Store.Projects.replayAlert (hs : s.Projects) {e : Envelope}
    (he : e ∈ s.latestEnvelopes .alert) :
    ∃ a ∈ s.alertProjection.rows, s.replayAlert e = .ok a ∧ a.mailId = e.mailId := by
  obtain ⟨a, ha, hkey, hfound⟩ := hs.latest_alert he
  obtain ⟨e', hreplays⟩ := hs.replays a ha
  obtain rfl := Option.some.inj (hreplays.envelope.symm.trans hfound)
  obtain ⟨-, hmail⟩ := Store.envelope?_eq_some.mp hfound
  obtain ⟨hsource, hitem⟩ := Prod.mk.inj hkey
  refine ⟨a, ha, ?_, hmail.symm⟩
  rw [Store.replayAlert, hmail, hreplays.replayed, hreplays.expiresAt, ← hsource, ← hitem]
  rfl

theorem Store.replayAlert_mail {e : Envelope} {a : Alert} (h : s.replayAlert e = .ok a) :
    e.mailId = a.mailId := by
  obtain ⟨r, -, h⟩ := bind_eq_ok.mp h
  cases h
  rfl

/-- **The newest envelopes, replayed, are the alerts.** -/
theorem Store.Projects.replayAlerts (hs : s.Projects) :
    ∃ alerts, (s.latestEnvelopes .alert).mapM s.replayAlert = .ok alerts ∧
      alerts.Perm s.alertProjection.rows := by
  obtain ⟨alerts, halerts⟩ := mapM_ok (f := s.replayAlert) fun e he => by
    obtain ⟨a, -, ha, -⟩ := hs.replayAlert he
    exact ⟨a, ha⟩
  have hmails : (s.latestEnvelopes .alert).map Envelope.mailId = alerts.map Alert.mailId := by
    have hall := (mapM_eq_ok_iff.mp halerts).imp fun _ _ => Store.replayAlert_mail
    exact List.forall₂_eq_eq_eq ▸ List.forall₂_map_left_iff.mpr (List.forall₂_map_right_iff.mpr hall)
  have hnodup : alerts.Nodup := by
    have hmapped : (alerts.map Alert.mailId).Nodup := hmails ▸ s.latestEnvelopes_nodup .alert
    exact hmapped.of_map
  have hrows : s.alertProjection.rows.Nodup := s.alerts_unique.nodup
  refine ⟨alerts, halerts, (List.perm_ext_iff_of_nodup hnodup hrows).mpr fun a => ?_⟩
  constructor
  · intro ha
    obtain ⟨e, he, hea⟩ := mapM_results halerts a ha
    obtain ⟨b, hb, heb, -⟩ := hs.replayAlert he
    obtain rfl := Except.ok.inj (hea.symm.trans heb)
    exact hb
  · intro ha
    obtain ⟨e, he, hevent, hmail⟩ := hs.alerts.row _ (List.mem_map_of_mem ha)
    obtain ⟨b, hb, heb, hbmail⟩ := hs.replayAlert he
    obtain rfl := s.alert_mail_ext ha hb (hmail.symm.trans hbmail.symm)
    obtain ⟨c, hc, hec⟩ := mapM_eq_ok halerts e he
    obtain rfl := Except.ok.inj (heb.symm.trans hec)
    exact hc

/-- **The newest envelopes are the contexts.** -/
theorem Store.Projects.contexts_perm (hs : s.Projects) :
    ((s.latestEnvelopes .context).map Envelope.context).Perm s.contextProjection.rows := by
  have hunique : Table.Unique (fun c => some c.key) s.contextProjection.rows :=
    s.contextProjection.holds (onKey _ fun c => (c.sourceId, c.eventId)) List.mem_cons_self
  have hnodup : ((s.latestEnvelopes .context).map Envelope.context).Nodup := by
    have hmapped : (((s.latestEnvelopes .context).map Envelope.context).map
        ContextMail.mailId).Nodup := by
      rw [List.map_map]
      exact s.latestEnvelopes_nodup .context
    exact hmapped.of_map
  have hrow : ∀ e ∈ s.latestEnvelopes .context, e.context ∈ s.contextProjection.rows := by
    intro e he
    obtain ⟨c, hc, hkey, hfound⟩ := hs.latest_context he
    obtain ⟨e', he', hexpiry⟩ := hs.expiries c hc
    obtain rfl := Option.some.inj (he'.symm.trans hfound)
    obtain ⟨-, hmail⟩ := Store.envelope?_eq_some.mp hfound
    obtain ⟨hsource, hitem⟩ := Prod.mk.inj hkey
    have hsame : e'.context = c := by
      rw [Envelope.context, hmail, hexpiry, ← hsource, ← hitem]
    rw [hsame]
    exact hc
  refine (List.perm_ext_iff_of_nodup hnodup hunique.nodup).mpr fun c => ?_
  rw [List.mem_map]
  constructor
  · rintro ⟨e, he, rfl⟩
    exact hrow e he
  · intro hc
    obtain ⟨e, he, hevent, -⟩ := hs.contexts.row _ (List.mem_map_of_mem hc)
    exact ⟨e, he, hunique.eq_of_key (hrow e he) hc rfl (congrArg some hevent.symm)⟩

theorem Store.SameRows.beside (h : s.SameRows t) : s.Beside t := by
  rw [h.rest]
  exact beside_of_eq rfl rfl rfl rfl

/-- **A rebuild leaves every projection as it was.** -/
theorem rebuildMailProjections_spec (hs : s.Recorded) (hsound : s.ContentSound)
    (hprojects : s.Projects) : ∃ t, s.rebuildMailProjections = .ok t ∧ s.Rebuilt t ∧
      t.mailEnvelopes = s.mailEnvelopes ∧ t.mailTransitions = s.mailTransitions := by
  obtain ⟨u, hu, hsame⟩ := rebuildContent_spec hs hsound
  have hprojects' := hsame.beside.projects hprojects
  obtain ⟨alerts, halerts, hperm⟩ := hprojects'.replayAlerts
  obtain ⟨alertProjection, halertRows⟩ := u.alertProjection.write_perm hperm
  obtain ⟨contextProjection, hcontextRows⟩ :=
    u.contextProjection.write_perm hprojects'.contexts_perm
  refine ⟨{ u with
    alertProjection := alertProjection, contextProjection := contextProjection }, ?_, ?_⟩
  · rw [Store.rebuildMailProjections, hu]
    refine bind_eq_ok.mpr ⟨u, rfl, bind_eq_ok.mpr ⟨alerts, halerts, ?_⟩⟩
    refine bind_eq_ok.mpr ⟨alertProjection, write_eq_ok.mpr halertRows, ?_⟩
    exact bind_eq_ok.mpr ⟨contextProjection, write_eq_ok.mpr hcontextRows, rfl⟩
  · refine ⟨⟨?_, ?_, hsame.items, hsame.selections, hsame.members, ?_⟩, ?_, ?_⟩
    · rw [← hsame.beside.alerts]
      exact halertRows ▸ hperm
    · rw [← hsame.beside.contexts]
      exact hcontextRows ▸ hprojects'.contexts_perm
    · rw [hsame.rest]
    · rw [hsame.rest]
    · rw [hsame.rest]

/-! ### Recoveries over every run -/

/-- **What a call logs is new**: an alert call, a report of a context, and the tokens and facts
of a content call. -/
def MailCall.Fresh (lib : Stdlib) (s : Store) : MailCall → Prop
  | .alert call => call.Fresh lib.digest s
  | .context _ sourceId eventId _ observedAt _ => s.ReportsOwn .context sourceId eventId observedAt
  | .content call => (MailCall.content call).Apart lib s
  | .rebuild => True

theorem MailCall.Fresh.apart {call : MailCall} (h : call.Fresh lib s) : call.Apart lib s := by
  cases call with
  | content call => exact h
  | alert call => exact trivial
  | context now sourceId eventId payload observedAt expiresAt => exact trivial
  | rebuild => exact trivial

theorem Store.Rebuilt.projects (h : s.Rebuilt t) (henvelopes : t.mailEnvelopes = s.mailEnvelopes)
    (hlog : t.mailTransitions = s.mailTransitions) (hs : s.Projects) : t.Projects := by
  have hfound : ∀ id, t.envelope? id = s.envelope? id := fun id => by
    rw [Store.envelope?, henvelopes, Store.envelope?]
  have hlogOf : ∀ id, t.logOf id = s.logOf id := fun id => by
    rw [Store.logOf, hlog, Store.logOf]
  refine ⟨?_, ?_, ?_, fun a ha => ?_, ?_, fun c hc => ?_⟩
  · rw [henvelopes]
    exact hs.named
  · rw [hlog, henvelopes]
    exact hs.heard
  · exact (hs.alerts.of_perm (h.alerts.map _)).congr henvelopes
  · obtain ⟨e, he⟩ := hs.replays a (h.alerts.mem_iff.mp ha)
    exact ⟨e, (Store.Edit.kept (hlogOf _)).replays he ((hfound _).trans he.envelope)⟩
  · exact (hs.contexts.of_perm (h.contexts.map _)).congr henvelopes
  · obtain ⟨e, he, hexpiry⟩ := hs.expiries c (h.contexts.mem_iff.mp hc)
    exact ⟨e, (hfound _).trans he, hexpiry⟩

theorem MailCall.projects (call : MailCall) (hfresh : call.Fresh lib s) (hs : s.Recorded)
    (hsound : s.ContentSound) (hprojects : s.Projects) : (call.after lib s).Projects := by
  cases call with
  | alert call => exact call.projects hfresh hprojects
  | context now sourceId eventId payload observedAt expiresAt =>
      rw [MailCall.after]
      split
      · next hcall => exact hprojects.reportContext hfresh hcall
      · exact hprojects
  | content call => exact (call.beside lib s).projects hprojects
  | rebuild =>
      obtain ⟨t, ht, hrebuilt, henvelopes, hlog⟩ := rebuildMailProjections_spec hs hsound hprojects
      rw [MailCall.after, ht]
      exact hrebuilt.projects henvelopes hlog hprojects

/-- **The projections are recoverable from history**, in every state that calls reach whose
transitions are new to the log. -/
structure Recoveries (lib : Stdlib) : Prop where
  rebuilds : ∀ s, (mailRuns lib).ReachableVia (MailCall.Fresh lib) s →
    ∃ t, s.rebuildMailProjections = .ok t ∧ s.Rebuilt t

/-- **A rebuild leaves every projection as it was**, in every state that calls reach whose
transitions are new to the log. -/
theorem recoveries_hold (lib : Stdlib) : Recoveries lib where
  rebuilds s hreach := by
    have hall : (s.Recorded ∧ s.ContentSound) ∧ s.Projects := by
      refine Transition.System.ReachableVia.invariant
        (I := fun s => (s.Recorded ∧ s.ContentSound) ∧ s.Projects) ?_ ?_ hreach
      · rintro s rfl
        exact ⟨⟨Store.recorded_empty, Store.contentSound_empty⟩, Store.projects_empty⟩
      · rintro s call t ⟨⟨hs, hsound⟩, hprojects⟩ hfresh rfl
        exact ⟨call.recorded hfresh.apart hs hsound, call.projects hfresh hs hsound hprojects⟩
    obtain ⟨⟨hs, hsound⟩, hprojects⟩ := hall
    obtain ⟨t, ht, hrebuilt, -⟩ := rebuildMailProjections_spec hs hsound hprojects
    exact ⟨t, ht, hrebuilt⟩

/-- An alert that a turn claims, defers, and claims again once it is due. -/
def reclaimingCalls : List MailCall :=
  let turn : Json := .obj [("session_id", .str "s"), ("turn_id", .str "t")]
  let later : Datetime := ⟨63000000060000000, some 0⟩
  [.alert (.report "0" (.str "s") (.str "e") (.obj []) plainInstant none),
    .alert (.select "1" turn plainInstant none),
    .alert (.defer "2" (.str "s") (.str "e") later),
    .alert (.select "3" turn later none)]

/-- **A repeated claim is lost**: the second claim of `reclaimingCalls` is logged under the
identity of the first, and a rebuild makes the alert pending again. -/
theorem recoveries_repeated : ¬∀ (lib : Stdlib) (calls : List MailCall), .rebuild ∉ calls →
    ∃ t, (runMail lib calls).rebuildMailProjections = .ok t ∧ (runMail lib calls).Rebuilt t := by
  intro h
  obtain ⟨t, ht, hrebuilt⟩ := h plainStdlib reclaimingCalls (by simp [reclaimingCalls])
  have hlive : ∀ a ∈ (runMail plainStdlib reclaimingCalls).alertProjection.rows,
      a.status = .selected ⟨"s", "t"⟩ := by decide
  have hrebuild : (runMail plainStdlib reclaimingCalls).rebuildMailProjections.toOption.map
      (fun t => t.alertProjection.rows.map Alert.status) = some [.pending] := by decide
  rw [ht] at hrebuild
  have hrows : t.alertProjection.rows.map Alert.status = [.pending] := Option.some.inj hrebuild
  have hpending : AlertStatus.pending ∈ t.alertProjection.rows.map Alert.status := by
    rw [hrows]
    exact List.mem_singleton_self _
  obtain ⟨a, ha, hstatus⟩ := List.mem_map.mp hpending
  rw [hlive a (hrebuilt.alerts.mem_iff.mp ha)] at hstatus
  cases hstatus

end Kirakira.EventMail
