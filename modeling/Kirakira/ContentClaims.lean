import Kirakira.ContentMoves

/-!
# Claims on Content

A selection claims its members while it is selected, and those that were chosen while it is
ready. What holds of the content over every sequence of calls: an item is claimed by one
selection at most, an ended item stays ended, and a settled item has a settlement of its own.

The one call that changes an item another selection claims is `expire`, which looks at the
version and the status of an item only: a member that is not the driver is still waiting.

## Main results

* `Store.ContentSound` — the invariant of the content tables.
* `Store.ContentMove.sound` — every call keeps it.
* `contentClaims_hold` — **claims are exclusive and endings are final**.
-/

namespace Kirakira.EventMail

variable {lib : Stdlib} {s t : Store}

/-! ### The invariant -/

/-- A selection that claims members. -/
def SelectionStatus.isLive : SelectionStatus → Bool
  | .selected | .readyForDelivery => true
  | _ => false

/-- A selection claims an item. -/
def Store.Claims (s : Store) (c : Selection) (key : ItemKey) : Prop :=
  ∃ m ∈ s.contentSelectionMembers.rows, m.item = key ∧ m.isClaimedBy c = true

/-- The statuses a settlement leads to. -/
def ItemStatus.isSettled : ItemStatus → Bool
  | .delivered | .settled => true
  | _ => false

/-- The status of an item a selection claims. -/
def Selection.Keeps (c : Selection) (i : Item) : Prop :=
  if i.key = c.driver then
    i.selectionToken = some c.token ∧
      i.status = if c.status = .selected then .selected else .readyForDelivery
  else i.status = .pending ∨ i.status = .deferred ∨ i.status = .expired

/-- **The invariant of the content tables.** -/
structure Store.ContentSound (s : Store) : Prop where
  /-- A member has its selection. -/
  selection : ∀ m ∈ s.contentSelectionMembers.rows, ∃ c ∈ s.contentSelections.rows,
    c.token = m.token
  /-- A driver is a member. -/
  driver : ∀ c ∈ s.contentSelections.rows, ∃ m ∈ s.contentSelectionMembers.rows,
    m.token = c.token ∧ m.item = c.driver
  /-- A member has its item. -/
  item : ∀ m ∈ s.contentSelectionMembers.rows, ∃ i ∈ s.items.rows, i.key = m.item
  /-- A token on an item is of a selection that the item drives. -/
  token : ∀ i ∈ s.items.rows, ∀ token, i.selectionToken = some token →
    ∃ c ∈ s.contentSelections.rows, c.token = token ∧ c.driver = i.key ∧
      (c.status.isLive = true → i.status.isDriving = true ∧ s.Claims c i.key)
  /-- Two selections do not claim one item. -/
  exclusive : ∀ c ∈ s.contentSelections.rows, ∀ d ∈ s.contentSelections.rows, ∀ key,
    s.Claims c key → s.Claims d key → c = d
  /-- A claimed item waits or drives. -/
  keeps : ∀ c ∈ s.contentSelections.rows, ∀ i ∈ s.items.rows, s.Claims c i.key → c.Keeps i
  /-- The settled items are those with a settlement. -/
  settled : ∀ i ∈ s.items.rows, i.settlementRef.isSome = i.status.isSettled
  /-- A selection chooses its members when it becomes ready. -/
  unchosen : ∀ c ∈ s.contentSelections.rows, c.status = .selected →
    ∀ m ∈ s.contentSelectionMembers.rows, m.token = c.token → m.selectedForDelivery = false
  /-- A selection that is ready has chosen a member. -/
  chosen : ∀ c ∈ s.contentSelections.rows, c.status = .readyForDelivery →
    ∃ m ∈ s.contentSelectionMembers.rows, m.token = c.token ∧ m.selectedForDelivery = true
  /-- A member that was settled has the settlement of its item. -/
  settlement : ∀ m ∈ s.contentSelectionMembers.rows, ∀ ref, m.settlementRef = some ref →
    ∃ i ∈ s.items.rows, i.key = m.item ∧ i.settlementRef = some ref

theorem Store.contentSound_empty : Store.empty.ContentSound where
  selection m hm := by cases hm
  driver c hc := by cases hc
  item m hm := by cases hm
  token i hi := by cases hi
  exclusive c hc := by cases hc
  keeps c hc := by cases hc
  settled i hi := by cases hi
  unchosen c hc := by cases hc
  chosen c hc := by cases hc
  settlement m hm := by cases hm

variable {c : Selection} {key : ItemKey} {i : Item} {f : Item → Item} {now : String}
  {label : ContentLabel}

theorem Member.isClaimedBy_iff {m : Member} :
    m.isClaimedBy c = true ↔ m.token = c.token ∧
      (c.status = .selected ∨ c.status = .readyForDelivery ∧ m.selectedForDelivery = true) := by
  simp [Member.isClaimedBy]

theorem Store.Claims.isLive (h : s.Claims c key) : c.status.isLive = true := by
  obtain ⟨m, -, -, hclaim⟩ := h
  rcases (Member.isClaimedBy_iff.mp hclaim).2 with hselected | ⟨hready, -⟩
  · rw [hselected]
    rfl
  · rw [hready]
    rfl

theorem Store.isClaimed_iff :
    s.isClaimed key = true ↔ ∃ c ∈ s.contentSelections.rows, s.Claims c key := by
  simp only [Store.isClaimed, List.any_eq_true, Bool.and_eq_true, decide_eq_true_eq, Store.Claims]
  constructor
  · rintro ⟨m, hm, hitem, c, hc, hclaim⟩
    exact ⟨c, hc, m, hm, hitem, hclaim⟩
  · rintro ⟨c, hc, m, hm, hitem, hclaim⟩
    exact ⟨m, hm, hitem, c, hc, hclaim⟩

/-! ### Changes by the selection that claims -/

/-- A change that touches nothing but what a selection claims: the selection becomes `c'`,
the items change by `f` and the members by `g`. -/
structure Store.Touches (s t : Store) (c c' : Selection) (f : Item → Item) (g : Member → Member) :
    Prop where
  items : t.items.rows = s.items.rows.map f
  selections : t.contentSelections.rows
    = s.contentSelections.rows.map fun d => if d.token = c.token then c' else d
  members : t.contentSelectionMembers.rows = s.contentSelectionMembers.rows.map g
  token : c'.token = c.token
  driver : c'.driver = c.driver
  key : ∀ i, (f i).key = i.key
  seq : ∀ i, (f i).snapshotSeq = i.snapshotSeq
  claimed : ∀ i ∈ s.items.rows, f i ≠ i → s.Claims c i.key
  isOpen : ∀ i ∈ s.items.rows, f i ≠ i → i.status.isOpen = true
  tokens : ∀ i token, (f i).selectionToken = some token → i.selectionToken = some token
  member : ∀ m, (g m).token = m.token ∧ (g m).item = m.item
  others : ∀ m, m.token ≠ c.token → g m = m
  settled : ∀ i ∈ s.items.rows, (f i).settlementRef.isSome = (f i).status.isSettled
  keepsRef : ∀ i ∈ s.items.rows, ∀ ref, i.settlementRef = some ref →
    (f i).settlementRef = some ref
  settlement : ∀ m ∈ s.contentSelectionMembers.rows, ∀ ref, (g m).settlementRef = some ref →
    m.settlementRef = some ref ∨ ∃ i ∈ s.items.rows, i.key = m.item ∧
      (f i).settlementRef = some ref

/-- A selection stays live as one that is ready, with some of its members. -/
structure Store.StaysReady (s t : Store) (c c' : Selection) (f : Item → Item) : Prop where
  status : c'.status = .readyForDelivery
  driving : ∀ i ∈ s.items.rows, (f i).selectionToken = some c.token →
    (f i).status.isDriving = true ∧ t.Claims c' i.key
  narrower : ∀ key, t.Claims c' key → s.Claims c key
  keeps : ∀ i ∈ s.items.rows, t.Claims c' i.key → c'.Keeps (f i)
  chosen : ∃ m ∈ t.contentSelectionMembers.rows, m.token = c.token ∧ m.selectedForDelivery = true

/-- The selection changes what it claims, and stays live only where it becomes ready. -/
def Store.ChangesBy (s t : Store) (c : Selection) : Prop :=
  ∃ c' f g, s.Touches t c c' f g ∧ (c'.status.isLive = true → s.StaysReady t c c' f)

section Touches

variable {c c' : Selection} {f : Item → Item} {g : Member → Member}

theorem Store.Touches.claims_other (h : s.Touches t c c' f g) {d : Selection}
    (hne : d.token ≠ c.token) : t.Claims d key ↔ s.Claims d key := by
  simp only [Store.Claims, h.members, List.mem_map]
  constructor
  · rintro ⟨_, ⟨m, hm, rfl⟩, hitem, hclaim⟩
    have htoken : m.token ≠ c.token := by
      rw [← (h.member m).1, (Member.isClaimedBy_iff.mp hclaim).1]
      exact hne
    rw [h.others m htoken] at hitem hclaim
    exact ⟨m, hm, hitem, hclaim⟩
  · rintro ⟨m, hm, hitem, hclaim⟩
    have htoken : m.token ≠ c.token := by
      rw [(Member.isClaimedBy_iff.mp hclaim).1]
      exact hne
    exact ⟨m, ⟨m, hm, h.others m htoken⟩, hitem, hclaim⟩

theorem Store.Touches.claims (h : s.Touches t c c' f g) (hc : c ∈ s.contentSelections.rows)
    (hlive : c'.status.isLive = true → s.StaysReady t c c' f) {d' : Selection}
    (hd' : d' ∈ t.contentSelections.rows) :
    ∃ d ∈ s.contentSelections.rows, (d' = if d.token = c.token then c' else d) ∧
      ∀ key, t.Claims d' key → s.Claims d key := by
  rw [h.selections, List.mem_map] at hd'
  obtain ⟨d, hd, rfl⟩ := hd'
  refine ⟨d, hd, rfl, fun key hclaim => ?_⟩
  split_ifs at hclaim with htoken
  · rw [Store.selection_ext hd hc htoken]
    exact (hlive hclaim.isLive).narrower key hclaim
  · exact (h.claims_other htoken).mp hclaim

theorem Store.Touches.untouched (h : s.Touches t c c' f g) (hs : s.ContentSound)
    (hc : c ∈ s.contentSelections.rows) {d : Selection} (hd : d ∈ s.contentSelections.rows)
    (hne : d.token ≠ c.token) (hi : i ∈ s.items.rows) (hclaim : s.Claims d i.key) : f i = i := by
  by_contra htouched
  exact hne (congrArg Selection.token
    (hs.exclusive d hd c hc i.key hclaim (h.claimed i hi htouched)))

/-- **A change by the selection that claims keeps the invariant.** -/
theorem Store.Touches.sound (h : s.Touches t c c' f g) (hs : s.ContentSound)
    (hc : c ∈ s.contentSelections.rows) (hlive : c'.status.isLive = true → s.StaysReady t c c' f) :
    t.ContentSound where
  selection m' hm' := by
    rw [h.members, List.mem_map] at hm'
    obtain ⟨m, hm, rfl⟩ := hm'
    obtain ⟨d, hd, htoken⟩ := hs.selection m hm
    refine ⟨if d.token = c.token then c' else d, ?_, ?_⟩
    · rw [h.selections]
      exact List.mem_map_of_mem hd
    · rw [(h.member m).1, ← htoken]
      split_ifs with hsame
      · rw [h.token, hsame]
      · rfl
  driver d' hd' := by
    obtain ⟨d, hd, rfl, -⟩ := h.claims hc hlive hd'
    obtain ⟨m, hm, htoken, hitem⟩ := hs.driver d hd
    refine ⟨g m, ?_, ?_⟩
    · rw [h.members]
      exact List.mem_map_of_mem hm
    · rw [(h.member m).1, (h.member m).2]
      split_ifs with hsame
      · rw [h.token, h.driver, htoken, hitem, hsame, Store.selection_ext hd hc hsame]
        exact ⟨rfl, rfl⟩
      · exact ⟨htoken, hitem⟩
  item m' hm' := by
    rw [h.members, List.mem_map] at hm'
    obtain ⟨m, hm, rfl⟩ := hm'
    obtain ⟨i, hi, hkey⟩ := hs.item m hm
    refine ⟨f i, ?_, ?_⟩
    · rw [h.items]
      exact List.mem_map_of_mem hi
    · rw [h.key, (h.member m).2, hkey]
  token i' hi' token htoken := by
    rw [h.items, List.mem_map] at hi'
    obtain ⟨i, hi, rfl⟩ := hi'
    obtain ⟨d, hd, hdtoken, hdriver, hdrives⟩ := hs.token i hi token (h.tokens i token htoken)
    refine ⟨if d.token = c.token then c' else d, ?_, ?_⟩
    · rw [h.selections]
      exact List.mem_map_of_mem hd
    · rw [h.key]
      split_ifs with hsame
      · refine ⟨h.token.trans (hsame.symm.trans hdtoken), ?_, fun hstill => ?_⟩
        · rw [h.driver, ← Store.selection_ext hd hc hsame, hdriver]
        · refine (hlive hstill).driving i hi ?_
          rw [htoken, ← hdtoken, hsame]
      · refine ⟨hdtoken, hdriver, fun hdlive => ?_⟩
        obtain ⟨hdriving, hclaim⟩ := hdrives hdlive
        rw [h.untouched hs hc hd hsame hi hclaim]
        exact ⟨hdriving, (h.claims_other hsame).mpr hclaim⟩
  exclusive d₁' hd₁' d₂' hd₂' key hclaim₁ hclaim₂ := by
    obtain ⟨d₁, hd₁, rfl, hback₁⟩ := h.claims hc hlive hd₁'
    obtain ⟨d₂, hd₂, rfl, hback₂⟩ := h.claims hc hlive hd₂'
    rw [hs.exclusive d₁ hd₁ d₂ hd₂ key (hback₁ key hclaim₁) (hback₂ key hclaim₂)]
  keeps d' hd' i' hi' hclaim := by
    rw [h.items, List.mem_map] at hi'
    obtain ⟨i, hi, rfl⟩ := hi'
    rw [h.key] at hclaim
    obtain ⟨d, hd, rfl, hback⟩ := h.claims hc hlive hd'
    have hbefore := hback i.key hclaim
    split_ifs at hclaim ⊢ with hsame
    · exact (hlive hclaim.isLive).keeps i hi hclaim
    · rw [h.untouched hs hc hd hsame hi hbefore]
      exact hs.keeps d hd i hi hbefore
  settled i' hi' := by
    rw [h.items, List.mem_map] at hi'
    obtain ⟨i, hi, rfl⟩ := hi'
    exact h.settled i hi
  unchosen d' hd' hselected m' hm' htoken := by
    obtain ⟨d, hd, rfl, -⟩ := h.claims hc hlive hd'
    rw [h.members, List.mem_map] at hm'
    obtain ⟨m, hm, rfl⟩ := hm'
    split_ifs at hselected htoken with hsame
    · have hready := (hlive (by rw [hselected]; rfl)).status
      rw [hselected] at hready
      cases hready
    · rw [(h.member m).1] at htoken
      rw [h.others m (by rw [htoken]; exact hsame)]
      exact hs.unchosen d hd hselected m hm htoken
  chosen d' hd' hready := by
    obtain ⟨d, hd, rfl, -⟩ := h.claims hc hlive hd'
    split_ifs at hready ⊢ with hsame
    · rw [h.token]
      exact (hlive (by rw [hready]; rfl)).chosen
    · obtain ⟨m, hm, htoken, hchosen⟩ := hs.chosen d hd hready
      refine ⟨g m, ?_, ?_⟩
      · rw [h.members]
        exact List.mem_map_of_mem hm
      · rw [h.others m (by rw [htoken]; exact hsame)]
        exact ⟨htoken, hchosen⟩
  settlement m' hm' ref href := by
    rw [h.members, List.mem_map] at hm'
    obtain ⟨m, hm, rfl⟩ := hm'
    rw [h.items, (h.member m).2]
    rcases h.settlement m hm ref href with hold | ⟨i, hi, hkey, hnew⟩
    · obtain ⟨i, hi, hkey, hitem⟩ := hs.settlement m hm ref hold
      exact ⟨f i, List.mem_map_of_mem hi, (h.key i).trans hkey, h.keepsRef i hi ref hitem⟩
    · exact ⟨f i, List.mem_map_of_mem hi, (h.key i).trans hkey, hnew⟩

end Touches

/-! ### Endings -/

theorem Store.update_selection (hc : c ∈ s.contentSelections.rows) (φ : Selection → Selection) :
    Table.update (fun d => d.token = c.token) φ s.contentSelections.rows
      = s.contentSelections.rows.map fun d => if d.token = c.token then φ c else d := by
  refine List.map_congr_left fun d hd => ?_
  by_cases hsame : d.token = c.token
  · obtain rfl := Store.selection_ext hd hc hsame
    simp
  · simp only [hsame, decide_false, if_false, Bool.false_eq_true]

theorem Store.ContentSound.of_token (hs : s.ContentSound) (hc : c ∈ s.contentSelections.rows)
    (hlive : c.status.isLive = true) (hi : i ∈ s.items.rows)
    (htoken : i.isDriverOf c.token = true) :
    i.key = c.driver ∧ i.status.isDriving = true ∧ s.Claims c i.key := by
  obtain ⟨d, hd, hdtoken, hdriver, hdrives⟩ := hs.token i hi c.token (of_decide_eq_true htoken)
  obtain rfl := Store.selection_ext hd hc hdtoken
  exact ⟨hdriver.symm, hdrives hlive⟩

theorem Store.ContentSound.settlementRef_eq_none (hs : s.ContentSound) (hi : i ∈ s.items.rows)
    (hstatus : i.status.isSettled = false) : i.settlementRef = none := by
  have hsome := hs.settled i hi
  rw [hstatus, Option.isSome_eq_false_iff, Option.isNone_iff_eq_none] at hsome
  exact hsome

variable {status : ItemStatus} {keys : List ItemKey}

theorem ItemStatus.not_isSettled_of_isOpen (h : status.isOpen = true) :
    status.isSettled = false := by
  cases status <;> first | rfl | cases h

theorem ItemStatus.isOpen_of_isDriving (h : status.isDriving = true) : status.isOpen = true := by
  rw [ItemStatus.isOpen, h, Bool.or_true]

theorem Store.ContentSound.settled_release (hs : s.ContentSound) (hi : i ∈ s.items.rows)
    (hdriving : i.status.isDriving = true) (now : String) :
    (i.release now).settlementRef.isSome = (i.release now).status.isSettled := by
  have hnone := hs.settlementRef_eq_none hi
    (ItemStatus.not_isSettled_of_isOpen (ItemStatus.isOpen_of_isDriving hdriving))
  rw [Item.release, hnone]
  rfl

theorem Store.ChangesBy.of_ended {status : SelectionStatus} (hc : c ∈ s.contentSelections.rows)
    (hended : status.isLive = false) (hitems : t.items.rows = s.items.rows.map f)
    (hselections : t.contentSelections.rows = Table.update (fun d => d.token = c.token)
      (Selection.become status now) s.contentSelections.rows)
    (hmembers : t.contentSelectionMembers = s.contentSelectionMembers)
    (hkey : ∀ i, (f i).key = i.key) (hseq : ∀ i, (f i).snapshotSeq = i.snapshotSeq)
    (hclaimed : ∀ i ∈ s.items.rows, f i ≠ i → s.Claims c i.key ∧ i.status.isOpen = true)
    (htokens : ∀ i token, (f i).selectionToken = some token → i.selectionToken = some token)
    (hrefs : ∀ i, (f i).settlementRef = i.settlementRef)
    (hsettled : ∀ i ∈ s.items.rows, (f i).settlementRef.isSome = (f i).status.isSettled) :
    s.ChangesBy t c := by
  have htouches : s.Touches t c (c.become status now) f id :=
    { items := hitems
      selections := hselections.trans (Store.update_selection hc _)
      members := by rw [hmembers, List.map_id]
      token := rfl
      driver := rfl
      key := hkey
      seq := hseq
      claimed := fun i hi hne => (hclaimed i hi hne).1
      isOpen := fun i hi hne => (hclaimed i hi hne).2
      tokens := htokens
      member := fun _ => ⟨rfl, rfl⟩
      others := fun _ _ => rfl
      settled := hsettled
      keepsRef := fun i _ ref href => (hrefs i).trans href
      settlement := fun _ _ _ href => .inl href }
  refine ⟨_, _, _, htouches, fun hlive => ?_⟩
  rw [Selection.become, hended] at hlive
  cases hlive

theorem Store.ContentSound.released (hs : s.ContentSound) (hc : c ∈ s.contentSelections.rows)
    (hstatus : c.status = .selected) (hitems : t.items.rows = s.items.rows.map fun i =>
      if i.isDriverOf c.token && i.status.isDriving then i.release now else i)
    (hselections : t.contentSelections.rows = Table.update (fun d => d.token = c.token)
      (Selection.become .released now) s.contentSelections.rows)
    (hmembers : t.contentSelectionMembers = s.contentSelectionMembers) : s.ChangesBy t c := by
  have hlive : c.status.isLive = true := by rw [hstatus]; rfl
  refine Store.ChangesBy.of_ended hc rfl hitems hselections hmembers ?_ ?_ ?_ ?_ ?_ ?_
  · intro i
    split_ifs <;> rfl
  · intro i
    split_ifs <;> rfl
  · intro i hi hne
    split_ifs at hne with hhit
    · obtain ⟨-, hdriving, hclaim⟩ := hs.of_token hc hlive hi (Bool.and_eq_true_iff.mp hhit).1
      exact ⟨hclaim, ItemStatus.isOpen_of_isDriving hdriving⟩
    · exact absurd rfl hne
  · intro i token htoken
    split_ifs at htoken
    · cases htoken
    · exact htoken
  · intro i
    split_ifs <;> rfl
  · intro i hi
    split_ifs with hhit
    · exact hs.settled_release hi (Bool.and_eq_true_iff.mp hhit).2 now
    · exact hs.settled i hi

theorem Store.ContentSound.finished (hs : s.ContentSound) {action : ContentAction}
    {deadline : Option String} (hc : c ∈ s.contentSelections.rows) (hlive : c.status.isLive = true)
    (hending : action ≠ .readyForDelivery ∧ action ≠ .release ∧ action ≠ .delivered)
    (hitems : t.items.rows = s.items.rows.map fun i =>
      if i.isDriverOf c.token then i.finish action.itemStatus deadline now else i)
    (hselections : t.contentSelections.rows = Table.update (fun d => d.token = c.token)
      (Selection.become action.status now) s.contentSelections.rows)
    (hmembers : t.contentSelectionMembers = s.contentSelectionMembers) : s.ChangesBy t c := by
  obtain ⟨hready, hrelease, hdelivered⟩ := hending
  refine Store.ChangesBy.of_ended hc ?_ hitems hselections hmembers ?_ ?_ ?_ ?_ ?_ ?_
  · cases action <;> first | rfl | contradiction
  · intro i
    split_ifs <;> rfl
  · intro i
    split_ifs <;> rfl
  · intro i hi hne
    split_ifs at hne with hhit
    · obtain ⟨-, hdriving, hclaim⟩ := hs.of_token hc hlive hi hhit
      exact ⟨hclaim, ItemStatus.isOpen_of_isDriving hdriving⟩
    · exact absurd rfl hne
  · intro i token htoken
    split_ifs at htoken <;> exact htoken
  · intro i
    split_ifs <;> rfl
  · intro i hi
    split_ifs with hhit
    · have hnone := hs.settlementRef_eq_none hi (ItemStatus.not_isSettled_of_isOpen
        (ItemStatus.isOpen_of_isDriving (hs.of_token hc hlive hi hhit).2.1))
      rw [Item.finish, hnone]
      cases action <;> first | rfl | contradiction
    · exact hs.settled i hi

theorem Store.claims_of_delivery (hstatus : c.status = .readyForDelivery) {d : Item}
    (hd : d ∈ s.deliveryMembers c.token) : s.Claims c d.key := by
  obtain ⟨-, m, hm, htoken, hitem, hchosen⟩ := Store.mem_deliveryMembers.mp hd
  exact ⟨m, hm, hitem, Member.isClaimedBy_iff.mpr ⟨htoken, .inr ⟨hstatus, hchosen⟩⟩⟩

theorem Store.ContentSound.failed (hs : s.ContentSound) (hc : c ∈ s.contentSelections.rows)
    (hstatus : c.status = .readyForDelivery) (hitems : t.items.rows = s.items.rows.map fun i =>
      if (s.deliveryMembers c.token).any (fun d => i.key = d.key) && i.status.isOpen then
        i.become .failed now else i)
    (hselections : t.contentSelections.rows = Table.update (fun d => d.token = c.token)
      (Selection.become .failed now) s.contentSelections.rows)
    (hmembers : t.contentSelectionMembers = s.contentSelectionMembers) : s.ChangesBy t c := by
  refine Store.ChangesBy.of_ended hc rfl hitems hselections hmembers ?_ ?_ ?_ ?_ ?_ ?_
  · intro i
    split_ifs <;> rfl
  · intro i
    split_ifs <;> rfl
  · intro i hi hne
    split_ifs at hne with hhit
    · rw [Bool.and_eq_true, List.any_eq_true] at hhit
      obtain ⟨⟨d, hd, hkey⟩, hopen⟩ := hhit
      rw [of_decide_eq_true hkey]
      exact ⟨Store.claims_of_delivery hstatus hd, hopen⟩
    · exact absurd rfl hne
  · intro i token htoken
    split_ifs at htoken <;> exact htoken
  · intro i
    split_ifs <;> rfl
  · intro i hi
    split_ifs with hhit
    · rw [Item.become, hs.settlementRef_eq_none hi
        (ItemStatus.not_isSettled_of_isOpen (Bool.and_eq_true_iff.mp hhit).2)]
      rfl
    · exact hs.settled i hi

theorem Store.mem_delivery_of_claims (hstatus : c.status = .readyForDelivery)
    (hi : i ∈ s.items.rows) (hclaim : s.Claims c i.key) : i ∈ s.deliveryMembers c.token := by
  obtain ⟨m, hm, hitem, hclaimed⟩ := hclaim
  obtain ⟨htoken, hselected | ⟨-, hchosen⟩⟩ := Member.isClaimedBy_iff.mp hclaimed
  · rw [hstatus] at hselected
    cases hselected
  · exact Store.mem_deliveryMembers.mpr ⟨hi, m, hm, htoken, hitem, hchosen⟩

theorem Store.ContentSound.settledItems_eq (hs : s.ContentSound) {refOf : ItemKey → String}
    (hc : c ∈ s.contentSelections.rows) (hstatus : c.status = .readyForDelivery) :
    s.settledItems now c refOf
      = settledRows (s.deliveryMembers c.token) refOf now s.items.rows := by
  rw [Store.settledItems]
  split_ifs with hdriver
  · rfl
  · refine Table.update_of_none _ fun i' hi' => ?_
    rw [Bool.and_eq_false_iff]
    rw [settledRows, List.mem_map] at hi'
    obtain ⟨i, hi, rfl⟩ := hi'
    split_ifs with hmember
    · right
      rw [Item.settle, settledStatus]
      split_ifs <;> rfl
    · left
      by_contra htoken
      rw [Bool.not_eq_false] at htoken
      have hlive : c.status.isLive = true := by rw [hstatus]; rfl
      exact hmember (Store.mem_delivery_of_claims hstatus hi (hs.of_token hc hlive hi htoken).2.2)

/-- Settling the members of a message is a change by the selection. -/
theorem Store.ContentSound.settled_delivery (hs : s.ContentSound) {settlement : String}
    {refOf : ItemKey → String} (hc : c ∈ s.contentSelections.rows)
    (hstatus : c.status = .readyForDelivery) (h : s.Settles t now settlement c refOf) :
    s.ChangesBy t c := by
  have hitems := h.items.trans (hs.settledItems_eq hc hstatus)
  have hselections : t.contentSelections.rows = s.contentSelections.rows.map fun d =>
      if d.token = c.token then
        c.settle (deliveredStatus (s.deliveryMembers c.token)) settlement now else d := by
    rw [h.selections, ← Store.update_selection hc]
    refine List.map_congr_left fun d hd => ?_
    by_cases hsame : d.token = c.token
    · obtain rfl := Store.selection_ext hd hc hsame
      simp [hstatus]
    · simp [hsame]
  have hended : (c.settle (deliveredStatus (s.deliveryMembers c.token)) settlement now).status.isLive
      = false := by
    rw [Selection.settle, deliveredStatus]
    split_ifs <;> rfl
  have htouches : s.Touches t c
      (c.settle (deliveredStatus (s.deliveryMembers c.token)) settlement now)
      (fun i => if i ∈ s.deliveryMembers c.token then
        i.settle (settledStatus i.requiresAck) (refOf i.key) now else i)
      (fun m => if (m.token = c.token && (s.deliveryMembers c.token).any fun d => m.item = d.key)
        then { m with settlementRef := some (refOf m.item) } else m) :=
    { items := hitems
      selections := hselections
      members := h.members
      token := rfl
      driver := rfl
      key := fun i => by split_ifs <;> rfl
      seq := fun i => by split_ifs <;> rfl
      claimed := fun i _ hne => by
        split_ifs at hne with hmember
        · exact Store.claims_of_delivery hstatus hmember
        · exact absurd rfl hne
      isOpen := fun i _ hne => by
        split_ifs at hne with hmember
        · exact h.isOpen i hmember
        · exact absurd rfl hne
      tokens := fun i token htoken => by split_ifs at htoken <;> exact htoken
      member := fun m => by split_ifs <;> exact ⟨rfl, rfl⟩
      others := fun m hne => if_neg (by simp [hne])
      settled := fun i hi => by
        split_ifs with hmember
        · rw [Item.settle, settledStatus]
          split_ifs <;> rfl
        · exact hs.settled i hi
      keepsRef := fun i hi ref href => by
        split_ifs with hmember
        · rw [hs.settlementRef_eq_none hi
            (ItemStatus.not_isSettled_of_isOpen (h.isOpen i hmember))] at href
          cases href
        · exact href
      settlement := fun m _ ref href => by
        split_ifs at href with hhit
        · obtain ⟨d, hd, hkey⟩ := List.any_eq_true.mp (Bool.and_eq_true_iff.mp hhit).2
          have hitem := of_decide_eq_true hkey
          refine .inr ⟨d, (Store.mem_deliveryMembers.mp hd).1, hitem.symm, ?_⟩
          rw [if_pos hd, ← href, hitem]
          rfl
        · exact .inl href }
  refine ⟨_, _, _, htouches, fun hlive => ?_⟩
  rw [hended] at hlive
  cases hlive

/-- Making a selection ready is a change by the selection. -/
theorem Store.ContentSound.readied (hs : s.ContentSound) {chosen : List ItemKey}
    (hc : c ∈ s.contentSelections.rows) (hstatus : c.status = .selected) (hchosen : chosen ≠ [])
    (havailable : ∀ key ∈ chosen, ∃ m ∈ s.contentSelectionMembers.rows,
      m.token = c.token ∧ m.item = key) (hitems : t.items.rows = s.items.rows.map fun i =>
      if c.driver ∈ chosen then
        if i.isDriverOf c.token && i.status = .selected then i.become .readyForDelivery now else i
      else if i.isDriverOf c.token && i.status.isDriving then i.release now else i)
    (hselections : t.contentSelections.rows = Table.update (fun d => d.token = c.token)
      (Selection.become .readyForDelivery now) s.contentSelections.rows)
    (hmembers : t.contentSelectionMembers.rows
      = Table.update (fun m => m.token = c.token && chosen.contains m.item)
          (fun m => { m with selectedForDelivery := true }) s.contentSelectionMembers.rows) :
    s.ChangesBy t c := by
  have hlive : c.status.isLive = true := by rw [hstatus]; rfl
  have htouches : s.Touches t c (c.become .readyForDelivery now) _ _ :=
    { items := hitems
      selections := hselections.trans (Store.update_selection hc _)
      members := hmembers
      token := rfl
      driver := rfl
      key := fun i => by split_ifs <;> rfl
      seq := fun i => by split_ifs <;> rfl
      claimed := fun i hi hne => by
        split_ifs at hne with hdriver hhit hhit
        · exact (hs.of_token hc hlive hi (Bool.and_eq_true_iff.mp hhit).1).2.2
        · exact absurd rfl hne
        · exact (hs.of_token hc hlive hi (Bool.and_eq_true_iff.mp hhit).1).2.2
        · exact absurd rfl hne
      isOpen := fun i hi hne => by
        split_ifs at hne with hdriver hhit hhit
        · rw [of_decide_eq_true (Bool.and_eq_true_iff.mp hhit).2]
          rfl
        · exact absurd rfl hne
        · exact ItemStatus.isOpen_of_isDriving (Bool.and_eq_true_iff.mp hhit).2
        · exact absurd rfl hne
      tokens := fun i token htoken => by
        split_ifs at htoken
        · exact htoken
        · exact htoken
        · cases htoken
        · exact htoken
      member := fun m => by split_ifs <;> exact ⟨rfl, rfl⟩
      others := fun m hne => if_neg (by simp [hne])
      settled := fun i hi => by
        split_ifs with hdriver hhit hhit
        · have hselected := of_decide_eq_true (Bool.and_eq_true_iff.mp hhit).2
          rw [Item.become, hs.settlementRef_eq_none hi (by rw [hselected]; rfl)]
          rfl
        · exact hs.settled i hi
        · exact hs.settled_release hi (Bool.and_eq_true_iff.mp hhit).2 now
        · exact hs.settled i hi
      keepsRef := fun i _ ref href => by split_ifs <;> exact href
      settlement := fun m _ ref href => by split_ifs at href <;> exact .inl href }
  have hclaims : ∀ key, t.Claims (c.become .readyForDelivery now) key ↔ key ∈ chosen := by
    intro key
    simp only [Store.Claims, hmembers, Table.mem_update]
    constructor
    · rintro ⟨_, ⟨m, hm, rfl⟩, hitem, hclaim⟩
      obtain ⟨htoken, hselected | ⟨-, hflag⟩⟩ := Member.isClaimedBy_iff.mp hclaim
      · cases hselected
      · split_ifs at hitem htoken hflag with hhit
        · rw [Bool.and_eq_true, List.contains_iff_mem] at hhit
          exact hitem ▸ hhit.2
        · rw [hs.unchosen c hc hstatus m hm htoken] at hflag
          cases hflag
    · intro hkey
      obtain ⟨m, hm, htoken, hitem⟩ := havailable key hkey
      have hhit : (decide (m.token = c.token) && chosen.contains m.item) = true := by
        simp [htoken, hitem, hkey]
      refine ⟨_, ⟨m, hm, rfl⟩, ?_, Member.isClaimedBy_iff.mpr ⟨?_, .inr ⟨rfl, ?_⟩⟩⟩
      · rw [if_pos hhit]
        exact hitem
      · rw [if_pos hhit]
        exact htoken
      · rw [if_pos hhit]
  refine ⟨_, _, _, htouches, fun _ => ?_⟩
  refine ⟨rfl, fun i hi htoken => ?_, fun key hclaim => ?_, fun i hi hclaim => ?_, ?_⟩
  · obtain ⟨hkey, hdriving, hclaim⟩ := hs.of_token hc hlive hi
      (decide_eq_true (htouches.tokens i c.token htoken))
    have hkeeps := hs.keeps c hc i hi hclaim
    rw [Selection.Keeps, if_pos hkey, if_pos hstatus] at hkeeps
    have hhit : i.isDriverOf c.token = true := decide_eq_true hkeeps.1
    split_ifs at htoken ⊢ with hdriver h₁ h₁
    · exact ⟨rfl, (hclaims i.key).mpr (hkey ▸ hdriver)⟩
    · simp [hhit, hkeeps.2] at h₁
    · cases htoken
    · simp [hhit, hdriving] at h₁
  · obtain ⟨m, hm, htoken, hitem⟩ := havailable key ((hclaims key).mp hclaim)
    exact ⟨m, hm, hitem, Member.isClaimedBy_iff.mpr ⟨htoken, .inl hstatus⟩⟩
  · have hin := (hclaims i.key).mp hclaim
    obtain ⟨m, hm, hmtoken, hmitem⟩ := havailable i.key hin
    have hbefore : s.Claims c i.key :=
      ⟨m, hm, hmitem, Member.isClaimedBy_iff.mpr ⟨hmtoken, .inl hstatus⟩⟩
    have hkeeps := hs.keeps c hc i hi hbefore
    by_cases hkey : i.key = c.driver
    · rw [Selection.Keeps, if_pos hkey, if_pos hstatus] at hkeeps
      have hhit : (i.isDriverOf c.token && decide (i.status = .selected)) = true :=
        Bool.and_eq_true_iff.mpr ⟨decide_eq_true hkeeps.1, decide_eq_true hkeeps.2⟩
      rw [if_pos (hkey ▸ hin), if_pos hhit, Selection.Keeps]
      exact (if_pos hkey).mpr ⟨hkeeps.1, rfl⟩
    · have hmiss : i.isDriverOf c.token = false := by
        by_contra htoken
        exact hkey (hs.of_token hc hlive hi (Bool.not_eq_false _ ▸ htoken)).1
      rw [Selection.Keeps, if_neg hkey] at hkeeps
      simp only [hmiss, Bool.false_and, Bool.false_eq_true, if_false, ite_self]
      rw [Selection.Keeps]
      exact (if_neg hkey).mpr hkeeps
  · obtain ⟨key, hkey⟩ := List.exists_mem_of_ne_nil chosen hchosen
    obtain ⟨m, hm, hitem, hclaim⟩ := (hclaims key).mpr hkey
    obtain ⟨htoken, hselected | ⟨-, hflag⟩⟩ := Member.isClaimedBy_iff.mp hclaim
    · cases hselected
    · exact ⟨m, hm, htoken, hflag⟩

/-! ### Changes of items alone -/

/-- A change of items that nothing drives keeps the invariant. -/
theorem Store.ContentSound.revised (hs : s.ContentSound)
    (hitems : t.items.rows = s.items.rows.map f)
    (hselections : t.contentSelections = s.contentSelections)
    (hmembers : t.contentSelectionMembers = s.contentSelectionMembers)
    (hkey : ∀ i, (f i).key = i.key) (htoken : ∀ i, (f i).selectionToken = i.selectionToken)
    (href : ∀ i, (f i).settlementRef = i.settlementRef)
    (hdriving : ∀ i ∈ s.items.rows, i.status.isDriving = true → f i = i)
    (hkeeps : ∀ i ∈ s.items.rows, ∀ c : Selection, c.Keeps i → c.Keeps (f i))
    (hsettled : ∀ i ∈ s.items.rows, (f i).settlementRef.isSome = (f i).status.isSettled) :
    t.ContentSound := by
  have hclaims : ∀ c key, t.Claims c key ↔ s.Claims c key := fun c key => by
    rw [Store.Claims, Store.Claims, hmembers]
  refine ⟨?_, ?_, ?_, ?_, ?_, ?_, ?_, ?_, ?_, ?_⟩
  · rw [hmembers, hselections]
    exact hs.selection
  · rw [hmembers, hselections]
    exact hs.driver
  · rw [hmembers, hitems]
    intro m hm
    obtain ⟨i, hi, hitem⟩ := hs.item m hm
    exact ⟨f i, List.mem_map_of_mem hi, (hkey i).trans hitem⟩
  · rw [hitems, hselections]
    intro i' hi' token htok
    obtain ⟨i, hi, rfl⟩ := List.mem_map.mp hi'
    obtain ⟨c, hc, hctoken, hdriver, hlive⟩ := hs.token i hi token ((htoken i).symm.trans htok)
    refine ⟨c, hc, hctoken, hdriver.trans (hkey i).symm, fun hclive => ?_⟩
    obtain ⟨hdrives, hclaim⟩ := hlive hclive
    rw [hdriving i hi hdrives]
    exact ⟨hdrives, (hclaims _ _).mpr hclaim⟩
  · rw [hselections]
    intro c hc d hd key hclaim hclaim'
    exact hs.exclusive c hc d hd key ((hclaims c key).mp hclaim) ((hclaims d key).mp hclaim')
  · rw [hselections, hitems]
    intro c hc i' hi' hclaim
    obtain ⟨i, hi, rfl⟩ := List.mem_map.mp hi'
    rw [hkey, hclaims] at hclaim
    exact hkeeps i hi c (hs.keeps c hc i hi hclaim)
  · rw [hitems]
    intro i' hi'
    obtain ⟨i, hi, rfl⟩ := List.mem_map.mp hi'
    exact hsettled i hi
  · rw [hselections, hmembers]
    exact hs.unchosen
  · rw [hselections, hmembers]
    exact hs.chosen
  · rw [hmembers, hitems]
    intro m hm ref hmref
    obtain ⟨i, hi, hitem, hiref⟩ := hs.settlement m hm ref hmref
    exact ⟨f i, List.mem_map_of_mem hi, (hkey i).trans hitem, (href i).trans hiref⟩

theorem Store.ContentSound.submitted (hs : s.ContentSound) {new : List Item}
    (hnew : ∀ i ∈ new, i.IsNew) (hitems : t.items.rows = s.items.rows ++ new)
    (hselections : t.contentSelections = s.contentSelections)
    (hmembers : t.contentSelectionMembers = s.contentSelectionMembers) : t.ContentSound := by
  have hclaims : ∀ c key, t.Claims c key ↔ s.Claims c key := fun c key => by
    rw [Store.Claims, Store.Claims, hmembers]
  have hmem : ∀ i ∈ t.items.rows, i ∈ s.items.rows ∨ i.IsNew := by
    rw [hitems]
    intro i hi
    exact (List.mem_append.mp hi).imp_right (hnew i)
  have hold : ∀ i ∈ s.items.rows, i ∈ t.items.rows := by
    rw [hitems]
    exact fun i hi => List.mem_append_left _ hi
  refine ⟨?_, ?_, ?_, ?_, ?_, ?_, ?_, ?_, ?_, ?_⟩
  · rw [hmembers, hselections]
    exact hs.selection
  · rw [hmembers, hselections]
    exact hs.driver
  · rw [hmembers]
    intro m hm
    obtain ⟨i, hi, hitem⟩ := hs.item m hm
    exact ⟨i, hold i hi, hitem⟩
  · rw [hselections]
    intro i hi token htoken
    rcases hmem i hi with hi | ⟨-, hnone, -⟩
    · obtain ⟨c, hc, hctoken, hdriver, hlive⟩ := hs.token i hi token htoken
      exact ⟨c, hc, hctoken, hdriver, fun hclive =>
        (hlive hclive).imp_right (hclaims _ _).mpr⟩
    · rw [hnone] at htoken
      cases htoken
  · rw [hselections]
    intro c hc d hd key hclaim hclaim'
    exact hs.exclusive c hc d hd key ((hclaims c key).mp hclaim) ((hclaims d key).mp hclaim')
  · rw [hselections]
    intro c hc i hi hclaim
    rw [hclaims] at hclaim
    obtain ⟨m, hm, hitem, -⟩ := id hclaim
    obtain ⟨j, hj, hjkey⟩ := hs.item m hm
    have hsame : j = i := t.item_ext (hold j hj) hi (hjkey.trans hitem)
    exact hs.keeps c hc i (hsame ▸ hj) hclaim
  · intro i hi
    rcases hmem i hi with hi | ⟨hpending, -, hnone⟩
    · exact hs.settled i hi
    · rw [hpending, hnone]
      rfl
  · rw [hselections, hmembers]
    exact hs.unchosen
  · rw [hselections, hmembers]
    exact hs.chosen
  · rw [hmembers]
    intro m hm ref hmref
    obtain ⟨i, hi, hitem, hiref⟩ := hs.settlement m hm ref hmref
    exact ⟨i, hold i hi, hitem, hiref⟩

theorem Selection.Keeps.waits (h : c.Keeps i) (hwaiting : i.status.isWaiting = true) :
    i.key ≠ c.driver := by
  intro hkey
  rw [Selection.Keeps, if_pos hkey] at h
  rw [h.2] at hwaiting
  split_ifs at hwaiting <;> cases hwaiting

theorem Store.ContentSound.expired (hs : s.ContentSound) {refs : List ContentRef}
    {instant : String}
    (hitems : t.items.rows
      = s.items.rows.map fun i => if expiring refs i then i.become .expired instant else i)
    (hselections : t.contentSelections = s.contentSelections)
    (hmembers : t.contentSelectionMembers = s.contentSelectionMembers) : t.ContentSound := by
  have hwaiting : ∀ i, expiring refs i = true → i.status.isWaiting = true := by
    intro i hhit
    obtain ⟨ref, -, hexpires⟩ := List.any_eq_true.mp hhit
    exact (Bool.and_eq_true_iff.mp hexpires).2
  refine hs.revised hitems hselections hmembers ?_ ?_ ?_ ?_ ?_ ?_
  · intro i
    split_ifs <;> rfl
  · intro i
    split_ifs <;> rfl
  · intro i
    split_ifs <;> rfl
  · intro i _ hdriving
    refine if_neg fun hhit => ?_
    have hwaits := hwaiting i hhit
    cases hstatus : i.status <;> rw [hstatus] at hdriving hwaits <;> cases hdriving <;> cases hwaits
  · intro i _ c hkeeps
    split_ifs with hhit
    · rw [Selection.Keeps]
      exact (if_neg (hkeeps.waits (hwaiting i hhit))).mpr (.inr (.inr rfl))
    · exact hkeeps
  · intro i hi
    split_ifs with hhit
    · rw [Item.become, hs.settlementRef_eq_none hi (ItemStatus.not_isSettled_of_isOpen
        (by rw [ItemStatus.isOpen, hwaiting i hhit, Bool.true_or]))]
      rfl
    · exact hs.settled i hi

/-- Acknowledging a delivered item keeps the invariant. -/
theorem Store.ContentSound.acknowledged (hs : s.ContentSound) (hi : i ∈ s.items.rows)
    (hstatus : i.status = .delivered) (hitems : t.items.rows = s.items.rows.map fun j =>
      if j.key = i.key then j.become .settled now else j)
    (hselections : t.contentSelections = s.contentSelections)
    (hmembers : t.contentSelectionMembers = s.contentSelectionMembers) : t.ContentSound := by
  refine hs.revised hitems hselections hmembers ?_ ?_ ?_ ?_ ?_ ?_
  · intro j
    split_ifs <;> rfl
  · intro j
    split_ifs <;> rfl
  · intro j
    split_ifs <;> rfl
  · intro j hj hdriving
    refine if_neg fun hkey => ?_
    rw [s.item_ext hj hi hkey, hstatus] at hdriving
    cases hdriving
  · intro j hj c hkeeps
    split_ifs with hkey
    · obtain rfl := s.item_ext hj hi hkey
      rw [Selection.Keeps, hstatus] at hkeeps
      split_ifs at hkeeps
      · cases hkeeps.2
      · cases hkeeps.2
      · rcases hkeeps with h | h | h <;> cases h
    · exact hkeeps
  · intro j hj
    split_ifs with hkey
    · have hsettled := hs.settled j hj
      rw [s.item_ext hj hi hkey, hstatus] at hsettled
      rw [Item.become, s.item_ext hj hi hkey]
      exact hsettled
    · exact hs.settled j hj

/-! ### New claims -/

theorem mem_newMembers {token : String} {m : Member} (h : m ∈ newMembers token keys) :
    m.token = token ∧ m.item ∈ keys ∧ m.selectedForDelivery = false ∧ m.settlementRef = none := by
  obtain ⟨⟨key, n⟩, hkey, rfl⟩ := List.mem_map.mp h
  exact ⟨rfl, (List.mem_zipIdx hkey).2.2 ▸ List.getElem_mem _, rfl, rfl⟩

theorem exists_newMember (token : String) (h : key ∈ keys) :
    ∃ m ∈ newMembers token keys, m.token = token ∧ m.item = key := by
  obtain ⟨n, hn, rfl⟩ := List.getElem_of_mem h
  exact ⟨⟨token, n + 1, keys[n], false, none⟩,
    List.mem_map.mpr ⟨(keys[n], n), List.mk_mem_zipIdx_iff_getElem?.mpr (by simp [hn]), rfl⟩,
    rfl, rfl⟩

theorem ItemStatus.isWaiting_iff :
    status.isWaiting = true ↔ status = .pending ∨ status = .deferred := by
  cases status <;> simp [ItemStatus.isWaiting]

theorem ContentAction.isLive_of_allows {action : ContentAction} {status : SelectionStatus}
    (h : action.allows status = true) : status.isLive = true := by
  rw [ContentAction.allows, Bool.or_eq_true, Bool.and_eq_true, decide_eq_true_eq,
    decide_eq_true_eq] at h
  rcases h with h | ⟨h, -⟩ <;> rw [h] <;> rfl

theorem Store.fresh_of_append
    (hselections : t.contentSelections.rows = s.contentSelections.rows ++ [c]) :
    ∀ d ∈ s.contentSelections.rows, d.token ≠ c.token := by
  intro d hd htoken
  have hunique := t.selections_unique
  rw [hselections, Table.Unique, List.filterMap_append, List.filterMap_cons,
    List.filterMap_nil] at hunique
  exact List.disjoint_of_nodup_append hunique (List.mem_filterMap.mpr ⟨d, hd, rfl⟩)
    (by rw [htoken]; exact List.mem_singleton_self _)

theorem Store.ContentSound.claimed (hs : s.ContentSound) {turn : AcceptedTurn}
    (hstatus : c.status = .selected) (hdriver : c.driver ∈ keys)
    (hcandidates : ∀ key ∈ keys, s.isClaimed key = false ∧
      ∃ i ∈ s.items.rows, i.key = key ∧ i.status.isWaiting = true) (hitems : t.items.rows
      = s.items.rows.map fun i => if i.key = c.driver then i.drive c.token turn now else i)
    (hselections : t.contentSelections.rows = s.contentSelections.rows ++ [c])
    (hmembers : t.contentSelectionMembers.rows
      = s.contentSelectionMembers.rows ++ newMembers c.token keys) : t.ContentSound := by
  have hfresh := Store.fresh_of_append hselections
  have hold : ∀ m ∈ s.contentSelectionMembers.rows, m.token ≠ c.token := by
    intro m hm
    obtain ⟨d, hd, htoken⟩ := hs.selection m hm
    rw [← htoken]
    exact hfresh d hd
  have hfree : ∀ key ∈ keys, ∀ d ∈ s.contentSelections.rows, ¬s.Claims d key := by
    intro key hkey d hd hclaim
    have hclaimed := Store.isClaimed_iff.mpr ⟨d, hd, hclaim⟩
    rw [(hcandidates key hkey).1] at hclaimed
    cases hclaimed
  have hnewclaims : ∀ key, t.Claims c key ↔ key ∈ keys := by
    intro key
    simp only [Store.Claims, hmembers, List.mem_append]
    constructor
    · rintro ⟨m, hm | hm, hitem, hclaim⟩
      · exact absurd (Member.isClaimedBy_iff.mp hclaim).1 (hold m hm)
      · exact hitem ▸ (mem_newMembers hm).2.1
    · intro hkey
      obtain ⟨m, hm, htoken, hitem⟩ := exists_newMember c.token hkey
      exact ⟨m, .inr hm, hitem, Member.isClaimedBy_iff.mpr ⟨htoken, .inl hstatus⟩⟩
  have hclaims : ∀ d ∈ s.contentSelections.rows, ∀ key, t.Claims d key ↔ s.Claims d key := by
    intro d hd key
    simp only [Store.Claims, hmembers, List.mem_append]
    constructor
    · rintro ⟨m, hm | hm, hitem, hclaim⟩
      · exact ⟨m, hm, hitem, hclaim⟩
      · exact absurd ((Member.isClaimedBy_iff.mp hclaim).1.symm.trans (mem_newMembers hm).1)
          (hfresh d hd)
    · rintro ⟨m, hm, hclaim⟩
      exact ⟨m, .inl hm, hclaim⟩
  have hmemt : ∀ d ∈ t.contentSelections.rows, d ∈ s.contentSelections.rows ∨ d = c := by
    rw [hselections]
    exact fun d hd => (List.mem_append.mp hd).imp_right List.mem_singleton.mp
  have hc : c ∈ t.contentSelections.rows := by
    rw [hselections]
    exact List.mem_append_right _ (List.mem_singleton_self _)
  have hmems : ∀ d ∈ s.contentSelections.rows, d ∈ t.contentSelections.rows := by
    rw [hselections]
    exact fun d hd => List.mem_append_left _ hd
  have hmap : ∀ i ∈ s.items.rows,
      (if i.key = c.driver then i.drive c.token turn now else i) ∈ t.items.rows := by
    rw [hitems]
    exact fun i hi => List.mem_map_of_mem hi
  have hkeyf : ∀ i : Item, (if i.key = c.driver then i.drive c.token turn now else i).key = i.key :=
    fun i => by split_ifs <;> rfl
  have hwaits : ∀ i ∈ s.items.rows, i.key ∈ keys → i.status.isWaiting = true := by
    intro i hi hkey
    obtain ⟨-, j, hj, hjkey, hwaiting⟩ := hcandidates i.key hkey
    exact s.item_ext hj hi hjkey ▸ hwaiting
  refine ⟨?_, ?_, ?_, ?_, ?_, ?_, ?_, ?_, ?_, ?_⟩
  · rw [hmembers]
    intro m hm
    rcases List.mem_append.mp hm with hm | hm
    · obtain ⟨d, hd, htoken⟩ := hs.selection m hm
      exact ⟨d, hmems d hd, htoken⟩
    · exact ⟨c, hc, (mem_newMembers hm).1.symm⟩
  · intro d hd
    rw [hmembers]
    rcases hmemt d hd with hd | rfl
    · obtain ⟨m, hm, hmdriver⟩ := hs.driver d hd
      exact ⟨m, List.mem_append_left _ hm, hmdriver⟩
    · obtain ⟨m, hm, htoken, hitem⟩ := exists_newMember d.token hdriver
      exact ⟨m, List.mem_append_right _ hm, htoken, hitem⟩
  · rw [hmembers]
    intro m hm
    rcases List.mem_append.mp hm with hm | hm
    · obtain ⟨i, hi, hitem⟩ := hs.item m hm
      exact ⟨_, hmap i hi, (hkeyf i).trans hitem⟩
    · obtain ⟨-, i, hi, hkey, -⟩ := hcandidates m.item (mem_newMembers hm).2.1
      exact ⟨_, hmap i hi, (hkeyf i).trans hkey⟩
  · rw [hitems]
    intro i' hi' token htoken
    obtain ⟨i, hi, rfl⟩ := List.mem_map.mp hi'
    rw [hkeyf]
    split_ifs at htoken ⊢ with hkey
    · obtain rfl := Option.some.inj htoken
      exact ⟨c, hc, rfl, hkey.symm, fun _ => ⟨rfl, (hnewclaims _).mpr (hkey ▸ hdriver)⟩⟩
    · obtain ⟨d, hd, hdtoken, hddriver, hlive⟩ := hs.token i hi token htoken
      exact ⟨d, hmems d hd, hdtoken, hddriver, fun hdlive =>
        (hlive hdlive).imp_right (hclaims d hd _).mpr⟩
  · intro d hd e he key hclaim hclaim'
    rcases hmemt d hd with hd | rfl <;> rcases hmemt e he with he | rfl
    · exact hs.exclusive d hd e he key ((hclaims d hd key).mp hclaim) ((hclaims e he key).mp hclaim')
    · exact absurd ((hclaims d hd key).mp hclaim) (hfree key ((hnewclaims key).mp hclaim') d hd)
    · exact absurd ((hclaims e he key).mp hclaim') (hfree key ((hnewclaims key).mp hclaim) e he)
    · rfl
  · intro d hd i' hi' hclaim
    rw [hitems] at hi'
    obtain ⟨i, hi, rfl⟩ := List.mem_map.mp hi'
    rw [hkeyf] at hclaim
    rcases hmemt d hd with hd | rfl
    · have hbefore := (hclaims d hd _).mp hclaim
      have hkey : i.key ≠ c.driver := fun hkey => hfree _ (hkey ▸ hdriver) d hd hbefore
      rw [if_neg hkey]
      exact hs.keeps d hd i hi hbefore
    · have hwaiting := hwaits i hi ((hnewclaims _).mp hclaim)
      split_ifs with hkey
      · rw [Selection.Keeps, if_pos hstatus]
        exact (if_pos hkey).mpr ⟨rfl, rfl⟩
      · rw [Selection.Keeps]
        refine (if_neg hkey).mpr ?_
        rcases ItemStatus.isWaiting_iff.mp hwaiting with hpending | hdeferred
        · exact .inl hpending
        · exact .inr (.inl hdeferred)
  · rw [hitems]
    intro i' hi'
    obtain ⟨i, hi, rfl⟩ := List.mem_map.mp hi'
    split_ifs with hkey
    · rw [Item.drive, hs.settlementRef_eq_none hi (ItemStatus.not_isSettled_of_isOpen
        (by rw [ItemStatus.isOpen, hwaits i hi (hkey ▸ hdriver), Bool.true_or]))]
      rfl
    · exact hs.settled i hi
  · intro d hd hselected m hm htoken
    rw [hmembers] at hm
    rcases List.mem_append.mp hm with hm | hm
    · rcases hmemt d hd with hd | hsame
      · exact hs.unchosen d hd hselected m hm htoken
      · rw [hsame] at htoken
        exact absurd htoken (hold m hm)
    · exact (mem_newMembers hm).2.2.1
  · intro d hd hready
    rw [hmembers]
    rcases hmemt d hd with hd | rfl
    · obtain ⟨m, hm, hchosen⟩ := hs.chosen d hd hready
      exact ⟨m, List.mem_append_left _ hm, hchosen⟩
    · rw [hstatus] at hready
      cases hready
  · rw [hmembers]
    intro m hm ref href
    rcases List.mem_append.mp hm with hm | hm
    · obtain ⟨i, hi, hitem, hiref⟩ := hs.settlement m hm ref href
      refine ⟨_, hmap i hi, (hkeyf i).trans hitem, ?_⟩
      split_ifs <;> exact hiref
    · rw [(mem_newMembers hm).2.2.2] at href
      cases href

theorem Store.ContentMove.changesBy {token : String} (h : s.ContentMove t (.selection token))
    (hs : s.ContentSound) : ∃ c ∈ s.contentSelections.rows, c.token = token ∧ s.ChangesBy t c := by
  cases h with
  | readied now c hc hstatus chosen hchosen havailable hitems hselections hmembers =>
      exact ⟨c, hc, rfl, hs.readied hc hstatus hchosen havailable hitems hselections hmembers⟩
  | released now c hc hstatus hitems hselections hmembers =>
      exact ⟨c, hc, rfl, hs.released hc hstatus hitems hselections hmembers⟩
  | finished now c hc action hallows hending hfailed deadline hitems hselections hmembers =>
      exact ⟨c, hc, rfl, hs.finished hc (ContentAction.isLive_of_allows hallows) hending hitems
        hselections hmembers⟩
  | failed now c hc hstatus hitems hselections hmembers =>
      exact ⟨c, hc, rfl, hs.failed hc hstatus hitems hselections hmembers⟩
  | settled now settlement c hc hstatus refOf h =>
      exact ⟨c, hc, rfl, hs.settled_delivery hc hstatus h⟩

/-- **Every move keeps the invariant.** -/
theorem Store.ContentMove.sound (h : s.ContentMove t label) (hs : s.ContentSound) :
    t.ContentSound := by
  cases label with
  | selection token =>
      obtain ⟨c, hc, -, c', f, g, htouches, hlive⟩ := h.changesBy hs
      exact htouches.sound hs hc hlive
  | expiry refs =>
      cases h with
      | expired _ instant hitems hselections hmembers =>
          exact hs.expired hitems hselections hmembers
  | other =>
      cases h with
      | same h =>
          exact hs.revised (f := id) (by rw [h.items, List.map_id]) h.selections h.members
            (fun _ => rfl) (fun _ => rfl) (fun _ => rfl) (fun _ _ _ => rfl) (fun _ _ _ h => h)
            hs.settled
      | submitted new hnew hitems hselections hmembers =>
          exact hs.submitted hnew hitems hselections hmembers
      | claimed token now turn c keys htoken hstatus hdriver hkeys hcandidates hitems hselections
          hmembers =>
          subst htoken
          exact hs.claimed hstatus hdriver hcandidates hitems hselections hmembers
      | acknowledged now i hi hstatus hitems hselections hmembers =>
          exact hs.acknowledged hi hstatus hitems hselections hmembers

/-! ### Runs -/

/-- The content as a transition system: the calls, one after the other. -/
def contentRuns (lib : Stdlib) : Transition.System Store ContentCall where
  init s := s = .empty
  step s call t := t = call.after lib s

/-- **The invariant holds of every reachable state.** -/
theorem contentSound_of_reachable (h : (contentRuns lib).Reachable s) : s.ContentSound := by
  refine Transition.System.ReachableVia.invariant (I := Store.ContentSound) ?_ ?_ h
  · rintro s rfl
    exact Store.contentSound_empty
  · rintro s call t hs - rfl
    obtain ⟨label, hmove, -⟩ := call.moves lib s
    exact hmove.sound hs

/-! ### Claimed items -/

theorem Store.Touches.kept {d d' : Selection} {g : Member → Member} (h : s.Touches t d d' f g)
    (hs : s.ContentSound) (hd : d ∈ s.contentSelections.rows) (hc : c ∈ s.contentSelections.rows)
    (hne : c.token ≠ d.token) (hi : i ∈ s.items.rows) (hclaim : s.Claims c i.key) :
    c ∈ t.contentSelections.rows ∧ t.Claims c i.key ∧ i ∈ t.items.rows := by
  refine ⟨?_, (h.claims_other hne).mpr hclaim, ?_⟩
  · rw [h.selections, List.mem_map]
    exact ⟨c, hc, if_neg hne⟩
  · rw [h.items, List.mem_map]
    exact ⟨i, hi, h.untouched hs hd hc hne hi hclaim⟩

/-- A move about nothing a selection claims leaves the claim and its item alone, unless it
expires the item. -/
theorem Store.ContentMove.kept (h : s.ContentMove t label) (hs : s.ContentSound)
    (hc : c ∈ s.contentSelections.rows) (hlabel : label ≠ .selection c.token)
    (hi : i ∈ s.items.rows) (hclaim : s.Claims c i.key)
    (hspares : ∀ refs, label = .expiry refs → expiring refs i = false) :
    c ∈ t.contentSelections.rows ∧ t.Claims c i.key ∧ i ∈ t.items.rows := by
  have hsame : t.contentSelections = s.contentSelections →
      t.contentSelectionMembers = s.contentSelectionMembers →
      c ∈ t.contentSelections.rows ∧ t.Claims c i.key := by
    intro hselections hmembers
    rw [hselections, Store.Claims, hmembers]
    exact ⟨hc, hclaim⟩
  cases label with
  | selection token =>
      obtain ⟨d, hd, rfl, d', f, g, htouches, -⟩ := h.changesBy hs
      exact htouches.kept hs hd hc (fun htoken => hlabel (by rw [htoken])) hi hclaim
  | expiry refs =>
      cases h with
      | expired _ instant hitems hselections hmembers =>
          obtain ⟨hc', hclaim'⟩ := hsame hselections hmembers
          refine ⟨hc', hclaim', ?_⟩
          rw [hitems, List.mem_map]
          exact ⟨i, hi, by rw [hspares refs rfl]; rfl⟩
  | other =>
      cases h with
      | same h =>
          obtain ⟨hc', hclaim'⟩ := hsame h.selections h.members
          exact ⟨hc', hclaim', by rw [h.items]; exact hi⟩
      | submitted new hnew hitems hselections hmembers =>
          obtain ⟨hc', hclaim'⟩ := hsame hselections hmembers
          exact ⟨hc', hclaim', by rw [hitems]; exact List.mem_append_left _ hi⟩
      | claimed token now turn d keys htoken hstatus hdriver hkeys hcandidates hitems hselections
          hmembers =>
          have hfree : i.key ≠ d.driver := by
            intro hkey
            have hclaimed := Store.isClaimed_iff.mpr ⟨c, hc, hclaim⟩
            rw [(hcandidates i.key (hkey ▸ hdriver)).1] at hclaimed
            cases hclaimed
          refine ⟨?_, ?_, ?_⟩
          · rw [hselections]
            exact List.mem_append_left _ hc
          · obtain ⟨m, hm, hitem⟩ := hclaim
            refine ⟨m, ?_, hitem⟩
            rw [hmembers]
            exact List.mem_append_left _ hm
          · rw [hitems, List.mem_map]
            exact ⟨i, hi, if_neg hfree⟩
      | acknowledged now j hj hstatus hitems hselections hmembers =>
          obtain ⟨hc', hclaim'⟩ := hsame hselections hmembers
          refine ⟨hc', hclaim', ?_⟩
          rw [hitems, List.mem_map]
          refine ⟨i, hi, if_neg fun hkey => ?_⟩
          have hkeeps := hs.keeps c hc i hi hclaim
          rw [s.item_ext hi hj hkey, Selection.Keeps, hstatus] at hkeeps
          split_ifs at hkeeps
          · cases hkeeps.2
          · cases hkeeps.2
          · rcases hkeeps with h | h | h <;> cases h

/-- A call expires nothing that a selection claims. -/
def ContentCall.Spares (s : Store) (call : ContentCall) : Prop :=
  ∀ now itemRefs instant refs, call = .expire now itemRefs instant →
    itemRefs.mapM normalizeRef = .ok refs →
    ∀ i ∈ s.items.rows, expiring refs i = true → s.isClaimed i.key = false

/-- **Claimed items are left alone**: over calls that do not name the selection and expire
nothing that is claimed, the claim and the row of its item stay. -/
theorem kept_of_run (hs : s.ContentSound) (hc : c ∈ s.contentSelections.rows)
    (hi : i ∈ s.items.rows) (hclaim : s.Claims c i.key) (hrun : (contentRuns lib).RunVia
      (fun s call => call.token? ≠ some c.token ∧ call.Spares s) s t) :
    c ∈ t.contentSelections.rows ∧ t.Claims c i.key ∧ i ∈ t.items.rows := by
  have hboth : t.ContentSound ∧
      c ∈ t.contentSelections.rows ∧ t.Claims c i.key ∧ i ∈ t.items.rows := by
    refine Transition.System.RunVia.preserves
      (I := fun t => t.ContentSound ∧ c ∈ t.contentSelections.rows ∧ t.Claims c i.key ∧
        i ∈ t.items.rows) ?_ hrun ⟨hs, hc, hclaim, hi⟩
    rintro s call t ⟨hs, hc, hclaim, hi⟩ ⟨hname, hspares⟩ rfl
    obtain ⟨label, hmove, hasks⟩ := call.moves lib s
    refine ⟨hmove.sound hs, hmove.kept hs hc ?_ hi hclaim ?_⟩
    · rintro rfl
      exact hname hasks
    · rintro refs rfl
      obtain ⟨now, itemRefs, instant, hcall, hrefs⟩ := hasks
      by_contra hexpires
      have hfree := hspares now itemRefs instant refs hcall hrefs i hi
        (Bool.not_eq_false _ ▸ hexpires)
      rw [Store.isClaimed_iff.mpr ⟨c, hc, hclaim⟩] at hfree
      cases hfree
  exact hboth.2

/-! ### Ended items -/

/-- An item with its key that has ended. -/
def Store.Ended (s : Store) (key : ItemKey) : Prop :=
  ∃ i ∈ s.items.rows, i.key = key ∧ i.status.isOpen = false

theorem Store.Ended.map (h : s.Ended key) (hitems : t.items.rows = s.items.rows.map f)
    (hended : ∀ i ∈ s.items.rows, i.status.isOpen = false →
      (f i).key = i.key ∧ (f i).status.isOpen = false) : t.Ended key := by
  obtain ⟨i, hi, hkey, hclosed⟩ := h
  obtain ⟨hkey', hclosed'⟩ := hended i hi hclosed
  refine ⟨f i, ?_, hkey'.trans hkey, hclosed'⟩
  rw [hitems]
  exact List.mem_map_of_mem hi

/-- **Endings are final**: every move leaves an ended item ended. -/
theorem Store.ContentMove.ended (h : s.ContentMove t label) (hs : s.ContentSound)
    (hended : s.Ended key) : t.Ended key := by
  cases label with
  | selection token =>
      obtain ⟨d, hd, rfl, d', f, g, htouches, -⟩ := h.changesBy hs
      refine hended.map htouches.items fun i hi hclosed => ⟨htouches.key i, ?_⟩
      have hsame : f i = i := by
        by_contra hne
        rw [htouches.isOpen i hi hne] at hclosed
        cases hclosed
      rw [hsame]
      exact hclosed
  | expiry refs =>
      cases h with
      | expired _ instant hitems hselections hmembers =>
          refine hended.map hitems fun i _ hclosed => ?_
          split_ifs <;> exact ⟨rfl, by first | rfl | exact hclosed⟩
  | other =>
      cases h with
      | same h =>
          rw [Store.Ended, h.items]
          exact hended
      | submitted new hnew hitems hselections hmembers =>
          obtain ⟨i, hi, hkey⟩ := hended
          refine ⟨i, ?_, hkey⟩
          rw [hitems]
          exact List.mem_append_left _ hi
      | claimed token now turn c keys htoken hstatus hdriver hkeys hcandidates hitems hselections
          hmembers =>
          refine hended.map hitems fun i hi hclosed => ?_
          have hne : i.key ≠ c.driver := by
            intro hkey
            obtain ⟨-, j, hj, hjkey, hwaiting⟩ := hcandidates c.driver hdriver
            rw [s.item_ext hi hj (hkey.trans hjkey.symm), ItemStatus.isOpen, hwaiting,
              Bool.true_or] at hclosed
            cases hclosed
          rw [if_neg hne]
          exact ⟨rfl, hclosed⟩
      | acknowledged now j hj hstatus hitems hselections hmembers =>
          refine hended.map hitems fun i _ hclosed => ?_
          split_ifs <;> exact ⟨rfl, by first | rfl | exact hclosed⟩

theorem ended_of_run (hs : s.ContentSound) (hended : s.Ended key)
    (hrun : (contentRuns lib).Run s t) : t.Ended key := by
  have hboth : t.ContentSound ∧ t.Ended key := by
    refine Transition.System.RunVia.preserves
      (I := fun t => t.ContentSound ∧ t.Ended key) ?_ hrun ⟨hs, hended⟩
    rintro s call t ⟨hs, hended⟩ - rfl
    obtain ⟨label, hmove, -⟩ := call.moves lib s
    exact ⟨hmove.sound hs, hmove.ended hs hended⟩
  exact hboth.2

/-! ### The lifecycle -/

/-- **Claims on content are exclusive and endings are final**, over every sequence of calls. -/
structure ContentLifecycle (lib : Stdlib) : Prop where
  /-- An item is claimed by one selection at most. -/
  exclusive : ∀ s, (contentRuns lib).Reachable s → ∀ c ∈ s.contentSelections.rows,
    ∀ d ∈ s.contentSelections.rows, ∀ key, s.Claims c key → s.Claims d key → c = d
  /-- Calls that do not name the selection and expire nothing claimed leave its items alone. -/
  kept : ∀ s, (contentRuns lib).Reachable s → ∀ c ∈ s.contentSelections.rows,
    ∀ i ∈ s.items.rows, s.Claims c i.key → ∀ t,
    (contentRuns lib).RunVia (fun s call => call.token? ≠ some c.token ∧ call.Spares s) s t →
    c ∈ t.contentSelections.rows ∧ t.Claims c i.key ∧ i ∈ t.items.rows
  /-- An expiry takes effect on every item it names, claimed or not. -/
  expires : ∀ s, (contentRuns lib).Reachable s → ∀ now itemRefs instant answer t refs,
    (ContentCall.expire now itemRefs instant).exec lib s = .ok (answer, t) →
    itemRefs.mapM normalizeRef = .ok refs → ∀ i ∈ s.items.rows, expiring refs i = true →
    ∃ j ∈ t.items.rows, j.key = i.key ∧ j.status = .expired
  /-- An ended item never becomes open again. -/
  final : ∀ s, (contentRuns lib).Reachable s → ∀ i ∈ s.items.rows, i.status.isOpen = false →
    ∀ t, (contentRuns lib).Run s t → ∃ j ∈ t.items.rows, j.key = i.key ∧ j.status.isOpen = false
  /-- A turn has one selection at most. -/
  turns : ∀ s, (contentRuns lib).Reachable s → ∀ c ∈ s.contentSelections.rows,
    ∀ d ∈ s.contentSelections.rows, c.acceptedTurn = d.acceptedTurn → c = d
  /-- A delivered or settled item has a settlement that no other item has. -/
  settlements : ∀ s, (contentRuns lib).Reachable s → ∀ i ∈ s.items.rows,
    i.status = .delivered ∨ i.status = .settled →
    ∃ ref, i.settlementRef = some ref ∧ ∀ j ∈ s.items.rows, j.settlementRef = some ref → j = i

/-- **Claims are exclusive and endings are final**, and the items of a claim are left alone by
every call that expires nothing claimed. -/
theorem contentClaims_hold (lib : Stdlib) : ContentLifecycle lib where
  exclusive s hreach := (contentSound_of_reachable hreach).exclusive
  kept s hreach c hc i hi hclaim t hrun :=
    kept_of_run (contentSound_of_reachable hreach) hc hi hclaim hrun
  expires s _ now itemRefs instant answer t refs hexec hrefs i hi hexpires := by
    obtain ⟨⟨r, u⟩, hexpire, heq⟩ := Exceptions.map_eq_ok.mp hexec
    cases heq
    obtain ⟨refs', text, hrefs', hitems, -⟩ := Store.expire_moves hexpire
    obtain rfl := Except.ok.inj (hrefs.symm.trans hrefs')
    refine ⟨i.become .expired text, ?_, rfl, rfl⟩
    rw [id_eq, hitems, List.mem_map]
    exact ⟨i, hi, if_pos hexpires⟩
  final s hreach i hi hclosed t hrun :=
    ended_of_run (contentSound_of_reachable hreach) ⟨i, hi, rfl, hclosed⟩ hrun
  turns s _ c hc d hd hturn := s.selections_turn.eq_of_key hc hd rfl (congrArg some hturn.symm)
  settlements s hreach i hi hstatus := by
    have hsettled := (contentSound_of_reachable hreach).settled i hi
    have hsome : i.status.isSettled = true := by
      rcases hstatus with h | h <;> rw [h] <;> rfl
    rw [hsome] at hsettled
    obtain ⟨ref, href⟩ := Option.isSome_iff_exists.mp hsettled
    exact ⟨ref, href, fun j hj hjref => s.items_settlement.eq_of_key hj hi hjref href⟩

/-- A digest that tells the details of the runs below apart. -/
def plainDigest : Detail → String
  | .empty => ""
  | .by mailId => mailId
  | .turn turn => turn.turnId
  | .notBefore text => text
  | .expired text => text
  | .claim token _ => token
  | .selection token _ => token
  | .settlement ref => ref
  | .projected _ state _ => String.ofList (List.replicate state.stateVersion 'v')

/-- A standard library for the runs below. -/
def plainStdlib : Stdlib where
  digest := plainDigest
  sha256 := id
  fingerprint _ := ""
  fromIso _ := valueError ""

/-- A reference to an item of the runs below. -/
def plainRef (itemId : String) (stateVersion : ℕ) : Json :=
  .obj [("source_id", .str "s"), ("item_id", .str itemId), ("revision", .str "r"),
    ("state_version", .int stateVersion)]

/-- An instant in 1997. -/
def plainInstant : Datetime :=
  ⟨63000000000000000, some 0⟩

/-- Two items that are submitted and claimed together: the first drives the claim. -/
def claimingCalls : List ContentCall :=
  let item (id : String) : Json := .obj [("item_id", .str id), ("revision", .str "r"),
    ("payload", .obj [])]
  let turn : Json := .obj [("session_id", .str "s"), ("turn_id", .str "t")]
  [.submit "0" (.str "s") (.str "b") [item "x", item "y"],
    .select "1" "f" [plainRef "x" 1, plainRef "y" 1] 2 turn plainInstant]

/-- The store after some calls. -/
def runContent (lib : Stdlib) (calls : List ContentCall) : Store :=
  calls.foldl (fun s call => call.after lib s) .empty

theorem reachable_runContent (lib : Stdlib) (calls : List ContentCall) :
    (contentRuns lib).Reachable (runContent lib calls) :=
  ⟨.empty, rfl, Transition.System.run_foldl (fun _ _ => rfl) _ _⟩

/-- **A claim does not protect its items**: the second item of `claimingCalls` is claimed and
expires under a call that names no selection. -/
theorem contentClaims_expired : ¬∀ (lib : Stdlib) s, (contentRuns lib).Reachable s →
    ∀ c ∈ s.contentSelections.rows, ∀ i ∈ s.items.rows, s.Claims c i.key →
    ∀ call : ContentCall, call.token? ≠ some c.token →
    ∀ j ∈ (call.after lib s).items.rows, j.key = i.key → j.status = i.status := by
  intro h
  let c : Selection := ⟨"content-selection:f", ⟨"s", "t"⟩, 2, .selected, ⟨"s", "x", "r"⟩,
    "items_v1", none, "1", "1"⟩
  let i : Item := ⟨⟨"s", "y", "r"⟩, "{}", 2, .pending, immediateNotBefore, true, 1, none, none,
    none, "0", "0"⟩
  let j : Item := { i with
    status := .expired
    itemStateVersion := 2
    updatedAt := "1997-05-23T16:00:00+00:00" }
  have hstatus := h plainStdlib (runContent plainStdlib claimingCalls)
    (reachable_runContent _ _) c (by decide) i (by decide)
    ⟨⟨c.token, 2, i.key, false, none⟩, by decide, rfl, by decide⟩
    (.expire "2" [plainRef "y" 1] plainInstant) (by decide) j (by decide) rfl
  cases hstatus

end Kirakira.EventMail
