import Kirakira.MailFrames

/-!
# Settlements of Batches

A selection that is ready has a message on its way; once it was delivered, `settle_delivery`
must settle the members the message represents. It does so unless one of them has expired:
`expire` looks at the version and the status of an item, and neither changes when an item is
claimed or chosen, so a chosen member that is not the driver can be gone when the message
arrives. Then every attempt to settle raises.

## Main results

* `Store.CanSettle` — no chosen member has expired, and the references of the members are free.
* `settlements_hold` — **a batch that is ready can be settled exactly when this holds**, with
  the effects, the repetition and the rejection that `settle_delivery` promises.
* `settlements_expired` — a batch that is ready and can never be settled.
-/

namespace Kirakira.EventMail

open Exceptions

variable {lib : Stdlib} {now : String} {s t : Store}

/-! ### Statements that succeed -/

theorem write_of_holds {α : Type} {indexes : List (Table.Index α)} {rows : List α}
    (h : ∀ i ∈ indexes, i.Holds rows) : ∃ p : Table.Rows indexes, p.rows = rows :=
  ⟨⟨rows, h⟩, rfl⟩

variable {ref settlement : String} {c : Selection}

theorem Store.settle_holds (hit : Item → Bool) (status : ItemStatus) (now : String)
    (hone : ∀ i ∈ s.items.rows, ∀ j ∈ s.items.rows, hit i = true → hit j = true → i = j)
    (hfresh : ∀ j ∈ s.items.rows, j.settlementRef ≠ some ref) :
    ∀ x ∈ itemIndexes, x.Holds (Table.update hit (Item.settle status ref now) s.items.rows) := by
  have hheld := s.items.holds
  simp only [itemIndexes, List.forall_mem_cons, List.not_mem_nil, false_implies, implies_true,
    and_true] at hheld ⊢
  obtain ⟨hkey, hseq, htoken, href, hturn⟩ := hheld
  refine ⟨Table.Unique.update_sub hkey fun _ _ => id, Table.Unique.update_sub hseq fun _ _ => id,
    Table.Unique.update_sub htoken fun _ _ => id, ?_, Table.Unique.update_sub hturn fun _ _ => id⟩
  refine Table.Unique.update_fresh href s.items_unique.nodup hone fun i _ _ k hk j hj => ?_
  obtain rfl := Option.some.inj hk
  exact hfresh j hj

theorem Store.release_holds (hit : Item → Bool) (now : String) (s : Store) :
    ∀ x ∈ itemIndexes, x.Holds (Table.update hit (Item.release now) s.items.rows) := by
  have hheld := s.items.holds
  simp only [itemIndexes, List.forall_mem_cons, List.not_mem_nil, false_implies, implies_true,
    and_true] at hheld ⊢
  obtain ⟨hkey, hseq, htoken, href, hturn⟩ := hheld
  exact ⟨Table.Unique.update_sub hkey fun _ _ => id, Table.Unique.update_sub hseq fun _ _ => id,
    Table.Unique.update_sub htoken (fun _ _ h => by cases h),
    Table.Unique.update_sub href fun _ _ => id,
    Table.Unique.update_sub hturn (fun _ _ h => by cases h)⟩

theorem Store.settleMember_holds (token : String) (key : ItemKey)
    (hfresh : ∀ m ∈ s.contentSelectionMembers.rows, m.settlementRef ≠ some ref) :
    ∀ x ∈ memberIndexes, x.Holds (Table.update (fun m => m.token = token && m.item = key)
      (fun m => { m with settlementRef := some ref }) s.contentSelectionMembers.rows) := by
  have hheld := s.contentSelectionMembers.holds
  simp only [memberIndexes, List.forall_mem_cons, List.not_mem_nil, false_implies, implies_true,
    and_true] at hheld ⊢
  obtain ⟨hkey, href⟩ := hheld
  refine ⟨Table.Unique.update_sub hkey fun _ _ => id, ?_⟩
  refine Table.Unique.update_fresh href s.members_unique.nodup ?_ fun m _ _ k hk n hn => ?_
  · intro m hm n hn hhit hhit'
    rw [Bool.and_eq_true, decide_eq_true_eq, decide_eq_true_eq] at hhit hhit'
    exact Store.member_ext hm hn (hhit.1.trans hhit'.1.symm) (hhit.2.trans hhit'.2.symm)
  · obtain rfl := Option.some.inj hk
    exact hfresh n hn

theorem Store.settleSelection_holds (c : Selection) (status : SelectionStatus) (now : String)
    (hfresh : ∀ d ∈ s.contentSelections.rows, d.settlementRef ≠ some settlement) :
    ∀ x ∈ selectionIndexes, x.Holds
      (Table.update (fun d => d.token = c.token && d.status = .readyForDelivery)
        (Selection.settle status settlement now) s.contentSelections.rows) := by
  have hheld := s.contentSelections.holds
  simp only [selectionIndexes, List.forall_mem_cons, List.not_mem_nil, false_implies, implies_true,
    and_true] at hheld ⊢
  obtain ⟨hkey, href, hturn⟩ := hheld
  refine ⟨Table.Unique.update_sub hkey fun _ _ => id, ?_,
    Table.Unique.update_sub hturn fun _ _ => id⟩
  refine Table.Unique.update_fresh href s.selections_unique.nodup ?_ fun d _ _ k hk e he => ?_
  · intro d hd e he hhit hhit'
    rw [Bool.and_eq_true, decide_eq_true_eq] at hhit hhit'
    exact Store.selection_ext hd he (hhit.1.trans hhit'.1.symm)
  · obtain rfl := Option.some.inj hk
    exact hfresh e he

theorem Store.appendProjections_ok (lib : Stdlib) (now : String) (hs : s.Mailed)
    {keys : List ItemKey} (hkeys : ∀ key ∈ keys, ∃ i ∈ s.items.rows, i.key = key) :
    ∃ t, s.appendProjections lib now keys = .ok t := by
  induction keys generalizing s with
  | nil => exact ⟨s, rfl⟩
  | cons key keys ih =>
      obtain ⟨i, hi, rfl⟩ := hkeys key List.mem_cons_self
      obtain ⟨e, he, hid, hkind, hkey⟩ := hs.envelope i hi
      have hfirst : s.appendProjection lib now i.key.mailId = .ok (s.appendTransition lib.digest now
          i.key.mailId .content .projected (s.fact i)) := by
        rw [Store.appendProjection, Store.envelope?_eq_some.mpr ⟨he, hid⟩]
        dsimp only
        rw [if_neg (not_not.mpr hkind), hkey, Store.item?_eq_some.mpr ⟨hi, rfl⟩]
      obtain ⟨t, ht⟩ := ih (s := s.appendTransition lib.digest now i.key.mailId .content .projected
        (s.fact i)) ⟨hs.envelope, hs.item⟩ fun key hkey => hkeys key (List.mem_cons_of_mem _ hkey)
      refine ⟨t, ?_⟩
      rw [Store.appendProjections, List.foldlM_cons, hfirst]
      exact ht

theorem Store.Mailed.of_keys (hs : s.Mailed)
    (hkeys : t.items.rows.map Item.key = s.items.rows.map Item.key)
    (henvelopes : t.mailEnvelopes = s.mailEnvelopes) : t.Mailed := by
  refine ⟨fun i hi => ?_, fun e he hkind => ?_⟩
  · have hkey : i.key ∈ s.items.rows.map Item.key := hkeys ▸ List.mem_map_of_mem hi
    obtain ⟨j, hj, hjkey⟩ := List.mem_map.mp hkey
    rw [henvelopes, ← hjkey]
    exact hs.envelope j hj
  · rw [henvelopes] at he
    obtain ⟨i, hi, hkey⟩ := hs.item e he hkind
    have hmem : i.key ∈ t.items.rows.map Item.key := hkeys ▸ List.mem_map_of_mem hi
    obtain ⟨j, hj, hjkey⟩ := List.mem_map.mp hmem
    exact ⟨j, hj, hjkey.trans hkey⟩

/-! ### The settlement that succeeds -/

theorem Store.settleMember_ok (lib : Stdlib) (now token : String) {member : Item}
    (hmember : member ∈ s.items.rows) (hopen : member.status.isOpen = true)
    (hitems : ∀ j ∈ s.items.rows, j.settlementRef ≠ some ref)
    (hmembers : ∀ m ∈ s.contentSelectionMembers.rows, m.settlementRef ≠ some ref) :
    ∃ t, s.settleMember lib now token ref member = .ok t ∧
      t.mailEnvelopes = s.mailEnvelopes := by
  have hhit : ∀ i ∈ s.items.rows, (decide (i.key = member.key) && i.status.isOpen) = true ↔
      i = member := by
    intro i hi
    rw [Bool.and_eq_true, decide_eq_true_eq]
    constructor
    · exact fun h => s.item_ext hi hmember h.1
    · rintro rfl
      exact ⟨rfl, hopen⟩
  obtain ⟨items, hrows⟩ := write_of_holds (s.settle_holds
    (fun i => decide (i.key = member.key) && i.status.isOpen) (settledStatus member.requiresAck) now
    (fun i hi j hj h h' => ((hhit i hi).mp h).trans ((hhit j hj).mp h').symm) hitems)
  have hone := Table.countP_eq_one s.items_unique.nodup hmember hhit
  obtain ⟨members, hmemberRows⟩ := write_of_holds
    (s.settleMember_holds token member.key hmembers)
  refine ⟨{ s with
    items := items
    contentSelectionMembers := members
    mailTransitions := EventMail.appendTransition lib.digest now member.key.mailId .content
      (settledAction member.requiresAck) (.settlement ref) s.mailTransitions }, ?_, rfl⟩
  rw [Store.settleMember, Store.writeItems_eq_ok.mpr ⟨items, hrows, rfl⟩]
  change (if List.countP _ s.items.rows ≠ 1 then _ else _) = _
  rw [hone, if_neg (not_not.mpr rfl)]
  exact Store.writeMembers_eq_ok.mpr ⟨members, hmemberRows, rfl⟩

/-- The references of some members are free: they are distinct, and no row carries one. -/
structure Store.Free (s : Store) (members : List Item) (refOf : ItemKey → String) : Prop where
  distinct : (members.map fun d => refOf d.key).Nodup
  items : ∀ d ∈ members, ∀ i ∈ s.items.rows, i.settlementRef ≠ some (refOf d.key)
  members : ∀ d ∈ members, ∀ m ∈ s.contentSelectionMembers.rows,
    m.settlementRef ≠ some (refOf d.key)

/-- Members that are open are settled under free references. -/
theorem Store.settleMembers_ok (now token : String) {single : Bool} {members : List Item}
    (hmem : ∀ d ∈ members, d ∈ s.items.rows) (hkeys : (members.map Item.key).Nodup)
    (hopen : ∀ d ∈ members, d.status.isOpen = true)
    (hfree : s.Free members (settlementOf lib settlement single)) :
    ∃ t, s.settleMembers lib now token settlement single members = .ok t ∧
      t.mailEnvelopes = s.mailEnvelopes := by
  induction members generalizing s with
  | nil => exact ⟨s, rfl, rfl⟩
  | cons member members ih =>
      obtain ⟨s₁, hfirst, henvelopes⟩ := Store.settleMember_ok lib now token
        (hmem member List.mem_cons_self) (hopen member List.mem_cons_self)
        (hfree.items member List.mem_cons_self) (hfree.members member List.mem_cons_self)
      obtain ⟨-, hitems, -, hmembers⟩ := settleMember_eq_ok (hmem member List.mem_cons_self) hfirst
      rw [List.map_cons, List.nodup_cons] at hkeys
      have hdistinct := hfree.distinct
      rw [List.map_cons, List.nodup_cons] at hdistinct
      have hne : ∀ d ∈ members, d ≠ member := fun d hd hsame =>
        hkeys.1 (hsame ▸ List.mem_map_of_mem hd)
      have hother : ∀ d ∈ members,
          settlementOf lib settlement single member.key
            ≠ settlementOf lib settlement single d.key :=
        fun d hd hsame => hdistinct.1 (List.mem_map.mpr ⟨d, hd, hsame.symm⟩)
      have hmem₁ : ∀ d ∈ members, d ∈ s₁.items.rows := by
        intro d hd
        rw [hitems, List.mem_map]
        exact ⟨d, hmem d (List.mem_cons_of_mem _ hd), if_neg (hne d hd)⟩
      have hfree₁ : s₁.Free members (settlementOf lib settlement single) := by
        refine ⟨hdistinct.2, fun d hd i' hi' => ?_, fun d hd m' hm' => ?_⟩
        · rw [hitems, List.mem_map] at hi'
          obtain ⟨i, hi, rfl⟩ := hi'
          split_ifs
          · exact fun hsame => hother d hd (Option.some.inj hsame)
          · exact hfree.items d (List.mem_cons_of_mem _ hd) i hi
        · rw [hmembers, Table.mem_update] at hm'
          obtain ⟨m, hm, rfl⟩ := hm'
          split_ifs
          · exact fun hsame => hother d hd (Option.some.inj hsame)
          · exact hfree.members d (List.mem_cons_of_mem _ hd) m hm
      obtain ⟨t, hrest, henvelopes'⟩ := ih hmem₁ hkeys.2
        (fun d hd => hopen d (List.mem_cons_of_mem _ hd)) hfree₁
      refine ⟨t, ?_, henvelopes'.trans henvelopes⟩
      rw [Store.settleMembers, List.foldlM_cons, hfirst]
      exact hrest

/-- A selection that is ready is settled where its members are open and their references free. -/
theorem Store.settleSelection_ok (now : String) (hs : s.Mailed) (hsound : s.ContentSound)
    (hnonempty : s.deliveryMembers c.token ≠ [])
    (hopen : ∀ d ∈ s.deliveryMembers c.token, d.status.isOpen = true)
    (hfree : s.Free (s.deliveryMembers c.token)
      (settlementOf lib settlement ((s.deliveryMembers c.token).length = 1)))
    (hunused : ∀ d ∈ s.contentSelections.rows, d.settlementRef ≠ some settlement) :
    ∃ r t, s.settleSelection lib now settlement c = .ok (r, t) := by
  have hmem : ∀ d ∈ s.deliveryMembers c.token, d ∈ s.items.rows :=
    fun d hd => (Store.mem_deliveryMembers.mp hd).1
  have hnodup := s.deliveryMembers_nodup c.token
  obtain ⟨s₁, hsettle, henvelopes⟩ := Store.settleMembers_ok now c.token
    hmem hnodup hopen hfree
  obtain ⟨-, hitems, hselections, hmembers⟩ := settleMembers_eq_ok hmem hnodup hsettle
  have hkeys : s₁.items.rows.map Item.key = s.items.rows.map Item.key := by
    rw [hitems, settledRows, List.map_map]
    refine List.map_congr_left fun i _ => ?_
    rw [Function.comp_apply]
    split_ifs <;> rfl
  -- a driver that is no member is released
  obtain ⟨s₂, hrelease, hkeys₂, hsame⟩ : ∃ s₂ : Store,
      (if (s.deliveryMembers c.token).any fun i => i.key = c.driver then Except.ok s₁
        else s₁.releaseDriver now c.token) = .ok s₂ ∧
      s₂.items.rows.map Item.key = s.items.rows.map Item.key ∧
      s₂ = { s₁ with items := s₂.items } := by
    split_ifs
    · exact ⟨s₁, rfl, hkeys, rfl⟩
    · obtain ⟨items, hrows⟩ := write_of_holds (s₁.release_holds
        (fun i => i.selectionToken = some c.token && i.status.isDriving) now)
      refine ⟨{ s₁ with items := items }, Store.writeItems_eq_ok.mpr ⟨items, hrows, rfl⟩, ?_, rfl⟩
      change items.rows.map Item.key = _
      rw [hrows, Table.update, List.map_map, ← hkeys]
      refine List.map_congr_left fun i _ => ?_
      rw [Function.comp_apply]
      split_ifs <;> rfl
  have hselections₂ : s₂.contentSelections = s.contentSelections := by
    rw [hsame]
    exact hselections
  obtain ⟨selections, hrows⟩ := write_of_holds (s₂.settleSelection_holds c
    (deliveredStatus (s.deliveryMembers c.token)) now
    (by rw [hselections₂]; exact hunused))
  have hmailed : Store.Mailed (Store.recomputeWake (Store.bumpVersion
      { s₂ with contentSelections := selections })) := by
    refine hs.of_keys hkeys₂ ?_
    change s₂.mailEnvelopes = _
    rw [hsame]
    exact henvelopes
  have hmembers₂ : s₂.contentSelectionMembers.rows = settledMembers c.token
      (s.deliveryMembers c.token) (settlementOf lib settlement
        ((s.deliveryMembers c.token).length = 1)) s.contentSelectionMembers.rows := by
    rw [hsame]
    exact hmembers
  have hitem : ∀ key ∈ (s₂.membersOf c.token).map Member.item,
      ∃ i ∈ s₂.items.rows, i.key = key := by
    intro key hkey
    obtain ⟨m', hm', rfl⟩ := List.mem_map.mp hkey
    obtain ⟨hm', -⟩ := Store.mem_membersOf.mp hm'
    rw [hmembers₂, settledMembers, Table.mem_update] at hm'
    obtain ⟨m, hm, rfl⟩ := hm'
    obtain ⟨i, hi, hik⟩ := hsound.item m hm
    have hmemkey : i.key ∈ s₂.items.rows.map Item.key := hkeys₂ ▸ List.mem_map_of_mem hi
    obtain ⟨j, hj, hjk⟩ := List.mem_map.mp hmemkey
    refine ⟨j, hj, hjk.trans (hik.trans ?_)⟩
    split_ifs <;> rfl
  obtain ⟨t, hprojections⟩ := Store.appendProjections_ok lib now hmailed hitem
  refine ⟨deliveredStatus (s.deliveryMembers c.token), t, ?_⟩
  have hwrite : s₂.writeSelections _ = .ok { s₂ with contentSelections := selections } :=
    Store.writeSelections_eq_ok.mpr ⟨selections, hrows, rfl⟩
  have hrest : (do
      let s₃ ← s₂.writeSelections
        (Table.update (fun d => d.token = c.token && d.status = .readyForDelivery)
          (Selection.settle (deliveredStatus (s.deliveryMembers c.token)) settlement now)
          s₂.contentSelections.rows)
      let s₄ ← s₃.bumpVersion.recomputeWake.appendProjections lib now
        ((s₃.membersOf c.token).map Member.item)
      return (deliveredStatus (s.deliveryMembers c.token), s₄) : Except PyError _)
      = .ok (deliveredStatus (s.deliveryMembers c.token), t) :=
    bind_eq_ok.mpr ⟨_, hwrite, bind_eq_ok.mpr ⟨t, hprojections, rfl⟩⟩
  rw [Store.settleSelection, if_neg hnonempty, hsettle]
  dsimp only [bind, Except.bind]
  split_ifs at hrelease ⊢ with hdriver
  · cases hrelease
    exact hrest
  · rw [hrelease]
    exact hrest

/-! ### Runs of the mail -/

/-- The event mail as a transition system: its calls, one after the other. -/
def mailRuns (lib : Stdlib) : Transition.System Store MailCall where
  init s := s = .empty
  step s call t := t = call.after lib s

/-- **The content and its facts are sound in every state** that runs without collisions of
digests reach. -/
theorem recorded_of_run (h : (mailRuns lib).RunVia (MailCall.Apart lib) s t)
    (hs : s.Recorded ∧ s.ContentSound) : t.Recorded ∧ t.ContentSound := by
  refine Transition.System.RunVia.preserves
    (I := fun s => s.Recorded ∧ s.ContentSound) ?_ h hs
  rintro s call t ⟨hs, hsound⟩ hapart rfl
  exact call.recorded hapart hs hsound

/-- **The content and its facts are sound in every reachable state.** -/
theorem recorded_of_reachable (h : (mailRuns lib).ReachableVia (MailCall.Apart lib) s) :
    s.Recorded ∧ s.ContentSound := by
  obtain ⟨s₀, rfl, hrun⟩ := h
  exact recorded_of_run hrun ⟨Store.recorded_empty, Store.contentSound_empty⟩

theorem Store.ContentMove.live {token : String} (h : s.ContentMove t (.selection token)) :
    ∃ c ∈ s.contentSelections.rows, c.token = token ∧ c.status.isLive = true := by
  cases h with
  | readied now c hc hstatus => exact ⟨c, hc, rfl, by rw [hstatus]; rfl⟩
  | released now c hc hstatus => exact ⟨c, hc, rfl, by rw [hstatus]; rfl⟩
  | finished now c hc action hallows => exact ⟨c, hc, rfl, ContentAction.isLive_of_allows hallows⟩
  | failed now c hc hstatus => exact ⟨c, hc, rfl, by rw [hstatus]; rfl⟩
  | settled now settlement c hc hstatus => exact ⟨c, hc, rfl, by rw [hstatus]; rfl⟩

theorem Store.ContentMove.closed {label : ContentLabel} (h : s.ContentMove t label)
    (hs : s.ContentSound) (hc : c ∈ s.contentSelections.rows) (hended : c.status.isLive = false) :
    c ∈ t.contentSelections.rows := by
  cases label with
  | selection token =>
      obtain ⟨d, hd, hdtoken, hlive⟩ := h.live
      obtain ⟨e, he, hetoken, e', f, g, htouches, -⟩ := h.changesBy hs
      obtain rfl := Store.selection_ext hd he (hdtoken.trans hetoken.symm)
      rw [htouches.selections, List.mem_map]
      refine ⟨c, hc, if_neg fun hsame => ?_⟩
      rw [Store.selection_ext hc hd hsame, hlive] at hended
      cases hended
  | expiry refs =>
      cases h with
      | expired _ instant hitems hselections hmembers => exact hselections ▸ hc
  | other =>
      cases h with
      | same h => exact h.selections ▸ hc
      | submitted new hnew hitems hselections hmembers => exact hselections ▸ hc
      | claimed token now turn d keys htoken hstatus hdriver hkeys hcandidates hitems hselections
          hmembers =>
          rw [hselections]
          exact List.mem_append_left _ hc
      | acknowledged now j hj hstatus hitems hselections hmembers => exact hselections ▸ hc

/-- **A selection that has ended stays as it is**, over every run. -/
theorem closed_of_run (hs : s.Recorded ∧ s.ContentSound) (hc : c ∈ s.contentSelections.rows)
    (hended : c.status.isLive = false) (hrun : (mailRuns lib).RunVia (MailCall.Apart lib) s t) :
    c ∈ t.contentSelections.rows := by
  have hboth : (t.Recorded ∧ t.ContentSound) ∧ c ∈ t.contentSelections.rows := by
    refine Transition.System.RunVia.preserves
      (I := fun t => (t.Recorded ∧ t.ContentSound) ∧ c ∈ t.contentSelections.rows) ?_ hrun ⟨hs, hc⟩
    rintro s call t ⟨⟨hs, hsound⟩, hc⟩ hapart rfl
    refine ⟨call.recorded hapart hs hsound, ?_⟩
    cases call with
    | alert call =>
        exact (call.aside lib.digest s).tables.selections ▸ hc
    | context now sourceId eventId payload observedAt expiresAt =>
        rw [MailCall.after]
        split
        · next hcall => exact (Store.reportContext_aside hcall).tables.selections ▸ hc
        · exact hc
    | content call =>
        obtain ⟨label, hmove, -⟩ := call.moves lib s
        exact hmove.closed hsound hc hended
    | rebuild =>
        rw [MailCall.after]
        split
        · next hcall =>
            obtain ⟨u, hsame, haside⟩ := Store.rebuildMailProjections_content hs hsound hcall
            exact haside.tables.selections ▸ hsame.selections.mem_iff.mpr hc
        · exact hc
  exact hboth.2

/-! ### When a batch can be settled -/

/-- A settlement reference that no selection and no item carries. -/
structure Store.Unused (s : Store) (ref : String) : Prop where
  selections : ∀ c ∈ s.contentSelections.rows, c.settlementRef ≠ some ref
  items : ∀ i ∈ s.items.rows, i.settlementRef ≠ some ref

/-- The references `settle_delivery` gives the members of a selection. -/
def Store.refsOf (lib : Stdlib) (s : Store) (c : Selection) (ref : String) : ItemKey → String :=
  settlementOf lib ref ((s.deliveryMembers c.token).length = 1)

/-- **No chosen member has expired**, and the references of the members are free. -/
structure Store.CanSettle (lib : Stdlib) (s : Store) (c : Selection) (ref : String) : Prop where
  notExpired : ∀ i ∈ s.deliveryMembers c.token, i.status ≠ .expired
  distinct : ((s.deliveryMembers c.token).map fun i => s.refsOf lib c ref i.key).Nodup
  free : ∀ i ∈ s.deliveryMembers c.token, ∀ j ∈ s.items.rows,
    j.settlementRef ≠ some (s.refsOf lib c ref i.key)

/-- The answer of a settlement. -/
def Store.settledAnswer (lib : Stdlib) (s : Store) (c : Selection) (ref : String)
    (duplicate : Bool) : TransitionResult :=
  .settled duplicate (deliveredStatus (s.deliveryMembers c.token)) (contentReceipt lib c.token ref)

/-- The state after a settlement, and those that runs without collisions reach from it. -/
def Store.LaterThan (lib : Stdlib) (now : String) (s t : Store) (c : Selection) (ref : String)
    (u : Store) : Prop :=
  u = t ∨ (MailCall.content (.settle now (.str c.token) (.str ref))).Apart lib s ∧
    (mailRuns lib).RunVia (MailCall.Apart lib) t u

/-- **A settlement as promised**: it is no duplicate, settles the chosen members and no other
item, is repeated without effect, and excludes every other reference. -/
structure Store.SettlesOnce (lib : Stdlib) (now : String) (s t : Store) (c : Selection)
    (ref : String) : Prop where
  answer : s.settleDelivery lib now (.str c.token) (.str ref)
    = .ok (s.settledAnswer lib c ref false, t)
  chosen : ∀ i ∈ s.deliveryMembers c.token, ∃ j ∈ t.items.rows, j.key = i.key ∧
    j.status = settledStatus i.requiresAck
  others : ∀ i ∈ s.items.rows, i ∉ s.deliveryMembers c.token → i.key ≠ c.driver →
    i ∈ t.items.rows
  driver : ∀ i ∈ s.items.rows, i ∉ s.deliveryMembers c.token →
    ∃ j ∈ t.items.rows, j.key = i.key ∧ (j = i ∨ j.status = .pending)
  again : ∀ u, s.LaterThan lib now t c ref u → ∀ now',
    u.settleDelivery lib now' (.str c.token) (.str ref) = .ok (s.settledAnswer lib c ref true, u)
  rejects : ∀ u, s.LaterThan lib now t c ref u → ∀ now' other,
    isIdentity other = true → other ≠ ref →
    u.settleDelivery lib now' (.str c.token) (.str other)
      = runtimeError "Content delivery settlement identity conflict"

section Ready

variable {c : Selection} {ref : String}

theorem Store.ContentSound.isOpen_of_chosen (hs : s.ContentSound)
    (hc : c ∈ s.contentSelections.rows) (hready : c.status = .readyForDelivery) {i : Item}
    (hi : i ∈ s.deliveryMembers c.token) (hexpired : i.status ≠ .expired) :
    i.status.isOpen = true := by
  obtain ⟨hmem, m, hm, htoken, hitem, hchosen⟩ := Store.mem_deliveryMembers.mp hi
  have hkeeps := hs.keeps c hc i hmem ⟨m, hm, hitem,
    Member.isClaimedBy_iff.mpr ⟨htoken, .inr ⟨hready, hchosen⟩⟩⟩
  rw [Selection.Keeps] at hkeeps
  split_ifs at hkeeps with hdriver hselected
  · rw [hkeeps.2]
    rfl
  · rw [hkeeps.2]
    rfl
  · rcases hkeeps with h | h | h
    · rw [h]
      rfl
    · rw [h]
      rfl
    · exact absurd h hexpired

theorem Store.ContentSound.deliveryMembers_ne_nil (hs : s.ContentSound)
    (hc : c ∈ s.contentSelections.rows) (hready : c.status = .readyForDelivery) :
    s.deliveryMembers c.token ≠ [] := by
  obtain ⟨m, hm, htoken, hchosen⟩ := hs.chosen c hc hready
  obtain ⟨i, hi, hkey⟩ := hs.item m hm
  exact List.ne_nil_of_mem
    (Store.mem_deliveryMembers.mpr ⟨hi, m, hm, htoken, hkey.symm, hchosen⟩)

theorem Store.settleDelivery_of_ready (hc : c ∈ s.contentSelections.rows)
    (hready : c.status = .readyForDelivery) (htoken : isIdentity c.token = true)
    (href : isIdentity ref = true) :
    s.settleDelivery lib now (.str c.token) (.str ref) = (do
      let (status, t) ← s.settleSelection lib now ref c
      return (.settled false status (contentReceipt lib c.token ref), t)) := by
  have hselection := Store.selection?_eq_some.mpr ⟨hc, rfl⟩
  rw [Store.settleDelivery, identity, if_pos htoken, identity, if_pos href]
  dsimp only [bind, Except.bind]
  rw [hselection]
  dsimp only
  rw [if_neg (by rw [hready]; rintro (h | h) <;> cases h), if_neg (not_not.mpr hready)]

/-- What `settle_delivery` answers where the batch was settled. -/
theorem Store.settleDelivery_of_settled (lib : Stdlib) (now : String) {settlement : String}
    (hc : c ∈ s.contentSelections.rows)
    (hended : c.status = .delivered ∨ c.status = .settled)
    (hsettlement : c.settlementRef = some settlement) (htoken : isIdentity c.token = true)
    (href : isIdentity ref = true) :
    s.settleDelivery lib now (.str c.token) (.str ref)
      = if ref = settlement then .ok (.settled true c.status (contentReceipt lib c.token ref), s)
        else runtimeError "Content delivery settlement identity conflict" := by
  have hselection := Store.selection?_eq_some.mpr ⟨hc, rfl⟩
  rw [Store.settleDelivery, identity, if_pos htoken, identity, if_pos href]
  dsimp only [bind, Except.bind]
  rw [hselection]
  dsimp only
  rw [if_pos hended, hsettlement]
  by_cases hsame : ref = settlement
  · rw [if_pos hsame, if_neg (by rw [hsame]; exact fun h => h rfl)]
  · rw [if_neg hsame, if_pos fun h => hsame (Option.some.inj h).symm]

/-- A settled batch keeps its items but for the settlement of its members, and the release of
its driver. -/
theorem Store.Settles.row {settlement : String} {refOf : ItemKey → String}
    (h : s.Settles t now settlement c refOf) {i : Item} (hi : i ∈ s.items.rows) :
    ∃ j ∈ t.items.rows, j.key = i.key ∧
      if i ∈ s.deliveryMembers c.token then
        j.status = settledStatus i.requiresAck ∧ j.settlementRef = some (refOf i.key)
      else j = i ∨ i.isDriverOf c.token = true ∧ j.status = .pending ∧
        j.settlementRef = i.settlementRef := by
  have hsettled : (settledStatus i.requiresAck).isDriving = false := by
    rw [settledStatus]
    split_ifs <;> rfl
  have hrow : ∃ j ∈ settledRows (s.deliveryMembers c.token) refOf now s.items.rows, j.key = i.key ∧
      if i ∈ s.deliveryMembers c.token then
        j.status = settledStatus i.requiresAck ∧ j.settlementRef = some (refOf i.key)
      else j = i := by
    refine ⟨_, List.mem_map_of_mem hi, ?_⟩
    split_ifs
    · exact ⟨rfl, rfl, rfl⟩
    · exact ⟨rfl, rfl⟩
  obtain ⟨j, hj, hkey, hstatus⟩ := hrow
  rw [h.items, Store.settledItems]
  split_ifs at hstatus ⊢ with hdriver hmember hmember
  · exact ⟨j, hj, hkey, hstatus⟩
  · exact ⟨j, hj, hkey, .inl hstatus⟩
  · refine ⟨j, Table.mem_update.mpr ⟨j, hj, if_neg ?_⟩, hkey, hstatus⟩
    rw [hstatus.1, hsettled, Bool.and_false]
    exact Bool.false_ne_true
  · refine ⟨_, Table.mem_update.mpr ⟨j, hj, rfl⟩, ?_⟩
    rw [hstatus]
    split_ifs with hhit
    · rw [Bool.and_eq_true] at hhit
      exact ⟨rfl, .inr ⟨hhit.1, rfl, rfl⟩⟩
    · exact ⟨rfl, .inl rfl⟩

theorem Store.Settles.canSettle (hsettles : s.Settles t now ref c (s.refsOf lib c ref))
    (hs : s.ContentSound) : s.CanSettle lib c ref := by
  have hmem : ∀ i ∈ s.deliveryMembers c.token, i ∈ s.items.rows :=
    fun i hi => (Store.mem_deliveryMembers.mp hi).1
  have hsettled : ∀ i ∈ s.deliveryMembers c.token, ∃ j ∈ t.items.rows, j.key = i.key ∧
      j.settlementRef = some (s.refsOf lib c ref i.key) := by
    intro i hi
    obtain ⟨j, hj, hkey, hstatus⟩ := hsettles.row (hmem i hi)
    rw [if_pos hi] at hstatus
    exact ⟨j, hj, hkey, hstatus.2⟩
  refine ⟨fun i hi hexpired => ?_, ?_, fun i hi j hj href => ?_⟩
  · have hopen := hsettles.isOpen i hi
    rw [hexpired] at hopen
    cases hopen
  · refine (s.deliveryMembers_nodup c.token).of_map.map_on fun i hi j hj hsame => ?_
    obtain ⟨i', hi', hikey, hiref⟩ := hsettled i hi
    obtain ⟨j', hj', hjkey, hjref⟩ := hsettled j hj
    have heq : i' = j' := t.items_settlement.eq_of_key hi' hj' hiref (hsame ▸ hjref)
    exact s.item_ext (hmem i hi) (hmem j hj) (hikey.symm.trans (heq ▸ hjkey))
  · -- a member is open and has no settlement, so the item with the reference is another one
    have hnone : ∀ d ∈ s.deliveryMembers c.token, d.settlementRef = none := by
      intro d hd
      refine hs.settlementRef_eq_none (hmem d hd) ?_
      have hopen := hsettles.isOpen d hd
      revert hopen
      cases d.status <;> decide
    have hother : j ∉ s.deliveryMembers c.token := by
      intro hmember
      rw [hnone j hmember] at href
      cases href
    obtain ⟨i', hi', hikey, hiref⟩ := hsettled i hi
    obtain ⟨j', hj', hjkey, hjstatus⟩ := hsettles.row hj
    rw [if_neg hother] at hjstatus
    have hjref : j'.settlementRef = some (s.refsOf lib c ref i.key) := by
      rcases hjstatus with rfl | ⟨-, -, hsame⟩
      · exact href
      · exact hsame.trans href
    have heq : i' = j' := t.items_settlement.eq_of_key hi' hj' hiref hjref
    refine hother ?_
    rw [← s.item_ext (hmem i hi) hj (hikey.symm.trans (heq ▸ hjkey))]
    exact hi

/-- **A batch that can be settled is settled as promised.** -/
theorem Store.CanSettle.settlesOnce (h : s.CanSettle lib c ref) (hs : s.Recorded)
    (hsound : s.ContentSound) (hc : c ∈ s.contentSelections.rows)
    (hready : c.status = .readyForDelivery) (href : isIdentity ref = true)
    (hunused : s.Unused ref) (now : String) : ∃ t, s.SettlesOnce lib now t c ref := by
  have htoken := hs.named.tokens c hc
  have hopen : ∀ i ∈ s.deliveryMembers c.token, i.status.isOpen = true :=
    fun i hi => hsound.isOpen_of_chosen hc hready hi (h.notExpired i hi)
  have hfree : s.Free (s.deliveryMembers c.token) (s.refsOf lib c ref) := by
    refine ⟨h.distinct, h.free, fun d hd m hm hsame => ?_⟩
    obtain ⟨i, hi, -, hsettled⟩ := hsound.settlement m hm _ hsame
    exact h.free d hd i hi hsettled
  obtain ⟨status, t, hsettle⟩ := Store.settleSelection_ok now hs.mailed hsound
    (hsound.deliveryMembers_ne_nil hc hready) hopen hfree hunused.selections
  obtain ⟨rfl, hsettles⟩ := settleSelection_eq_ok hsettle
  have hanswer : s.settleDelivery lib now (.str c.token) (.str ref)
      = .ok (s.settledAnswer lib c ref false, t) := by
    rw [Store.settleDelivery_of_ready hc hready htoken href, hsettle]
    rfl
  have hstep : (MailCall.content (.settle now (.str c.token) (.str ref))).after lib s = t := by
    rw [MailCall.after, ContentCall.after, ContentCall.exec, hanswer]
    rfl
  -- the row of the selection, settled, stays in every later state
  have hrow : c.settle (deliveredStatus (s.deliveryMembers c.token)) ref now
      ∈ t.contentSelections.rows := by
    rw [hsettles.selections, Table.mem_update]
    exact ⟨c, hc, if_pos (by rw [hready]; simp)⟩
  have hended : deliveredStatus (s.deliveryMembers c.token) = .delivered ∨
      deliveredStatus (s.deliveryMembers c.token) = .settled := by
    rw [deliveredStatus]
    split_ifs
    · exact .inl rfl
    · exact .inr rfl
  have hlater : ∀ u, s.LaterThan lib now t c ref u →
      c.settle (deliveredStatus (s.deliveryMembers c.token)) ref now
        ∈ u.contentSelections.rows := by
    rintro u (rfl | ⟨hapart, hrun⟩)
    · exact hrow
    · have hsound' := MailCall.recorded _ hapart hs hsound
      rw [hstep] at hsound'
      refine closed_of_run hsound' hrow ?_ hrun
      rcases hended with h | h <;> rw [Selection.settle, h] <;> rfl
  refine ⟨t, hanswer, fun i hi => ?_, fun i hi hmember hdriver => ?_, fun i hi hmember => ?_,
    fun u hu now' => ?_, fun u hu now' other hother hne => ?_⟩
  · obtain ⟨j, hj, hkey, hstatus⟩ := hsettles.row (Store.mem_deliveryMembers.mp hi).1
    rw [if_pos hi] at hstatus
    exact ⟨j, hj, hkey, hstatus.1⟩
  · obtain ⟨j, hj, hkey, hstatus⟩ := hsettles.row hi
    rw [if_neg hmember] at hstatus
    rcases hstatus with rfl | ⟨htoken', -⟩
    · exact hj
    · exact absurd (hsound.of_token hc (by rw [hready]; rfl) hi htoken').1 hdriver
  · obtain ⟨j, hj, hkey, hstatus⟩ := hsettles.row hi
    rw [if_neg hmember] at hstatus
    exact ⟨j, hj, hkey, hstatus.imp_right fun h => h.2.1⟩
  · have hagain := Store.settleDelivery_of_settled lib now'
      (hlater u hu) hended rfl htoken href
    rw [if_pos rfl] at hagain
    exact hagain
  · have hagain := Store.settleDelivery_of_settled lib now'
      (hlater u hu) hended rfl htoken hother
    rw [if_neg hne] at hagain
    exact hagain

end Ready

/-! ### Settlements over every run -/

/-- **A batch that is ready can be settled as promised exactly when none of its chosen members
has expired** and their references are free, in every state that runs without collisions of
digests reach. -/
structure Settlements (lib : Stdlib) : Prop where
  settles : ∀ s, (mailRuns lib).ReachableVia (MailCall.Apart lib) s →
    ∀ c ∈ s.contentSelections.rows, c.status = .readyForDelivery →
    ∀ ref, isIdentity ref = true → s.Unused ref → ∀ now,
    (∃ t, s.SettlesOnce lib now t c ref) ↔ s.CanSettle lib c ref

/-- **A batch that is ready can be settled exactly when no chosen member has expired.** -/
theorem settlements_hold (lib : Stdlib) : Settlements lib where
  settles s hreach c hc hready ref href hunused now := by
    obtain ⟨hs, hsound⟩ := recorded_of_reachable hreach
    constructor
    · rintro ⟨t, hsettles⟩
      have hanswer := hsettles.answer
      rw [Store.settleDelivery_of_ready hc hready (hs.named.tokens c hc) href] at hanswer
      obtain ⟨⟨status, t'⟩, hsettle, hanswer⟩ := bind_eq_ok.mp hanswer
      cases hanswer
      exact (Store.settleSelection_eq_ok hsettle).2.canSettle hsound
    · exact fun hcan => hcan.settlesOnce hs hsound hc hready href hunused now

/-- The store after some calls. -/
def runMail (lib : Stdlib) (calls : List MailCall) : Store :=
  calls.foldl (fun s call => call.after lib s) .empty

theorem reachable_runMail (lib : Stdlib) (calls : List MailCall) :
    (mailRuns lib).Reachable (runMail lib calls) :=
  ⟨.empty, rfl, Transition.System.run_foldl (fun _ _ => rfl) _ _⟩

/-- Two items that are claimed and chosen together for one message. -/
def choosingCalls : List MailCall :=
  (claimingCalls ++ [ContentCall.transition "2" (.str "content-selection:f") "ready_for_delivery"
    none none (some [plainRef "x" 1, plainRef "y" 1])]).map .content

/-- The message of `choosingCalls` can be settled. -/
example : ((runMail plainStdlib choosingCalls).settleDelivery plainStdlib "3"
    (.str "content-selection:f") (.str "m")).toBool = true := by
  decide

/-- **A chosen member that expires blocks the settlement**: the second item of `choosingCalls`
expires while the message is on its way. -/
theorem settlements_expired : ¬∀ (lib : Stdlib) s, (mailRuns lib).Reachable s →
    ∀ c ∈ s.contentSelections.rows, c.status = .readyForDelivery →
    ∀ ref, isIdentity ref = true → s.Unused ref → ∀ now,
    ∃ t, s.SettlesOnce lib now t c ref := by
  intro h
  let calls := choosingCalls ++ [.content (.expire "3" [plainRef "y" 1] plainInstant)]
  let c : Selection := ⟨"content-selection:f", ⟨"s", "t"⟩, 2, .readyForDelivery, ⟨"s", "x", "r"⟩,
    "items_v1", none, "1", "2"⟩
  obtain ⟨t, ht⟩ := h plainStdlib (runMail plainStdlib calls) (reachable_runMail _ _) c (by decide)
    rfl "m" (by decide) ⟨by decide, by decide⟩ "4"
  have hraises : ((runMail plainStdlib calls).settleDelivery plainStdlib "4"
      (.str "content-selection:f") (.str "m")).toBool = false := by decide
  rw [ht.answer] at hraises
  cases hraises

end Kirakira.EventMail
