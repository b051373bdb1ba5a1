import Kirakira.MailFacts

/-!
# Rebuilding the Content

Where the facts of the log say what the tables hold, `_rebuild_content_projections` writes
the tables that are there: the rows of the items, the selections and the members, up to
their order, and the state.

## Main results

* `Store.SameRows` — two stores that differ in the order of their content rows only.
* `rebuildContent_spec` — **a rebuild leaves the content as it was**.
* `Store.SameRows.recorded` — what holds of the content holds after a rebuild.
-/

namespace Kirakira.EventMail

open Exceptions

variable {lib : Stdlib} {now : String} {s t : Store}

/-! ### What the facts gather -/

theorem Projected.items_perm {p : Projected} (h : ∀ key, p.items.get? key = s.item? key) :
    (p.items.entries.map Prod.snd).Perm s.items.rows := by
  refine Dict.values_perm Item.key s.items_unique.nodup fun key i => ?_
  rw [h, Store.item?_eq_some]

/-- The selections with their members. -/
def Store.bundles (s : Store) : List (Selection × List Member) :=
  s.contentSelections.rows.map fun c => (c, s.membersOf c.token)

theorem Projected.selections_perm {p : Projected}
    (h : ∀ token, p.selections.get? token = s.bundle? token) :
    (p.selections.entries.map Prod.snd).Perm s.bundles := by
  refine Dict.values_perm (fun b => b.1.token) ?_ fun token b => ?_
  · refine s.selections_unique.nodup.map fun c d hsame => ?_
    exact congrArg Prod.fst hsame
  · rw [h, Store.bundle?_eq_some, Store.bundles, List.mem_map]
    constructor
    · rintro ⟨hc, htoken, hmembers⟩
      exact ⟨⟨b.1, hc, by rw [htoken, ← hmembers]⟩, htoken⟩
    · rintro ⟨⟨c, hc, rfl⟩, htoken⟩
      exact ⟨hc, htoken, by rw [← htoken]⟩

theorem Store.bundles_members (hsound : s.ContentSound) :
    (s.bundles.flatMap Prod.snd).Perm s.contentSelectionMembers.rows := by
  have hnodup : s.contentSelectionMembers.rows.Nodup := s.members_unique.nodup
  rw [Store.bundles, List.flatMap_map]
  refine (List.perm_ext_iff_of_nodup ?_ hnodup).mpr fun m => ?_
  · refine List.nodup_flatMap.mpr ⟨fun c _ => (s.membersOf_nodup c.token).of_map, ?_⟩
    refine s.selections_unique.nodup.imp_of_mem fun {c d} hc hd hne m hm hm' => ?_
    obtain ⟨-, htoken⟩ := Store.mem_membersOf.mp hm
    obtain ⟨-, htoken'⟩ := Store.mem_membersOf.mp hm'
    exact hne (Store.selection_ext hc hd (htoken.symm.trans htoken'))
  · rw [List.mem_flatMap]
    constructor
    · rintro ⟨c, -, hm⟩
      exact (Store.mem_membersOf.mp hm).1
    · intro hm
      obtain ⟨c, hc, htoken⟩ := hsound.selection m hm
      exact ⟨c, hc, Store.mem_membersOf.mpr ⟨hm, htoken.symm⟩⟩

theorem filter_members {bundles : List (Selection × List Member)}
    (hmembers : ∀ b ∈ bundles, ∀ m ∈ b.2, m.token = b.1.token)
    (hnodup : (bundles.map fun b => b.1.token).Nodup) {b : Selection × List Member}
    (hb : b ∈ bundles) :
    (bundles.flatMap Prod.snd).filter (fun m => m.token = b.1.token) = b.2 := by
  induction bundles with
  | nil => cases hb
  | cons b' bundles ih =>
      obtain ⟨hfresh, hnodup⟩ := List.nodup_cons.mp hnodup
      have hfirst := hmembers b' List.mem_cons_self
      have hrest : ∀ b ∈ bundles, ∀ m ∈ b.2, m.token = b.1.token :=
        fun b hb => hmembers b (List.mem_cons_of_mem _ hb)
      rw [List.flatMap_cons, List.filter_append]
      rcases List.mem_cons.mp hb with rfl | hb
      · rw [List.filter_eq_self.mpr fun m hm => decide_eq_true (hfirst m hm),
          List.filter_eq_nil_iff.mpr, List.append_nil]
        intro m hm hsame
        obtain ⟨b', hb', hm⟩ := List.mem_flatMap.mp hm
        refine hfresh (List.mem_map.mpr ⟨b', hb', ?_⟩)
        exact (hrest b' hb' m hm).symm.trans (of_decide_eq_true hsame)
      · rw [ih hrest hnodup hb, List.filter_eq_nil_iff.mpr, List.nil_append]
        intro m hm hsame
        refine hfresh (List.mem_map.mpr ⟨b, hb, ?_⟩)
        exact (of_decide_eq_true hsame).symm.trans (hfirst m hm)

/-- The members of a selection, after those of all selections were written again. -/
theorem Store.membersOf_bundles {bundles : List (Selection × List Member)}
    (hperm : bundles.Perm s.bundles)
    (hrows : t.contentSelectionMembers.rows = bundles.flatMap Prod.snd)
    (hsame : t.contentSelectionMembers.rows.Perm s.contentSelectionMembers.rows)
    (hsound : s.ContentSound) (token : String) : t.membersOf token = s.membersOf token := by
  by_cases hsome : ∃ m ∈ s.contentSelectionMembers.rows, m.token = token
  · obtain ⟨m, hm, rfl⟩ := hsome
    obtain ⟨c, hc, htoken⟩ := hsound.selection m hm
    have hb : (c, s.membersOf c.token) ∈ bundles :=
      hperm.mem_iff.mpr (List.mem_map.mpr ⟨c, hc, rfl⟩)
    have hmembers : ∀ b ∈ bundles, ∀ m ∈ b.2, m.token = b.1.token := by
      intro b hb m hm
      obtain ⟨d, -, rfl⟩ := List.mem_map.mp (hperm.mem_iff.mp hb)
      exact (Store.mem_membersOf.mp hm).2
    have hnodup : (bundles.map fun b => b.1.token).Nodup := by
      refine ((hperm.map fun b => b.1.token).nodup_iff).mpr ?_
      have hindex := s.selections_unique
      rw [Table.Unique, List.filterMap_eq_map'] at hindex
      rwa [Store.bundles, List.map_map]
    rw [← htoken, Store.membersOf, hrows, filter_members hmembers hnodup hb]
    have hsorted : ((s.membersOf c.token).Pairwise fun m m' => m.position ≤ m'.position) := by
      have : Std.Total fun m m' : Member => m.position ≤ m'.position :=
        ⟨fun m m' => Nat.le_total m.position m'.position⟩
      have : IsTrans Member fun m m' => m.position ≤ m'.position :=
        ⟨fun _ _ _ => Nat.le_trans⟩
      exact List.pairwise_insertionSort _ _
    exact hsorted.insertionSort_eq
  · have hnone : ∀ m ∈ s.contentSelectionMembers.rows, ¬decide (m.token = token) = true := by
      intro m hm htoken
      exact hsome ⟨m, hm, of_decide_eq_true htoken⟩
    rw [Store.membersOf, Store.membersOf, List.filter_eq_nil_iff.mpr hnone,
      List.filter_eq_nil_iff.mpr fun m hm => hnone m (hsame.mem_iff.mp hm)]

theorem Store.Mailed.contentCount (hs : s.Mailed) : s.contentCount = s.items.rows.length := by
  have hkeys : (s.items.rows.map Item.key).Nodup := by
    have hindex := s.items_unique
    rwa [Table.Unique, List.filterMap_eq_map'] at hindex
  have hunique : Table.Unique
      (fun e : Envelope => some (e.kind, e.sourceId, e.itemId, e.revision)) s.mailEnvelopes.rows :=
    s.mailEnvelopes.holds _ (.tail _ (.head _))
  rw [Store.contentCount, List.countP_eq_length_filter, ← List.length_map (f := Item.key)]
  let key : Envelope → ItemKey := fun e => ⟨e.sourceId, e.itemId, e.revision⟩
  rw [← List.length_map (f := key)]
  refine ((List.perm_ext_iff_of_nodup ?_ hkeys).mpr fun k => ?_).length_eq
  · refine (hunique.nodup.filter _).map_on fun e he e' he' hsame => ?_
    obtain ⟨hmem, hkind⟩ := List.mem_filter.mp he
    obtain ⟨hmem', hkind'⟩ := List.mem_filter.mp he'
    refine hunique.eq_of_key hmem hmem' rfl ?_
    injection hsame with hsource hitem hrevision
    rw [of_decide_eq_true hkind, of_decide_eq_true hkind', hsource, hitem, hrevision]
  · simp only [List.mem_map, List.mem_filter, decide_eq_true_eq]
    constructor
    · rintro ⟨e, ⟨he, hkind⟩, rfl⟩
      exact hs.item e he hkind
    · rintro ⟨i, hi, rfl⟩
      obtain ⟨e, he, -, hkind, hkey⟩ := hs.envelope i hi
      exact ⟨e, ⟨he, hkind⟩, hkey⟩

/-! ### The rebuild -/

/-- A store whose content rows are those of another, in some order, and all else the same. -/
structure Store.SameRows (s t : Store) : Prop where
  items : t.items.rows.Perm s.items.rows
  selections : t.contentSelections.rows.Perm s.contentSelections.rows
  members : t.contentSelectionMembers.rows.Perm s.contentSelectionMembers.rows
  membersOf : ∀ token, t.membersOf token = s.membersOf token
  rest : t = { s with
    items := t.items
    contentSelections := t.contentSelections
    contentSelectionMembers := t.contentSelectionMembers }

/-- **A rebuild leaves the content as it was**, up to the order of the rows. -/
theorem rebuildContent_spec (hs : s.Recorded) (hsound : s.ContentSound) :
    ∃ t, s.rebuildContent = .ok t ∧ s.SameRows t := by
  obtain ⟨p, hp, hitems, hselections, hstate⟩ := hs.facts
  have hitemsPerm := Projected.items_perm hitems
  have hbundles := Projected.selections_perm hselections
  have hcount : p.items.entries.length = s.contentCount := by
    rw [hs.mailed.contentCount, ← hitemsPerm.length_eq, List.length_map]
  have hsome : ¬(s.contentCount ≠ 0 ∧ s.projections = []) := by
    rintro ⟨hcount', hnone⟩
    rw [Store.projected, hnone] at hp
    obtain rfl := Except.ok.inj hp
    exact hcount' hcount.symm
  have hseq : ¬((p.items.entries.map Prod.snd).any fun i => decide (i.snapshotSeq = 0)) = true := by
    rw [List.any_eq_true]
    rintro ⟨i, hi, hzero⟩
    exact hs.seq i (hitemsPerm.mem_iff.mp hi) (of_decide_eq_true hzero)
  obtain ⟨items, hitemRows⟩ := s.items.write_perm
    ((List.perm_insertionSort (fun i j : Item => i.snapshotSeq ≤ j.snapshotSeq) _).trans hitemsPerm)
  have hfst : ((p.selections.entries.map Prod.snd).map Prod.fst).Perm s.contentSelections.rows := by
    refine (hbundles.map Prod.fst).trans (.of_eq ?_)
    rw [Store.bundles, List.map_map]
    exact List.map_id _
  have hsnd : ((p.selections.entries.map Prod.snd).flatMap Prod.snd).Perm
      s.contentSelectionMembers.rows :=
    (hbundles.flatMap_right Prod.snd).trans (Store.bundles_members hsound)
  obtain ⟨selections, hselectionRows⟩ := s.contentSelections.write_perm hfst
  obtain ⟨members, hmemberRows⟩ := s.contentSelectionMembers.write_perm hsnd
  have hgetD : p.state.getD s.contentState = s.contentState := by
    rcases hstate with hnone | hstate
    · rw [Store.projected, hnone] at hp
      obtain rfl := Except.ok.inj hp
      rfl
    · rw [hstate]
      rfl
  refine ⟨{ s with
    items := items, contentSelections := selections, contentSelectionMembers := members }, ?_, ?_⟩
  · rw [Store.rebuildContent, if_neg hsome, hp]
    change (if p.items.entries.length ≠ s.contentCount then _ else s.replaceContent p) = _
    rw [if_neg (not_not.mpr hcount), Store.replaceContent, Projected.sortedItems, if_neg hseq,
      hgetD]
    change (write itemIndexes _ >>= _) = _
    rw [write_eq_ok.mpr hitemRows]
    change (write selectionIndexes _ >>= _) = _
    rw [write_eq_ok.mpr hselectionRows]
    change (write memberIndexes _ >>= _) = _
    rw [write_eq_ok.mpr hmemberRows]
    rfl
  · exact ⟨hitemRows ▸ (List.perm_insertionSort _ _).trans hitemsPerm, hselectionRows ▸ hfst,
      hmemberRows ▸ hsnd, Store.membersOf_bundles hbundles hmemberRows (hmemberRows ▸ hsnd) hsound,
      rfl⟩

/-! ### What a rebuild keeps -/

section SameRows

variable (h : s.SameRows t)

include h

theorem Store.SameRows.item? (key : ItemKey) : t.item? key = s.item? key := by
  refine Option.ext fun i => ?_
  rw [Store.item?_eq_some, Store.item?_eq_some, h.items.mem_iff]

theorem Store.SameRows.bundle? (token : String) : t.bundle? token = s.bundle? token := by
  refine Option.ext fun b => ?_
  rw [Store.bundle?_eq_some, Store.bundle?_eq_some, h.selections.mem_iff, h.membersOf]

theorem Store.SameRows.claims {c : Selection} {key : ItemKey} :
    t.Claims c key ↔ s.Claims c key := by
  simp only [Store.Claims, h.members.mem_iff]

theorem Store.SameRows.sound (hs : s.ContentSound) : t.ContentSound where
  selection m hm := by
    obtain ⟨c, hc, htoken⟩ := hs.selection m (h.members.mem_iff.mp hm)
    exact ⟨c, h.selections.mem_iff.mpr hc, htoken⟩
  driver c hc := by
    obtain ⟨m, hm, hdriver⟩ := hs.driver c (h.selections.mem_iff.mp hc)
    exact ⟨m, h.members.mem_iff.mpr hm, hdriver⟩
  item m hm := by
    obtain ⟨i, hi, hkey⟩ := hs.item m (h.members.mem_iff.mp hm)
    exact ⟨i, h.items.mem_iff.mpr hi, hkey⟩
  token i hi token htoken := by
    obtain ⟨c, hc, hctoken, hdriver, hlive⟩ := hs.token i (h.items.mem_iff.mp hi) token htoken
    refine ⟨c, h.selections.mem_iff.mpr hc, hctoken, hdriver, fun hclaims => ?_⟩
    exact (hlive hclaims).imp_right h.claims.mpr
  exclusive c hc d hd key hclaim hclaim' :=
    hs.exclusive c (h.selections.mem_iff.mp hc) d (h.selections.mem_iff.mp hd) key
      (h.claims.mp hclaim) (h.claims.mp hclaim')
  keeps c hc i hi hclaim :=
    hs.keeps c (h.selections.mem_iff.mp hc) i (h.items.mem_iff.mp hi) (h.claims.mp hclaim)
  settled i hi := hs.settled i (h.items.mem_iff.mp hi)
  unchosen c hc hselected m hm :=
    hs.unchosen c (h.selections.mem_iff.mp hc) hselected m (h.members.mem_iff.mp hm)
  chosen c hc hready := by
    obtain ⟨m, hm, hchosen⟩ := hs.chosen c (h.selections.mem_iff.mp hc) hready
    exact ⟨m, h.members.mem_iff.mpr hm, hchosen⟩
  settlement m hm ref href := by
    obtain ⟨i, hi, hkey, hsettled⟩ := hs.settlement m (h.members.mem_iff.mp hm) ref href
    exact ⟨i, h.items.mem_iff.mpr hi, hkey, hsettled⟩

theorem Store.SameRows.awake (hs : s.Awake) : t.Awake := by
  have hearliest : earliestWaiting t.items.rows = earliestWaiting s.items.rows := by
    have hwaiting := (h.items.filter fun i => i.status.isWaiting).map Item.notBefore
    refine hwaiting.foldl_eq' (fun x _ y _ best => ?_) none
    cases best with
    | none => simp only [Option.elim_none, Option.elim_some, min_comm]
    | some best => simp only [Option.elim_some, min_left_comm]
  have hstate : t.contentState = s.contentState := by rw [h.rest]
  rw [Store.Awake, Store.recomputeWake, hearliest]
  have hs' := congrArg Store.contentState hs
  rw [Store.recomputeWake] at hs'
  change { t with contentState := _ } = t
  rw [hstate]
  exact (congrArg (fun state => { t with contentState := state }) hs').trans (by rw [← hstate])

/-- **The facts of the log say what a rebuild leaves.** -/
theorem Store.SameRows.recorded (hs : s.Recorded) : t.Recorded := by
  have henvelopes : t.mailEnvelopes = s.mailEnvelopes := by rw [h.rest]
  have hlog : t.mailTransitions = s.mailTransitions := by rw [h.rest]
  have hstate : t.contentState = s.contentState := by rw [h.rest]
  have hprojections : t.projections = s.projections := by
    rw [Store.projections, hlog, Store.projections]
  refine ⟨⟨?_, ?_⟩, ⟨?_, ?_⟩, h.awake hs.awake, ?_, ?_, ?_⟩
  · intro i hi
    rw [henvelopes]
    exact hs.mailed.envelope i (h.items.mem_iff.mp hi)
  · intro e he hkind
    rw [henvelopes] at he
    obtain ⟨i, hi, hkey⟩ := hs.mailed.item e he hkind
    exact ⟨i, h.items.mem_iff.mpr hi, hkey⟩
  · exact fun i hi => hs.named.keys i (h.items.mem_iff.mp hi)
  · exact fun c hc => hs.named.tokens c (h.selections.mem_iff.mp hc)
  · exact fun i hi => hs.seq i (h.items.mem_iff.mp hi)
  · rw [hlog, hstate]
    exact hs.versions
  · obtain ⟨p, hp, hitems, hselections, hpstate⟩ := hs.facts
    refine ⟨p, ?_, fun key => ?_, fun token => ?_, ?_⟩
    · rw [Store.projected, hprojections]
      exact hp
    · rw [h.item?]
      exact hitems key
    · rw [h.bundle?]
      exact hselections token
    · rw [hprojections, hstate]
      exact hpstate

end SameRows

end Kirakira.EventMail
