import Kirakira.ContentClaims
import Kirakira.MailRebuild

/-!
# Facts of the Content

Every content call that changes something ends by logging a fact of each item it is about:
the row of the item, the state of the content, and the selections of the item with their
members. What the facts of the log say of the content is what the tables hold.

A fact is logged under a digest, and left out where the log has that digest for the item.
The version of the content grows with every call that logs facts, so a fact is new; only a
collision of digests can keep it out.

## Main results

* `Store.Recorded` — the facts of the log say what the tables hold.
* `ContentCall.recorded` — every content call keeps it, where no digests collide.
-/

namespace Kirakira.EventMail

open Exceptions

variable {lib : Stdlib} {now : String} {s t : Store}

/-! ### Facts -/

/-- A selection with its members. -/
def Store.bundle? (s : Store) (token : String) : Option (Selection × List Member) :=
  (s.selection? token).map fun c => (c, s.membersOf token)

/-- An item is a member of a selection. -/
def Store.HasMember (s : Store) (token : String) (key : ItemKey) : Prop :=
  ∃ m ∈ s.contentSelectionMembers.rows, m.token = token ∧ m.item = key

instance (s : Store) (token : String) (key : ItemKey) : Decidable (s.HasMember token key) :=
  inferInstanceAs (Decidable (∃ m ∈ _, _))

variable {token : String} {key : ItemKey} {keys : List ItemKey} {c : Selection}
  {selectedRefs : Option (List Json)} {r : TransitionResult} {f : Item → Item}
  {itemRefs : List Json}

theorem Store.bundle?_eq_some {b : Selection × List Member} :
    s.bundle? token = some b ↔
      b.1 ∈ s.contentSelections.rows ∧ b.1.token = token ∧ b.2 = s.membersOf token := by
  rw [Store.bundle?, Option.map_eq_some_iff]
  constructor
  · rintro ⟨c, hc, rfl⟩
    obtain ⟨hmem, htoken⟩ := Store.selection?_eq_some.mp hc
    exact ⟨hmem, htoken, rfl⟩
  · rintro ⟨hmem, htoken, hmembers⟩
    exact ⟨b.1, Store.selection?_eq_some.mpr ⟨hmem, htoken⟩, Prod.ext rfl hmembers.symm⟩

/-- A store whose content tables and state are those of another. -/
structure Store.SameTables (s t : Store) : Prop extends s.SameContent t where
  state : t.contentState = s.contentState

theorem Store.mem_selectionsOf {b : Selection × List Member} :
    b ∈ s.selectionsOf key ↔ s.bundle? b.1.token = some b ∧ s.HasMember b.1.token key := by
  simp only [Store.selectionsOf, List.mem_map, List.mem_insertionSort, List.mem_filter,
    List.any_eq_true, Bool.and_eq_true, decide_eq_true_eq, Store.bundle?_eq_some, true_and]
  constructor
  · rintro ⟨c, ⟨hc, hmember⟩, rfl⟩
    exact ⟨⟨hc, rfl⟩, hmember⟩
  · rintro ⟨⟨hc, hmembers⟩, hmember⟩
    exact ⟨b.1, ⟨hc, hmember⟩, Prod.ext rfl hmembers.symm⟩

theorem addSelections_eq_ok {bundles : List (Selection × List Member)}
    {known : Dict String (Selection × List Member)}
    (hnames : ∀ b ∈ bundles, isIdentity b.1.token = true) :
    addSelections bundles known
      = .ok (bundles.foldl (fun known b => known.set b.1.token b) known) := by
  induction bundles generalizing known with
  | nil => rfl
  | cons b bundles ih =>
      have hname : identity "selection_token" (some (.str b.1.token)) = .ok b.1.token := by
        rw [identity, if_pos (hnames b List.mem_cons_self)]
      rw [addSelections, List.foldlM_cons, hname]
      exact ih fun b' hb' => hnames b' (List.mem_cons_of_mem _ hb')

theorem get?_foldl_set {bundles : List (Selection × List Member)}
    {known : Dict String (Selection × List Member)}
    (hbundles : ∀ b ∈ bundles, s.bundle? b.1.token = some b) :
    (bundles.foldl (fun known b => known.set b.1.token b) known).get? token
      = if ∃ b ∈ bundles, b.1.token = token then s.bundle? token else known.get? token := by
  induction bundles generalizing known with
  | nil => simp
  | cons b bundles ih =>
      rw [List.foldl_cons, ih fun b' hb' => hbundles b' (List.mem_cons_of_mem _ hb'),
        Dict.get?_set]
      by_cases hrest : ∃ b' ∈ bundles, b'.1.token = token
      · rw [if_pos hrest, if_pos]
        obtain ⟨b', hb', htoken⟩ := hrest
        exact ⟨b', List.mem_cons_of_mem _ hb', htoken⟩
      · rw [if_neg hrest]
        by_cases htoken : token = b.1.token
        · rw [if_pos htoken, if_pos ⟨b, List.mem_cons_self, htoken.symm⟩, htoken,
            hbundles b List.mem_cons_self]
        · rw [if_neg htoken, if_neg]
          rintro ⟨b', hb', htoken'⟩
          rcases List.mem_cons.mp hb' with rfl | hb'
          · exact htoken htoken'.symm
          · exact hrest ⟨b', hb', htoken'⟩

/-- The names of the content: its keys and tokens are identities. -/
structure Store.Named (s : Store) : Prop where
  keys : ∀ i ∈ s.items.rows, checkKey i.key = .ok i.key
  tokens : ∀ c ∈ s.contentSelections.rows, isIdentity c.token = true

variable {i : Item} {action : Action} {detail : Detail} {sourceId : Json} {instant : Datetime}

/-- **What the fact of an item adds**: the item, its selections and the state. -/
theorem Projected.add_fact (hnamed : s.Named) (hi : i ∈ s.items.rows) (p : Projected)
    (id createdAt : String) :
    ∃ q, p.add ⟨id, .content, .projected, s.fact i, createdAt⟩ = .ok q ∧
      (∀ key, q.items.get? key = if key = i.key then s.item? key else p.items.get? key) ∧
      (∀ token, q.selections.get? token
        = if s.HasMember token i.key ∧ (s.bundle? token).isSome then s.bundle? token
          else p.selections.get? token) ∧
      q.state = some s.contentState := by
  have hbundles : ∀ b ∈ s.selectionsOf i.key, s.bundle? b.1.token = some b :=
    fun b hb => (Store.mem_selectionsOf.mp hb).1
  have hnames : ∀ b ∈ s.selectionsOf i.key, isIdentity b.1.token = true := by
    intro b hb
    exact hnamed.tokens b.1 (Store.bundle?_eq_some.mp (hbundles b hb)).1
  rw [Projected.add, Store.fact]
  dsimp only
  rw [hnamed.keys i hi, addSelections_eq_ok hnames]
  refine ⟨_, rfl, fun key => ?_, fun token => ?_, rfl⟩
  · rw [Dict.get?_set]
    split_ifs with hkey
    · rw [hkey, Store.item?_eq_some.mpr ⟨hi, rfl⟩]
    · rfl
  · rw [get?_foldl_set hbundles]
    refine if_congr ?_ rfl rfl
    constructor
    · rintro ⟨b, hb, rfl⟩
      obtain ⟨hbundle, hmember⟩ := Store.mem_selectionsOf.mp hb
      exact ⟨hmember, by rw [hbundle]; rfl⟩
    · rintro ⟨hmember, hsome⟩
      obtain ⟨b, hb⟩ := Option.isSome_iff_exists.mp hsome
      have htoken : b.1.token = token := (Store.bundle?_eq_some.mp hb).2.1
      refine ⟨b, Store.mem_selectionsOf.mpr ?_, htoken⟩
      rw [htoken]
      exact ⟨hb, hmember⟩

/-! ### Recording facts -/

/-- Every item has its envelope, and every content envelope its item. -/
structure Store.Mailed (s : Store) : Prop where
  envelope : ∀ i ∈ s.items.rows, ∃ e ∈ s.mailEnvelopes.rows,
    e.mailId = i.key.mailId ∧ e.kind = .content ∧
      (⟨e.sourceId, e.itemId, e.revision⟩ : ItemKey) = i.key
  item : ∀ e ∈ s.mailEnvelopes.rows, e.kind = .content →
    ∃ i ∈ s.items.rows, i.key = ⟨e.sourceId, e.itemId, e.revision⟩

theorem Store.Mailed.key_ext (hs : s.Mailed) {j : Item} (hi : i ∈ s.items.rows)
    (hj : j ∈ s.items.rows) (hmail : i.key.mailId = j.key.mailId) : i.key = j.key := by
  obtain ⟨e, he, hid, -, hkey⟩ := hs.envelope i hi
  obtain ⟨f, hf, hid', -, hkey'⟩ := hs.envelope j hj
  have hsame : e = f := s.envelopes_unique.eq_of_key he hf rfl
    (congrArg some (hid'.trans (hmail.symm.trans hid.symm)))
  rw [← hkey, ← hkey', hsame]

/-- The fact of an item is not in the log under another one's digest, nor itself. -/
def Store.IsNew (digest : Detail → String) (s : Store) (i : Item) : Prop :=
  ∀ x ∈ s.mailTransitions, x.mailId = i.key.mailId → x.action = .projected →
    digest x.detail ≠ digest (s.fact i)

theorem appendTransition_of_not_logged {digest : Detail → String} {log : List MailTransition}
    {id : String} (kind : Kind) (now : String) (h : logged digest log id action detail = false) :
    appendTransition digest now id kind action detail log
      = log ++ [⟨id, kind, action, detail, now⟩] := by
  rw [appendTransition, h]
  rfl

theorem Store.appendProjection_eq_ok (hs : s.Mailed) (hi : i ∈ s.items.rows)
    (hnew : s.IsNew lib.digest i) (now : String) :
    s.appendProjection lib now i.key.mailId = .ok { s with mailTransitions := s.mailTransitions ++
      [⟨i.key.mailId, .content, .projected, s.fact i, now⟩] } := by
  obtain ⟨e, he, hid, hkind, hkey⟩ := hs.envelope i hi
  have henvelope : s.envelope? i.key.mailId = some e := Store.envelope?_eq_some.mpr ⟨he, hid⟩
  have hitem : s.item? ⟨e.sourceId, e.itemId, e.revision⟩ = some i := by
    rw [hkey]
    exact Store.item?_eq_some.mpr ⟨hi, rfl⟩
  have hlogged :
      logged lib.digest s.mailTransitions i.key.mailId .projected (s.fact i) = false := by
    rw [logged, List.any_eq_false]
    intro x hx hsame
    rw [Bool.and_eq_true, Bool.and_eq_true, decide_eq_true_eq, decide_eq_true_eq,
      decide_eq_true_eq] at hsame
    exact hnew x hx hsame.1.1 hsame.1.2 hsame.2
  have happend := appendTransition_of_not_logged .content now hlogged
  rw [Store.appendProjection, henvelope]
  dsimp only
  rw [if_neg (not_not.mpr hkind), hitem]
  exact congrArg (fun log => Except.ok { s with mailTransitions := log }) happend

/-- The log of a store, grown. -/
def Store.log (s : Store) (more : List MailTransition) : Store :=
  { s with mailTransitions := s.mailTransitions ++ more }

/-- A transition that is a fact. -/
def MailTransition.IsFact (x : MailTransition) : Prop :=
  x.kind = .content ∧ x.action = .projected

theorem Store.projected_log {more : List MailTransition} (hmore : ∀ x ∈ more, x.IsFact) :
    (s.log more).projected = (do
      let p ← s.projected
      more.foldlM Projected.add p) := by
  have hfilter : (s.log more).projections = s.projections ++ more := by
    rw [Store.projections, Store.log, List.filter_append]
    congr 1
    refine List.filter_eq_self.mpr fun x hx => ?_
    rw [(hmore x hx).1, (hmore x hx).2]
    rfl
  rw [Store.projected, hfilter, List.foldlM_append]
  rfl

/-- **What logging the facts of some items does**: it succeeds, and what the log projects
changes to what the tables hold on these items and their selections. -/
theorem Store.appendProjections_spec (hs : s.Mailed) (hnamed : s.Named)
    (hkeys : ∀ key ∈ keys, ∃ i ∈ s.items.rows, i.key = key ∧ s.IsNew lib.digest i)
    (hnodup : keys.Nodup) {p : Projected} (hp : s.projected = .ok p) (now : String) :
    ∃ facts q, s.appendProjections lib now keys = .ok (s.log facts) ∧
      (∀ x ∈ facts, x.IsFact ∧ ∃ i ∈ s.items.rows, x.detail = s.fact i) ∧
      (facts = [] ↔ keys = []) ∧ (s.log facts).projected = .ok q ∧
      (∀ key, q.items.get? key = if key ∈ keys then s.item? key else p.items.get? key) ∧
      (∀ token, q.selections.get? token
        = if (∃ key ∈ keys, s.HasMember token key) ∧ (s.bundle? token).isSome then s.bundle? token
          else p.selections.get? token) ∧
      q.state = if keys = [] then p.state else some s.contentState := by
  induction keys generalizing s p with
  | nil =>
      refine ⟨[], p, ?_, by simp, by simp, ?_, by simp, by simp, by simp⟩
      · rw [Store.log, List.append_nil]
        rfl
      · rw [Store.projected_log (by simp), hp]
        rfl
  | cons key keys ih =>
      obtain ⟨i, hi, rfl, hnew⟩ := hkeys key List.mem_cons_self
      obtain ⟨hfresh, hnodup⟩ := List.nodup_cons.mp hnodup
      have hfirst := Store.appendProjection_eq_ok hs hi hnew now
      obtain ⟨p₁, hadd, hitems₁, hselections₁, hstate₁⟩ :=
        Projected.add_fact hnamed hi p i.key.mailId now
      have hp₁ : (s.log [⟨i.key.mailId, .content, .projected, s.fact i, now⟩]).projected
          = .ok p₁ := by
        rw [Store.projected_log (by simp [MailTransition.IsFact]), hp]
        exact (bind_pure_comp _ _).trans (congrArg _ hadd)
      -- the other items are of other mails, so their facts stay new
      have hrest : ∀ key ∈ keys, ∃ j ∈ s.items.rows, j.key = key ∧ Store.IsNew lib.digest
          (s.log [⟨i.key.mailId, .content, .projected, s.fact i, now⟩]) j := by
        intro key hkey
        obtain ⟨j, hj, hjkey, hjnew⟩ := hkeys key (List.mem_cons_of_mem _ hkey)
        refine ⟨j, hj, hjkey, fun x hx hmail => ?_⟩
        rcases List.mem_append.mp hx with hx | hx
        · exact hjnew x hx hmail
        · obtain rfl := List.mem_singleton.mp hx
          have hsame := hs.key_ext hi hj hmail
          exact absurd (hsame ▸ hjkey ▸ hkey) hfresh
      obtain ⟨facts, q, happend, hfacts, -, hq, hitems, hselections, hstate⟩ :=
        ih (s := s.log [⟨i.key.mailId, .content, .projected, s.fact i, now⟩])
          ⟨hs.envelope, hs.item⟩ ⟨hnamed.keys, hnamed.tokens⟩ hrest hnodup hp₁
      refine ⟨⟨i.key.mailId, .content, .projected, s.fact i, now⟩ :: facts, q, ?_, ?_, by simp, ?_,
        fun key => ?_, fun token => ?_, ?_⟩
      · rw [Store.appendProjections, List.foldlM_cons, hfirst]
        refine happend.trans ?_
        rw [Store.log, Store.log, Store.log, List.append_assoc]
        rfl
      · intro x hx
        rcases List.mem_cons.mp hx with rfl | hx
        · exact ⟨⟨rfl, rfl⟩, i, hi, rfl⟩
        · exact hfacts x hx
      · rw [← hq, Store.log, Store.log, Store.log, List.append_assoc]
        rfl
      · rw [hitems, hitems₁]
        by_cases hkey : key ∈ keys
        · rw [if_pos hkey, if_pos (List.mem_cons_of_mem _ hkey)]
          rfl
        · rw [if_neg hkey]
          refine if_congr ?_ rfl rfl
          rw [List.mem_cons, or_iff_left hkey]
      · rw [hselections, hselections₁]
        by_cases hrest : (∃ key ∈ keys, s.HasMember token key) ∧ (s.bundle? token).isSome = true
        · obtain ⟨⟨key, hkey, hmember⟩, hsome⟩ := hrest
          rw [if_pos ⟨⟨key, hkey, hmember⟩, hsome⟩,
            if_pos ⟨⟨key, List.mem_cons_of_mem _ hkey, hmember⟩, hsome⟩]
          rfl
        · refine (if_neg hrest).trans (if_congr ?_ rfl rfl)
          constructor
          · rintro ⟨hmember, hsome⟩
            exact ⟨⟨i.key, List.mem_cons_self, hmember⟩, hsome⟩
          · rintro ⟨⟨key, hkey, hmember⟩, hsome⟩
            rcases List.mem_cons.mp hkey with rfl | hkey
            · exact ⟨hmember, hsome⟩
            · exact absurd ⟨⟨key, hkey, hmember⟩, hsome⟩ hrest
      · rw [hstate, hstate₁, if_neg (List.cons_ne_nil _ _)]
        exact ite_self _

/-! ### What a call notes before it records -/

/-- A detail that is a fact. -/
def Detail.isFact : Detail → Bool
  | .projected .. => true
  | _ => false

/-- A store in which something that is no fact was noted, with the envelopes and the content
state of another. -/
structure Store.Notes (s t : Store) : Prop where
  log : ∃ more, t.mailTransitions = s.mailTransitions ++ more ∧
    ∀ x ∈ more, x.action ≠ .projected ∧ x.detail.isFact = false
  envelopes : t.mailEnvelopes = s.mailEnvelopes
  state : t.contentState = s.contentState

theorem Store.Notes.refl (s : Store) : s.Notes s :=
  ⟨⟨[], (List.append_nil _).symm, by simp⟩, rfl, rfl⟩

theorem Store.Notes.trans {u : Store} (h : s.Notes t) (h' : t.Notes u) : s.Notes u := by
  obtain ⟨more, hlog, hmore⟩ := h.log
  obtain ⟨more', hlog', hmore'⟩ := h'.log
  refine ⟨⟨more ++ more', by rw [hlog', hlog, List.append_assoc], fun x hx => ?_⟩,
    h'.envelopes.trans h.envelopes, h'.state.trans h.state⟩
  exact (List.mem_append.mp hx).elim (hmore x) (hmore' x)

theorem Store.notes_of_eq (hlog : t.mailTransitions = s.mailTransitions)
    (henvelopes : t.mailEnvelopes = s.mailEnvelopes)
    (hstate : t.contentState = s.contentState) : s.Notes t :=
  ⟨⟨[], by rw [hlog, List.append_nil], by simp⟩, henvelopes, hstate⟩

theorem Store.notes_logContent (lib : Stdlib) (now : String) (haction : action ≠ .projected)
    (hdetail : detail.isFact = false) (key : ItemKey) (s : Store) :
    s.Notes (s.logContent lib now key action detail) := by
  refine ⟨?_, rfl, rfl⟩
  rw [Store.logContent, Store.appendTransition]
  dsimp only
  rw [EventMail.appendTransition]
  split_ifs
  · exact ⟨[], (List.append_nil _).symm, by simp⟩
  · refine ⟨_, rfl, fun x hx => ?_⟩
    obtain rfl := List.mem_singleton.mp hx
    exact ⟨haction, hdetail⟩

theorem Store.notes_logEach (lib : Stdlib) (now : String) (haction : action ≠ .projected)
    (hdetail : detail.isFact = false) (keys : List ItemKey) (s : Store) :
    s.Notes (s.logEach lib now action detail keys) := by
  induction keys generalizing s with
  | nil => exact .refl s
  | cons key keys ih => exact (notes_logContent lib now haction hdetail key s).trans (ih _)

theorem Store.writeItems_notes {rows : List Item} (h : s.writeItems rows = .ok t) : s.Notes t := by
  obtain ⟨p, -, rfl⟩ := Store.writeItems_eq_ok.mp h
  exact notes_of_eq rfl rfl rfl

theorem Store.writeSelections_notes {rows : List Selection} (h : s.writeSelections rows = .ok t) :
    s.Notes t := by
  obtain ⟨p, -, rfl⟩ := Store.writeSelections_eq_ok.mp h
  exact notes_of_eq rfl rfl rfl

theorem Store.writeMembers_notes {rows : List Member} (h : s.writeMembers rows = .ok t) :
    s.Notes t := by
  obtain ⟨p, -, rfl⟩ := Store.writeMembers_eq_ok.mp h
  exact notes_of_eq rfl rfl rfl

/-- The wake of the content is that of its items. -/
def Store.Awake (s : Store) : Prop :=
  s.recomputeWake = s

theorem Store.awake_recomputeWake (s : Store) : s.recomputeWake.Awake :=
  rfl

theorem Store.appendProjections_rest (h : s.appendProjections lib now keys = .ok t) :
    t = { s with mailTransitions := t.mailTransitions } := by
  induction keys generalizing s with
  | nil =>
      cases h
      rfl
  | cons key keys ih =>
      rw [Store.appendProjections, List.foldlM_cons] at h
      obtain ⟨s₁, hfirst, hrest⟩ := bind_eq_ok.mp h
      rw [ih hrest]
      rw [Store.appendProjection] at hfirst
      split at hfirst
      · cases hfirst
      · split_ifs at hfirst
        · cases hfirst
        · split at hfirst
          · cases hfirst
          · cases hfirst
            rfl

/-- **A call that records**: what it did was noted, its version is new and its wake is that
of its items when it logs the facts of some items. -/
structure Store.Records (lib : Stdlib) (now : String) (s t : Store) (keys : List ItemKey) :
    Prop where
  noted : ∃ v : Store,
    (∃ more, v.mailTransitions = s.mailTransitions ++ more ∧
      ∀ x ∈ more, x.action ≠ .projected ∧ x.detail.isFact = false) ∧
    v.contentState.stateVersion = s.contentState.stateVersion + 1 ∧ v.Awake ∧
    v.appendProjections lib now keys = .ok t

/-- A call that records, and brings no mail. -/
structure Store.RecordsOnly (lib : Stdlib) (now : String) (s t : Store) (keys : List ItemKey) :
    Prop extends s.Records lib now t keys where
  envelopes : t.mailEnvelopes = s.mailEnvelopes

theorem Store.RecordsOnly.of_notes {u v : Store} (hnotes : s.Notes u)
    (happend : v.appendProjections lib now keys = .ok t)
    (hlog : v.mailTransitions = u.mailTransitions) (henvelopes : v.mailEnvelopes = u.mailEnvelopes)
    (hversion : v.contentState.stateVersion = s.contentState.stateVersion + 1) (hawake : v.Awake) :
    s.RecordsOnly lib now t keys where
  noted := ⟨v, by rw [hlog]; exact hnotes.log, hversion, hawake, happend⟩
  envelopes := by
    rw [appendProjections_rest happend]
    exact henvelopes.trans hnotes.envelopes

theorem Store.applyTransition_notes {action : ContentAction} {deadline : Option String}
    (h : s.applyTransition now c action deadline selectedRefs = .ok t) : s.Notes t := by
  rw [Store.applyTransition.eq_def] at h
  split at h
  · obtain ⟨⟨chosen, s₁⟩, hselect, h⟩ := bind_eq_ok.mp h
    obtain ⟨-, -, members, -, rfl⟩ := selectDeliveryMembers_eq_ok hselect
    dsimp only at h
    split_ifs at h
    · have hnotes := Store.writeItems_notes h
      exact ⟨hnotes.log, hnotes.envelopes, hnotes.state⟩
    · rw [Store.releaseDriver] at h
      have hnotes := Store.writeItems_notes h
      exact ⟨hnotes.log, hnotes.envelopes, hnotes.state⟩
  · dsimp only at h
    split_ifs at h
    · cases h
    · obtain ⟨items, rfl, -⟩ := failMembers_eq_ok h
      exact notes_of_eq rfl rfl rfl
  · exact writeItems_notes h
  · exact writeItems_notes h

theorem ContentAction.logged_ne (action : ContentAction) : action.logged ≠ .projected := by
  cases action <;> decide

/-- `transition` changes nothing, or records the members of the selection it names. -/
theorem Store.runTransition_records {action : ContentAction} {deadline : Option String}
    (h : s.runTransition lib now token action deadline selectedRefs = .ok (r, t)) :
    t = s ∨ s.RecordsOnly lib now t ((s.membersOf token).map Member.item) := by
  rw [Store.runTransition] at h
  split at h
  · cases h
    exact .inl rfl
  · split_ifs at h with hallows
    · cases h
      exact .inl rfl
    · dsimp only at h
      obtain ⟨s₁, happly, h⟩ := bind_eq_ok.mp h
      obtain ⟨s₂, hwrite, h⟩ := bind_eq_ok.mp h
      obtain ⟨s₃, hprojections, h⟩ := bind_eq_ok.mp h
      cases h
      have hnotes := ((applyTransition_notes happly).trans (writeSelections_notes hwrite)).trans
        (notes_logEach lib now action.logged_ne
          (show (Detail.selection token deadline).isFact = false from rfl)
          ((s.membersOf token).map Member.item) s₂)
      refine .inr (.of_notes hnotes hprojections ?_ ?_ ?_ ?_)
      · rfl
      · rfl
      · exact congrArg (fun state => state.stateVersion + 1) hnotes.state
      · exact awake_recomputeWake _

/-- The statements of `settle_delivery` on the members note their settlements. -/
theorem Store.settleMembers_notes {settlement : String} {single : Bool} {members : List Item}
    (h : s.settleMembers lib now token settlement single members = .ok t) : s.Notes t := by
  induction members generalizing s with
  | nil =>
      cases h
      exact .refl _
  | cons member members ih =>
      rw [Store.settleMembers, List.foldlM_cons] at h
      obtain ⟨s₁, hfirst, hrest⟩ := bind_eq_ok.mp h
      rw [Store.settleMember] at hfirst
      obtain ⟨s₂, hwrite, hfirst⟩ := bind_eq_ok.mp hfirst
      split_ifs at hfirst with hone
      · cases hfirst
      · have haction : settledAction member.requiresAck ≠ .projected := by
          rw [settledAction]
          split_ifs <;> decide
        exact ((writeItems_notes hwrite).trans (notes_logContent lib now haction rfl _ s₂)).trans
          ((writeMembers_notes hfirst).trans (ih hrest))

/-- `settle_delivery` records the members of the selection it settles. -/
theorem Store.settleSelection_records {settlement : String} {r : SelectionStatus}
    (h : s.settleSelection lib now settlement c = .ok (r, t)) :
    s.RecordsOnly lib now t ((t.membersOf c.token).map Member.item) := by
  obtain ⟨-, rfl, s₁, s₂, s₃, hsettle, hrelease, hwrite, hprojections⟩ := settleSelection_steps h
  have hnotes : s.Notes s₂ := by
    split_ifs at hrelease
    · rw [hrelease]
      exact settleMembers_notes hsettle
    · exact (settleMembers_notes hsettle).trans (writeItems_notes hrelease)
  have hmembers : t.membersOf c.token = s₃.membersOf c.token := by
    rw [Store.membersOf, (appendProjections_content hprojections).members]
    rfl
  rw [hmembers]
  have hnotes₃ := hnotes.trans (writeSelections_notes hwrite)
  refine .of_notes hnotes₃ hprojections ?_ ?_ ?_ ?_
  · rfl
  · rfl
  · exact congrArg (fun state => state.stateVersion + 1) hnotes₃.state
  · exact awake_recomputeWake _

/-- `settle_delivery` changes nothing, or records the members of the selection it names. -/
theorem Store.settleDelivery_records {token settlement : Json}
    (h : s.settleDelivery lib now token settlement = .ok (r, t)) :
    t = s ∨ ∃ text, identity "selection_token" (some token) = .ok text ∧
      s.RecordsOnly lib now t ((t.membersOf text).map Member.item) := by
  rcases settleDelivery_steps h with hsame | ⟨c, -, htoken, -, ref, status, hsettle⟩
  · exact .inl hsame
  · exact .inr ⟨_, htoken, settleSelection_records hsettle⟩

theorem Store.Awake.congr (hs : s.Awake)
    (hitems : (t.items.rows.filter fun i => i.status.isWaiting).map Item.notBefore
      = (s.items.rows.filter fun i => i.status.isWaiting).map Item.notBefore)
    (hneeded : t.contentState.wakeNeeded = s.contentState.wakeNeeded)
    (hearliest : t.contentState.earliestNotBefore = s.contentState.earliestNotBefore) :
    t.Awake := by
  have hearliest' : earliestWaiting t.items.rows = earliestWaiting s.items.rows := by
    rw [earliestWaiting, earliestWaiting, hitems]
  have hstate := congrArg Store.contentState hs
  rw [Store.Awake, Store.recomputeWake, hearliest']
  have hs₁ : earliestWaiting s.items.rows = s.contentState.earliestNotBefore :=
    congrArg ContentState.earliestNotBefore hstate
  have hs₂ : (earliestWaiting s.items.rows).isSome = s.contentState.wakeNeeded :=
    congrArg ContentState.wakeNeeded hstate
  rw [hs₂, hs₁, ← hneeded, ← hearliest]

theorem waiting_map {rows : List Item}
    (hf : ∀ i ∈ rows, f i ≠ i → i.status.isWaiting = false ∧ (f i).status.isWaiting = false) :
    ((rows.map f).filter fun i => i.status.isWaiting).map Item.notBefore
      = (rows.filter fun i => i.status.isWaiting).map Item.notBefore := by
  induction rows with
  | nil => rfl
  | cons i rows ih =>
      have hrest := ih fun j hj => hf j (List.mem_cons_of_mem _ hj)
      rw [List.map_cons]
      by_cases hsame : f i = i
      · rw [hsame, List.filter_cons, List.filter_cons]
        split_ifs
        · rw [List.map_cons, List.map_cons, hrest]
        · exact hrest
      · obtain ⟨hbefore, hafter⟩ := hf i List.mem_cons_self hsame
        rw [List.filter_cons_of_neg (by rw [hafter]; exact Bool.false_ne_true),
          List.filter_cons_of_neg (by rw [hbefore]; exact Bool.false_ne_true), hrest]

theorem Store.ack_records {settlementRef : Json} {r : AckResult} (hs : s.Awake)
    (h : s.ack lib now sourceId settlementRef = .ok (r, t)) :
    t = s ∨ ∃ i ∈ s.items.rows, s.RecordsOnly lib now t [i.key] ∧
      (t.items.rows = s.items.rows.map fun j =>
        if j.key = i.key then j.become .settled now else j) ∧
      t.contentSelections = s.contentSelections ∧
      t.contentSelectionMembers = s.contentSelectionMembers := by
  rcases ack_eq_ok h with rfl | ⟨i, hi, hstatus, items, settlement, hitems, hprojections⟩
  · exact .inl rfl
  · have hnotes := Store.notes_logContent lib now (show Action.acknowledged ≠ .projected by decide)
      (show (Detail.settlement settlement).isFact = false from rfl) i.key { s with items := items }
    refine .inr ⟨i, hi, .of_notes ⟨hnotes.log, hnotes.envelopes, hnotes.state⟩ hprojections
      ?_ ?_ ?_ ?_, ?_⟩
    · rfl
    · rfl
    · rfl
    · refine hs.congr ?_ rfl rfl
      change (items.rows.filter _).map _ = _
      rw [hitems]
      refine waiting_map fun j hj hne => ?_
      split_ifs at hne ⊢ with hkey
      · rw [s.item_ext hj hi hkey, hstatus]
        exact ⟨rfl, rfl⟩
      · exact absurd rfl hne
    · have hcontent := appendProjections_content hprojections
      exact ⟨(congrArg _ hcontent.items).trans hitems, hcontent.selections, hcontent.members⟩

/-- `select_batch` changes nothing, or records the members of the selection it makes. -/
theorem Store.selectBatch_records {hex : String} {snapshotSeq : ℤ} {acceptedTurn : Json}
    {r : SelectResult}
    (h : s.selectBatch lib now hex itemRefs snapshotSeq acceptedTurn instant = .ok (r, t)) :
    t = s ∨ ∃ c keys, c.token = "content-selection:" ++ hex ∧ s.ClaimsBatch lib now t c keys ∧
      s.RecordsOnly lib now t keys := by
  rcases selectBatch_eq_ok h with hsame | ⟨c, keys, htoken, hclaims⟩
  · exact .inl hsame
  · refine .inr ⟨c, keys, htoken, hclaims, ?_⟩
    obtain ⟨items, selections, members, -, -, -, hprojections⟩ := hclaims.claims
    have hnotes := Store.notes_logEach lib now (show Action.selected ≠ .projected by decide)
      (show (Detail.claim c.token c.acceptedTurn).isFact = false from rfl) keys
      { s with items := items, contentSelections := selections, contentSelectionMembers := members }
    refine .of_notes ⟨hnotes.log, hnotes.envelopes, hnotes.state⟩ hprojections ?_ ?_ ?_ ?_
    · rfl
    · rfl
    · exact congrArg (fun state => state.stateVersion + 1) hnotes.state
    · exact awake_recomputeWake _

theorem ContentRef.countP_expires {ref : ContentRef} :
    s.items.rows.countP ref.expires = 1 ↔ ∃ i ∈ s.items.rows, ref.expires i = true := by
  constructor
  · intro hone
    exact List.countP_pos_iff.mp (by rw [hone]; exact Nat.one_pos)
  · rintro ⟨i, hi, hexpires⟩
    refine Table.countP_eq_one s.items_unique.nodup hi fun j hj => ⟨fun hj' => ?_, ?_⟩
    · have hkey : ∀ {k : Item}, ref.expires k = true → k.key = ref.key := fun h => by
        rw [ContentRef.expires, Bool.and_eq_true, Bool.and_eq_true, decide_eq_true_eq] at h
        exact h.1.1
      exact s.item_ext hj hi ((hkey hj').trans (hkey hexpires).symm)
    · rintro rfl
      exact hexpires

theorem ContentRef.key_of_expires {ref : ContentRef} (h : ref.expires i = true) :
    i.key = ref.key := by
  rw [ContentRef.expires, Bool.and_eq_true, Bool.and_eq_true, decide_eq_true_eq] at h
  exact h.1.1

/-- The loop of `expire` notes what it expires: the references that hit an item. -/
theorem Store.expireRefs_notes {instant : String} {refs expired stale : List ContentRef}
    (hnodup : (refs.map ContentRef.key).Nodup)
    (h : s.expireRefs lib now instant refs = .ok (expired, stale, t)) :
    s.Notes t ∧ expired.Sublist refs ∧
      (∀ ref ∈ expired, ∃ i ∈ s.items.rows, i.key = ref.key) ∧
      ∀ i ∈ s.items.rows, expiring refs i = true → i.key ∈ expired.map ContentRef.key := by
  induction refs generalizing s expired stale with
  | nil =>
      cases h
      exact ⟨.refl _, .slnil, by simp, by simp [expiring]⟩
  | cons ref refs ih =>
      rw [Store.expireRefs] at h
      obtain ⟨s₁, hwrite, h⟩ := bind_eq_ok.mp h
      obtain ⟨hfresh, hnodup⟩ := List.nodup_cons.mp hnodup
      obtain ⟨items, hitems, rfl⟩ := Store.writeItems_eq_ok.mp hwrite
      -- the other references hit after the statement what they hit before
      have hothers : ∀ i ∈ s.items.rows, expiring refs i = true →
          i ∈ items.rows := by
        intro i hi hexpires
        obtain ⟨ref', href', hhit⟩ := List.any_eq_true.mp hexpires
        rw [hitems, Table.mem_update]
        refine ⟨i, hi, if_neg fun hhit' => hfresh ?_⟩
        rw [← ContentRef.key_of_expires hhit', ContentRef.key_of_expires hhit]
        exact List.mem_map_of_mem href'
      have hback : ∀ j ∈ items.rows, ∃ i ∈ s.items.rows, i.key = j.key := by
        intro j hj
        rw [hitems, Table.mem_update] at hj
        obtain ⟨i, hi, rfl⟩ := hj
        exact ⟨i, hi, by split_ifs <;> rfl⟩
      split_ifs at h with hmissed
      · obtain ⟨⟨expired', stale', t'⟩, hrest, h⟩ := bind_eq_ok.mp h
        cases h
        obtain ⟨hnotes, hsub, hhit, hall⟩ := ih hnodup hrest
        refine ⟨⟨hnotes.log, hnotes.envelopes, hnotes.state⟩, hsub.cons _, fun ref' href' => ?_,
          fun i hi hexpires => ?_⟩
        · obtain ⟨j, hj, hkey⟩ := hhit ref' href'
          obtain ⟨i, hi, hik⟩ := hback j hj
          exact ⟨i, hi, hik.trans hkey⟩
        · rw [expiring, List.any_cons, Bool.or_eq_true] at hexpires
          rcases hexpires with hhead | hrest'
          · exact absurd (ContentRef.countP_expires.mpr ⟨i, hi, hhead⟩) hmissed
          · exact hall i (hothers i hi hrest') hrest'
      · obtain ⟨⟨expired', stale', t'⟩, hrest, h⟩ := bind_eq_ok.mp h
        cases h
        obtain ⟨hnotes, hsub, hhit, hall⟩ := ih hnodup hrest
        have hlogged := Store.notes_logContent lib now (show Action.expired ≠ .projected by decide)
          (show (Detail.expired instant).isFact = false from rfl) ref.key { s with items := items }
        have hnotes' := hlogged.trans hnotes
        obtain ⟨i₀, hi₀, hexpires₀⟩ := ContentRef.countP_expires.mp (not_not.mp hmissed)
        refine ⟨⟨hnotes'.log, hnotes'.envelopes, hnotes'.state⟩, hsub.cons_cons _,
          fun ref' href' => ?_, fun i hi hexpires => ?_⟩
        · rcases List.mem_cons.mp href' with rfl | href'
          · exact ⟨i₀, hi₀, ContentRef.key_of_expires hexpires₀⟩
          · obtain ⟨j, hj, hkey⟩ := hhit ref' href'
            obtain ⟨i, hi, hik⟩ := hback j hj
            exact ⟨i, hi, hik.trans hkey⟩
        · rw [List.map_cons, List.mem_cons]
          rw [expiring, List.any_cons, Bool.or_eq_true] at hexpires
          rcases hexpires with hhead | hrest'
          · exact .inl (ContentRef.key_of_expires hhead)
          · exact .inr (hall i (hothers i hi hrest') hrest')

theorem Store.expire_records {r : ExpireResult}
    (h : s.expire lib now itemRefs instant = .ok (r, t)) :
    (s.SameTables t ∧ s.Notes t) ∨ ∃ keys, keys ≠ [] ∧ keys.Nodup ∧
      (∀ key ∈ keys, ∃ i ∈ s.items.rows, i.key = key) ∧ s.RecordsOnly lib now t keys ∧
      ∃ refs text, (t.items.rows
          = s.items.rows.map fun i => if expiring refs i then i.become .expired text else i) ∧
        (∀ i ∈ s.items.rows, expiring refs i = true → i.key ∈ keys) ∧
        t.contentSelections = s.contentSelections ∧
        t.contentSelectionMembers = s.contentSelectionMembers := by
  rw [Store.expire] at h
  obtain ⟨refs, hrefs, h⟩ := bind_eq_ok.mp h
  obtain ⟨_, hcheck, h⟩ := bind_eq_ok.mp h
  obtain ⟨text, -, h⟩ := bind_eq_ok.mp h
  obtain ⟨⟨expired, stale, s₁⟩, hexpire, h⟩ := bind_eq_ok.mp h
  obtain ⟨hnotes, hsub, hhit, hall⟩ := expireRefs_notes (checkRefs_eq_ok hcheck) hexpire
  obtain ⟨hitems, hselections, hmembers⟩ := expireRefs_eq_ok hexpire
  dsimp only at h
  split_ifs at h with hnone
  · cases h
    subst hnone
    refine .inl ⟨⟨⟨Table.Rows.eq_of_rows (hitems.trans ?_), hselections, hmembers⟩, hnotes.state⟩,
      hnotes⟩
    refine (List.map_congr_left (g := id) fun i hi => ?_).trans (List.map_id _)
    refine if_neg fun hexpires => ?_
    cases hall i hi hexpires
  · obtain ⟨s₂, hprojections, h⟩ := bind_eq_ok.mp h
    cases h
    have hcontent := ((bumpVersion_content s₁).trans (recomputeWake_content _)).trans
      (appendProjections_content hprojections)
    refine .inr ⟨expired.map ContentRef.key, by simpa using hnone,
      (checkRefs_eq_ok hcheck).sublist (hsub.map _), ?_,
      .of_notes hnotes hprojections ?_ ?_ ?_ ?_, refs, text, ?_, hall,
      hcontent.selections.trans hselections, hcontent.members.trans hmembers⟩
    · intro key hkey
      obtain ⟨ref, href, rfl⟩ := List.mem_map.mp hkey
      exact hhit ref href
    · rfl
    · rfl
    · exact congrArg (fun state => state.stateVersion + 1) hnotes.state
    · exact awake_recomputeWake _
    · exact (congrArg _ hcontent.items).trans hitems

/-! ### The facts of the log -/

/-- **The facts of the log say what the tables hold**, and the next fact will be new. -/
structure Store.Recorded (s : Store) : Prop where
  mailed : s.Mailed
  named : s.Named
  awake : s.Awake
  seq : ∀ i ∈ s.items.rows, i.snapshotSeq ≠ 0
  versions : ∀ x ∈ s.mailTransitions, ∀ i state selections,
    x.detail = .projected i state selections → state.stateVersion ≤ s.contentState.stateVersion
  facts : ∃ p, s.projected = .ok p ∧ (∀ key, p.items.get? key = s.item? key) ∧
    (∀ token, p.selections.get? token = s.bundle? token) ∧
    (s.projections = [] ∨ p.state = some s.contentState)

theorem Store.recorded_empty : Store.empty.Recorded where
  mailed := ⟨(fun i hi => by cases hi), fun e he => by cases he⟩
  named := ⟨(fun i hi => by cases hi), fun c hc => by cases hc⟩
  awake := rfl
  seq i hi := by cases hi
  versions x hx := by cases hx
  facts := ⟨.empty, rfl, fun _ => rfl, fun _ => rfl, .inl rfl⟩

/-- Where the digest of a fact of the store after a call is in the log before it, the fact is. -/
def Store.Apart (digest : Detail → String) (s t : Store) : Prop :=
  ∀ i ∈ t.items.rows, ∀ x ∈ s.mailTransitions, x.mailId = i.key.mailId → x.action = .projected →
    digest x.detail = digest (t.fact i) → x.detail = t.fact i

theorem Store.projections_of_notes {more : List MailTransition}
    (hlog : t.mailTransitions = s.mailTransitions ++ more)
    (hmore : ∀ x ∈ more, x.action ≠ .projected ∧ x.detail.isFact = false) :
    t.projections = s.projections := by
  rw [Store.projections, Store.projections, hlog, List.filter_append]
  refine (congrArg _ (List.filter_eq_nil_iff.mpr fun x hx hfact => ?_)).trans (List.append_nil _)
  rw [Bool.and_eq_true, decide_eq_true_eq, decide_eq_true_eq] at hfact
  exact (hmore x hx).1 hfact.2

theorem Store.Recorded.frame (hs : s.Recorded) (hsame : s.SameTables t) (hmailed : t.Mailed)
    (hnoted : ∃ more, t.mailTransitions = s.mailTransitions ++ more ∧
      ∀ x ∈ more, x.action ≠ .projected ∧ x.detail.isFact = false) : t.Recorded := by
  obtain ⟨more, hlog, hmore⟩ := hnoted
  have hprojections := Store.projections_of_notes hlog hmore
  have hitem : ∀ key, t.item? key = s.item? key := fun key => by
    rw [Store.item?, hsame.items, Store.item?]
  have hbundle : ∀ token, t.bundle? token = s.bundle? token := fun token => by
    rw [Store.bundle?, Store.selection?, hsame.selections, Store.bundle?, Store.selection?,
      Store.membersOf, Store.membersOf, hsame.members]
  refine ⟨hmailed, ?_, hs.awake.congr ?_ ?_ ?_, ?_, ?_, ?_⟩
  · exact ⟨by rw [hsame.items]; exact hs.named.keys,
      by rw [hsame.selections]; exact hs.named.tokens⟩
  · rw [hsame.items]
  · rw [hsame.state]
  · rw [hsame.state]
  · rw [hsame.items]
    exact hs.seq
  · rw [hlog, hsame.state]
    intro x hx i state selections hdetail
    rcases List.mem_append.mp hx with hx | hx
    · exact hs.versions x hx i state selections hdetail
    · have hfact := (hmore x hx).2
      rw [hdetail] at hfact
      cases hfact
  · obtain ⟨p, hp, hitems, hselections, hstate⟩ := hs.facts
    refine ⟨p, ?_, fun key => ?_, fun token => ?_, ?_⟩
    · rw [Store.projected, hprojections]
      exact hp
    · rw [hitem]
      exact hitems key
    · rw [hbundle]
      exact hselections token
    · rw [hprojections, hsame.state]
      exact hstate

theorem Store.Recorded.notes (hs : s.Recorded) (hsame : s.SameTables t) (h : s.Notes t) :
    t.Recorded :=
  hs.frame hsame
    ⟨by rw [hsame.items, h.envelopes]; exact hs.mailed.envelope,
      by rw [hsame.items, h.envelopes]; exact hs.mailed.item⟩ h.log

/-- **A call that records keeps the facts**: it records every item it changes, and a member of
every selection it changes. -/
theorem Store.Recorded.records (hs : s.Recorded) (h : s.Records lib now t keys)
    (hsound : t.ContentSound) (hmailed : t.Mailed) (hnamed : t.Named)
    (hseq : ∀ i ∈ t.items.rows, i.snapshotSeq ≠ 0)
    (hkeys : ∀ key ∈ keys, ∃ i ∈ t.items.rows, i.key = key) (hnodup : keys.Nodup) (hne : keys ≠ [])
    (hitem : ∀ key, key ∉ keys → t.item? key = s.item? key)
    (hbundle : ∀ token, (∀ key ∈ keys, ¬t.HasMember token key) →
      t.bundle? token = s.bundle? token) (hapart : s.Apart lib.digest t) : t.Recorded := by
  obtain ⟨v, ⟨more, hlog, hmore⟩, hversion, hawake, happend⟩ := h.noted
  have hrest := appendProjections_rest happend
  obtain ⟨p, hp, hitems, hselections, -⟩ := hs.facts
  have hnew : ∀ key ∈ keys, ∃ i ∈ v.items.rows, i.key = key ∧ v.IsNew lib.digest i := by
    intro key hkey
    obtain ⟨i, hi, hik⟩ := hkeys key hkey
    have hiv : i ∈ v.items.rows := by
      rw [hrest] at hi
      exact hi
    refine ⟨i, hiv, hik, fun x hx hmail haction hdigest => ?_⟩
    have hfact : t.fact i = v.fact i := by
      rw [hrest]
      rfl
    rw [hlog] at hx
    rcases List.mem_append.mp hx with hx | hx
    · have hdetail := hapart i hi x hx hmail haction (hfact ▸ hdigest)
      rw [hfact] at hdetail
      have hle := hs.versions x hx _ _ _ hdetail
      omega
    · exact (hmore x hx).1 haction
  have hvprojected : v.projected = .ok p := by
    rw [Store.projected, Store.projections_of_notes hlog hmore]
    exact hp
  have hvmailed : v.Mailed := by
    rw [hrest] at hmailed
    exact ⟨hmailed.envelope, hmailed.item⟩
  have hvnamed : v.Named := by
    rw [hrest] at hnamed
    exact ⟨hnamed.keys, hnamed.tokens⟩
  obtain ⟨facts, q, happend', hfacts, hnil, hq, hqitems, hqselections, hqstate⟩ :=
    Store.appendProjections_spec hvmailed hvnamed hnew hnodup hvprojected now
  obtain rfl := Except.ok.inj (happend.symm.trans happend')
  refine ⟨hmailed, hnamed, hawake.congr rfl rfl rfl, hseq, ?_, q, hq, fun key => ?_,
    fun token => ?_, .inr ?_⟩
  · intro x hx i state selections hdetail
    change state.stateVersion ≤ v.contentState.stateVersion
    have hx' : x ∈ v.mailTransitions ++ facts := hx
    rw [hlog] at hx'
    rcases List.mem_append.mp hx' with hx' | hx'
    · rcases List.mem_append.mp hx' with hx' | hx'
      · have hle := hs.versions x hx' i state selections hdetail
        omega
      · have hfact := (hmore x hx').2
        rw [hdetail] at hfact
        cases hfact
    · obtain ⟨-, j, -, hfact⟩ := hfacts x hx'
      rw [hdetail] at hfact
      injection hfact with _ hstate
      rw [hstate]
  · rw [hqitems]
    split_ifs with hkey
    · rfl
    · rw [hitems]
      exact (hitem key hkey).symm
  · rw [hqselections]
    split_ifs with hmember
    · rfl
    · rw [hselections]
      refine (hbundle token fun key hkey hhas => hmember ⟨⟨key, hkey, hhas⟩, ?_⟩).symm
      obtain ⟨m, hm, htoken, -⟩ := hhas
      obtain ⟨c, hc, hctoken⟩ := hsound.selection m hm
      exact Option.isSome_iff_exists.mpr ⟨(c, v.membersOf token),
        Store.bundle?_eq_some.mpr ⟨hc, hctoken.trans htoken, rfl⟩⟩
  · rw [hqstate, if_neg hne]
    rfl

/-! ### Calls keep the facts -/

theorem Store.item?_map (hitems : t.items.rows = s.items.rows.map f) (hkey : ∀ i, (f i).key = i.key)
    (hsame : ∀ i ∈ s.items.rows, i.key = key → f i = i) : t.item? key = s.item? key := by
  refine Option.ext fun i => ?_
  rw [Store.item?_eq_some, Store.item?_eq_some, hitems, List.mem_map]
  constructor
  · rintro ⟨⟨j, hj, rfl⟩, hjkey⟩
    rw [hkey] at hjkey
    rw [hsame j hj hjkey]
    exact ⟨hj, hjkey⟩
  · rintro ⟨hi, hikey⟩
    exact ⟨⟨i, hi, hsame i hi hikey⟩, hikey⟩

theorem Store.bundle?_congr (hselections : ∀ c : Selection, c.token = token →
      (c ∈ t.contentSelections.rows ↔ c ∈ s.contentSelections.rows))
    (hmembers : t.contentSelectionMembers.rows.filter (fun m => m.token = token)
      = s.contentSelectionMembers.rows.filter fun m => m.token = token) :
    t.bundle? token = s.bundle? token := by
  have hselection : t.selection? token = s.selection? token := by
    refine Option.ext fun c => ?_
    rw [Store.selection?_eq_some, Store.selection?_eq_some]
    exact and_congr_left fun htoken => hselections c htoken
  rw [Store.bundle?, Store.bundle?, hselection, Store.membersOf, Store.membersOf, hmembers]

theorem Store.Mailed.map (hs : s.Mailed) (hitems : t.items.rows = s.items.rows.map f)
    (hkey : ∀ i, (f i).key = i.key) (henvelopes : t.mailEnvelopes = s.mailEnvelopes) :
    t.Mailed := by
  refine ⟨?_, ?_⟩
  · rw [hitems, henvelopes]
    intro i' hi'
    obtain ⟨i, hi, rfl⟩ := List.mem_map.mp hi'
    rw [hkey]
    exact hs.envelope i hi
  · rw [hitems, henvelopes]
    intro e he hkind
    obtain ⟨i, hi, hik⟩ := hs.item e he hkind
    exact ⟨f i, List.mem_map_of_mem hi, (hkey i).trans hik⟩

/-- A change by a selection that is recorded keeps the facts. -/
theorem Store.Recorded.changed (hs : s.Recorded) (hc : c ∈ s.contentSelections.rows)
    (h : s.ChangesBy t c) (hsound : t.ContentSound) (hrecords : s.RecordsOnly lib now t keys)
    (hkeys : ∀ key, key ∈ keys ↔ t.HasMember c.token key) (hnodup : keys.Nodup)
    (hapart : s.Apart lib.digest t) : t.Recorded := by
  obtain ⟨c', f, g, htouches, -⟩ := h
  have hc' : c' ∈ t.contentSelections.rows := by
    rw [htouches.selections, List.mem_map]
    exact ⟨c, hc, if_pos rfl⟩
  have hdriver : t.HasMember c.token c'.driver := by
    obtain ⟨m, hm, htoken, hitem⟩ := hsound.driver c' hc'
    exact ⟨m, hm, htoken.trans htouches.token, hitem⟩
  refine hs.records hrecords.toRecords hsound
    (hs.mailed.map htouches.items htouches.key hrecords.envelopes) ⟨?_, ?_⟩ ?_ ?_ hnodup ?_ ?_ ?_
    hapart
  · rw [htouches.items]
    intro i' hi'
    obtain ⟨i, hi, rfl⟩ := List.mem_map.mp hi'
    rw [htouches.key]
    exact hs.named.keys i hi
  · rw [htouches.selections]
    intro d' hd'
    obtain ⟨d, hd, rfl⟩ := List.mem_map.mp hd'
    split_ifs
    · rw [htouches.token]
      exact hs.named.tokens c hc
    · exact hs.named.tokens d hd
  · rw [htouches.items]
    intro i' hi'
    obtain ⟨i, hi, rfl⟩ := List.mem_map.mp hi'
    rw [htouches.seq]
    exact hs.seq i hi
  · intro key hkey
    obtain ⟨m, hm, -, hitem⟩ := (hkeys key).mp hkey
    obtain ⟨i, hi, hik⟩ := hsound.item m hm
    exact ⟨i, hi, hik.trans hitem⟩
  · exact List.ne_nil_of_mem ((hkeys _).mpr hdriver)
  · intro key hkey
    refine Store.item?_map htouches.items htouches.key fun i hi hik => ?_
    by_contra hne
    obtain ⟨m, hm, hitem, hclaim⟩ := htouches.claimed i hi hne
    refine hkey ((hkeys key).mpr ⟨g m, ?_, ?_, ?_⟩)
    · rw [htouches.members]
      exact List.mem_map_of_mem hm
    · rw [(htouches.member m).1]
      exact (Member.isClaimedBy_iff.mp hclaim).1
    · rw [(htouches.member m).2, hitem, hik]
  · intro token hnone
    have hne : token ≠ c.token := by
      rintro rfl
      exact hnone _ ((hkeys _).mpr hdriver) hdriver
    refine Store.bundle?_congr (fun d htoken => ?_) ?_
    · rw [htouches.selections, List.mem_map]
      constructor
      · rintro ⟨d₀, hd₀, rfl⟩
        split_ifs at htoken ⊢ with hsame
        · exact absurd (htoken.symm.trans htouches.token) hne
        · exact hd₀
      · intro hd
        exact ⟨d, hd, if_neg fun hsame => hne (htoken.symm.trans hsame)⟩
    · rw [htouches.members, List.filter_map]
      have hpred : ((fun m => decide (m.token = token)) ∘ g)
          = fun m : Member => decide (m.token = token) := by
        funext m
        rw [Function.comp_apply, (htouches.member m).1]
      rw [hpred]
      refine (List.map_congr_left (g := id) fun m hm => ?_).trans (List.map_id _)
      have htoken := of_decide_eq_true (List.mem_filter.mp hm).2
      exact htouches.others m (by rw [htoken]; exact hne)

theorem Store.Recorded.edited (hs : s.Recorded) (hitems : t.items.rows = s.items.rows.map f)
    (hkey : ∀ i, (f i).key = i.key) (hseq : ∀ i, (f i).snapshotSeq = i.snapshotSeq)
    (hselections : t.contentSelections = s.contentSelections)
    (hmembers : t.contentSelectionMembers = s.contentSelectionMembers) (hsound : t.ContentSound)
    (hrecords : s.RecordsOnly lib now t keys)
    (hkeys : ∀ key ∈ keys, ∃ i ∈ s.items.rows, i.key = key) (hnodup : keys.Nodup) (hne : keys ≠ [])
    (hsame : ∀ i ∈ s.items.rows, i.key ∉ keys → f i = i) (hapart : s.Apart lib.digest t) :
    t.Recorded := by
  refine hs.records hrecords.toRecords hsound (hs.mailed.map hitems hkey hrecords.envelopes)
    ⟨?_, ?_⟩ ?_ ?_ hnodup hne ?_ ?_ hapart
  · rw [hitems]
    intro i' hi'
    obtain ⟨i, hi, rfl⟩ := List.mem_map.mp hi'
    rw [hkey]
    exact hs.named.keys i hi
  · rw [hselections]
    exact hs.named.tokens
  · rw [hitems]
    intro i' hi'
    obtain ⟨i, hi, rfl⟩ := List.mem_map.mp hi'
    rw [hseq]
    exact hs.seq i hi
  · intro key hmem
    obtain ⟨i, hi, hik⟩ := hkeys key hmem
    rw [hitems]
    exact ⟨f i, List.mem_map_of_mem hi, (hkey i).trans hik⟩
  · intro key hmem
    exact Store.item?_map hitems hkey fun i hi hik => hsame i hi (by rw [hik]; exact hmem)
  · intro token _
    exact Store.bundle?_congr (fun d _ => by rw [hselections]) (by rw [hmembers])

/-- A new selection with the items it is recorded for keeps the facts. -/
theorem Store.Recorded.claimed (hs : s.Recorded) (h : s.ClaimsBatch lib now t c keys)
    (hsound : t.ContentSound) (hrecords : s.RecordsOnly lib now t keys)
    (htoken : isIdentity c.token = true) (hapart : s.Apart lib.digest t) : t.Recorded := by
  obtain ⟨items, selections, members, hitems, hselections, hmembers, hprojections⟩ := h.claims
  have hcontent := appendProjections_content hprojections
  have hlog := Store.logEach_content lib now .selected (.claim c.token c.acceptedTurn) keys
    { s with items := items, contentSelections := selections, contentSelectionMembers := members }
  have hitems' : t.items.rows = s.items.rows.map fun i =>
      if i.key = c.driver then i.drive c.token c.acceptedTurn now else i :=
    (congrArg _ (hcontent.items.trans hlog.items)).trans hitems
  have hselections' : t.contentSelections.rows = s.contentSelections.rows ++ [c] :=
    (congrArg _ (hcontent.selections.trans hlog.selections)).trans hselections
  have hmembers' : t.contentSelectionMembers.rows
      = s.contentSelectionMembers.rows ++ newMembers c.token keys :=
    (congrArg _ (hcontent.members.trans hlog.members)).trans hmembers
  have hkey : ∀ i : Item,
      (if i.key = c.driver then i.drive c.token c.acceptedTurn now else i).key = i.key := by
    intro i
    split_ifs <;> rfl
  refine hs.records hrecords.toRecords hsound (hs.mailed.map hitems' hkey hrecords.envelopes)
    ⟨?_, ?_⟩ ?_ ?_ h.nodup (List.ne_nil_of_mem h.driver) ?_ ?_ hapart
  · rw [hitems']
    intro i' hi'
    obtain ⟨i, hi, rfl⟩ := List.mem_map.mp hi'
    rw [hkey]
    exact hs.named.keys i hi
  · rw [hselections']
    intro d hd
    rcases List.mem_append.mp hd with hd | hd
    · exact hs.named.tokens d hd
    · rw [List.mem_singleton.mp hd]
      exact htoken
  · rw [hitems']
    intro i' hi'
    obtain ⟨i, hi, rfl⟩ := List.mem_map.mp hi'
    split_ifs
    · exact hs.seq i hi
    · exact hs.seq i hi
  · intro key hmem
    obtain ⟨-, i, hi, hik, -⟩ := h.candidates key hmem
    rw [hitems']
    exact ⟨_, List.mem_map_of_mem hi, (hkey i).trans hik⟩
  · intro key hmem
    refine Store.item?_map hitems' hkey fun i hi hik => if_neg fun hdriver => hmem ?_
    rw [← hik, hdriver]
    exact h.driver
  · intro token hnone
    have hnew : ∀ key ∈ keys, ∃ m ∈ newMembers c.token keys, m.token = c.token ∧ m.item = key :=
      fun key hmem => exists_newMember c.token hmem
    have hne : c.token ≠ token := by
      rintro rfl
      obtain ⟨m, hm, hmtoken, hitem⟩ := hnew c.driver h.driver
      exact hnone c.driver h.driver ⟨m, by rw [hmembers']; exact List.mem_append_right _ hm,
        hmtoken, hitem⟩
    refine Store.bundle?_congr (fun d hd => ?_) ?_
    · rw [hselections', List.mem_append, List.mem_singleton]
      refine or_iff_left ?_
      rintro rfl
      exact hne hd
    · rw [hmembers', List.filter_append]
      refine (congrArg _ (List.filter_eq_nil_iff.mpr fun m hm => ?_)).trans (List.append_nil _)
      rw [decide_eq_true_eq, (mem_newMembers hm).1]
      exact hne

/-! ### Submissions -/

theorem checkKey_eq_ok (hsource : isIdentity key.sourceId = true)
    (hitem : isIdentity key.itemId = true) (hrevision : isIdentity key.revision = true) :
    checkKey key = .ok key := by
  rw [checkKey, identity, if_pos hsource, identity, if_pos hitem, identity, if_pos hrevision]
  rfl

theorem normalizeItem_eq_ok {item : Json} {n : NormalizedItem}
    (h : normalizeItem lib item = .ok n) :
    isIdentity n.itemId = true ∧ isIdentity n.revision = true := by
  rw [normalizeItem] at h
  split_ifs at h
  · cases h
  · obtain ⟨itemId, hitem, h⟩ := bind_eq_ok.mp h
    obtain ⟨revision, hrevision, h⟩ := bind_eq_ok.mp h
    obtain ⟨payload, -, h⟩ := bind_eq_ok.mp h
    obtain ⟨notBefore, -, h⟩ := bind_eq_ok.mp h
    obtain ⟨requiresAck, -, h⟩ := bind_eq_ok.mp h
    cases h
    exact ⟨(identity_eq_ok hitem).2, (identity_eq_ok hrevision).2⟩

theorem Store.insertItem_notes {source : String} {seq : ℕ} {item : NormalizedItem}
    (h : s.insertItem lib now source seq item = .ok t) :
    (∃ more, t.mailTransitions = s.mailTransitions ++ more ∧
      ∀ x ∈ more, x.action ≠ .projected ∧ x.detail.isFact = false) ∧
      t.contentState = s.contentState ∧
      ∃ e : Envelope, t.mailEnvelopes.rows = s.mailEnvelopes.rows ++ [e] ∧ e.kind = .content ∧
        e.mailId = (item.row source now seq).key.mailId ∧
        (⟨e.sourceId, e.itemId, e.revision⟩ : ItemKey) = (item.row source now seq).key := by
  obtain ⟨-, items, envelopes, -, henvelopes, rfl⟩ := insertItem_cases h
  have hnotes := Store.notes_logContent lib now (show Action.received ≠ .projected by decide)
    (show Detail.empty.isFact = false from rfl) (item.key source)
    { s with items := items, mailEnvelopes := envelopes }
  exact ⟨hnotes.log, rfl, _, henvelopes, rfl, rfl, rfl⟩

/-- What the items of a batch note. -/
structure Store.Brings (s t : Store) : Prop where
  log : ∃ more, t.mailTransitions = s.mailTransitions ++ more ∧
    ∀ x ∈ more, x.action ≠ .projected ∧ x.detail.isFact = false
  state : t.contentState = s.contentState
  mailed : s.Mailed → t.Mailed
  rows : ∀ i ∈ t.items.rows, i ∈ s.items.rows ∨ checkKey i.key = .ok i.key ∧ i.snapshotSeq ≠ 0

theorem Store.appendItems_brings {source : String} {items : List NormalizedItem} {seq : ℕ}
    {inserted duplicates : List ItemKey} (hsource : isIdentity source = true)
    (hnames : ∀ item ∈ items, isIdentity item.itemId = true ∧ isIdentity item.revision = true)
    (h : s.appendItems lib now source items seq = .ok (inserted, duplicates, t)) :
    s.Brings t ∧ (inserted = [] → t = s) := by
  induction items generalizing s seq inserted duplicates with
  | nil =>
      cases h
      exact ⟨⟨⟨[], (List.append_nil _).symm, by simp⟩, rfl, id, fun i hi => .inl hi⟩, fun _ => rfl⟩
  | cons item items ih =>
      have hrest : ∀ item' ∈ items, isIdentity item'.itemId = true ∧
          isIdentity item'.revision = true :=
        fun item' hitem' => hnames item' (List.mem_cons_of_mem _ hitem')
      rw [Store.appendItems] at h
      split at h
      · split_ifs at h
        · obtain ⟨⟨inserted', duplicates', s₁⟩, happend, h⟩ := bind_eq_ok.mp h
          cases h
          exact ih hrest happend
        · cases h
      · obtain ⟨s₁, hinsert, h⟩ := bind_eq_ok.mp h
        obtain ⟨⟨inserted', duplicates', s₂⟩, happend, h⟩ := bind_eq_ok.mp h
        cases h
        obtain ⟨hbrings, -⟩ := ih hrest happend
        obtain ⟨hitems, -, -⟩ := Store.insertItem_eq_ok hinsert
        obtain ⟨⟨more, hlog, hmore⟩, hstate, e, henvelopes, hkind, hid, hkey⟩ :=
          Store.insertItem_notes hinsert
        obtain ⟨more', hlog', hmore'⟩ := hbrings.log
        refine ⟨⟨⟨more ++ more', by rw [hlog', hlog, List.append_assoc], fun x hx =>
            (List.mem_append.mp hx).elim (hmore x) (hmore' x)⟩, hbrings.state.trans hstate,
          fun hs => hbrings.mailed ⟨fun i hi => ?_, fun e' he' hkind' => ?_⟩, fun i hi => ?_⟩,
          fun hnil => by cases hnil⟩
        · rw [hitems] at hi
          rw [henvelopes]
          rcases List.mem_append.mp hi with hi | hi
          · obtain ⟨e', he', hmail⟩ := hs.envelope i hi
            exact ⟨e', List.mem_append_left _ he', hmail⟩
          · rw [List.mem_singleton.mp hi]
            exact ⟨e, List.mem_append_right _ (List.mem_singleton_self e), hid, hkind, hkey⟩
        · rw [henvelopes] at he'
          rw [hitems]
          rcases List.mem_append.mp he' with he' | he'
          · obtain ⟨i, hi, hik⟩ := hs.item e' he' hkind'
            exact ⟨i, List.mem_append_left _ hi, hik⟩
          · rw [List.mem_singleton.mp he']
            exact ⟨_, List.mem_append_right _ (List.mem_singleton_self _), hkey.symm⟩
        · rcases hbrings.rows i hi with hi | hi
          · rw [hitems] at hi
            rcases List.mem_append.mp hi with hi | hi
            · exact .inl hi
            · obtain ⟨hitem, hrevision⟩ := hnames item List.mem_cons_self
              rw [List.mem_singleton.mp hi]
              exact .inr ⟨checkKey_eq_ok hsource hitem hrevision, Nat.succ_ne_zero seq⟩
          · exact .inr hi

/-- **`submit` keeps the facts.** -/
theorem Store.Recorded.submit (hs : s.Recorded) (hsound : t.ContentSound) {batchId : Json}
    {items : List Json} {receipt : SubmissionReceipt}
    (h : s.submit lib now sourceId batchId items = .ok (receipt, t))
    (hapart : s.Apart lib.digest t) : t.Recorded := by
  obtain ⟨source, batch, normalized, hsource, -, hnormalized, ⟨b, -, -, -, -, rfl⟩ |
    ⟨-, s₁, s₂, submissions, happend, hprojections, -, rfl⟩⟩ := submit_steps h
  · exact hs
  · generalize receipt.inserted = inserted at happend hprojections
    have hnames : ∀ item ∈ normalized, isIdentity item.itemId = true ∧
        isIdentity item.revision = true := by
      intro item hitem
      obtain ⟨raw, -, hraw⟩ := mapM_results hnormalized item hitem
      exact normalizeItem_eq_ok hraw
    obtain ⟨hbrings, hnil⟩ := Store.appendItems_brings (identity_eq_ok hsource).2 hnames happend
    by_cases hnone : inserted = []
    · -- nothing is new: the wake that is computed again is the one that is there
      obtain rfl := hnil hnone
      subst hnone
      have hwake : s₁.recomputeWake = s₁ := hs.awake
      rw [Store.advance, List.length_nil, if_pos rfl, hwake] at hprojections
      cases hprojections
      exact hs.notes ⟨⟨rfl, rfl, rfl⟩, rfl⟩ (Store.notes_of_eq rfl rfl rfl)
    · obtain ⟨new, -, hkeys, hitems, hselections, hmembers⟩ := Store.appendItems_eq_ok happend
      have hcontent := ((advance_content inserted.length s₁).trans (recomputeWake_content _)).trans
        (appendProjections_content hprojections)
      have hitems₂ : s₂.items.rows = s.items.rows ++ new :=
        (congrArg _ hcontent.items).trans hitems
      have hselections₂ := hcontent.selections.trans hselections
      have hmembers₂ := hcontent.members.trans hmembers
      have hrest := appendProjections_rest hprojections
      have hadvance : s₁.advance inserted.length = { s₁ with contentState := { s₁.contentState with
          nextSeq := s₁.contentState.nextSeq + inserted.length
          stateVersion := s₁.contentState.stateVersion + 1 } } := by
        rw [Store.advance, if_neg (by simpa using hnone)]
      have hmailed : s₂.Mailed := by
        have hmailed₁ := hbrings.mailed hs.mailed
        rw [hrest, hadvance]
        exact ⟨hmailed₁.envelope, hmailed₁.item⟩
      have hrow : ∀ i ∈ s₂.items.rows, i ∈ s.items.rows ∨
          checkKey i.key = .ok i.key ∧ i.snapshotSeq ≠ 0 := by
        rw [hcontent.items]
        exact hbrings.rows
      have hunique : (s₂.items.rows.map Item.key).Nodup := by
        have hindex := s₂.items_unique
        rwa [Table.Unique, List.filterMap_eq_map'] at hindex
      rw [hitems₂, List.map_append, hkeys] at hunique
      have hrecords : s.Records lib now s₂ inserted :=
        ⟨⟨_, by rw [hadvance]; exact hbrings.log,
          by rw [hadvance]; exact congrArg (fun state => state.stateVersion + 1) hbrings.state,
          awake_recomputeWake _, hprojections⟩⟩
      have hsound₂ : s₂.ContentSound := by
        refine (Store.ContentMove.same ?_).sound hsound
        exact ⟨rfl, rfl, rfl⟩
      have hrecorded : s₂.Recorded := by
        refine hs.records hrecords hsound₂ hmailed ⟨?_, ?_⟩ ?_ ?_
          (List.nodup_append.mp hunique).2.1 hnone ?_ ?_ hapart
        · intro i hi
          exact (hrow i hi).elim (hs.named.keys i) And.left
        · rw [hselections₂]
          exact hs.named.tokens
        · intro i hi
          exact (hrow i hi).elim (hs.seq i) And.right
        · intro key hkey
          rw [← hkeys] at hkey
          obtain ⟨i, hi, hik⟩ := List.mem_map.mp hkey
          exact ⟨i, by rw [hitems₂]; exact List.mem_append_right _ hi, hik⟩
        · intro key hkey
          rw [Store.item?, hitems₂, List.find?_append, Store.item?]
          refine (congrArg _ (List.find?_eq_none.mpr fun i hi => ?_)).trans (Option.or_none ..)
          rw [decide_eq_true_eq]
          rintro rfl
          exact hkey (hkeys ▸ List.mem_map_of_mem hi)
        · intro token _
          exact Store.bundle?_congr (fun d _ => by rw [hselections₂]) (by rw [hmembers₂])
      exact hrecorded.notes ⟨⟨rfl, rfl, rfl⟩, rfl⟩ (Store.notes_of_eq rfl rfl rfl)

/-! ### Every call keeps the facts -/

/-- What a call draws is what `secrets.token_hex` returns. -/
def ContentCall.Drawn : ContentCall → Prop
  | .select _ hex _ _ _ _ => isHex hex = true
  | _ => True

theorem isIdentity_token {hex : String} (h : isHex hex = true) :
    isIdentity ("content-selection:" ++ hex) = true := by
  have hfront : ∀ c ∈ "content-selection:".toList, isSpace c = false := isSpace_of_all (by decide)
  have hstrip : strip ("content-selection:" ++ hex) = "content-selection:" ++ hex := by
    refine strip_of_no_space fun c hc => ?_
    rw [String.toList_append, List.mem_append] at hc
    exact hc.elim (hfront c) (isSpace_of_isHex h c)
  have hne : "content-selection:" ++ hex ≠ "" := by
    intro hempty
    have hlist := congrArg String.toList hempty
    rw [String.toList_append] at hlist
    exact absurd (List.append_eq_nil_iff.mp hlist).1 (by decide)
  rw [isIdentity, hstrip]
  simp [hne]

theorem Store.mem_membersOf_items :
    key ∈ (s.membersOf token).map Member.item ↔ s.HasMember token key := by
  simp only [List.mem_map, Store.mem_membersOf, Store.HasMember, and_assoc]

theorem Store.ChangesBy.hasMember (h : s.ChangesBy t c) :
    t.HasMember token key ↔ s.HasMember token key := by
  obtain ⟨c', f, g, htouches, -⟩ := h
  simp only [Store.HasMember, htouches.members, List.mem_map]
  constructor
  · rintro ⟨_, ⟨m, hm, rfl⟩, htoken, hitem⟩
    exact ⟨m, hm, (htouches.member m).1.symm.trans htoken, (htouches.member m).2.symm.trans hitem⟩
  · rintro ⟨m, hm, htoken, hitem⟩
    exact ⟨g m, ⟨m, hm, rfl⟩, (htouches.member m).1.trans htoken, (htouches.member m).2.trans hitem⟩

theorem Store.Recorded.moved (hs : s.Recorded) (hsound : s.ContentSound)
    (hmove : s.ContentMove t (.selection token)) (hrecords : s.RecordsOnly lib now t keys)
    (hkeys : keys = (s.membersOf token).map Member.item ∨
      keys = (t.membersOf token).map Member.item) (hapart : s.Apart lib.digest t) : t.Recorded := by
  obtain ⟨c, hc, rfl, hchanges⟩ := hmove.changesBy hsound
  refine hs.changed hc hchanges (hmove.sound hsound) hrecords (fun key => ?_) ?_ hapart
  · rcases hkeys with rfl | rfl
    · rw [Store.mem_membersOf_items, hchanges.hasMember]
    · rw [Store.mem_membersOf_items]
  · rcases hkeys with rfl | rfl
    · exact Store.membersOf_nodup ..
    · exact Store.membersOf_nodup ..

theorem Store.Recorded.settle (hs : s.Recorded) (hsound : s.ContentSound) {token settlement : Json}
    (h : s.settleDelivery lib now token settlement = .ok (r, t)) (hapart : s.Apart lib.digest t) :
    t.Recorded := by
  rcases settleDelivery_moves h with rfl | ⟨text, htext, hmove⟩
  · exact hs
  · rcases settleDelivery_records h with rfl | ⟨text', htext', hrecords⟩
    · exact hs
    · obtain rfl := Except.ok.inj (htext.symm.trans htext')
      exact hs.moved hsound hmove hrecords (.inr rfl) hapart

theorem Store.Recorded.transition (hs : s.Recorded) (hsound : s.ContentSound) {token : Json}
    {action : String} {notBefore : Option Datetime} {settlementRef : Option Json}
    (h : s.transition lib now token action notBefore settlementRef selectedRefs = .ok (r, t))
    (hapart : s.Apart lib.digest t) : t.Recorded := by
  rw [Store.transition] at h
  obtain ⟨text, -, h⟩ := bind_eq_ok.mp h
  obtain ⟨named, -, h⟩ := bind_eq_ok.mp h
  obtain ⟨_, hcheck, h⟩ := bind_eq_ok.mp h
  obtain ⟨deadline, -, h⟩ := bind_eq_ok.mp h
  split at h
  · obtain ⟨settlement, -, h⟩ := bind_eq_ok.mp h
    exact hs.settle hsound h hapart
  · have hdelivered : named ≠ .delivered := by
      rintro rfl
      cases hcheck
    rcases runTransition_moves hdelivered h with rfl | hmove
    · exact hs
    · rcases runTransition_records h with rfl | hrecords
      · exact hs
      · exact hs.moved hsound hmove hrecords (.inl rfl) hapart

theorem Store.Recorded.expire (hs : s.Recorded) (hsound : t.ContentSound) {r : ExpireResult}
    (h : s.expire lib now itemRefs instant = .ok (r, t)) (hapart : s.Apart lib.digest t) :
    t.Recorded := by
  rcases expire_records h with ⟨hsame, hnotes⟩ | ⟨keys, hne, hnodup, hkeys, hrecords, refs, text,
    hitems, hall, hselections, hmembers⟩
  · exact hs.notes hsame hnotes
  · refine hs.edited hitems (fun i => ?_) (fun i => ?_) hselections hmembers hsound hrecords hkeys
      hnodup hne (fun i hi hik => if_neg fun hexpires => hik (hall i hi hexpires)) hapart
    · split_ifs <;> rfl
    · split_ifs <;> rfl

theorem Store.Recorded.ack (hs : s.Recorded) (hsound : t.ContentSound) {settlementRef : Json}
    {r : AckResult} (h : s.ack lib now sourceId settlementRef = .ok (r, t))
    (hapart : s.Apart lib.digest t) : t.Recorded := by
  rcases ack_records hs.awake h with rfl | ⟨i, hi, hrecords, hitems, hselections, hmembers⟩
  · exact hs
  · refine hs.edited hitems (fun j => ?_) (fun j => ?_) hselections hmembers hsound hrecords ?_
      (List.nodup_singleton _) (List.cons_ne_nil _ _)
      (fun j hj hjk => if_neg fun hsame => hjk (List.mem_singleton.mpr hsame)) hapart
    · split_ifs <;> rfl
    · split_ifs <;> rfl
    · intro key hkey
      exact ⟨i, hi, (List.mem_singleton.mp hkey).symm⟩

/-- **Every content call keeps the facts**, where no digests collide. -/
theorem ContentCall.recorded (call : ContentCall) (hdrawn : call.Drawn) (hs : s.Recorded)
    (hsound : s.ContentSound) (hapart : s.Apart lib.digest (call.after lib s)) :
    (call.after lib s).Recorded := by
  obtain ⟨label, hmove, -⟩ := call.moves lib s
  have hsound' := hmove.sound hsound
  cases hexec : call.exec lib s with
  | error e =>
      rw [ContentCall.after, hexec]
      exact hs
  | ok r =>
      obtain ⟨answer, t⟩ := r
      rw [ContentCall.after_eq hexec] at hapart hsound' ⊢
      cases call with
      | submit now sourceId batchId items =>
          obtain ⟨_, h, heq⟩ := map_eq_ok.mp hexec
          cases heq
          exact hs.submit hsound' h hapart
      | select now hex itemRefs snapshotSeq acceptedTurn instant =>
          obtain ⟨_, h, heq⟩ := map_eq_ok.mp hexec
          cases heq
          rcases Store.selectBatch_records h with rfl | ⟨c, keys, htoken, hclaims, hrecords⟩
          · exact hs
          · exact hs.claimed hclaims hsound' hrecords (htoken ▸ isIdentity_token hdrawn) hapart
      | transition now token action notBefore settlementRef selectedRefs =>
          obtain ⟨_, h, heq⟩ := map_eq_ok.mp hexec
          cases heq
          exact hs.transition hsound h hapart
      | settle now token settlement =>
          obtain ⟨_, h, heq⟩ := map_eq_ok.mp hexec
          cases heq
          exact hs.settle hsound h hapart
      | expire now itemRefs instant =>
          obtain ⟨_, h, heq⟩ := map_eq_ok.mp hexec
          cases heq
          exact hs.expire hsound' h hapart
      | ack now sourceId settlementRef =>
          obtain ⟨_, h, heq⟩ := map_eq_ok.mp hexec
          cases heq
          exact hs.ack hsound' h hapart

end Kirakira.EventMail
