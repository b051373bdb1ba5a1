import Kirakira.MailFrames

/-!
# Replaying Alerts and Contexts

An event is projected from its newest envelope; the row of an alert is, besides, what the
transitions of its mail make of it. A call on the alerts changes a row and logs a transition
for it, and the transition, read back, makes the same change.

A transition is logged under a digest and left out where the log has that digest for its
mail. Endings are not logged twice, since what has ended stays ended; but a turn can claim an
alert again that it has deferred, and an alert can be deferred twice to one time.

## Main results

* `Store.Newest` — the rows of a projection point to the newest envelopes of their events.
* `Store.Replays` — a row is what the log of its mail makes of its envelope.
* `Store.Projects` — the invariant of both projections.
* `Store.Edits.projects`, `Store.Projects.reportAlert`, … — the calls that keep it.
-/

namespace Kirakira.EventMail

open Exceptions

variable {digest : Detail → String} {now : String} {s t : Store}

/-! ### The newest envelopes -/

/-- The event of an envelope. -/
def Envelope.event (e : Envelope) : String × String :=
  (e.sourceId, e.itemId)

/-- An envelope is not newer than another one. -/
def Store.UpTo (s : Store) (e e' : Envelope) : Prop :=
  e.observedAt < e'.observedAt ∨
    e.observedAt = e'.observedAt ∧ s.mailSeq e.mailId ≤ s.mailSeq e'.mailId

variable {e e' : Envelope} {kind : Kind} {rows : List ((String × String) × String)} {a : Alert}
  {action : Action} {envelopes : Table.Rows envelopeIndexes}

theorem Store.mem_latestEnvelopes :
    e ∈ s.latestEnvelopes kind ↔ e ∈ s.mailEnvelopes.rows ∧ e.kind = kind ∧
      ∀ e' ∈ s.mailEnvelopes.rows, e'.kind = kind → e'.event = e.event → s.UpTo e' e := by
  simp only [Store.latestEnvelopes, List.mem_filter, Bool.and_eq_true, decide_eq_true_eq,
    Bool.not_eq_true', List.any_eq_false, Bool.or_eq_true, not_and, not_or, Envelope.event,
    Prod.mk.injEq, Store.UpTo]
  refine and_congr_right fun _ => and_congr_right fun hkind => forall₂_congr fun e' _ => ?_
  constructor
  · rintro h hkind' ⟨hsource, hitem⟩
    obtain ⟨hlt, hseq⟩ := h ⟨⟨hkind'.trans hkind.symm, hsource⟩, hitem⟩
    rcases lt_or_eq_of_le (not_lt.mp hlt) with hlt' | heq
    · exact .inl hlt'
    · exact .inr ⟨heq, not_lt.mp (hseq heq)⟩
  · rintro h ⟨⟨hkind', hsource⟩, hitem⟩
    rcases h (hkind'.trans hkind) ⟨hsource, hitem⟩ with hlt | ⟨heq, hseq⟩
    · exact ⟨hlt.not_gt, fun heq => absurd heq hlt.ne⟩
    · exact ⟨fun hlt => absurd heq hlt.ne', fun _ => not_lt.mpr hseq⟩

theorem Store.mailSeq_inj (he : e ∈ s.mailEnvelopes.rows) (he' : e' ∈ s.mailEnvelopes.rows)
    (h : s.mailSeq e.mailId = s.mailSeq e'.mailId) : e = e' := by
  have hfound : ∀ e ∈ s.mailEnvelopes.rows, ∃ hlt : s.mailSeq e.mailId < s.mailEnvelopes.rows.length,
      s.mailEnvelopes.rows[s.mailSeq e.mailId] = e := by
    intro e he
    have hlt : s.mailSeq e.mailId < s.mailEnvelopes.rows.length :=
      List.findIdx_lt_length_of_exists ⟨e, he, decide_eq_true rfl⟩
    refine ⟨hlt, ?_⟩
    have hid := List.findIdx_getElem (w := hlt)
    exact s.envelopes_unique.eq_of_key (List.getElem_mem _) he
      (congrArg some (of_decide_eq_true hid)) rfl
  obtain ⟨hlt, hget⟩ := hfound e he
  obtain ⟨hlt', hget'⟩ := hfound e' he'
  rw [← hget, ← hget']
  congr 1

theorem Store.latestEnvelopes_ext (he : e ∈ s.latestEnvelopes kind)
    (he' : e' ∈ s.latestEnvelopes kind) (hevent : e.event = e'.event) : e = e' := by
  obtain ⟨hmem, hkind, hnewest⟩ := Store.mem_latestEnvelopes.mp he
  obtain ⟨hmem', hkind', hnewest'⟩ := Store.mem_latestEnvelopes.mp he'
  rcases hnewest e' hmem' hkind' hevent.symm with hlt | ⟨heq, hseq⟩
  · rcases hnewest' e hmem hkind hevent with hlt' | ⟨heq', -⟩
    · exact absurd hlt hlt'.not_gt
    · exact absurd heq' hlt.ne'
  · rcases hnewest' e hmem hkind hevent with hlt' | ⟨-, hseq'⟩
    · exact absurd heq hlt'.ne'
    · exact Store.mailSeq_inj hmem hmem' (Nat.le_antisymm hseq' hseq)

/-- The rows of a projection, as events with their mails, point to the newest envelopes. -/
structure Store.Newest (s : Store) (kind : Kind) (rows : List ((String × String) × String)) :
    Prop where
  row : ∀ r ∈ rows, ∃ e ∈ s.latestEnvelopes kind, e.event = r.1 ∧ e.mailId = r.2
  event : ∀ e ∈ s.mailEnvelopes.rows, e.kind = kind → ∃ r ∈ rows, r.1 = e.event

theorem Store.Newest.congr (h : s.Newest kind rows)
    (henvelopes : t.mailEnvelopes = s.mailEnvelopes) : t.Newest kind rows := by
  have hlatest : t.latestEnvelopes kind = s.latestEnvelopes kind := by
    have ht : t = { t with mailEnvelopes := s.mailEnvelopes } := by rw [← henvelopes]
    rw [ht]
    rfl
  refine ⟨?_, ?_⟩
  · rw [hlatest]
    exact h.row
  · rw [henvelopes]
    exact h.event

theorem Store.Newest.of_perm {rows' : List ((String × String) × String)} (h : s.Newest kind rows)
    (hperm : rows'.Perm rows) : s.Newest kind rows' := by
  refine ⟨fun r hr => h.row r (hperm.mem_iff.mp hr), fun e he hkind => ?_⟩
  obtain ⟨r, hr, hevent⟩ := h.event e he hkind
  exact ⟨r, hperm.mem_iff.mpr hr, hevent⟩

theorem Store.mailSeq_append {new : List Envelope}
    (henvelopes : t.mailEnvelopes.rows = s.mailEnvelopes.rows ++ new)
    (he : e ∈ s.mailEnvelopes.rows) : t.mailSeq e.mailId = s.mailSeq e.mailId := by
  have hlt : s.mailSeq e.mailId < s.mailEnvelopes.rows.length :=
    List.findIdx_lt_length_of_exists ⟨e, he, decide_eq_true rfl⟩
  rw [Store.mailSeq, henvelopes, List.findIdx_append]
  exact if_pos hlt

theorem Store.Newest.append_others (h : s.Newest kind rows) {new : List Envelope}
    (henvelopes : t.mailEnvelopes.rows = s.mailEnvelopes.rows ++ new)
    (hnew : ∀ e ∈ new, e.kind ≠ kind) : t.Newest kind rows := by
  have hold : ∀ e ∈ t.mailEnvelopes.rows, e.kind = kind → e ∈ s.mailEnvelopes.rows := by
    intro e he hkind
    rw [henvelopes] at he
    exact (List.mem_append.mp he).resolve_right fun he => hnew e he hkind
  refine ⟨fun r hr => ?_, fun e he hkind => h.event e (hold e he hkind) hkind⟩
  obtain ⟨e, he, hevent, hmail⟩ := h.row r hr
  obtain ⟨hmem, hkind, hnewest⟩ := Store.mem_latestEnvelopes.mp he
  refine ⟨e, Store.mem_latestEnvelopes.mpr ⟨?_, hkind, fun e' he' hkind' hevent' => ?_⟩, hevent,
    hmail⟩
  · rw [henvelopes]
    exact List.mem_append_left _ hmem
  · have hmem' := hold e' he' hkind'
    rw [Store.UpTo, Store.mailSeq_append henvelopes hmem, Store.mailSeq_append henvelopes hmem']
    exact hnewest e' hmem' hkind' hevent'

theorem Store.Newest.append_older (h : s.Newest kind rows)
    (henvelopes : t.mailEnvelopes.rows = s.mailEnvelopes.rows ++ [e])
    (hsome : ∃ r ∈ rows, r.1 = e.event)
    (holder : ∀ e' ∈ s.latestEnvelopes kind, e'.event = e.event → e.observedAt < e'.observedAt) :
    t.Newest kind rows := by
  refine ⟨fun r hr => ?_, fun e' he' hkind => ?_⟩
  · obtain ⟨e₁, he₁, hevent, hmail⟩ := h.row r hr
    obtain ⟨hmem, hkind, hnewest⟩ := Store.mem_latestEnvelopes.mp he₁
    refine ⟨e₁, Store.mem_latestEnvelopes.mpr ⟨?_, hkind, fun e' he' hkind' hevent' => ?_⟩, hevent,
      hmail⟩
    · rw [henvelopes]
      exact List.mem_append_left _ hmem
    · rw [henvelopes] at he'
      rcases List.mem_append.mp he' with he' | he'
      · rw [Store.UpTo, Store.mailSeq_append henvelopes hmem, Store.mailSeq_append henvelopes he']
        exact hnewest e' he' hkind' hevent'
      · obtain rfl := List.mem_singleton.mp he'
        exact .inl (holder e₁ he₁ hevent'.symm)
  · rw [henvelopes] at he'
    rcases List.mem_append.mp he' with he' | he'
    · exact h.event e' he' hkind
    · rw [List.mem_singleton.mp he']
      exact hsome

/-- A new envelope that is not older than the row of its event becomes its row. -/
theorem Store.Newest.append_newer {rows' : List ((String × String) × String)}
    (h : s.Newest kind rows) (henvelopes : t.mailEnvelopes.rows = s.mailEnvelopes.rows ++ [e])
    (hkind : e.kind = kind) (hfresh : ∀ e' ∈ s.mailEnvelopes.rows, e'.mailId ≠ e.mailId)
    (hnewer : ∀ e' ∈ s.latestEnvelopes kind, e'.event = e.event → e'.observedAt ≤ e.observedAt)
    (hrows : ∀ r, r ∈ rows' ↔ r = (e.event, e.mailId) ∨ r ∈ rows ∧ r.1 ≠ e.event) :
    t.Newest kind rows' := by
  have hmem : e ∈ t.mailEnvelopes.rows := by
    rw [henvelopes]
    exact List.mem_append_right _ (List.mem_singleton_self e)
  have hlast : ∀ e' ∈ s.mailEnvelopes.rows, t.mailSeq e'.mailId ≤ t.mailSeq e.mailId := by
    intro e' he'
    have hlt : s.mailSeq e'.mailId < s.mailEnvelopes.rows.length :=
      List.findIdx_lt_length_of_exists ⟨e', he', decide_eq_true rfl⟩
    rw [Store.mailSeq_append henvelopes he', Store.mailSeq, Store.mailSeq, henvelopes,
      List.findIdx_append]
    have hnone : s.mailEnvelopes.rows.findIdx (fun e' => decide (e'.mailId = e.mailId))
        = s.mailEnvelopes.rows.length :=
      List.findIdx_eq_length.mpr fun e' he' => decide_eq_false (hfresh e' he')
    rw [hnone, if_neg (Nat.lt_irrefl _)]
    exact Nat.le_trans (Nat.le_of_lt hlt) (Nat.le_add_left ..)
  refine ⟨fun r hr => ?_, fun e' he' hkind' => ?_⟩
  · rcases (hrows r).mp hr with rfl | ⟨hr, hother⟩
    · refine ⟨e, Store.mem_latestEnvelopes.mpr ⟨hmem, hkind, fun e' he' hkind' hevent => ?_⟩, rfl,
        rfl⟩
      rw [henvelopes] at he'
      rcases List.mem_append.mp he' with he' | he'
      · -- the newest envelope of the event so far lies between
        obtain ⟨r, hr, hrevent⟩ := h.event e' he' hkind'
        obtain ⟨e₁, he₁, hevent₁, -⟩ := h.row r hr
        have hsame : e₁.event = e'.event := hevent₁.trans hrevent
        have hle : e'.observedAt ≤ e₁.observedAt := by
          rcases (Store.mem_latestEnvelopes.mp he₁).2.2 e' he' hkind' hsame.symm with hlt | ⟨heq, -⟩
          · exact hlt.le
          · exact heq.le
        rcases lt_or_eq_of_le (hle.trans (hnewer e₁ he₁ (hsame.trans hevent))) with hlt | heq
        · exact .inl hlt
        · exact .inr ⟨heq, hlast e' he'⟩
      · rw [List.mem_singleton.mp he']
        exact .inr ⟨rfl, Nat.le_refl _⟩
    · obtain ⟨e₁, he₁, hevent, hmail⟩ := h.row r hr
      obtain ⟨hmem₁, hkind₁, hnewest⟩ := Store.mem_latestEnvelopes.mp he₁
      refine ⟨e₁, Store.mem_latestEnvelopes.mpr ⟨?_, hkind₁, fun e' he' hkind' hevent' => ?_⟩,
        hevent, hmail⟩
      · rw [henvelopes]
        exact List.mem_append_left _ hmem₁
      · rw [henvelopes] at he'
        rcases List.mem_append.mp he' with he' | he'
        · rw [Store.UpTo, Store.mailSeq_append henvelopes hmem₁,
            Store.mailSeq_append henvelopes he']
          exact hnewest e' he' hkind' hevent'
        · obtain rfl := List.mem_singleton.mp he'
          exact absurd (hevent'.trans hevent).symm hother
  · by_cases hsame : e'.event = e.event
    · exact ⟨(e.event, e.mailId), (hrows _).mpr (.inl rfl), hsame.symm⟩
    · rw [henvelopes] at he'
      rcases List.mem_append.mp he' with he' | he'
      · obtain ⟨r, hr, hrevent⟩ := h.event e' he' hkind'
        exact ⟨r, (hrows r).mpr (.inr ⟨hr, by rw [hrevent]; exact hsame⟩), hrevent⟩
      · exact absurd (congrArg Envelope.event (List.mem_singleton.mp he')) hsame

/-! ### The log of an alert -/

/-- The transitions of a mail. -/
def Store.logOf (s : Store) (id : String) : List MailTransition :=
  s.mailTransitions.filter fun x => x.mailId = id

/-- The actions that end an alert. -/
def Action.isEnding : Action → Bool
  | .delivered | .skipped | .expired => true
  | _ => false

/-- **The row of an alert is what the log of its mail makes of its envelope**; while it is
open, no ending is logged. -/
structure Store.Replays (s : Store) (a : Alert) (e : Envelope) : Prop where
  envelope : s.envelope? a.mailId = some e
  expiresAt : e.expiresAt = a.expiresAt
  replayed : replay s.mailTransitions a.mailId ⟨.pending, e.notBefore.getD "None"⟩
    = .ok ⟨a.status, a.notBefore⟩
  isOpen : a.status.isFinal = false → ∀ x ∈ s.logOf a.mailId, x.action.isEnding = false

variable {id observed : String} {eventId sourceId : Json} {c : ContextMail}

theorem replay_congr {r : Replayed} (h : t.logOf id = s.logOf id) :
    replay t.mailTransitions id r = replay s.mailTransitions id r := by
  rw [replay, replay]
  exact congrArg _ h

theorem replay_append {r r' : Replayed} {x : MailTransition} (h : t.logOf id = s.logOf id ++ [x])
    (hr : replay s.mailTransitions id r = .ok r') :
    replay t.mailTransitions id r = r'.next x.action x.detail := by
  rw [replay] at hr ⊢
  refine (congrArg (List.foldlM _ r) h).trans ?_
  rw [List.foldlM_append]
  refine (congrArg (· >>= _) hr).trans ?_
  change (r'.next x.action x.detail >>= fun r => pure r) = _
  exact bind_pure _

/-- What a call makes of a row of the projection, and of the log of its mail. -/
inductive Store.Edit (s t : Store) (a : Alert) : Alert → Prop
  | kept (hlog : t.logOf a.mailId = s.logOf a.mailId) : s.Edit t a a
  | changed (status : AlertStatus) (notBefore : String) (x : MailTransition)
      (hopen : a.status.isFinal = false)
      (hnext : Replayed.next ⟨a.status, a.notBefore⟩ x.action x.detail = .ok ⟨status, notBefore⟩)
      (hending : x.action.isEnding = status.isFinal)
      (hlog : t.logOf a.mailId = s.logOf a.mailId ++ [x]) :
      s.Edit t a { a with status := status, notBefore := notBefore }

theorem Store.Edit.key {a' : Alert} (h : s.Edit t a a') :
    a'.key = a.key ∧ a'.mailId = a.mailId := by
  cases h <;> exact ⟨rfl, rfl⟩

/-- **An edited row is what its log makes of its envelope.** -/
theorem Store.Edit.replays {a' : Alert} (h : s.Edit t a a') (hs : s.Replays a e)
    (henvelope : t.envelope? a.mailId = some e) : t.Replays a' e := by
  cases h with
  | kept hlog =>
      refine ⟨henvelope, hs.expiresAt, ?_, ?_⟩
      · rw [replay_congr hlog]
        exact hs.replayed
      · rw [hlog]
        exact hs.isOpen
  | changed status notBefore x hopen hnext hending hlog =>
      refine ⟨henvelope, hs.expiresAt, ?_, fun hopen' y hy => ?_⟩
      · rw [replay_append hlog hs.replayed]
        exact hnext
      · rw [hlog] at hy
        rcases List.mem_append.mp hy with hy | hy
        · exact hs.isOpen hopen y hy
        · rw [List.mem_singleton.mp hy, hending]
          exact hopen'

/-! ### The invariant of the projections -/

/-- An envelope carries the mail id of what it is, and its observation time as revision where
it is no content. -/
structure Envelope.Named (e : Envelope) : Prop where
  mailId : e.mailId = EventMail.mailId e.kind e.sourceId e.itemId e.revision
  revision : e.kind ≠ .content → e.revision = e.observedAt

/-- **The rows of both projections are what a replay of the log makes of the envelopes.** -/
structure Store.Projects (s : Store) : Prop where
  named : ∀ e ∈ s.mailEnvelopes.rows, e.Named
  heard : ∀ x ∈ s.mailTransitions, (∃ e ∈ s.mailEnvelopes.rows, e.mailId = x.mailId) ∨
    ∃ key : ItemKey, x.mailId = key.mailId
  alerts : s.Newest .alert (s.alertProjection.rows.map fun a => (a.key, a.mailId))
  replays : ∀ a ∈ s.alertProjection.rows, ∃ e, s.Replays a e
  contexts : s.Newest .context (s.contextProjection.rows.map fun c => (c.key, c.mailId))
  expiries : ∀ c ∈ s.contextProjection.rows, ∃ e, s.envelope? c.mailId = some e ∧
    e.expiresAt = c.expiresAt

theorem Store.projects_empty : Store.empty.Projects where
  named e he := by cases he
  heard x hx := by cases hx
  alerts := ⟨(fun r hr => by cases hr), fun e he => by cases he⟩
  replays a ha := by cases ha
  contexts := ⟨(fun r hr => by cases hr), fun e he => by cases he⟩
  expiries c hc := by cases hc

/-- What a call makes of the rows of the alerts and their logs. -/
structure Store.Edits (s t : Store) : Prop where
  envelopes : t.mailEnvelopes = s.mailEnvelopes
  contexts : t.contextProjection = s.contextProjection
  rows : ∃ f : Alert → Alert, t.alertProjection.rows = s.alertProjection.rows.map f ∧
    ∀ a ∈ s.alertProjection.rows, s.Edit t a (f a)
  heard : ∀ x ∈ t.mailTransitions, x ∈ s.mailTransitions ∨
    ∃ a ∈ s.alertProjection.rows, x.mailId = a.mailId

theorem Store.Edits.refl (s : Store) : s.Edits s :=
  ⟨rfl, rfl, ⟨id, (List.map_id _).symm, fun _ _ => .kept rfl⟩, fun _ hx => .inl hx⟩

/-- **Edits keep the projections.** -/
theorem Store.Edits.projects (h : s.Edits t) (hs : s.Projects) : t.Projects := by
  obtain ⟨f, hrows, hedit⟩ := h.rows
  have henvelope : ∀ id, t.envelope? id = s.envelope? id := fun id => by
    rw [Store.envelope?, h.envelopes, Store.envelope?]
  refine ⟨?_, fun x hx => ?_, ?_, fun a' ha' => ?_, ?_, ?_⟩
  · rw [h.envelopes]
    exact hs.named
  · rw [h.envelopes]
    rcases h.heard x hx with hx | ⟨a, ha, hmail⟩
    · exact hs.heard x hx
    · obtain ⟨e, he⟩ := hs.replays a ha
      obtain ⟨hmem, hid⟩ := Store.envelope?_eq_some.mp he.envelope
      exact .inl ⟨e, hmem, hid.trans hmail.symm⟩
  · have hsame : (t.alertProjection.rows.map fun a => (a.key, a.mailId))
        = s.alertProjection.rows.map fun a => (a.key, a.mailId) := by
      rw [hrows, List.map_map]
      refine List.map_congr_left fun a ha => ?_
      obtain ⟨hkey, hmail⟩ := (hedit a ha).key
      exact Prod.ext hkey hmail
    rw [hsame]
    exact hs.alerts.congr h.envelopes
  · rw [hrows, List.mem_map] at ha'
    obtain ⟨a, ha, rfl⟩ := ha'
    obtain ⟨e, he⟩ := hs.replays a ha
    exact ⟨e, (hedit a ha).replays he ((henvelope _).trans he.envelope)⟩
  · rw [h.contexts]
    exact hs.contexts.congr h.envelopes
  · rw [h.contexts]
    intro c hc
    obtain ⟨e, he, hexpiry⟩ := hs.expiries c hc
    exact ⟨e, (henvelope _).trans he, hexpiry⟩

/-! ### One row -/

theorem logOf_appendTransition {detail : Detail} (now : String)
    (hfresh : logged digest s.mailTransitions id action detail = false) :
    (s.logAlert digest now id action detail).mailTransitions
      = s.mailTransitions ++ [⟨id, .alert, action, detail, now⟩] :=
  appendTransition_of_not_logged .alert now hfresh

theorem Store.Replays.not_logged (hs : s.Replays a e) (hopen : a.status.isFinal = false)
    (haction : action.isEnding = true) (detail : Detail) :
    logged digest s.mailTransitions a.mailId action detail = false := by
  rw [logged, List.any_eq_false]
  intro x hx hsame
  rw [Bool.and_eq_true, Bool.and_eq_true, decide_eq_true_eq, decide_eq_true_eq] at hsame
  have hending := hs.isOpen hopen x (List.mem_filter.mpr ⟨hx, decide_eq_true hsame.1.1⟩)
  rw [hsame.1.2, haction] at hending
  cases hending

/-- **A statement on one open row, logged**, is an edit. -/
theorem Store.edits_one {p : Alert → Bool} {f : Alert → Alert} {rows : Table.Rows alertIndexes}
    {detail : Detail} {status : AlertStatus} {notBefore : String} (now : String)
    (ha : a ∈ s.alertProjection.rows) (hrows : rows.rows = Table.update p f s.alertProjection.rows)
    (hp : ∀ b ∈ s.alertProjection.rows, p b = true ↔ b = a)
    (hf : f a = { a with status := status, notBefore := notBefore })
    (hopen : a.status.isFinal = false)
    (hnext : Replayed.next ⟨a.status, a.notBefore⟩ action detail = .ok ⟨status, notBefore⟩)
    (hending : action.isEnding = status.isFinal)
    (hfresh : logged digest s.mailTransitions a.mailId action detail = false) :
    s.Edits (Store.logAlert digest now a.mailId action detail
      { s with alertProjection := rows }) := by
  have hlog : (Store.logAlert digest now a.mailId action detail
      { s with alertProjection := rows }).mailTransitions
      = s.mailTransitions ++ [⟨a.mailId, .alert, action, detail, now⟩] :=
    logOf_appendTransition now hfresh
  refine ⟨rfl, rfl, ⟨fun b => if p b then f b else b, hrows, fun b hb => ?_⟩, fun x hx => ?_⟩
  · beta_reduce
    by_cases hsame : b = a
    · subst hsame
      rw [if_pos ((hp b hb).mpr rfl), hf]
      refine .changed status notBefore ⟨b.mailId, .alert, action, detail, now⟩ hopen hnext hending ?_
      rw [Store.logOf, hlog, List.filter_append]
      refine congrArg _ (List.filter_cons_of_pos ?_)
      exact decide_eq_true rfl
    · rw [if_neg fun hhit => hsame ((hp b hb).mp hhit)]
      refine .kept ?_
      rw [Store.logOf, hlog, List.filter_append, List.filter_cons_of_neg]
      · exact List.append_nil _
      · rw [decide_eq_true_eq]
        exact fun hmail => hsame (s.alert_mail_ext hb ha hmail.symm)
  · rw [hlog] at hx
    rcases List.mem_append.mp hx with hx | hx
    · exact .inl hx
    · rw [List.mem_singleton.mp hx]
      exact .inr ⟨a, ha, rfl⟩

theorem Store.hits_alert {key : String × String} (ha : s.alert? key = some a) :
    ∀ b ∈ s.alertProjection.rows, decide (b.key = key) = true ↔ b = a := by
  obtain ⟨hmem, hkey⟩ := Store.alert?_eq_some.mp ha
  intro b hb
  rw [decide_eq_true_eq]
  constructor
  · exact fun hsame => s.alert_ext hb hmem (hsame.trans hkey.symm)
  · rintro rfl
    exact hkey

/-! ### Several rows -/

/-- The transition of an expiry. -/
def expiryOf (now : String) (a : Alert) : MailTransition :=
  ⟨a.mailId, .alert, .expired, .empty, now⟩

theorem foldl_logAlert_fresh (now : String) {overdue : List Alert}
    (hnodup : (overdue.map Alert.mailId).Nodup)
    (hfresh : ∀ a ∈ overdue, logged digest s.mailTransitions a.mailId .expired .empty = false) :
    overdue.foldl (fun s a => s.logAlert digest now a.mailId .expired .empty) s
      = { s with mailTransitions := s.mailTransitions ++ overdue.map (expiryOf now) } := by
  induction overdue generalizing s with
  | nil =>
      rw [List.map_nil, List.append_nil]
      rfl
  | cons a overdue ih =>
      obtain ⟨hother, hnodup⟩ := List.nodup_cons.mp hnodup
      have hlog : (s.logAlert digest now a.mailId .expired .empty).mailTransitions
          = s.mailTransitions ++ [expiryOf now a] :=
        logOf_appendTransition now (hfresh a List.mem_cons_self)
      have hfresh' : ∀ b ∈ overdue, logged digest
          (s.logAlert digest now a.mailId .expired .empty).mailTransitions b.mailId .expired .empty
            = false := by
        intro b hb
        rw [hlog, logged, List.any_append, Bool.or_eq_false_iff]
        refine ⟨hfresh b (List.mem_cons_of_mem _ hb), ?_⟩
        have hne : a.mailId ≠ b.mailId := fun hsame =>
          hother (hsame ▸ List.mem_map_of_mem hb)
        simp [expiryOf, hne]
      rw [List.foldl_cons, ih hnodup hfresh', hlog, List.append_assoc]
      rfl

theorem filter_expiries (now : String) {overdue : List Alert}
    (hnodup : (overdue.map Alert.mailId).Nodup) (ha : a ∈ overdue) :
    (overdue.map (expiryOf now)).filter (fun x => x.mailId = a.mailId) = [expiryOf now a] := by
  induction overdue with
  | nil => cases ha
  | cons b overdue ih =>
      obtain ⟨hother, hnodup⟩ := List.nodup_cons.mp hnodup
      rw [List.map_cons]
      rcases List.mem_cons.mp ha with rfl | ha
      · rw [List.filter_cons_of_pos, List.filter_eq_nil_iff.mpr]
        · intro x hx hmail
          obtain ⟨c, hc, rfl⟩ := List.mem_map.mp hx
          exact hother (List.mem_map.mpr ⟨c, hc, of_decide_eq_true hmail⟩)
        · exact decide_eq_true rfl
      · rw [List.filter_cons_of_neg, ih hnodup ha]
        rw [decide_eq_true_eq]
        exact fun hsame => hother (List.mem_map.mpr ⟨a, ha, hsame.symm⟩)

theorem Store.Projects.expireAlerts (hs : s.Projects) {instant : String}
    (h : s.expireAlerts digest now instant = .ok t) : s.Edits t := by
  have hpending : ∀ a ∈ s.alertProjection.rows, a.isOverdue instant = true →
      a.status = .pending := by
    intro a _ hover
    rw [Alert.isOverdue, Bool.and_eq_true, decide_eq_true_eq] at hover
    exact hover.1
  have hopen : ∀ a ∈ s.alertProjection.rows, a.isOverdue instant = true →
      a.status.isFinal = false := fun a ha hover => by rw [hpending a ha hover]; rfl
  obtain ⟨overdue, hperm, hwrite⟩ : ∃ overdue : List Alert,
      overdue.Perm (s.alertProjection.rows.filter (Alert.isOverdue instant)) ∧
      (overdue.foldl (fun s a => s.logAlert digest now a.mailId .expired .empty) s).writeAlerts
        (Table.update (Alert.isOverdue instant) Alert.expire (overdue.foldl
          (fun s a => s.logAlert digest now a.mailId .expired .empty) s).alertProjection.rows)
        = .ok t :=
    ⟨_, List.perm_insertionSort _ _, h⟩
  have hmem : ∀ a, a ∈ overdue ↔ a ∈ s.alertProjection.rows ∧ a.isOverdue instant = true :=
    fun a => hperm.mem_iff.trans List.mem_filter
  have hnodup : (overdue.map Alert.mailId).Nodup := by
    have hindex := s.alertProjection.holds (onKey "alert_projection.mail_id" Alert.mailId)
      (List.mem_cons_of_mem _ List.mem_cons_self)
    have hall : (s.alertProjection.rows.map Alert.mailId).Nodup := by
      have hunique : Table.Unique (fun a => some a.mailId) s.alertProjection.rows := hindex
      rwa [Table.Unique, List.filterMap_eq_map'] at hunique
    exact (hperm.map _).nodup_iff.mpr (hall.sublist (List.filter_sublist.map _))
  have hfresh : ∀ a ∈ overdue,
      logged digest s.mailTransitions a.mailId .expired .empty = false := by
    intro a ha
    obtain ⟨hrow, hover⟩ := (hmem a).mp ha
    obtain ⟨e, he⟩ := hs.replays a hrow
    exact he.not_logged (hopen a hrow hover) rfl _
  rw [foldl_logAlert_fresh now hnodup hfresh] at hwrite
  obtain ⟨rows, hrows, rfl⟩ := Store.writeAlerts_eq_ok.mp hwrite
  refine ⟨rfl, rfl, ⟨_, hrows, fun a ha => ?_⟩, fun x hx => ?_⟩
  · by_cases hover : a.isOverdue instant = true
    · rw [if_pos hover]
      refine .changed .expired a.notBefore (expiryOf now a) (hopen a ha hover) rfl rfl ?_
      rw [Store.logOf, List.filter_append,
        filter_expiries now hnodup ((hmem a).mpr ⟨ha, hover⟩)]
      rfl
    · have hnone : (overdue.map (expiryOf now)).filter (fun x => x.mailId = a.mailId) = [] := by
        refine List.filter_eq_nil_iff.mpr fun x hx hmail => ?_
        obtain ⟨b, hb, rfl⟩ := List.mem_map.mp hx
        obtain ⟨hrow, hover'⟩ := (hmem b).mp hb
        exact hover (s.alert_mail_ext ha hrow (of_decide_eq_true hmail).symm ▸ hover')
      rw [if_neg hover]
      refine .kept ?_
      rw [Store.logOf, List.filter_append, hnone, List.append_nil]
      rfl
  · rcases List.mem_append.mp hx with hx | hx
    · exact .inl hx
    · obtain ⟨b, hb, rfl⟩ := List.mem_map.mp hx
      exact .inr ⟨b, ((hmem b).mp hb).1, rfl⟩

/-! ### Calls on the alerts -/

theorem Store.Projects.expireAlert (hs : s.Projects) {instant : Datetime} {answer : Bool}
    (h : s.expireAlert digest now sourceId eventId instant = .ok (answer, t)) : s.Edits t := by
  rw [Store.expireAlert] at h
  obtain ⟨source, -, h⟩ := bind_eq_ok.mp h
  obtain ⟨event, -, h⟩ := bind_eq_ok.mp h
  obtain ⟨text, -, h⟩ := bind_eq_ok.mp h
  split at h
  · cases h
    exact .refl _
  · next row hrow =>
      split_ifs at h with hcan
      · cases h
        exact .refl _
      · obtain ⟨s₁, hwrite, h⟩ := bind_eq_ok.mp h
        cases h
        obtain ⟨rows, hrows, rfl⟩ := Store.writeAlerts_eq_ok.mp hwrite
        have hmem := (Store.alert?_eq_some.mp hrow).1
        obtain ⟨e, he⟩ := hs.replays row hmem
        have hopen : row.status.isFinal = false := by
          rw [Bool.not_eq_false, Alert.canExpire] at hcan
          split at hcan
          · next hstatus => rw [hstatus]; rfl
          · next hstatus => rw [hstatus]; rfl
          · cases hcan
        exact s.edits_one now hmem hrows (Store.hits_alert hrow)
          (show row.expire = { row with status := .expired, notBefore := row.notBefore } from rfl)
          hopen rfl rfl (he.not_logged hopen rfl _)

theorem readTurn_of_accepted {value : Json} {accepted : AcceptedTurn}
    (h : normalizeAcceptedTurn value = .ok accepted) :
    (Detail.turn accepted).readTurn = .ok accepted := by
  rw [normalizeAcceptedTurn] at h
  split_ifs at h
  · cases h
  · obtain ⟨session, hsession, h⟩ := bind_eq_ok.mp h
    obtain ⟨turn, hturn, h⟩ := bind_eq_ok.mp h
    cases h
    have hread : normalizeAcceptedTurn
        (.obj [("session_id", .str session), ("turn_id", .str turn)]) = (do
          let sessionId ← identity "accepted_turn.session_id" (some (.str session))
          let turnId ← identity "accepted_turn.turn_id" (some (.str turn))
          return ⟨sessionId, turnId⟩) := rfl
    refine hread.trans ?_
    rw [identity, if_pos (identity_eq_ok hsession).2, identity, if_pos (identity_eq_ok hturn).2]
    rfl

/-- `select_alert` edits what it expires and what it claims, where the claim is not logged
yet. -/
theorem Store.Projects.selectAlert (hs : s.Projects) {acceptedTurn : Json} {instant : Datetime}
    {itemRef : Option Json} {answer : Option AlertView}
    (hfresh : ∀ accepted text s₁ row, normalizeAcceptedTurn acceptedTurn = .ok accepted →
      awareUtc instant = .ok text → s.expireAlerts digest now text = .ok s₁ →
      s₁.findAlert accepted text itemRef = .ok (.due row) →
      logged digest s₁.mailTransitions row.1.mailId .selected (.turn accepted) = false)
    (h : s.selectAlert digest now acceptedTurn instant itemRef = .ok (answer, t)) :
    t.Projects := by
  rw [Store.selectAlert] at h
  obtain ⟨accepted, haccepted, h⟩ := bind_eq_ok.mp h
  obtain ⟨text, htext, h⟩ := bind_eq_ok.mp h
  obtain ⟨s₁, hexpire, h⟩ := bind_eq_ok.mp h
  obtain ⟨found, hfound, h⟩ := bind_eq_ok.mp h
  have hs₁ := (hs.expireAlerts hexpire).projects hs
  have hfinds := Store.findAlert_finds hfound
  cases found with
  | nothing =>
      cases h
      exact hs₁
  | live row =>
      obtain ⟨view, -, h⟩ := bind_eq_ok.mp h
      cases h
      exact hs₁
  | due row =>
      obtain ⟨t', hwrite, h⟩ := bind_eq_ok.mp h
      obtain ⟨rows, hrows, rfl⟩ := Store.writeAlerts_eq_ok.mp hwrite
      obtain ⟨hmem, hpending, -⟩ := hfinds
      rw [Store.countP_isClaimable hmem hpending, if_neg (not_not.mpr rfl)] at h
      obtain ⟨view, -, h⟩ := bind_eq_ok.mp h
      cases h
      refine Store.Edits.projects (Store.edits_one now hmem hrows
        (fun b hb => Store.isClaimable_iff hmem hpending hb)
        (show row.1.claim accepted
          = { row.1 with status := .selected accepted, notBefore := row.1.notBefore } from rfl)
        (by rw [hpending]; rfl) ?_ rfl (hfresh accepted text s₁ row haccepted htext hexpire hfound))
        hs₁
      rw [Replayed.next, readTurn_of_accepted haccepted]
      rfl

/-- The status, action and deadline a transition of an alert may have. -/
inductive Ends : AlertStatus → Action → Option String → Prop
  | deferred (text : String) (htext : isIdentity text = true) : Ends .pending .deferred (some text)
  | ended (status : AlertStatus) (action : Action) (hnext : ∀ r : Replayed,
      r.next action .empty = .ok ⟨status, r.notBefore⟩)
      (haction : action.isEnding = true) (hstatus : status.isFinal = true) :
      Ends status action none

/-- `_transition_alert` edits the row it ends, where a deferral is not logged yet. -/
theorem Store.Projects.transitionAlert (hs : s.Projects) {key : String × String}
    {status : AlertStatus} {notBefore : Option String} {expected : Option (String × AcceptedTurn)}
    {expiresBefore : Option String} {answer : Bool} (hends : Ends status action notBefore)
    (hfresh : ∀ a turn text, s.claimedAlert? key = some (a, turn) →
      (∀ e, expected = some e → e = (a.mailId, turn)) → notBefore = some text →
      logged digest s.mailTransitions a.mailId .deferred (.notBefore text) = false)
    (h : s.transitionAlert digest now key status action notBefore expected expiresBefore
      = .ok (answer, t)) : s.Edits t := by
  rcases Store.transitionAlert_eq_ok h with ⟨-, rfl⟩
    | ⟨-, a, turn, ha, hturn, hexpected, rows, hrows, rfl⟩
  · exact .refl _
  · have hmem := (Store.alert?_eq_some.mp ha).1
    obtain ⟨e, he⟩ := hs.replays a hmem
    have hopen : a.status.isFinal = false := by rw [hturn]; rfl
    cases hends with
    | deferred text htext =>
        refine s.edits_one now hmem hrows (Store.hits_alert ha)
          (show a.finish .pending (some text)
            = { a with status := .pending, notBefore := text } from rfl) hopen ?_ rfl
          (hfresh a turn text (Store.claimedAlert?_eq_some.mpr ⟨ha, hturn⟩) hexpected rfl)
        rw [Replayed.next, deferral, Detail.readDeadline, identity, if_pos htext]
        rfl
    | ended _ _ hnext haction hstatus =>
        exact s.edits_one now hmem hrows (Store.hits_alert ha)
          (show a.finish status none
            = { a with status := status, notBefore := a.notBefore } from rfl) hopen
          (hnext _) (haction.trans hstatus.symm) (he.not_logged hopen haction _)

/-! ### Reports -/

/-- The actions a replay passes over, and no ending. -/
def Action.isSilent : Action → Bool
  | .received | .superseded => true
  | _ => false

theorem Replayed.next_of_silent (h : action.isSilent = true) (r : Replayed) (detail : Detail) :
    r.next action detail = .ok r ∧ action.isEnding = false := by
  cases action with
  | received => exact ⟨rfl, rfl⟩
  | superseded => exact ⟨rfl, rfl⟩
  | selected | deferred | delivered | skipped | expired | projected | readyForDelivery | release
  | defer | awaitChange | invalidated | abandoned | failed | settled | acknowledged => cases h

theorem Store.Replays.silent (hs : s.Replays a e) {more : List MailTransition}
    (hlog : t.mailTransitions = s.mailTransitions ++ more)
    (hmore : ∀ x ∈ more, x.action.isSilent = true) (henvelope : t.envelope? a.mailId = some e) :
    t.Replays a e := by
  have hpass : ∀ (more : List MailTransition) (r : Replayed),
      (∀ x ∈ more, x.action.isSilent = true) →
      more.foldlM (fun r x => r.next x.action x.detail) r = .ok r := by
    intro more
    induction more with
    | nil => exact fun r _ => rfl
    | cons x more ih =>
        intro r hmore
        rw [List.foldlM_cons, (r.next_of_silent (hmore x List.mem_cons_self) _).1]
        exact ih r fun y hy => hmore y (List.mem_cons_of_mem _ hy)
  refine ⟨henvelope, hs.expiresAt, ?_, fun hopen x hx => ?_⟩
  · have hreplayed := hs.replayed
    rw [replay] at hreplayed ⊢
    rw [hlog, List.filter_append, List.foldlM_append]
    refine (congrArg (· >>= _) hreplayed).trans ?_
    exact hpass _ _ fun x hx => hmore x (List.mem_filter.mp hx).1
  · rw [Store.logOf, hlog, List.filter_append, List.mem_append] at hx
    rcases hx with hx | hx
    · exact hs.isOpen hopen x hx
    · exact (Replayed.next_of_silent (hmore x (List.mem_filter.mp hx).1) ⟨a.status, a.notBefore⟩
        x.detail).2

theorem Store.Newest.of_latest (h : s.Newest kind rows) (he : e ∈ s.latestEnvelopes kind) :
    (e.event, e.mailId) ∈ rows := by
  obtain ⟨hmem, hkind, -⟩ := Store.mem_latestEnvelopes.mp he
  obtain ⟨r, hr, hevent⟩ := h.event e hmem hkind
  obtain ⟨e', he', hevent', hmail⟩ := h.row r hr
  obtain rfl := Store.latestEnvelopes_ext he' he (hevent'.trans hevent)
  rw [hevent', hmail]
  exact hr

/-- A new envelope, with silent transitions of mails that are there. -/
structure Store.Takes (s t : Store) (e : Envelope) : Prop where
  envelopes : t.mailEnvelopes.rows = s.mailEnvelopes.rows ++ [e]
  named : e.Named
  fresh : ∀ e' ∈ s.mailEnvelopes.rows, e'.mailId ≠ e.mailId
  log : ∃ more, t.mailTransitions = s.mailTransitions ++ more ∧
    ∀ x ∈ more, x.action.isSilent = true ∧ ∃ e' ∈ t.mailEnvelopes.rows, e'.mailId = x.mailId

section Takes

variable {e : Envelope} (h : s.Takes t e)

include h

theorem Store.Takes.envelope? {id : String} (he' : s.envelope? id = some e') :
    t.envelope? id = some e' :=
  Store.envelope?_mono ⟨[e], h.envelopes.symm⟩ he'

theorem Store.Takes.envelope?_new : t.envelope? e.mailId = some e := by
  rw [Store.envelope?_eq_some, h.envelopes]
  exact ⟨List.mem_append_right _ (List.mem_singleton_self e), rfl⟩

theorem Store.Takes.names (hs : s.Projects) :
    (∀ e ∈ t.mailEnvelopes.rows, e.Named) ∧
      ∀ x ∈ t.mailTransitions, (∃ e ∈ t.mailEnvelopes.rows, e.mailId = x.mailId) ∨
        ∃ key : ItemKey, x.mailId = key.mailId := by
  obtain ⟨more, hlog, hmore⟩ := h.log
  refine ⟨fun e' he' => ?_, fun x hx => ?_⟩
  · rw [h.envelopes] at he'
    rcases List.mem_append.mp he' with he' | he'
    · exact hs.named e' he'
    · rw [List.mem_singleton.mp he']
      exact h.named
  · rw [hlog] at hx
    rcases List.mem_append.mp hx with hx | hx
    · rcases hs.heard x hx with ⟨e', he', hmail⟩ | hkey
      · exact .inl ⟨e', by rw [h.envelopes]; exact List.mem_append_left _ he', hmail⟩
      · exact .inr hkey
    · exact .inl (hmore x hx).2

theorem Store.Takes.replays (hs : s.Projects) (ha : a ∈ s.alertProjection.rows) :
    ∃ e, t.Replays a e := by
  obtain ⟨more, hlog, hmore⟩ := h.log
  obtain ⟨e', he'⟩ := hs.replays a ha
  exact ⟨e', he'.silent hlog (fun x hx => (hmore x hx).1) (h.envelope? he'.envelope)⟩

theorem Store.Takes.expiries (hs : s.Projects) {c : ContextMail}
    (hc : c ∈ s.contextProjection.rows) :
    ∃ e, t.envelope? c.mailId = some e ∧ e.expiresAt = c.expiresAt := by
  obtain ⟨e', he', hexpiry⟩ := hs.expiries c hc
  exact ⟨e', h.envelope? he', hexpiry⟩

end Takes

theorem mailId_kind {kind' : Kind} {source item revision source' item' revision' : String}
    (h : mailId kind source item revision = mailId kind' source' item' revision') :
    kind = kind' := by
  have hchars := congrArg (fun text : String => text.toList.take 6) h
  simp only [mailId, String.toList_append, List.append_assoc] at hchars
  cases kind <;> cases kind' <;> first | rfl | exact absurd hchars (by simp [Kind.text])

theorem Store.Projects.unheard (hs : s.Projects) (hnamed : e.Named) (hkind : e.kind ≠ .content)
    (hfresh : ∀ e' ∈ s.mailEnvelopes.rows, e'.mailId ≠ e.mailId) : s.logOf e.mailId = [] := by
  refine List.filter_eq_nil_iff.mpr fun x hx hmail => ?_
  have hid := of_decide_eq_true hmail
  rcases hs.heard x hx with ⟨e', he', hmail'⟩ | ⟨key, hkey⟩
  · exact hfresh e' he' (hmail'.trans hid)
  · have hcontent : e.mailId = mailId .content key.sourceId key.itemId key.revision :=
      hid.symm.trans hkey
    exact hkind (mailId_kind (hnamed.mailId.symm.trans hcontent))

theorem Store.Projects.latest_alert (hs : s.Projects) (he : e ∈ s.latestEnvelopes .alert) :
    ∃ a ∈ s.alertProjection.rows, a.key = e.event ∧
      s.envelope? a.mailId = some e := by
  obtain ⟨a, ha, hrow⟩ := List.mem_map.mp (hs.alerts.of_latest he)
  obtain ⟨hkey, hmail⟩ := Prod.mk.inj hrow
  exact ⟨a, ha, hkey, Store.envelope?_eq_some.mpr ⟨(Store.mem_latestEnvelopes.mp he).1, hmail.symm⟩⟩

theorem Store.Projects.latest_context (hs : s.Projects) (he : e ∈ s.latestEnvelopes .context) :
    ∃ c ∈ s.contextProjection.rows, c.key = e.event ∧
      s.envelope? c.mailId = some e := by
  obtain ⟨c, hc, hrow⟩ := List.mem_map.mp (hs.contexts.of_latest he)
  obtain ⟨hkey, hmail⟩ := Prod.mk.inj hrow
  exact ⟨c, hc, hkey, Store.envelope?_eq_some.mpr ⟨(Store.mem_latestEnvelopes.mp he).1, hmail.symm⟩⟩

theorem Store.Takes.alert_older (h : s.Takes t e) (hs : s.Projects) (hkind : e.kind = .alert)
    (halerts : t.alertProjection = s.alertProjection)
    (hcontexts : t.contextProjection = s.contextProjection) (ha : s.alert? e.event = some a)
    (he' : s.envelope? a.mailId = some e') (hlt : e.observedAt < e'.observedAt) : t.Projects := by
  obtain ⟨hmem, hkey⟩ := Store.alert?_eq_some.mp ha
  obtain ⟨hnamed, hheard⟩ := h.names hs
  refine ⟨hnamed, hheard, ?_, ?_, ?_, ?_⟩
  · rw [halerts]
    refine hs.alerts.append_older h.envelopes ⟨_, List.mem_map_of_mem hmem, hkey⟩ ?_
    intro e₁ he₁ hevent
    obtain ⟨b, hb, hbkey, hbmail⟩ := hs.latest_alert he₁
    obtain rfl := s.alert_ext hb hmem (hbkey.trans (hevent.trans hkey.symm))
    obtain rfl := Option.some.inj (hbmail.symm.trans he')
    exact hlt
  · rw [halerts]
    exact fun a ha => h.replays hs ha
  · rw [hcontexts]
    exact hs.contexts.append_others h.envelopes (by simp [hkind])
  · rw [hcontexts]
    exact fun c hc => h.expiries hs hc

/-- The projection a new envelope of an alert gets. -/
def Envelope.alert (e : Envelope) (notBefore : String) : Alert :=
  ⟨e.sourceId, e.itemId, e.mailId, .pending, notBefore, e.expiresAt⟩

/-- An alert that is not older than the one its event has becomes its row. -/
theorem Store.Takes.alert_newer {notBefore : String} (h : s.Takes t e) (hs : s.Projects)
    (hkind : e.kind = .alert) (hdue : e.notBefore = some notBefore)
    (hrows : t.alertProjection.rows = upsertAlert (e.alert notBefore) s.alertProjection.rows)
    (hcontexts : t.contextProjection = s.contextProjection)
    (hle : ∀ a e', s.alert? e.event = some a → s.envelope? a.mailId = some e' →
      e'.observedAt ≤ e.observedAt) : t.Projects := by
  obtain ⟨hnamed, hheard⟩ := h.names hs
  refine ⟨hnamed, hheard, ?_, fun a ha => ?_, ?_, ?_⟩
  · refine hs.alerts.append_newer h.envelopes hkind h.fresh ?_ fun r => ?_
    · intro e₁ he₁ hevent
      obtain ⟨b, hb, hbkey, hbmail⟩ := hs.latest_alert he₁
      exact hle b e₁ (Store.alert?_eq_some.mpr ⟨hb, hbkey.trans hevent⟩) hbmail
    · rw [hrows]
      simp only [List.mem_map, mem_upsertAlert]
      constructor
      · rintro ⟨a, rfl | ⟨ha, hother⟩, rfl⟩
        · exact .inl rfl
        · exact .inr ⟨⟨a, ha, rfl⟩, hother⟩
      · rintro (rfl | ⟨⟨a, ha, rfl⟩, hother⟩)
        · exact ⟨_, .inl rfl, rfl⟩
        · exact ⟨a, .inr ⟨ha, hother⟩, rfl⟩
  · rw [hrows, mem_upsertAlert] at ha
    rcases ha with rfl | ⟨ha, -⟩
    · -- the log of the new mail has nothing but what a replay passes over
      obtain ⟨more, hlog, hmore⟩ := h.log
      have hempty := hs.unheard h.named (by rw [hkind]; decide) h.fresh
      have hbase : Store.Replays { t with mailTransitions := s.mailTransitions }
          (e.alert notBefore) e := by
        refine ⟨h.envelope?_new, rfl, ?_, fun _ x hx => ?_⟩
        · rw [hdue]
          exact (congrArg (List.foldlM _ _) hempty).trans rfl
        · have hx' : x ∈ s.logOf e.mailId := hx
          rw [hempty] at hx'
          cases hx'
      exact ⟨e, hbase.silent hlog (fun x hx => (hmore x hx).1) h.envelope?_new⟩
    · exact h.replays hs ha
  · rw [hcontexts]
    exact hs.contexts.append_others h.envelopes (by simp [hkind])
  · rw [hcontexts]
    exact fun c hc => h.expiries hs hc

/-- The row of an event after an `UPSERT` is the new one; the other rows stay. -/
theorem mem_upsertContext {context : ContextMail} {rows : List ContextMail} :
    c ∈ upsertContext context rows ↔ c = context ∨ c ∈ rows ∧ c.key ≠ context.key := by
  rw [upsertContext]
  split_ifs with hany
  · rw [List.any_eq_true] at hany
    obtain ⟨old, hold, hkey⟩ := hany
    rw [decide_eq_true_eq] at hkey
    have hrow : ∀ b : ContextMail, b.key = context.key →
        { b with mailId := context.mailId, expiresAt := context.expiresAt } = context := by
      rintro b hb
      obtain ⟨hsource, hevent⟩ := Prod.mk.inj hb
      cases context
      simp_all
    rw [Table.mem_update]
    constructor
    · rintro ⟨b, hb, rfl⟩
      split
      · next hkey' => exact .inl (hrow b (of_decide_eq_true hkey'))
      · next hkey' => exact .inr ⟨hb, fun heq => hkey' (decide_eq_true heq)⟩
    · rintro (rfl | ⟨ha, hne⟩)
      · exact ⟨old, hold, by rw [if_pos (decide_eq_true hkey), hrow old hkey]⟩
      · exact ⟨c, ha, if_neg fun heq => hne (of_decide_eq_true heq)⟩
  · rw [List.mem_append, List.mem_singleton, or_comm]
    refine or_congr_right (iff_self_and.mpr fun ha hkey => hany ?_)
    exact List.any_eq_true.mpr ⟨c, ha, decide_eq_true hkey⟩

theorem Store.context?_eq_some {key : String × String} :
    s.context? key = some c ↔ c ∈ s.contextProjection.rows ∧ c.key = key := by
  have hunique : Table.Unique (fun c => some c.key) s.contextProjection.rows :=
    s.contextProjection.holds (onKey _ fun c => (c.sourceId, c.eventId)) List.mem_cons_self
  exact Table.find?_eq_some_iff hunique

theorem Store.Takes.context_older (h : s.Takes t e) (hs : s.Projects) (hkind : e.kind = .context)
    (halerts : t.alertProjection = s.alertProjection)
    (hcontexts : t.contextProjection = s.contextProjection) (hc : s.context? e.event = some c)
    (he' : s.envelope? c.mailId = some e') (hlt : e.observedAt < e'.observedAt) : t.Projects := by
  obtain ⟨hmem, hkey⟩ := Store.context?_eq_some.mp hc
  obtain ⟨hnamed, hheard⟩ := h.names hs
  refine ⟨hnamed, hheard, ?_, ?_, ?_, ?_⟩
  · rw [halerts]
    exact hs.alerts.append_others h.envelopes (by simp [hkind])
  · rw [halerts]
    exact fun a ha => h.replays hs ha
  · rw [hcontexts]
    refine hs.contexts.append_older h.envelopes ⟨_, List.mem_map_of_mem hmem, hkey⟩ ?_
    intro e₁ he₁ hevent
    obtain ⟨d, hd, hdkey, hdmail⟩ := hs.latest_context he₁
    have hsame := Store.context?_eq_some.mpr ⟨hd, hdkey.trans hevent⟩
    obtain rfl := Option.some.inj (hc.symm.trans hsame)
    obtain rfl := Option.some.inj (hdmail.symm.trans he')
    exact hlt
  · rw [hcontexts]
    exact fun c hc => h.expiries hs hc

theorem Store.Takes.context_newer (h : s.Takes t e) (hs : s.Projects) (hkind : e.kind = .context)
    (halerts : t.alertProjection = s.alertProjection)
    (hrows : t.contextProjection.rows = upsertContext e.context s.contextProjection.rows)
    (hle : ∀ c e', s.context? e.event = some c → s.envelope? c.mailId = some e' →
      e'.observedAt ≤ e.observedAt) : t.Projects := by
  obtain ⟨hnamed, hheard⟩ := h.names hs
  refine ⟨hnamed, hheard, ?_, ?_, ?_, fun c hc => ?_⟩
  · rw [halerts]
    exact hs.alerts.append_others h.envelopes (by simp [hkind])
  · rw [halerts]
    exact fun a ha => h.replays hs ha
  · refine hs.contexts.append_newer h.envelopes hkind h.fresh ?_ fun r => ?_
    · intro e₁ he₁ hevent
      obtain ⟨d, hd, hdkey, hdmail⟩ := hs.latest_context he₁
      exact hle d e₁ (Store.context?_eq_some.mpr ⟨hd, hdkey.trans hevent⟩) hdmail
    · rw [hrows]
      simp only [List.mem_map, mem_upsertContext]
      constructor
      · rintro ⟨c, rfl | ⟨hc, hother⟩, rfl⟩
        · exact .inl rfl
        · exact .inr ⟨⟨c, hc, rfl⟩, hother⟩
      · rintro (rfl | ⟨⟨c, hc, rfl⟩, hother⟩)
        · exact ⟨_, .inl rfl, rfl⟩
        · exact ⟨c, .inr ⟨hc, hother⟩, rfl⟩
  · rw [hrows, mem_upsertContext] at hc
    rcases hc with rfl | ⟨hc, -⟩
    · exact ⟨e, h.envelope?_new, rfl⟩
    · exact h.expiries hs hc

/-! ### Reports of alerts and contexts -/

/-- No envelope of another event has the mail id of a report: ids join their parts with
colons, which the parts may contain. -/
def Store.Unmistaken (s : Store) (kind : Kind) (source event observed : String) : Prop :=
  ∀ e ∈ s.mailEnvelopes.rows, e.mailId = mailId kind source event observed →
    e.event = (source, event)

/-- An envelope that was reported before is not newer than the row of its event, and it is
older or that very row. -/
theorem Store.Projects.reported_before (hs : s.Projects) (hkind : kind ≠ .content)
    {source event : String} (hevent : s.Unmistaken kind source event observed) {row : Envelope}
    (hrow : row ∈ s.mailEnvelopes.rows) (hid : row.mailId = mailId kind source event observed)
    (hobserved : row.observedAt = observed) (he : e ∈ s.latestEnvelopes kind)
    (hsame : e.event = (source, event)) :
    observed < e.observedAt ∨ e.mailId = mailId kind source event observed := by
  obtain ⟨hmem, hekind, hnewest⟩ := Store.mem_latestEnvelopes.mp he
  have hrowkind : row.kind = kind := mailId_kind ((hs.named row hrow).mailId.symm.trans hid)
  rcases hnewest row hrow hrowkind ((hevent row hrow hid).trans hsame.symm) with hlt | ⟨heq, -⟩
  · exact .inl (hobserved ▸ hlt)
  · obtain ⟨hsource, hitem⟩ := Prod.mk.inj hsame
    refine .inr ?_
    rw [(hs.named e hmem).mailId, (hs.named e hmem).revision (by rw [hekind]; exact hkind), hekind,
      hsource, hitem, ← heq, hobserved]

theorem Store.Takes.of_append (henvelopes : envelopes.rows = s.mailEnvelopes.rows ++ [e])
    (hnamed : e.Named) (hfresh : ∀ row ∈ s.mailEnvelopes.rows, row.mailId ≠ e.mailId) :
    s.Takes { s with mailEnvelopes := envelopes } e :=
  ⟨henvelopes, hnamed, hfresh, [], (List.append_nil _).symm, fun _ hx => by cases hx⟩

theorem Store.Takes.logged (h : s.Takes t e) (action : Action) (hsilent : action.isSilent = true)
    (hid : ∃ e' ∈ t.mailEnvelopes.rows, e'.mailId = id) (digest : Detail → String) (now : String)
    (kind : Kind) (detail : Detail) :
    s.Takes (t.appendTransition digest now id kind action detail) e := by
  obtain ⟨more, hlog, hmore⟩ := h.log
  refine ⟨h.envelopes, h.named, h.fresh, ?_⟩
  rw [Store.appendTransition, EventMail.appendTransition]
  split_ifs
  · exact ⟨more, hlog, hmore⟩
  · refine ⟨more ++ [⟨id, kind, action, detail, now⟩], ?_, fun x hx => ?_⟩
    · rw [← List.append_assoc, ← hlog]
    · rcases List.mem_append.mp hx with hx | hx
      · exact hmore x hx
      · rw [List.mem_singleton.mp hx]
        exact ⟨hsilent, hid⟩

theorem Store.Projects.alert_mail_ne (hs : s.Projects)
    (hfresh : ∀ row ∈ s.mailEnvelopes.rows, row.mailId ≠ e.mailId)
    (ha : a ∈ s.alertProjection.rows) : a.mailId ≠ e.mailId := by
  obtain ⟨e', he'⟩ := hs.replays a ha
  obtain ⟨hmem, hid⟩ := Store.envelope?_eq_some.mp he'.envelope
  exact hid ▸ hfresh e' hmem

/-- **The publication of a new alert keeps the projections.** -/
theorem Store.Projects.publishAlert (hs : s.Projects) (hnamed : e.Named) (hkind : e.kind = .alert)
    (hdue : e.notBefore = some observed) (hobserved : e.observedAt = observed)
    (hfresh : ∀ row ∈ s.mailEnvelopes.rows, row.mailId ≠ e.mailId)
    (henvelopes : envelopes.rows = s.mailEnvelopes.rows ++ [e]) {projected : Option Bool}
    {accepted : Bool} (h : Store.publishAlert digest now (e.alert observed) true
      { s with mailEnvelopes := envelopes } = .ok (projected, accepted, t)) : t.Projects := by
  have htakes := Store.Takes.of_append henvelopes hnamed hfresh
  have hnew : ∃ e' ∈ envelopes.rows, e'.mailId = e.mailId :=
    ⟨e, by rw [henvelopes]; exact List.mem_append_right _ (List.mem_singleton_self e), rfl⟩
  have henvelope : ∀ a ∈ s.alertProjection.rows, ∀ e',
      Store.envelope? { s with mailEnvelopes := envelopes } a.mailId = some e' →
      s.envelope? a.mailId = some e' := by
    intro a ha e' he'
    obtain ⟨e₁, he₁⟩ := hs.replays a ha
    rw [← he', htakes.envelope? he₁.envelope]
    exact he₁.envelope
  rw [Store.publishAlert] at h
  split at h
  · next mail observed' hcurrent =>
      obtain ⟨a, e', ha, he', rfl, rfl⟩ := Store.currentAlert?_eq_some.mp hcurrent
      have hrow : s.alert? e.event = some a := ha
      have hmem := (Store.alert?_eq_some.mp hrow).1
      have he₁ := henvelope a hmem e' he'
      split_ifs at h with hsame hlt hinserted
      · exact absurd hsame (hs.alert_mail_ne hfresh hmem)
      · -- an older alert is superseded at once
        cases h
        have hreceived := htakes.logged .received rfl hnew digest now .alert .empty
        exact (hreceived.logged .superseded rfl hnew digest now .alert (.by a.mailId)).alert_older
          hs hkind rfl
          rfl hrow he₁ (hobserved ▸ hlt)
      · exact absurd rfl hinserted
      · obtain ⟨s₂, hwrite, h⟩ := bind_eq_ok.mp h
        cases h
        obtain ⟨rows, hrows, rfl⟩ := Store.writeAlerts_eq_ok.mp hwrite
        have hold : ∃ e' ∈ envelopes.rows, e'.mailId = a.mailId :=
          ⟨e', Store.envelope?_eq_some.mp he'⟩
        have hsuperseded := htakes.logged .superseded rfl hold digest now .alert (.by e.mailId)
        have hreceived := hsuperseded.logged .received rfl hnew digest now .alert .empty
        refine Store.Takes.alert_newer
          ⟨hreceived.envelopes, hreceived.named, hreceived.fresh, hreceived.log⟩ hs hkind hdue
          hrows rfl fun b e₂ hb he₂ => ?_
        obtain rfl := Option.some.inj (hrow.symm.trans hb)
        obtain rfl := Option.some.inj (he₁.symm.trans he₂)
        exact hobserved ▸ not_lt.mp hlt
  · next hcurrent =>
      obtain ⟨s₂, hwrite, h⟩ := bind_eq_ok.mp h
      cases h
      obtain ⟨rows, hrows, rfl⟩ := Store.writeAlerts_eq_ok.mp hwrite
      have hreceived := htakes.logged .received rfl hnew digest now .alert .empty
      refine Store.Takes.alert_newer
        ⟨hreceived.envelopes, hreceived.named, hreceived.fresh, hreceived.log⟩ hs hkind hdue
        hrows rfl fun b e₂ hb he₂ => ?_
      have hsome : Store.currentAlert? { s with mailEnvelopes := envelopes }
          (e.alert observed).key = some (b.mailId, e₂.observedAt) :=
        Store.currentAlert?_eq_some.mpr ⟨b, e₂, hb, htakes.envelope? he₂, rfl, rfl⟩
      rw [hcurrent] at hsome
      cases hsome

/-- **`report_alert` keeps the projections.** -/
theorem Store.Projects.reportAlert (hs : s.Projects) {payload : Json} {observedAt : Datetime}
    {expiresAt : Option Datetime} {r : AlertReport}
    (hevent : ∀ source event observed, identity "source_id" (some sourceId) = .ok source →
      identity "event_id" (some eventId) = .ok event → awareUtc observedAt = .ok observed →
      s.Unmistaken .alert source event observed)
    (h : s.reportAlert digest now sourceId eventId payload observedAt expiresAt = .ok (r, t)) :
    t.Projects := by
  rw [Store.reportAlert] at h
  obtain ⟨source, hsource, h⟩ := bind_eq_ok.mp h
  obtain ⟨event, hid, h⟩ := bind_eq_ok.mp h
  obtain ⟨observed, hobserved, h⟩ := bind_eq_ok.mp h
  obtain ⟨expiry, -, h⟩ := bind_eq_ok.mp h
  split_ifs at h with hexpiry
  · cases h
  · obtain ⟨encoded, -, h⟩ := bind_eq_ok.mp h
    obtain ⟨⟨inserted, s₁⟩, happend, h⟩ := bind_eq_ok.mp h
    obtain ⟨⟨projected, accepted, t'⟩, hpublish, h⟩ := bind_eq_ok.mp h
    cases h
    have hunmistaken := hevent source event observed hsource hid hobserved
    rcases Store.appendEnvelope_cases happend with ⟨rfl, rfl, row, hrow, hrowid, hsame⟩
      | ⟨rfl, hfresh, envelopes, henvelopes, rfl⟩
    · -- the envelope is there, so its event has a row, and nothing changes
      have hobs : row.observedAt = observed := Envelope.observedAt_eq hsame
      have hrowkind : row.kind = .alert :=
        mailId_kind ((hs.named row hrow).mailId.symm.trans hrowid)
      obtain ⟨r, hr, hrevent⟩ := hs.alerts.event row hrow hrowkind
      obtain ⟨e, he, heevent, -⟩ := hs.alerts.row r hr
      have hsameEvent : e.event = (source, event) :=
        heevent.trans (hrevent.trans (hunmistaken row hrow hrowid))
      obtain ⟨a, ha, hkey, henvelope⟩ := hs.latest_alert he
      have hcurrent : s₁.currentAlert? (source, event) = some (a.mailId, e.observedAt) :=
        Store.currentAlert?_eq_some.mpr ⟨a, e,
          Store.alert?_eq_some.mpr ⟨ha, hkey.trans hsameEvent⟩, henvelope, rfl, rfl⟩
      have hmail := (Store.envelope?_eq_some.mp henvelope).2
      have hbefore := hs.reported_before (by decide) hunmistaken hrow hrowid hobs he hsameEvent
      rw [Store.publishAlert, Alert.key, hcurrent] at hpublish
      dsimp only at hpublish
      split_ifs at hpublish with hsameMail hlt hinserted
      · cases hpublish
        exact hs
      · cases hinserted
      · cases hpublish
        exact hs
      · exact absurd (hbefore.resolve_left hlt) (hmail ▸ hsameMail)
    · exact hs.publishAlert (e := ⟨_, .alert, source, event, observed, encoded, observed,
        some observed, expiry, now⟩) ⟨rfl, fun _ => rfl⟩ rfl rfl rfl hfresh henvelopes hpublish

theorem Store.currentContext?_eq_some {key : String × String} {mail : String} :
    s.currentContext? key = some (mail, observed) ↔
      ∃ c e, s.context? key = some c ∧ s.envelope? c.mailId = some e ∧ c.mailId = mail ∧
        e.observedAt = observed := by
  simp [Store.currentContext?, Option.bind_eq_some_iff]

theorem Store.writeContexts_eq_ok {rows : List ContextMail} :
    s.writeContexts rows = .ok t ↔ ∃ contexts : Table.Rows contextIndexes,
      contexts.rows = rows ∧ t = { s with contextProjection := contexts } :=
  map_write_eq_ok

/-- **The publication of a new context keeps the projections.** -/
theorem Store.Projects.publishContext (hs : s.Projects) (hnamed : e.Named)
    (hkind : e.kind = .context) (hfresh : ∀ row ∈ s.mailEnvelopes.rows, row.mailId ≠ e.mailId)
    (henvelopes : envelopes.rows = s.mailEnvelopes.rows ++ [e]) {projected : Option Bool}
    {accepted : Bool} (h : Store.publishContext digest now e.context e.observedAt true
      { s with mailEnvelopes := envelopes } = .ok (projected, accepted, t)) : t.Projects := by
  have htakes := Store.Takes.of_append henvelopes hnamed hfresh
  have hnew : ∃ e' ∈ envelopes.rows, e'.mailId = e.mailId :=
    ⟨e, by rw [henvelopes]; exact List.mem_append_right _ (List.mem_singleton_self e), rfl⟩
  rw [Store.publishContext] at h
  split at h
  · next mail observed' hcurrent =>
      obtain ⟨c, e', hc, he', rfl, rfl⟩ := Store.currentContext?_eq_some.mp hcurrent
      have hrow : s.context? e.event = some c := hc
      have hmem := (Store.context?_eq_some.mp hrow).1
      obtain ⟨e₁, he₁, -⟩ := hs.expiries c hmem
      obtain rfl := Option.some.inj ((htakes.envelope? he₁).symm.trans he')
      split_ifs at h with hsame hlt hinserted
      · obtain ⟨hmem₁, hid⟩ := Store.envelope?_eq_some.mp he₁
        exact absurd (hid.trans hsame) (hfresh e₁ hmem₁)
      · -- an older context is superseded at once
        cases h
        have hreceived := htakes.logged .received rfl hnew digest now .context .empty
        exact (hreceived.logged .superseded rfl hnew digest now .context (.by c.mailId)).context_older
          hs hkind rfl rfl hrow he₁ hlt
      · exact absurd rfl hinserted
      · obtain ⟨s₂, hwrite, h⟩ := bind_eq_ok.mp h
        cases h
        obtain ⟨rows, hrows, rfl⟩ := Store.writeContexts_eq_ok.mp hwrite
        have hold : ∃ e' ∈ envelopes.rows, e'.mailId = c.mailId :=
          ⟨e₁, Store.envelope?_eq_some.mp he'⟩
        have hsuperseded := htakes.logged .superseded rfl hold digest now .context (.by e.mailId)
        have hreceived := hsuperseded.logged .received rfl hnew digest now .context .empty
        refine Store.Takes.context_newer
          ⟨hreceived.envelopes, hreceived.named, hreceived.fresh, hreceived.log⟩ hs hkind rfl
          hrows fun d e₂ hd he₂ => ?_
        obtain rfl := Option.some.inj (hrow.symm.trans hd)
        obtain rfl := Option.some.inj (he₁.symm.trans he₂)
        exact not_lt.mp hlt
  · next hcurrent =>
      obtain ⟨s₂, hwrite, h⟩ := bind_eq_ok.mp h
      cases h
      obtain ⟨rows, hrows, rfl⟩ := Store.writeContexts_eq_ok.mp hwrite
      have hreceived := htakes.logged .received rfl hnew digest now .context .empty
      refine Store.Takes.context_newer
        ⟨hreceived.envelopes, hreceived.named, hreceived.fresh, hreceived.log⟩ hs hkind rfl
        hrows fun d e₂ hd he₂ => ?_
      have hsome : Store.currentContext? { s with mailEnvelopes := envelopes } e.context.key
          = some (d.mailId, e₂.observedAt) :=
        Store.currentContext?_eq_some.mpr ⟨d, e₂, hd, htakes.envelope? he₂, rfl, rfl⟩
      rw [hcurrent] at hsome
      cases hsome

/-- **`report_context` keeps the projections.** -/
theorem Store.Projects.reportContext (hs : s.Projects) {payload : Json} {observedAt : Datetime}
    {expiresAt : Option Datetime} {r : AlertReport}
    (hevent : ∀ source event observed, identity "source_id" (some sourceId) = .ok source →
      identity "event_id" (some eventId) = .ok event → awareUtc observedAt = .ok observed →
      s.Unmistaken .context source event observed)
    (h : s.reportContext digest now sourceId eventId payload observedAt expiresAt = .ok (r, t)) :
    t.Projects := by
  rw [Store.reportContext] at h
  obtain ⟨source, hsource, h⟩ := bind_eq_ok.mp h
  obtain ⟨event, hid, h⟩ := bind_eq_ok.mp h
  obtain ⟨observed, hobserved, h⟩ := bind_eq_ok.mp h
  obtain ⟨expiry, -, h⟩ := bind_eq_ok.mp h
  split_ifs at h with hexpiry
  · cases h
  · obtain ⟨encoded, -, h⟩ := bind_eq_ok.mp h
    obtain ⟨⟨inserted, s₁⟩, happend, h⟩ := bind_eq_ok.mp h
    obtain ⟨⟨projected, accepted, t'⟩, hpublish, h⟩ := bind_eq_ok.mp h
    cases h
    have hunmistaken := hevent source event observed hsource hid hobserved
    rcases Store.appendEnvelope_cases happend with ⟨rfl, rfl, row, hrow, hrowid, hsame⟩
      | ⟨rfl, hfresh, envelopes, henvelopes, rfl⟩
    · -- the envelope is there, so its event has a row, and nothing changes
      have hobs : row.observedAt = observed := Envelope.observedAt_eq hsame
      have hrowkind : row.kind = .context :=
        mailId_kind ((hs.named row hrow).mailId.symm.trans hrowid)
      obtain ⟨r, hr, hrevent⟩ := hs.contexts.event row hrow hrowkind
      obtain ⟨e, he, heevent, -⟩ := hs.contexts.row r hr
      have hsameEvent : e.event = (source, event) :=
        heevent.trans (hrevent.trans (hunmistaken row hrow hrowid))
      obtain ⟨c, hc, hkey, henvelope⟩ := hs.latest_context he
      have hcurrent : s₁.currentContext? (source, event) = some (c.mailId, e.observedAt) :=
        Store.currentContext?_eq_some.mpr ⟨c, e,
          Store.context?_eq_some.mpr ⟨hc, hkey.trans hsameEvent⟩, henvelope, rfl, rfl⟩
      have hmail := (Store.envelope?_eq_some.mp henvelope).2
      have hbefore := hs.reported_before (by decide) hunmistaken hrow hrowid hobs he hsameEvent
      rw [Store.publishContext, ContextMail.key, hcurrent] at hpublish
      dsimp only at hpublish
      split_ifs at hpublish with hsameMail hlt hinserted
      · cases hpublish
        exact hs
      · cases hinserted
      · cases hpublish
        exact hs
      · exact absurd (hbefore.resolve_left hlt) (hmail ▸ hsameMail)
    · exact hs.publishContext (e := ⟨_, .context, source, event, observed, encoded, observed,
        none, expiry, now⟩) ⟨rfl, fun _ => rfl⟩ rfl hfresh henvelopes hpublish

end Kirakira.EventMail
