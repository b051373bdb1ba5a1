import Kirakira.MailAlerts
import Kirakira.TimeOrder

/-!
# Claims on Alerts

What holds of the alerts of the event mail over every sequence of calls. The reports that
were taken are remembered beside the store, so that the projection of an event can be
compared with them.

A claim is logged under a digest of its turn. Where a clause needs that the log tells two
turns apart, the runs are those in which no other transition has the digest of a claim.

## Main results

* `sound_of_reachable`, `newest_of_reachable` — a projection points to the newest report.
* `Store.Later` — what a run makes of a projection.
* `hasClaimed_of_reachable` — a live claim is in the log.
* `alertClaims_hold` — **the lifecycle of an alert** over every sequence of calls.
-/

namespace Kirakira.EventMail

open Exceptions

variable {digest : Detail → String}

/-! ### Reports -/

/-- The store together with the reports that were taken. -/
structure Heard where
  store : Store
  reports : List Report

/-- The alerts as a transition system that remembers the reports. -/
def alertRuns (digest : Detail → String) : Transition.System Heard AlertCall where
  init h := h = ⟨.empty, []⟩
  step h call h' :=
    h' = ⟨call.after digest h.store, h.reports ++ (call.report? digest h.store).toList⟩

variable {accepted turn : AcceptedTurn} {row : Alert} {s t : Store} {mail observed : String}
  {call : AlertCall} {G : Heard → AlertCall → Prop} {h : Heard}

variable {a' a : Alert} {r : Report}

theorem Store.Claimed.origin (h : s.Claimed digest t accepted row)
    (ha' : a' ∈ t.alertProjection.rows) :
    ∃ a ∈ s.alertProjection.rows, a.Steps a' ∨ a.Steps row ∧ a' = row.claim accepted := by
  obtain ⟨s₁, now, rows, hs₁, hrow, hpending, hrows, rfl⟩ := h.claims
  have ha₁ : a' ∈ rows.rows := ha'
  rw [hrows, Table.mem_update] at ha₁
  obtain ⟨a₁, hmem, heq⟩ := ha₁
  obtain ⟨a, ha, hsteps⟩ := hs₁.origin hmem
  split_ifs at heq with hclaim
  · obtain rfl := (Store.isClaimable_iff hrow hpending hmem).mp hclaim
    exact ⟨a, ha, .inr ⟨hsteps, heq.symm⟩⟩
  · exact ⟨a, ha, .inl (heq ▸ hsteps)⟩

theorem Store.Claimed.successor (h : s.Claimed digest t accepted row)
    (ha : a ∈ s.alertProjection.rows) :
    ∃ a' ∈ t.alertProjection.rows, a.Steps a' ∨ a.Steps row ∧ a' = row.claim accepted := by
  obtain ⟨s₁, now, rows, hs₁, hrow, hpending, hrows, rfl⟩ := h.claims
  obtain ⟨a₁, hmem, hsteps⟩ := hs₁.successor ha
  refine ⟨if row.isClaimable a₁ then a₁.claim accepted else a₁, ?_, ?_⟩
  · change _ ∈ rows.rows
    rw [hrows, Table.mem_update]
    exact ⟨a₁, hmem, rfl⟩
  · split_ifs with hclaim
    · obtain rfl := (Store.isClaimable_iff hrow hpending hmem).mp hclaim
      exact .inr ⟨hsteps, rfl⟩
    · exact .inl hsteps

theorem Store.Claimed.envelopes (h : s.Claimed digest t accepted row) :
    t.mailEnvelopes = s.mailEnvelopes := by
  obtain ⟨s₁, now, rows, hs₁, -, -, -, rfl⟩ := h.claims
  exact hs₁.envelopes

theorem Store.Claimed.log (h : s.Claimed digest t accepted row) :
    GrowsBy .alert s.mailTransitions t.mailTransitions := by
  obtain ⟨s₁, now, rows, hs₁, -, -, -, rfl⟩ := h.claims
  exact hs₁.log.trans (growsBy_appendTransition ..)

theorem Store.Reported.origin {key : String × String} (h : s.Reported t key mail observed)
    (ha' : a' ∈ t.alertProjection.rows) :
    a' ∈ s.alertProjection.rows ∨ a'.key = key ∧ a'.mailId = mail ∧ a'.status = .pending := by
  rcases h.alert with ⟨heq, -⟩ | ⟨-, alert, rfl, rfl, hpending, hrows⟩
  · rw [heq] at ha'
    exact .inl ha'
  · rw [hrows, mem_upsertAlert] at ha'
    rcases ha' with rfl | ⟨hold, -⟩
    · exact .inr ⟨rfl, rfl, hpending⟩
    · exact .inl hold

theorem Store.Sound.mono (h : s.Sound) (henvelopes : s.mailEnvelopes.rows <+: t.mailEnvelopes.rows)
    (hrows : ∀ a' ∈ t.alertProjection.rows, ∃ a ∈ s.alertProjection.rows,
      a'.key = a.key ∧ a'.mailId = a.mailId) : t.Sound := by
  intro a' ha'
  obtain ⟨a, ha, hkey, hmail⟩ := hrows a' ha'
  obtain ⟨e, he, hid⟩ := h a ha
  obtain ⟨hsource, hevent⟩ := Prod.mk.inj hkey
  refine ⟨e, ?_, ?_⟩
  · rw [hmail]
    exact Store.envelope?_mono henvelopes he
  · rw [hmail, hid, hsource, hevent]

theorem Store.AlertMove.quiet (h : s.AlertMove digest t call)
    (hquiet : call.report? digest s = none) :
    t.mailEnvelopes = s.mailEnvelopes ∧
      (∀ a' ∈ t.alertProjection.rows, ∃ a ∈ s.alertProjection.rows,
        a'.key = a.key ∧ a'.mailId = a.mailId) ∧
      ∀ a ∈ s.alertProjection.rows, ∃ a' ∈ t.alertProjection.rows,
        a'.key = a.key ∧ a'.mailId = a.mailId := by
  cases h with
  | updated _ h =>
      refine ⟨h.envelopes, fun a' ha' => ?_, fun a ha => ?_⟩
      · obtain ⟨a, ha, hsteps⟩ := h.origin ha'
        exact ⟨a, ha, hsteps.key, hsteps.mailId⟩
      · obtain ⟨a', ha', hsteps⟩ := h.successor ha
        exact ⟨a', ha', hsteps.key, hsteps.mailId⟩
  | claimed accepted row _ _ h =>
      refine ⟨h.envelopes, fun a' ha' => ?_, fun a ha => ?_⟩
      · obtain ⟨a, ha, hsteps | ⟨hsteps, rfl⟩⟩ := h.origin ha'
        · exact ⟨a, ha, hsteps.key, hsteps.mailId⟩
        · exact ⟨a, ha, hsteps.key, hsteps.mailId⟩
      · obtain ⟨a', ha', hsteps | ⟨hsteps, rfl⟩⟩ := h.successor ha
        · exact ⟨a', ha', hsteps.key, hsteps.mailId⟩
        · exact ⟨_, ha', hsteps.key, hsteps.mailId⟩
  | reported r observed hreport =>
      rw [hreport] at hquiet
      cases hquiet

theorem Store.AlertMove.sound (hs : s.Sound) (h : s.AlertMove digest t call) : t.Sound := by
  have hquiet := h.quiet
  cases h with
  | updated hnone h =>
      obtain ⟨henvelopes, hrows, -⟩ := hquiet hnone
      exact hs.mono (henvelopes ▸ List.prefix_rfl) hrows
  | claimed accepted row hnone _ h =>
      obtain ⟨henvelopes, hrows, -⟩ := hquiet hnone
      exact hs.mono (henvelopes ▸ List.prefix_rfl) hrows
  | reported r observed _ _ hmail h =>
      intro a' ha'
      rcases h.origin ha' with hold | ⟨hkey, hmail', -⟩
      · obtain ⟨e, he, hid⟩ := hs a' hold
        exact ⟨e, Store.envelope?_mono h.envelopes he, hid⟩
      · obtain ⟨e, he, rfl⟩ := h.envelope
        refine ⟨e, hmail' ▸ he, ?_⟩
        rw [hmail', hmail, ← hkey]
        rfl

theorem sound_of_reachable (hreach : (alertRuns digest).ReachableVia G h) : h.store.Sound := by
  refine Transition.System.ReachableVia.invariant (I := fun h => h.store.Sound) ?_ ?_ hreach
  · rintro h rfl a ha
    cases ha
  · rintro h call h' hsound - rfl
    exact (AlertCall.moves digest hsound call).sound hsound

/-! ### The newest report -/

/-- The time of a report is at most that of a text. -/
def Report.UpTo (r : Report) (observed : String) : Prop :=
  ∃ text, awareUtc r.observedAt = .ok text ∧ text ≤ observed

theorem Report.UpTo.mono {later : String} (h : r.UpTo observed) (hle : observed ≤ later) :
    r.UpTo later := by
  obtain ⟨text, htext, h⟩ := h
  exact ⟨text, htext, h.trans hle⟩

/-- Every reported event has a projection, which points to a report that no other is after. -/
structure Heard.Newest (h : Heard) : Prop where
  projected : ∀ r ∈ h.reports, ∃ a ∈ h.store.alertProjection.rows, a.key = r.key
  reported : ∀ a ∈ h.store.alertProjection.rows, ∃ r ∈ h.reports, r.key = a.key ∧
    r.mailId = a.mailId ∧ ∃ e, h.store.envelope? a.mailId = some e ∧
      awareUtc r.observedAt = .ok e.observedAt
  newest : ∀ a ∈ h.store.alertProjection.rows, ∀ e, h.store.envelope? a.mailId = some e →
    ∀ r ∈ h.reports, r.key = a.key → r.UpTo e.observedAt

theorem Store.Sound.envelope_eq (h : s.Sound)
    (henvelopes : s.mailEnvelopes.rows <+: t.mailEnvelopes.rows) (ha : a ∈ s.alertProjection.rows)
    {e : Envelope} (he : t.envelope? a.mailId = some e) : s.envelope? a.mailId = some e := by
  obtain ⟨e', he', -⟩ := h a ha
  rw [← he, Store.envelope?_mono henvelopes he', he']

theorem Heard.Newest.quiet (hnew : h.Newest) (hmove : h.store.AlertMove digest t call)
    (hquiet : call.report? digest h.store = none) : Heard.Newest ⟨t, h.reports⟩ := by
  obtain ⟨henvelopes, horigin, hsuccessor⟩ := hmove.quiet hquiet
  have hfind : ∀ id, t.envelope? id = h.store.envelope? id := by
    intro id
    rw [Store.envelope?, henvelopes]
    rfl
  refine ⟨fun r hr => ?_, fun a' ha' => ?_, fun a' ha' e he r hr hkey => ?_⟩
  · obtain ⟨a, ha, hkey⟩ := hnew.projected r hr
    obtain ⟨a', ha', hkey', -⟩ := hsuccessor a ha
    exact ⟨a', ha', hkey'.trans hkey⟩
  · obtain ⟨a, ha, hkey, hmail⟩ := horigin a' ha'
    obtain ⟨r, hr, hrkey, hrmail, e, he, htext⟩ := hnew.reported a ha
    refine ⟨r, hr, hrkey.trans hkey.symm, hrmail.trans hmail.symm, e, ?_, htext⟩
    rw [hfind, hmail]
    exact he
  · obtain ⟨a, ha, hkey', hmail⟩ := horigin a' ha'
    rw [hfind, hmail] at he
    exact hnew.newest a ha e he r hr (hkey.trans hkey')

theorem Heard.Newest.older (hnew : h.Newest) (hsound : h.store.Sound)
    (henvelopes : h.store.mailEnvelopes.rows <+: t.mailEnvelopes.rows)
    (hobserved : awareUtc r.observedAt = .ok observed)
    (heq : t.alertProjection = h.store.alertProjection)
    (hrow : ∃ a ∈ h.store.alertProjection.rows, a.key = r.key ∧
      ∃ e, t.envelope? a.mailId = some e ∧ observed ≤ e.observedAt) :
    Heard.Newest ⟨t, h.reports ++ [r]⟩ := by
  obtain ⟨a, ha, hkey, e, he, hle⟩ := hrow
  refine ⟨fun r' hr' => ?_, fun a' ha' => ?_, fun a' ha' e' he' r' hr' hkey' => ?_⟩
  · simp only [heq]
    rcases List.mem_append.mp hr' with hold | hself
    · exact hnew.projected r' hold
    · exact ⟨a, ha, hkey.trans (by rw [List.mem_singleton.mp hself])⟩
  · simp only [heq] at ha'
    obtain ⟨r', hr', hrkey, hrmail, e', he', htext⟩ := hnew.reported a' ha'
    exact ⟨r', List.mem_append_left _ hr', hrkey, hrmail, e',
      Store.envelope?_mono henvelopes he', htext⟩
  · simp only [heq] at ha'
    rcases List.mem_append.mp hr' with hold | hself
    · exact hnew.newest a' ha' e' (hsound.envelope_eq henvelopes ha' he') r' hold hkey'
    · obtain rfl := List.mem_singleton.mp hself
      obtain rfl := Store.alert_ext ha ha' (hkey.trans hkey')
      obtain rfl := Option.some.inj (he.symm.trans he')
      exact ⟨observed, hobserved, hle⟩

/-- A report that becomes the projection of its event is after every other. -/
theorem Heard.Newest.newer (hnew : h.Newest) (hsound : h.store.Sound)
    (henvelopes : h.store.mailEnvelopes.rows <+: t.mailEnvelopes.rows)
    (henvelope : ∃ e, t.envelope? r.mailId = some e ∧ e.observedAt = observed)
    (hobserved : awareUtc r.observedAt = .ok observed)
    (hlt : ∀ a ∈ h.store.alertProjection.rows, a.key = r.key →
      ∀ e, t.envelope? a.mailId = some e → e.observedAt < observed) {alert : Alert}
    (hkey : alert.key = r.key) (hmail : alert.mailId = r.mailId)
    (hrows : t.alertProjection.rows = upsertAlert alert h.store.alertProjection.rows) :
    Heard.Newest ⟨t, h.reports ++ [r]⟩ := by
  have hnewRow : alert ∈ t.alertProjection.rows := by
    rw [hrows, mem_upsertAlert]
    exact .inl rfl
  refine ⟨fun r' hr' => ?_, fun a' ha' => ?_, fun a' ha' e' he' r' hr' hkey' => ?_⟩
  · by_cases hsame : r'.key = r.key
    · exact ⟨alert, hnewRow, hkey.trans hsame.symm⟩
    · rcases List.mem_append.mp hr' with hold | hself
      · obtain ⟨a, ha, hakey⟩ := hnew.projected r' hold
        refine ⟨a, ?_, hakey⟩
        rw [hrows, mem_upsertAlert]
        exact .inr ⟨ha, by rwa [hakey, hkey]⟩
      · rw [List.mem_singleton.mp hself] at hsame
        exact absurd rfl hsame
  · simp only [hrows, mem_upsertAlert] at ha'
    rcases ha' with rfl | ⟨hold, -⟩
    · obtain ⟨e, he, rfl⟩ := henvelope
      exact ⟨r, List.mem_append_right _ (List.mem_singleton_self r), hkey.symm, hmail.symm, e,
        hmail ▸ he, hobserved⟩
    · obtain ⟨r', hr', hrkey, hrmail, e', he', htext⟩ := hnew.reported a' hold
      exact ⟨r', List.mem_append_left _ hr', hrkey, hrmail, e',
        Store.envelope?_mono henvelopes he', htext⟩
  · simp only [hrows, mem_upsertAlert] at ha'
    rcases ha' with rfl | ⟨hold, hne⟩
    · obtain ⟨e, he, rfl⟩ := henvelope
      simp only [hmail] at he'
      obtain rfl := Option.some.inj (he.symm.trans he')
      rcases List.mem_append.mp hr' with hold | hself
      · obtain ⟨a, ha, hakey⟩ := hnew.projected r' hold
        obtain ⟨e₀, he₀, -⟩ := hsound a ha
        exact (hnew.newest a ha e₀ he₀ r' hold hakey.symm).mono
          (hlt a ha (hakey.trans (hkey'.trans hkey)) e₀ (Store.envelope?_mono henvelopes he₀)).le
      · rw [List.mem_singleton.mp hself]
        exact ⟨e.observedAt, hobserved, le_rfl⟩
    · rcases List.mem_append.mp hr' with hold' | hself
      · exact hnew.newest a' hold e' (hsound.envelope_eq henvelopes hold he') r' hold' hkey'
      · rw [List.mem_singleton.mp hself, ← hkey] at hkey'
        exact absurd hkey'.symm hne

theorem Heard.Newest.step (hnew : h.Newest) (hsound : h.store.Sound) :
    Heard.Newest
      ⟨call.after digest h.store, h.reports ++ (call.report? digest h.store).toList⟩ := by
  have hmove := AlertCall.moves digest hsound call
  cases hreport : call.report? digest h.store with
  | none =>
      rw [Option.toList_none, List.append_nil]
      exact hnew.quiet hmove hreport
  | some r₀ =>
      cases hmove with
      | updated hquiet _ =>
          rw [hreport] at hquiet
          cases hquiet
      | claimed accepted row hquiet _ _ =>
          rw [hreport] at hquiet
          cases hquiet
      | reported r observed hr hobserved hmail hmove =>
          obtain rfl := Option.some.inj (hreport.symm.trans hr)
          rcases hmove.alert with ⟨heq, hrow⟩ | ⟨hlt, alert, hkey, hmail, -, hrows⟩
          · exact hnew.older hsound hmove.envelopes hobserved heq hrow
          · exact hnew.newer hsound hmove.envelopes hmove.envelope hobserved hlt hkey hmail hrows

/-- What a run makes of a projection: it stays under its envelope, ended when it has ended,
or it is under a later one. -/
def Alert.LaterIn (t : Store) (a a' : Alert) : Prop :=
  (a'.mailId = a.mailId ∧ (a.status.isFinal = true → a'.status = a.status)) ∨
    ∃ e e', t.envelope? a.mailId = some e ∧ t.envelope? a'.mailId = some e' ∧
      e.observedAt < e'.observedAt

/-- **What a run makes of a store.** Envelopes and transitions only grow, and every projection
has a later one. -/
structure Store.Later (s t : Store) : Prop where
  envelopes : s.mailEnvelopes.rows <+: t.mailEnvelopes.rows
  log : GrowsBy .alert s.mailTransitions t.mailTransitions
  rows : ∀ a ∈ s.alertProjection.rows, ∃ a' ∈ t.alertProjection.rows,
    a'.key = a.key ∧ a.LaterIn t a'

theorem Store.Later.refl (s : Store) : s.Later s :=
  ⟨List.prefix_rfl, .refl .alert _, fun a ha => ⟨a, ha, rfl, .inl ⟨rfl, fun _ => rfl⟩⟩⟩

theorem Store.Later.trans {u : Store} (h : s.Later t) (h' : t.Later u) : s.Later u := by
  refine ⟨h.envelopes.trans h'.envelopes, h.log.trans h'.log, fun a ha => ?_⟩
  obtain ⟨a₁, ha₁, hkey, hlater⟩ := h.rows a ha
  obtain ⟨a₂, ha₂, hkey', hlater'⟩ := h'.rows a₁ ha₁
  refine ⟨a₂, ha₂, hkey'.trans hkey, ?_⟩
  rcases hlater with ⟨hmail, hfinal⟩ | ⟨e, e₁, he, he₁, hlt⟩
  · rcases hlater' with ⟨hmail', hfinal'⟩ | ⟨e₁, e₂, he₁, he₂, hlt⟩
    · refine .inl ⟨hmail'.trans hmail, fun hf => ?_⟩
      have hstatus := hfinal hf
      exact (hfinal' (hstatus ▸ hf)).trans hstatus
    · exact .inr ⟨e₁, e₂, hmail ▸ he₁, he₂, hlt⟩
  · have he' := Store.envelope?_mono h'.envelopes he
    have he₁' := Store.envelope?_mono h'.envelopes he₁
    rcases hlater' with ⟨hmail', -⟩ | ⟨e₁', e₂, he₁'', he₂, hlt'⟩
    · exact .inr ⟨e, e₁, he', hmail' ▸ he₁', hlt⟩
    · obtain rfl := Option.some.inj (he₁'.symm.trans he₁'')
      exact .inr ⟨e, e₂, he', he₂, hlt.trans hlt'⟩

theorem Alert.Steps.laterIn (h : a.Steps a') (t : Store) : a.LaterIn t a' :=
  .inl ⟨h.mailId, fun hfinal => by rw [h.final hfinal]⟩

theorem Store.Claimed.pending (h : s.Claimed digest t accepted row) : row.status = .pending := by
  obtain ⟨s₁, now, rows, -, -, hpending, -⟩ := h.claims
  exact hpending

theorem Store.AlertMove.later (hsound : s.Sound) (h : s.AlertMove digest t call) : s.Later t := by
  cases h with
  | updated _ h =>
      refine ⟨h.envelopes ▸ List.prefix_rfl, h.log, fun a ha => ?_⟩
      obtain ⟨a', ha', hsteps⟩ := h.successor ha
      exact ⟨a', ha', hsteps.key, hsteps.laterIn t⟩
  | claimed accepted row _ _ h =>
      refine ⟨h.envelopes ▸ List.prefix_rfl, h.log, fun a ha => ?_⟩
      obtain ⟨a', ha', hsteps | ⟨hsteps, rfl⟩⟩ := h.successor ha
      · exact ⟨a', ha', hsteps.key, hsteps.laterIn t⟩
      · refine ⟨_, ha', hsteps.key, .inl ⟨hsteps.mailId, fun hfinal => ?_⟩⟩
        have hpending := h.pending
        rw [hsteps.final hfinal] at hpending
        rw [hpending] at hfinal
        cases hfinal
  | reported r observed _ _ _ h =>
      refine ⟨h.envelopes, h.log, fun a ha => ?_⟩
      rcases h.alert with ⟨heq, -⟩ | ⟨hlt, alert, hkey, hmail, -, hrows⟩
      · exact ⟨a, heq ▸ ha, rfl, .inl ⟨rfl, fun _ => rfl⟩⟩
      · by_cases hsame : a.key = alert.key
        · obtain ⟨e, he, -⟩ := hsound a ha
          obtain ⟨e', he', rfl⟩ := h.envelope
          have hmono := Store.envelope?_mono h.envelopes he
          refine ⟨alert, ?_, hsame.symm, .inr ⟨e, e', hmono, hmail ▸ he', ?_⟩⟩
          · rw [hrows, mem_upsertAlert]
            exact .inl rfl
          · exact hlt a ha (hsame.trans hkey) e hmono
        · refine ⟨a, ?_, rfl, .inl ⟨rfl, fun _ => rfl⟩⟩
          rw [hrows, mem_upsertAlert]
          exact .inr ⟨ha, hsame⟩

/-- **A run leads to a later store.** -/
theorem later_of_run {h' : Heard} (hsound : h.store.Sound)
    (hrun : (alertRuns digest).RunVia G h h') : h.store.Later h'.store := by
  refine Transition.System.RunVia.relates (I := fun h => h.store.Sound)
    (R := fun h h' => h.store.Later h'.store) ?_ ?_ ?_ ?_ hrun hsound
  · exact fun h => .refl h.store
  · exact fun _ _ _ hst htu => hst.trans htu
  · rintro h call h' hsound - rfl
    exact (AlertCall.moves digest hsound call).sound hsound
  · rintro h call h' hsound - rfl
    exact (AlertCall.moves digest hsound call).later hsound

theorem Store.Later.final (h : s.Later t) (ha : a ∈ s.alertProjection.rows)
    (ha' : a' ∈ t.alertProjection.rows) (hkey : a'.key = a.key) (hmail : a'.mailId = a.mailId)
    (hfinal : a.status.isFinal = true) : a'.status = a.status := by
  obtain ⟨a₁, ha₁, hkey₁, hlater⟩ := h.rows a ha
  obtain rfl := Store.alert_ext ha' ha₁ (hkey.trans hkey₁.symm)
  rcases hlater with ⟨-, hstays⟩ | ⟨e, e', he, he', hlt⟩
  · exact hstays hfinal
  · rw [hmail, he] at he'
    rw [Option.some.inj he'] at hlt
    exact absurd hlt (lt_irrefl _)

/-! ### Live claims -/

/-- Whether a turn holds the claim of an envelope. -/
def Store.Holds (s : Store) (mail : String) (turn : AcceptedTurn) : Prop :=
  ∃ a ∈ s.alertProjection.rows, a.mailId = mail ∧ a.status = .selected turn

/-- No other transition of the log has the digest of a claim. -/
def Apart (digest : Detail → String) (h : Heard) (call : AlertCall) : Prop :=
  ∀ turn, call.turn? = some turn → ∀ x ∈ (call.after digest h.store).mailTransitions,
    x.action = .selected → digest x.detail = digest (.turn turn) → x.detail = .turn turn

theorem Store.hasClaimed_mono (hlog : GrowsBy .alert s.mailTransitions t.mailTransitions)
    (h : s.hasClaimed mail turn = true) : t.hasClaimed mail turn = true := by
  rw [Store.hasClaimed, List.any_eq_true] at h ⊢
  obtain ⟨x, hx, hmatch⟩ := h
  exact ⟨x, hlog.mem hx, hmatch⟩

theorem Store.Claimed.hasClaimed (h : s.Claimed digest t accepted row)
    (hkind : ∀ x ∈ t.mailTransitions, x.kind = .alert)
    (hapart : ∀ x ∈ t.mailTransitions, x.action = .selected →
      digest x.detail = digest (.turn accepted) → x.detail = .turn accepted) :
    t.hasClaimed row.mailId accepted = true := by
  obtain ⟨s₁, now, rows, -, -, -, -, rfl⟩ := h.claims
  have hlog : (s₁.claimed digest now accepted row rows).mailTransitions
      = EventMail.appendTransition digest now row.mailId .alert .selected (.turn accepted)
          s₁.mailTransitions := rfl
  rw [hlog] at hkind hapart
  rw [Store.hasClaimed, hlog, List.any_eq_true]
  by_cases hlogged : logged digest s₁.mailTransitions row.mailId .selected (.turn accepted) = true
  · have hkept : EventMail.appendTransition digest now row.mailId .alert .selected (.turn accepted)
        s₁.mailTransitions = s₁.mailTransitions := by
      rw [EventMail.appendTransition, if_pos hlogged]
    rw [hkept] at hkind hapart ⊢
    rw [logged, List.any_eq_true] at hlogged
    obtain ⟨x, hx, hmatch⟩ := hlogged
    simp only [Bool.and_eq_true, decide_eq_true_eq] at hmatch
    obtain ⟨⟨hmail, haction⟩, hdigest⟩ := hmatch
    refine ⟨x, hx, ?_⟩
    simp [hmail, haction, hkind x hx, hapart x hx haction hdigest, Detail.acceptedTurn?]
  · rw [EventMail.appendTransition, if_neg hlogged]
    exact ⟨_, List.mem_append_right _ (List.mem_singleton_self _), by
      simp [Detail.acceptedTurn?]⟩

/-- The log has alerts only, and every live claim. -/
def Store.ClaimsLogged (s : Store) : Prop :=
  (∀ x ∈ s.mailTransitions, x.kind = .alert) ∧
    ∀ a ∈ s.alertProjection.rows, ∀ turn, a.status = .selected turn →
      s.hasClaimed a.mailId turn = true

theorem GrowsBy.kind {kind : Kind} {log log' : List MailTransition} (h : GrowsBy kind log log')
    (hlog : ∀ x ∈ log, x.kind = kind) : ∀ x ∈ log', x.kind = kind := by
  obtain ⟨more, rfl, hmore⟩ := h
  intro x hx
  rcases List.mem_append.mp hx with hx | hx
  · exact hlog x hx
  · exact hmore x hx

theorem Store.ClaimsLogged.step (hclaims : h.store.ClaimsLogged) (hsound : h.store.Sound)
    (hapart : EventMail.Apart digest h call) : (call.after digest h.store).ClaimsLogged := by
  have hmove := AlertCall.moves digest hsound call
  have hlog := (hmove.later hsound).log
  have hkind := hlog.kind hclaims.1
  refine ⟨hkind, fun a' ha' turn hturn => ?_⟩
  cases hmove with
  | updated _ h =>
      obtain ⟨a, ha, hsteps⟩ := h.origin ha'
      obtain rfl := hsteps.selected turn hturn
      exact Store.hasClaimed_mono hlog (hclaims.2 _ ha turn hturn)
  | claimed accepted row _ hcall h =>
      obtain ⟨a, ha, hsteps | ⟨hsteps, rfl⟩⟩ := h.origin ha'
      · obtain rfl := hsteps.selected turn hturn
        exact Store.hasClaimed_mono hlog (hclaims.2 _ ha turn hturn)
      · obtain rfl : accepted = turn := AlertStatus.selected.inj hturn
        exact h.hasClaimed hkind (hapart accepted hcall)
  | reported r observed _ _ _ h =>
      rcases h.origin ha' with hold | ⟨-, -, hpending⟩
      · exact Store.hasClaimed_mono hlog (hclaims.2 _ hold turn hturn)
      · rw [hpending] at hturn
        cases hturn

/-- Whether a change or an expiry that succeeds ends a claim. -/
def AlertCall.Ends (digest : Detail → String) (s : Store) (call : AlertCall) (mail : String)
    (turn : AcceptedTurn) : Prop :=
  s.Holds mail turn ∧ ¬(call.after digest s).Holds mail turn ∧
    ∃ t, call.exec digest s = .ok (.changed true, t)

theorem Store.AlertMove.holds (h : s.AlertMove digest t call) (hholds : t.Holds mail turn) :
    s.Holds mail turn ∨ call.turn? = some turn := by
  obtain ⟨a', ha', hmail, hturn⟩ := hholds
  cases h with
  | updated _ h =>
      obtain ⟨a, ha, hsteps⟩ := h.origin ha'
      obtain rfl := hsteps.selected turn hturn
      exact .inl ⟨_, ha, hmail, hturn⟩
  | claimed accepted row _ hcall h =>
      obtain ⟨a, ha, hsteps | ⟨-, rfl⟩⟩ := h.origin ha'
      · obtain rfl := hsteps.selected turn hturn
        exact .inl ⟨_, ha, hmail, hturn⟩
      · obtain rfl : accepted = turn := AlertStatus.selected.inj hturn
        exact .inr hcall
  | reported r observed _ _ _ h =>
      rcases h.origin ha' with hold | ⟨-, -, hpending⟩
      · exact .inl ⟨a', hold, hmail, hturn⟩
      · rw [hpending] at hturn
        cases hturn

end Kirakira.EventMail
