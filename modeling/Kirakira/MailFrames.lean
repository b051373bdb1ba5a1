import Kirakira.ContentRebuild

/-!
# What the Calls of the Event Mail Leave Alone

The tables of the event mail are shared, but a call on the alerts or the context leaves the
content alone: it appends envelopes of its own kind and logs transitions that are no facts.
So what holds of the content holds over the runs of all calls, a rebuild included.

## Main results

* `Store.Aside` — the content and its facts are untouched.
* `AlertCall.aside`, `Store.reportContext_aside` — the calls that leave the content alone.
* `MailCall.recorded` — **every call keeps the content and its facts**.
-/

namespace Kirakira.EventMail

open Exceptions

variable {digest : Detail → String} {lib : Stdlib} {now : String} {s t : Store}

/-! ### Calls beside the content -/

/-- The content and its facts are untouched. -/
structure Store.Aside (s t : Store) : Prop where
  tables : s.SameTables t
  submissions : t.submissions = s.submissions
  envelopes : ∃ new, t.mailEnvelopes.rows = s.mailEnvelopes.rows ++ new ∧
    ∀ e ∈ new, e.kind ≠ .content ∧ e.mailId = mailId e.kind e.sourceId e.itemId e.revision
  log : ∃ more, t.mailTransitions = s.mailTransitions ++ more ∧
    ∀ x ∈ more, x.action ≠ .projected ∧ x.detail.isFact = false

theorem Store.Aside.refl (s : Store) : s.Aside s :=
  ⟨⟨.refl s, rfl⟩, rfl, ⟨[], (List.append_nil _).symm, by simp⟩,
    ⟨[], (List.append_nil _).symm, by simp⟩⟩

theorem Store.Aside.trans {u : Store} (h : s.Aside t) (h' : t.Aside u) : s.Aside u := by
  obtain ⟨new, henvelopes, hnew⟩ := h.envelopes
  obtain ⟨new', henvelopes', hnew'⟩ := h'.envelopes
  obtain ⟨more, hlog, hmore⟩ := h.log
  obtain ⟨more', hlog', hmore'⟩ := h'.log
  refine ⟨⟨h.tables.trans h'.tables.toSameContent, h'.tables.state.trans h.tables.state⟩,
    h'.submissions.trans h.submissions,
    ⟨new ++ new', by rw [henvelopes', henvelopes, List.append_assoc], fun e he => ?_⟩,
    ⟨more ++ more', by rw [hlog', hlog, List.append_assoc], fun x hx => ?_⟩⟩
  · exact (List.mem_append.mp he).elim (hnew e) (hnew' e)
  · exact (List.mem_append.mp hx).elim (hmore x) (hmore' x)

theorem Store.Aside.sound (h : s.Aside t) (hs : s.ContentSound) : t.ContentSound :=
  (Store.ContentMove.same h.tables.toSameContent).sound hs

theorem Store.Aside.recorded (h : s.Aside t) (hs : s.Recorded) : t.Recorded := by
  obtain ⟨new, henvelopes, hnew⟩ := h.envelopes
  refine hs.frame h.tables ⟨?_, ?_⟩ h.log
  · intro i hi
    rw [h.tables.items] at hi
    obtain ⟨e, he, hmail⟩ := hs.mailed.envelope i hi
    exact ⟨e, by rw [henvelopes]; exact List.mem_append_left _ he, hmail⟩
  · intro e he hkind
    rw [h.tables.items]
    rw [henvelopes] at he
    rcases List.mem_append.mp he with he | he
    · exact hs.mailed.item e he hkind
    · exact absurd hkind (hnew e he).1

theorem Store.aside_of_eq (htables : s.SameTables t) (hsubmissions : t.submissions = s.submissions)
    (henvelopes : t.mailEnvelopes = s.mailEnvelopes) (hlog : t.mailTransitions = s.mailTransitions) :
    s.Aside t :=
  ⟨htables, hsubmissions, ⟨[], by rw [henvelopes, List.append_nil], by simp⟩,
    ⟨[], by rw [hlog, List.append_nil], by simp⟩⟩

theorem Store.writeAlerts_aside {rows : List Alert} (h : s.writeAlerts rows = .ok t) :
    s.Aside t := by
  obtain ⟨p, -, rfl⟩ := Store.writeAlerts_eq_ok.mp h
  exact aside_of_eq ⟨⟨rfl, rfl, rfl⟩, rfl⟩ rfl rfl rfl

theorem Store.writeContexts_aside {rows : List ContextMail} (h : s.writeContexts rows = .ok t) :
    s.Aside t := by
  obtain ⟨p, -, h⟩ := bind_eq_ok.mp h
  cases h
  exact aside_of_eq ⟨⟨rfl, rfl, rfl⟩, rfl⟩ rfl rfl rfl

theorem Store.aside_appendTransition (digest : Detail → String) (now id : String) (kind : Kind)
    {action : Action} {detail : Detail} (haction : action ≠ .projected)
    (hdetail : detail.isFact = false) (s : Store) :
    s.Aside (s.appendTransition digest now id kind action detail) := by
  refine ⟨⟨⟨rfl, rfl, rfl⟩, rfl⟩, rfl, ⟨[], (List.append_nil _).symm, by simp⟩, ?_⟩
  rw [Store.appendTransition, EventMail.appendTransition]
  split_ifs
  · exact ⟨[], (List.append_nil _).symm, by simp⟩
  · refine ⟨_, rfl, fun x hx => ?_⟩
    obtain rfl := List.mem_singleton.mp hx
    exact ⟨haction, hdetail⟩

theorem Store.appendEnvelope_aside {e : Envelope} {inserted : Bool} (hkind : e.kind ≠ .content)
    (hid : e.mailId = mailId e.kind e.sourceId e.itemId e.revision)
    (h : s.appendEnvelope e = .ok (inserted, t)) : s.Aside t := by
  rcases Store.appendEnvelope_cases h with ⟨-, rfl, -⟩ | ⟨-, -, envelopes, hrows, rfl⟩
  · exact .refl _
  · refine ⟨⟨⟨rfl, rfl, rfl⟩, rfl⟩, rfl, ⟨[e], hrows, fun e' he' => ?_⟩,
      ⟨[], (List.append_nil _).symm, by simp⟩⟩
    rw [List.mem_singleton.mp he']
    exact ⟨hkind, hid⟩

/-! ### Alerts -/

theorem Store.received_aside (digest : Detail → String) (now mail : String) (inserted : Bool)
    (s : Store) : s.Aside (s.received digest now mail inserted) := by
  rw [Store.received]
  split_ifs
  · exact aside_appendTransition _ _ _ _ (by decide) rfl s
  · exact .refl s

variable {eventId sourceId : Json}

theorem Store.reportAlert_aside {payload : Json} {observedAt : Datetime}
    {expiresAt : Option Datetime} {r : AlertReport}
    (h : s.reportAlert digest now sourceId eventId payload observedAt expiresAt = .ok (r, t)) :
    s.Aside t := by
  rw [Store.reportAlert] at h
  obtain ⟨source, -, h⟩ := bind_eq_ok.mp h
  obtain ⟨event, -, h⟩ := bind_eq_ok.mp h
  obtain ⟨observed, -, h⟩ := bind_eq_ok.mp h
  obtain ⟨expiry, -, h⟩ := bind_eq_ok.mp h
  split_ifs at h with hexpiry
  · cases h
  · obtain ⟨encoded, -, h⟩ := bind_eq_ok.mp h
    obtain ⟨⟨inserted, s₁⟩, happend, h⟩ := bind_eq_ok.mp h
    obtain ⟨⟨projected, accepted, s₂⟩, hpublish, h⟩ := bind_eq_ok.mp h
    cases h
    refine (appendEnvelope_aside (fun hkind => by cases hkind) rfl happend).trans ?_
    rw [Store.publishAlert] at hpublish
    split at hpublish
    · next mail observedAt _ =>
        dsimp only at hpublish
        have hreceived := s₁.received_aside digest now
          (mailId .alert source event observed) inserted
        split_ifs at hpublish
        · cases hpublish
          exact .refl _
        · cases hpublish
          exact hreceived.trans (aside_appendTransition _ _ _ _ (by decide) rfl _)
        · cases hpublish
          exact hreceived
        · obtain ⟨s₃, hwrite, hpublish⟩ := bind_eq_ok.mp hpublish
          cases hpublish
          exact ((aside_appendTransition _ _ _ _ (by decide) rfl _).trans
            (writeAlerts_aside hwrite)).trans (s₃.received_aside ..)
    · obtain ⟨s₃, hwrite, hpublish⟩ := bind_eq_ok.mp hpublish
      cases hpublish
      exact (writeAlerts_aside hwrite).trans (s₃.received_aside ..)

theorem Store.foldl_logAlert_aside (digest : Detail → String) (now : String)
    (overdue : List Alert) (s : Store) :
    s.Aside (overdue.foldl (fun s a => s.logAlert digest now a.mailId .expired .empty) s) := by
  induction overdue generalizing s with
  | nil => exact .refl _
  | cons a overdue ih => exact (aside_appendTransition _ _ _ _ (by decide) rfl s).trans (ih _)

theorem Store.expireAlerts_aside {instant : String}
    (h : s.expireAlerts digest now instant = .ok t) : s.Aside t :=
  (foldl_logAlert_aside digest now _ s).trans (writeAlerts_aside h)

theorem Store.expireAlert_aside {instant : Datetime} {answer : Bool}
    (h : s.expireAlert digest now sourceId eventId instant = .ok (answer, t)) : s.Aside t := by
  rw [Store.expireAlert] at h
  obtain ⟨source, -, h⟩ := bind_eq_ok.mp h
  obtain ⟨event, -, h⟩ := bind_eq_ok.mp h
  obtain ⟨text, -, h⟩ := bind_eq_ok.mp h
  split at h
  · cases h
    exact .refl _
  · split_ifs at h
    · cases h
      exact .refl _
    · obtain ⟨s₁, hwrite, h⟩ := bind_eq_ok.mp h
      cases h
      exact (writeAlerts_aside hwrite).trans (aside_appendTransition _ _ _ _ (by decide) rfl _)

theorem Store.selectAlert_aside {acceptedTurn : Json} {instant : Datetime}
    {itemRef : Option Json} {answer : Option AlertView}
    (h : s.selectAlert digest now acceptedTurn instant itemRef = .ok (answer, t)) : s.Aside t := by
  rw [Store.selectAlert] at h
  obtain ⟨accepted, -, h⟩ := bind_eq_ok.mp h
  obtain ⟨text, -, h⟩ := bind_eq_ok.mp h
  obtain ⟨s₁, hexpire, h⟩ := bind_eq_ok.mp h
  obtain ⟨found, -, h⟩ := bind_eq_ok.mp h
  refine (expireAlerts_aside hexpire).trans ?_
  cases found with
  | nothing =>
      cases h
      exact .refl _
  | live row =>
      obtain ⟨view, -, h⟩ := bind_eq_ok.mp h
      cases h
      exact .refl _
  | due row =>
      obtain ⟨s₂, hwrite, h⟩ := bind_eq_ok.mp h
      split_ifs at h
      · cases h
        exact writeAlerts_aside hwrite
      · obtain ⟨view, -, h⟩ := bind_eq_ok.mp h
        cases h
        exact (writeAlerts_aside hwrite).trans (aside_appendTransition _ _ _ _ (by decide) rfl _)

theorem Store.transitionAlert_aside {key : String × String} {status : AlertStatus}
    {action : Action} {notBefore : Option String} {expected : Option (String × AcceptedTurn)}
    {expiresBefore : Option String} {answer : Bool} (haction : action ≠ .projected)
    (h : s.transitionAlert digest now key status action notBefore expected expiresBefore
      = .ok (answer, t)) : s.Aside t := by
  rcases Store.transitionAlert_eq_ok h with ⟨-, rfl⟩ | ⟨-, a, turn, -, -, -, rows, hrows, rfl⟩
  · exact .refl _
  · have hdetail : (deferral notBefore).isFact = false := by
      cases notBefore <;> rfl
    exact (writeAlerts_aside (Store.writeAlerts_eq_ok.mpr ⟨rows, hrows, rfl⟩)).trans
      (aside_appendTransition _ _ _ _ haction hdetail _)

/-- **A call on the alerts leaves the content alone.** -/
theorem AlertCall.aside (digest : Detail → String) (s : Store) (call : AlertCall) :
    s.Aside (call.after digest s) := by
  rw [AlertCall.after]
  split
  · next answer t hexec =>
      cases call with
      | report now sourceId eventId payload observedAt expiresAt =>
          obtain ⟨_, h, heq⟩ := map_eq_ok.mp hexec
          cases heq
          exact Store.reportAlert_aside h
      | deadline now instant =>
          obtain ⟨_, h, heq⟩ := map_eq_ok.mp hexec
          cases heq
          obtain ⟨text, -, h⟩ := bind_eq_ok.mp h
          obtain ⟨s₁, hexpire, h⟩ := bind_eq_ok.mp h
          cases h
          exact Store.expireAlerts_aside hexpire
      | select now acceptedTurn instant itemRef =>
          obtain ⟨_, h, heq⟩ := map_eq_ok.mp hexec
          cases heq
          exact Store.selectAlert_aside h
      | expire now sourceId eventId instant =>
          obtain ⟨_, h, heq⟩ := map_eq_ok.mp hexec
          cases heq
          exact Store.expireAlert_aside h
      | change now itemRef acceptedTurn action instant notBefore =>
          obtain ⟨_, h, heq⟩ := map_eq_ok.mp hexec
          cases heq
          rw [Store.changeAlert] at h
          obtain ⟨⟨status, logged⟩, hchange, h⟩ := bind_eq_ok.mp h
          obtain ⟨_, -, h⟩ := bind_eq_ok.mp h
          obtain ⟨source, -, h⟩ := bind_eq_ok.mp h
          obtain ⟨event, -, h⟩ := bind_eq_ok.mp h
          obtain ⟨mail, -, h⟩ := bind_eq_ok.mp h
          obtain ⟨accepted, -, h⟩ := bind_eq_ok.mp h
          obtain ⟨text, -, h⟩ := bind_eq_ok.mp h
          obtain ⟨later, -, h⟩ := bind_eq_ok.mp h
          refine Store.transitionAlert_aside ?_ h
          have hof := changeArguments_eq_ok hchange
          rw [changeOf] at hof
          split_ifs at hof <;> cases hof <;> decide
      | defer now sourceId eventId notBefore =>
          obtain ⟨_, h, heq⟩ := map_eq_ok.mp hexec
          cases heq
          obtain ⟨text, -, h⟩ := bind_eq_ok.mp h
          obtain ⟨source, -, h⟩ := bind_eq_ok.mp h
          obtain ⟨event, -, h⟩ := bind_eq_ok.mp h
          obtain ⟨⟨answer, t'⟩, htransition, h⟩ := bind_eq_ok.mp h
          cases h
          exact Store.transitionAlert_aside (by decide) htransition
      | close now sourceId eventId status =>
          obtain ⟨_, h, heq⟩ := map_eq_ok.mp hexec
          cases heq
          obtain ⟨⟨status', action⟩, hstatus, h⟩ := bind_eq_ok.mp h
          obtain ⟨source, -, h⟩ := bind_eq_ok.mp h
          obtain ⟨event, -, h⟩ := bind_eq_ok.mp h
          obtain ⟨⟨answer, t'⟩, htransition, h⟩ := bind_eq_ok.mp h
          cases h
          refine Store.transitionAlert_aside ?_ htransition
          rw [closingOf] at hstatus
          split_ifs at hstatus <;> cases hstatus <;> decide
  · exact .refl s

/-! ### Context -/

theorem Store.receivedContext_aside (digest : Detail → String) (now mail : String)
    (inserted : Bool) (s : Store) : s.Aside (s.receivedContext digest now mail inserted) := by
  rw [Store.receivedContext]
  split_ifs
  · exact aside_appendTransition _ _ _ _ (by decide) rfl s
  · exact .refl s

theorem Store.reportContext_aside {payload : Json} {observedAt : Datetime}
    {expiresAt : Option Datetime} {r : AlertReport}
    (h : s.reportContext digest now sourceId eventId payload observedAt expiresAt = .ok (r, t)) :
    s.Aside t := by
  rw [Store.reportContext] at h
  obtain ⟨source, -, h⟩ := bind_eq_ok.mp h
  obtain ⟨event, -, h⟩ := bind_eq_ok.mp h
  obtain ⟨observed, -, h⟩ := bind_eq_ok.mp h
  obtain ⟨expiry, -, h⟩ := bind_eq_ok.mp h
  split_ifs at h with hexpiry
  · cases h
  · obtain ⟨encoded, -, h⟩ := bind_eq_ok.mp h
    obtain ⟨⟨inserted, s₁⟩, happend, h⟩ := bind_eq_ok.mp h
    obtain ⟨⟨projected, accepted, s₂⟩, hpublish, h⟩ := bind_eq_ok.mp h
    cases h
    refine (appendEnvelope_aside (fun hkind => by cases hkind) rfl happend).trans ?_
    rw [Store.publishContext] at hpublish
    split at hpublish
    · next mail observedAt _ =>
        dsimp only at hpublish
        have hreceived := s₁.receivedContext_aside digest now
          (mailId .context source event observed) inserted
        split_ifs at hpublish
        · cases hpublish
          exact .refl _
        · cases hpublish
          exact hreceived.trans (aside_appendTransition _ _ _ _ (by decide) rfl _)
        · cases hpublish
          exact hreceived
        · obtain ⟨s₃, hwrite, hpublish⟩ := bind_eq_ok.mp hpublish
          cases hpublish
          exact ((aside_appendTransition _ _ _ _ (by decide) rfl _).trans
            (writeContexts_aside hwrite)).trans (s₃.receivedContext_aside ..)
    · obtain ⟨s₃, hwrite, hpublish⟩ := bind_eq_ok.mp hpublish
      cases hpublish
      exact (writeContexts_aside hwrite).trans (s₃.receivedContext_aside ..)

/-! ### Runs of all calls -/

/-- A call that may change the tables. -/
inductive MailCall where
  | alert (call : AlertCall)
  | context (now : String) (sourceId eventId payload : Json) (observedAt : Datetime)
      (expiresAt : Option Datetime)
  | content (call : ContentCall)
  | rebuild

/-- The store after a call: a call that raises is rolled back. -/
def MailCall.after (lib : Stdlib) (s : Store) : MailCall → Store
  | .alert call => call.after lib.digest s
  | .context now sourceId eventId payload observedAt expiresAt =>
      match s.reportContext lib.digest now sourceId eventId payload observedAt expiresAt with
      | .ok (_, t) => t
      | .error _ => s
  | .content call => call.after lib s
  | .rebuild =>
      match s.rebuildMailProjections with
      | .ok t => t
      | .error _ => s

/-- A content call draws hexadecimal digits, and no digest of a fact it logs is that of another
fact in the log. -/
def MailCall.Apart (lib : Stdlib) (s : Store) : MailCall → Prop
  | .content call => call.Drawn ∧ s.Apart lib.digest (call.after lib s)
  | _ => True

theorem Store.rebuildMailProjections_content (hs : s.Recorded) (hsound : s.ContentSound)
    (h : s.rebuildMailProjections = .ok t) :
    ∃ u, s.SameRows u ∧ u.Aside t := by
  rw [Store.rebuildMailProjections] at h
  obtain ⟨u, hcontent, h⟩ := bind_eq_ok.mp h
  obtain ⟨alerts, -, h⟩ := bind_eq_ok.mp h
  obtain ⟨alertProjection, -, h⟩ := bind_eq_ok.mp h
  obtain ⟨contextProjection, -, h⟩ := bind_eq_ok.mp h
  cases h
  obtain ⟨u', hu', hsame⟩ := rebuildContent_spec hs hsound
  obtain rfl := Except.ok.inj (hu'.symm.trans hcontent)
  exact ⟨u', hsame, Store.aside_of_eq ⟨⟨rfl, rfl, rfl⟩, rfl⟩ rfl rfl rfl⟩

/-- **Every call keeps the content and its facts**, where no digests collide. -/
theorem MailCall.recorded (call : MailCall) (hapart : call.Apart lib s) (hs : s.Recorded)
    (hsound : s.ContentSound) :
    (call.after lib s).Recorded ∧ (call.after lib s).ContentSound := by
  cases call with
  | alert call => exact ⟨(call.aside _ s).recorded hs, (call.aside _ s).sound hsound⟩
  | context now sourceId eventId payload observedAt expiresAt =>
      rw [MailCall.after]
      split
      · next hcall => exact ⟨(Store.reportContext_aside hcall).recorded hs,
          (Store.reportContext_aside hcall).sound hsound⟩
      · exact ⟨hs, hsound⟩
  | content call =>
      obtain ⟨label, hmove, -⟩ := call.moves lib s
      exact ⟨call.recorded hapart.1 hs hsound hapart.2, hmove.sound hsound⟩
  | rebuild =>
      rw [MailCall.after]
      split
      · next hcall =>
          obtain ⟨u, hsame, haside⟩ := Store.rebuildMailProjections_content hs hsound hcall
          exact ⟨haside.recorded (hsame.recorded hs), haside.sound (hsame.sound hsound)⟩
      · exact ⟨hs, hsound⟩

end Kirakira.EventMail
