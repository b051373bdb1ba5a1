import Kirakira.DriftStore
import Kirakira.Lib.JsonReader
import Kirakira.TimeOrder

/-!
# Replays of a Drift Proposal

`DriftStore.propose`, called again for a revision that it has entered. It compares the payload,
`due_at` and `next_due` of the call with the columns of the row, and a deferral writes `next_due`
over `due_at`.

## Main results

* `after_row` — what a call makes of the columns that a replay is compared with.
* `row_of_run` — after any calls, `due_at` is the first one or `next_due`.
* `propose_replays` — **a replay is recognised** exactly in the runs that move the proposal to
  no other time.
-/

namespace Kirakira.Drift

open Exceptions

/-! ### Equal arguments -/

/-- What `==` compares of two times: naive ones differ from aware ones. -/
def moment (d : Datetime) : ℤ × Bool :=
  (d.utc, d.offset.isSome)

/-- Two payloads with the same text. -/
def SamePayload (payload payload' : Json) : Prop :=
  payload.sortKeys.dumps = payload'.sortKeys.dumps

theorem awareUtc_isSome {d : Datetime} {x : String} (h : awareUtc d = .ok x) :
    d.offset.isSome = true := by
  rw [awareUtc, Kirakira.awareUtc] at h
  split at h
  · cases h
  · next offset hoffset =>
      rw [hoffset]
      rfl

theorem moment_eq {d d' : Datetime} {x : String} (h : awareUtc d = .ok x)
    (h' : awareUtc d' = .ok x) : moment d = moment d' := by
  have hutc : d.utc = d'.utc :=
    le_antisymm ((awareUtc_le h h').mp le_rfl) ((awareUtc_le h' h).mp le_rfl)
  rw [moment, moment, hutc, awareUtc_isSome h, awareUtc_isSome h']

theorem map_moment_eq {d d' : Option Datetime} {x : Option String} (h : d.mapM awareUtc = .ok x)
    (h' : d'.mapM awareUtc = .ok x) : d.map moment = d'.map moment := by
  have hsome : ∀ {d : Datetime} {x : Option String}, (some d).mapM awareUtc = .ok x →
      ∃ text, awareUtc d = .ok text ∧ x = some text := by
    intro d x h
    rw [Option.mapM_some] at h
    obtain ⟨text, htext, heq⟩ := map_eq_ok.mp h
    exact ⟨text, htext, heq.symm⟩
  cases d with
  | none =>
      obtain rfl := Except.ok.inj h
      cases d' with
      | none => rfl
      | some d' =>
          obtain ⟨text, -, hx⟩ := hsome h'
          cases hx
  | some d =>
      obtain ⟨text, htext, rfl⟩ := hsome h
      cases d' with
      | none => cases h'
      | some d' =>
          obtain ⟨text', htext', heq⟩ := hsome h'
          obtain rfl := Option.some.inj heq
          exact congrArg some (moment_eq htext htext')

/-! ### Deferrals -/

/-- A call that defers a row: the transition of its token, where it has a time to go to. -/
def Call.Defers (call : Call) (r : Proposal) : Prop :=
  ∃ now token selection, call = .transition now token "defer" ∧
    identity "selection_token" (some token) = .ok selection ∧
    r.selectionToken = some selection ∧ r.status = .selected ∧ r.nextDue ≠ none

/-- A call that moves the proposal of a key to another time. -/
def Moves (s : Store) (call : Call) (key : String × String) : Prop :=
  ∃ r ∈ s.rows, r.key = key ∧ call.Defers r ∧ r.nextDue ≠ some r.dueAt

/-- No call of a run moves the proposal of a key to another time. -/
def Unmoved (sha256 : String → String) (key : String × String) : Store → List Call → Prop
  | _, [] => True
  | s, call :: calls => ¬Moves s call key ∧ Unmoved sha256 key (call.after sha256 s) calls

/-- The rows of a store keep their times. -/
def Store.KeepsDue (s t : Store) : Prop :=
  ∀ r ∈ s.rows, ∀ r' ∈ t.rows, r'.key = r.key → r'.dueAt = r.dueAt

theorem Store.KeepsDue.refl (s : Store) : s.KeepsDue s := by
  intro r hr r' hr' hkey
  rw [s.constraints.key.eq_of_key hr' hr (congrArg some hkey) rfl]

variable {r : Proposal} {s : Store}

theorem write_row {t : Store} {p : Proposal → Bool} {f : Proposal → Proposal}
    (h : Store.write (Table.update p f s.rows) = .ok t) (hf : ∀ r, (f r).key = r.key)
    {r' : Proposal} (hr : r ∈ s.rows) (hr' : r' ∈ t.rows) (hkey : r'.key = r.key) :
    r' = if p r then f r else r := by
  rw [write_eq_ok h] at hr'
  obtain ⟨old, hold, rfl⟩ := Table.mem_update.mp hr'
  have hold_key : old.key = r.key := by
    rw [← hkey]
    split
    · exact (hf old).symm
    · rfl
  rw [s.constraints.key.eq_of_key hold hr (congrArg some hold_key) rfl]

theorem Store.KeepsDue.of_write {t : Store} {p : Proposal → Bool} {f : Proposal → Proposal}
    (h : Store.write (Table.update p f s.rows) = .ok t)
    (hf : ∀ r, (f r).key = r.key ∧ (f r).dueAt = r.dueAt) : s.KeepsDue t := by
  intro r hr r' hr' hkey
  rw [write_row h (fun r => (hf r).1) hr hr' hkey]
  split
  · exact (hf r).2
  · rfl

theorem Store.KeepsDue.of_append {t : Store} {new : Proposal} (ht : t.rows = s.rows ++ [new]) :
    s.KeepsDue t := by
  intro r hr r' hr' hkey
  have hmem : r ∈ t.rows := by
    rw [ht]
    exact List.mem_append_left _ hr
  rw [t.constraints.key.eq_of_key hr' hmem (congrArg some hkey) rfl]

section Calls

variable {s t : Store} {now : String}

theorem propose_rows {proposalId revision payload : Json} {dueAt : Datetime}
    {nextDue : Option Datetime} {a : Proposed}
    (h : s.propose now proposalId revision payload dueAt nextDue = .ok (a, t)) :
    ∃ proposal rev due retry, identity "proposal_id" (some proposalId) = .ok proposal ∧
      identity "revision" (some revision) = .ok rev ∧ awareUtc dueAt = .ok due ∧
      nextDue.mapM awareUtc = .ok retry ∧ a.ref = ⟨proposal, rev, 1⟩ ∧
      ((a.inserted = false ∧ t = s) ∨
        (a.inserted = true ∧ t.rows = s.rows ++ [⟨proposal, rev, payload.sortKeys.dumps, .pending,
          due, retry, 1, none, none, none, none, now, now⟩])) := by
  rw [Store.propose] at h
  obtain ⟨proposal, hproposal, h⟩ := bind_eq_ok.mp h
  obtain ⟨rev, hrev, h⟩ := bind_eq_ok.mp h
  obtain ⟨due, hdue, h⟩ := bind_eq_ok.mp h
  obtain ⟨retry, hretry, h⟩ := bind_eq_ok.mp h
  refine ⟨proposal, rev, due, retry, hproposal, hrev, hdue, hretry, ?_⟩
  split at h
  · split_ifs at h
    · cases h
    · cases h
      exact ⟨rfl, .inl ⟨rfl, rfl⟩⟩
  · obtain ⟨t', hwrite, h⟩ := bind_eq_ok.mp h
    cases h
    exact ⟨rfl, .inr ⟨rfl, write_eq_ok hwrite⟩⟩

theorem propose_keepsDue {proposalId revision payload : Json} {dueAt : Datetime}
    {nextDue : Option Datetime} {a : Proposed}
    (h : s.propose now proposalId revision payload dueAt nextDue = .ok (a, t)) : s.KeepsDue t := by
  obtain ⟨_, _, _, _, -, -, -, -, -, ⟨-, rfl⟩ | ⟨-, ht⟩⟩ := propose_rows h
  · exact .refl _
  · exact .of_append ht

theorem withdraw_keepsDue {proposalId revision : String} {a : Bool}
    (h : s.withdraw now proposalId revision = .ok (a, t)) : s.KeepsDue t := by
  obtain ⟨t', hwrite, h⟩ := bind_eq_ok.mp h
  cases h
  exact .of_write hwrite fun r => ⟨rfl, rfl⟩

theorem select_keepsDue {hex : String} {ref turn : Json} {instant : Datetime} {a : SelectResult}
    (h : s.select now hex ref turn instant = .ok (a, t)) : s.KeepsDue t := by
  rw [Store.select] at h
  obtain ⟨proposal, -, h⟩ := bind_eq_ok.mp h
  obtain ⟨rev, -, h⟩ := bind_eq_ok.mp h
  obtain ⟨version, -, h⟩ := bind_eq_ok.mp h
  obtain ⟨accepted, -, h⟩ := bind_eq_ok.mp h
  split_ifs at h
  · cases h
    exact .refl _
  · obtain ⟨due, -, h⟩ := bind_eq_ok.mp h
    obtain ⟨t', hwrite, h⟩ := bind_eq_ok.mp h
    have hkeeps : s.KeepsDue t' := .of_write hwrite fun r => ⟨rfl, rfl⟩
    split_ifs at h <;> cases h <;> exact hkeeps

theorem settleDelivery_keepsDue {sha256 : String → String} {token settlement : Json} {a : Settled}
    (h : s.settleDelivery sha256 now token settlement = .ok (a, t)) : s.KeepsDue t := by
  rcases settleDelivery_cases h with rfl | ⟨selection, ref, hwrite⟩
  · exact .refl _
  · exact .of_write hwrite fun r => ⟨rfl, rfl⟩

theorem actionOf_eq_defer {action : String} : actionOf action = .ok .defer ↔ action = "defer" := by
  constructor
  · intro h
    rw [actionOf] at h
    split_ifs at h with _ _ hdefer
    all_goals first | exact hdefer | cases h
  · rintro rfl
    rfl

theorem applyAction_keepsDue {token : String} {action : Action} (haction : action ≠ .defer)
    (h : s.applyAction now token action none = .ok t) : s.KeepsDue t := by
  cases action with
  | defer => exact absurd rfl haction
  | failed => exact .of_write h fun r => ⟨rfl, rfl⟩
  | readyForDelivery => exact .of_write h fun r => ⟨rfl, rfl⟩
  | awaitChange => exact .of_write h fun r => ⟨rfl, rfl⟩
  | invalidated => exact .of_write h fun r => ⟨rfl, rfl⟩

/-- A transition moves no proposal but the one it defers. -/
theorem transition_dueAt {token : Json} {action : String} {a : Transitioned}
    (h : s.transition now token action = .ok (a, t)) {r' : Proposal} (hr : r ∈ s.rows)
    (hr' : r' ∈ t.rows) (hkey : r'.key = r.key)
    (hstay : ¬(Call.transition now token action).Defers r) : r'.dueAt = r.dueAt := by
  rw [Store.transition] at h
  obtain ⟨selection, hselection, h⟩ := bind_eq_ok.mp h
  obtain ⟨act, hact, h⟩ := bind_eq_ok.mp h
  have hsame := Store.KeepsDue.refl s
  split at h
  · cases h
    exact hsame r hr r' hr' hkey
  · next row hrow =>
      split_ifs at h with hstatus hnone hdefer
      · cases h
        exact hsame r hr r' hr' hkey
      · cases h
      · obtain ⟨t', happly, h⟩ := bind_eq_ok.mp h
        cases h
        rw [hdefer] at happly hact
        obtain rfl := actionOf_eq_defer.mp hact
        rw [write_row happly (fun _ => rfl) hr hr' hkey]
        split
        · next hhit =>
            rw [Bool.and_eq_true, decide_eq_true_eq, decide_eq_true_eq] at hhit
            obtain rfl := eq_of_token hrow hr hhit.1
            exact absurd ⟨now, token, selection, rfl, hselection, hhit.1, hhit.2,
              fun hnext => hnone ⟨hdefer, hnext⟩⟩ hstay
        · rfl
      · obtain ⟨t', happly, h⟩ := bind_eq_ok.mp h
        cases h
        exact applyAction_keepsDue hdefer happly r hr r' hr' hkey

end Calls

theorem write_release (s : Store) (p : Proposal → Bool) (status : Status) (dueAt : Option String)
    (now : String) :
    ∃ t, Store.write (Table.update p (Proposal.release status dueAt now) s.rows) = .ok t := by
  obtain ⟨hkey, htoken, hturn, hsettlement⟩ := s.constraints
  have hkey' := hkey.update_sub (p := p) (f := Proposal.release status dueAt now)
    fun _ _ h => h
  have htoken' := htoken.update_sub (p := p) (f := Proposal.release status dueAt now)
    fun _ _ h => by cases h
  have hturn' := hturn.update_sub (p := p) (f := Proposal.release status dueAt now)
    fun _ _ h => by cases h
  have hsettlement' := hsettlement.update_sub (p := p) (f := Proposal.release status dueAt now)
    fun _ _ h => h
  rw [Store.write, dif_pos hkey', dif_pos htoken', dif_pos hturn', dif_pos hsettlement']
  exact ⟨_, rfl⟩

theorem defers_dueAt (sha256 : String → String) {call : Call} {r' : Proposal} (hr : r ∈ s.rows)
    (hr' : r' ∈ (call.after sha256 s).rows) (hkey : r'.key = r.key) (h : call.Defers r) :
    some r'.dueAt = r.nextDue := by
  obtain ⟨now, token, selection, rfl, hselection, htoken, hstatus, hnext⟩ := h
  obtain ⟨next, hnext⟩ := Option.ne_none_iff_exists'.mp hnext
  have hrow : s.selection? selection = some r := by
    cases hsel : s.selection? selection with
    | none =>
        have hnone := List.find?_eq_none.mp hsel r hr
        simp [htoken] at hnone
    | some row => rw [eq_of_token hsel hr htoken]
  obtain ⟨t, hwrite⟩ := write_release s
    (fun r => r.selectionToken = some selection && r.status = .selected) .deferred (some next) now
  have hexec : s.transition now token "defer"
      = .ok (⟨true, none, some .deferred, some next⟩, t) := by
    rw [Store.transition, hselection, actionOf_eq_defer.mpr rfl]
    simp only [bind, Except.bind]
    rw [hrow]
    simp [hstatus, hnext, Store.applyAction, Action.status, hwrite, pure, Except.pure]
  have hafter : (Call.transition now token "defer").after sha256 s = t := by
    rw [Call.after, Call.exec, hexec]
    rfl
  rw [hafter] at hr'
  rw [write_row hwrite (fun _ => rfl) hr hr' hkey, htoken, hstatus, hnext]
  simp [Proposal.release]

/-- **What a call makes of the row of a proposal**: the payload and `next_due` stay, and only a
deferral moves `due_at`. -/
theorem after_row (sha256 : String → String) (call : Call) (hr : r ∈ s.rows) :
    ∃ r' ∈ (call.after sha256 s).rows, r'.key = r.key ∧ r'.payloadJson = r.payloadJson ∧
      r'.nextDue = r.nextDue ∧ (call.Defers r → some r'.dueAt = r.nextDue) ∧
      (¬call.Defers r → r'.dueAt = r.dueAt) := by
  obtain ⟨r', hr', hstep⟩ := (run_cases sha256 s call).successor hr
  have hcontent : r'.key = r.key ∧ r'.payloadJson = r.payloadJson ∧ r'.nextDue = r.nextDue := by
    rcases hstep with rfl | hstep
    · exact ⟨rfl, rfl, rfl⟩
    · cases hstep <;> exact ⟨rfl, rfl, rfl⟩
  obtain ⟨hkey, hpayload, hnext⟩ := hcontent
  refine ⟨r', hr', hkey, hpayload, hnext, defers_dueAt sha256 hr hr' hkey, fun hstay => ?_⟩
  rw [Call.after] at hr'
  split at hr'
  · next a t hexec =>
      cases call with
      | propose now id revision payload dueAt nextDue =>
          obtain ⟨⟨p, t'⟩, hcall, heq⟩ := map_eq_ok.mp hexec
          cases heq
          exact propose_keepsDue hcall r hr r' hr' hkey
      | withdraw now id revision =>
          obtain ⟨⟨p, t'⟩, hcall, heq⟩ := map_eq_ok.mp hexec
          cases heq
          exact withdraw_keepsDue hcall r hr r' hr' hkey
      | select now hex ref turn instant =>
          obtain ⟨⟨p, t'⟩, hcall, heq⟩ := map_eq_ok.mp hexec
          cases heq
          exact select_keepsDue hcall r hr r' hr' hkey
      | transition now token action =>
          obtain ⟨⟨p, t'⟩, hcall, heq⟩ := map_eq_ok.mp hexec
          cases heq
          exact transition_dueAt hcall hr hr' hkey hstay
      | settleDelivery now token settlement =>
          obtain ⟨⟨p, t'⟩, hcall, heq⟩ := map_eq_ok.mp hexec
          cases heq
          exact settleDelivery_keepsDue hcall r hr r' hr' hkey
  · exact Store.KeepsDue.refl s r hr r' hr' hkey

/-- **What a run makes of the row of a proposal**: `due_at` is the first one as long as no call
moves the proposal, and `next_due` for ever after. -/
theorem row_of_run (sha256 : String → String) (calls : List Call) (hr : r ∈ s.rows) :
    ∃ r' ∈ (runCalls sha256 s calls).rows, r'.key = r.key ∧ r'.payloadJson = r.payloadJson ∧
      r'.nextDue = r.nextDue ∧ (Unmoved sha256 r.key s calls → r'.dueAt = r.dueAt) ∧
      (¬Unmoved sha256 r.key s calls → some r'.dueAt = r.nextDue ∧ r'.dueAt ≠ r.dueAt) := by
  induction calls generalizing s r with
  | nil => exact ⟨r, hr, rfl, rfl, rfl, fun _ => rfl, fun h => absurd trivial h⟩
  | cons call calls ih =>
      obtain ⟨r₁, hr₁, hkey₁, hpayload₁, hnext₁, hdefer, hstay⟩ := after_row sha256 call hr
      obtain ⟨r', hr', hkey, hpayload, hnext, hsame, hother⟩ := ih hr₁
      rw [hkey₁] at hsame hother
      have hstill : ¬Moves s call r.key → r₁.dueAt = r.dueAt := by
        intro hnot
        by_cases hd : call.Defers r
        · by_contra hne
          exact hnot ⟨r, hr, rfl, hd, fun heq => hne (Option.some.inj ((hdefer hd).trans heq))⟩
        · exact hstay hd
      refine ⟨r', hr', hkey.trans hkey₁, hpayload.trans hpayload₁, hnext.trans hnext₁, ?_, ?_⟩
      all_goals rw [Unmoved]
      · rintro ⟨hnot, hrest⟩
        exact (hsame hrest).trans (hstill hnot)
      · intro hmoved
        rw [hnext₁] at hother
        by_cases hmoves : Moves s call r.key
        · -- the call moves the row, and later calls leave it there
          obtain ⟨r₀, hr₀, hkey₀, hd, hne⟩ := hmoves
          obtain rfl := s.constraints.key.eq_of_key hr₀ hr (congrArg some hkey₀) rfl
          have hthere : some r'.dueAt = r₀.nextDue := by
            by_cases hrest : Unmoved sha256 r₀.key (call.after sha256 s) calls
            · rw [hsame hrest]
              exact hdefer hd
            · exact (hother hrest).1
          exact ⟨hthere, fun heq => hne (by rw [← hthere, heq])⟩
        · have hrest : ¬Unmoved sha256 r.key (call.after sha256 s) calls :=
            fun hrest => hmoved ⟨hmoves, hrest⟩
          rw [← hstill hmoves]
          exact hother hrest

/-! ### Replays -/

/-- A call of `propose` that repeats one enters nothing and changes nothing; one with the same
identity and another payload or time raises. -/
structure Replays (sha256 : String → String) (s : Store) (proposalId revision payload : Json)
    (dueAt : Datetime) (nextDue : Option Datetime) : Prop where
  /-- The same call. -/
  repeated : ∀ now, ∃ ref,
    (Call.propose now proposalId revision payload dueAt nextDue).exec sha256 s
      = .ok (.proposed ⟨false, ref⟩, s)
  /-- Another call of the same identity. -/
  refused : ∀ now payload' dueAt' nextDue',
    ¬SamePayload payload payload' ∨ moment dueAt ≠ moment dueAt' ∨
      nextDue.map moment ≠ nextDue'.map moment →
    ∃ e, (Call.propose now proposalId revision payload' dueAt' nextDue').exec sha256 s = .error e

/-- `propose` of a revision that is there compares its columns. -/
theorem propose_existing (now : String) {proposalId revision : Json} (payload : Json)
    {dueAt : Datetime} {nextDue : Option Datetime} {proposal rev due : String}
    {retry : Option String} (hproposal : identity "proposal_id" (some proposalId) = .ok proposal)
    (hrev : identity "revision" (some revision) = .ok rev) (hdue : awareUtc dueAt = .ok due)
    (hretry : nextDue.mapM awareUtc = .ok retry) (hr : r ∈ s.rows)
    (hkey : r.key = (proposal, rev)) :
    s.propose now proposalId revision payload dueAt nextDue =
      if (r.payloadJson, r.dueAt, r.nextDue) ≠ (payload.sortKeys.dumps, due, retry) then
        runtimeError ("Drift proposal identity conflict: " ++ proposal ++ "/" ++ rev)
      else .ok (⟨false, ⟨proposal, rev, 1⟩⟩, s) := by
  have hrow : s.row? (proposal, rev) = some r :=
    (Table.find?_eq_some_iff s.constraints.key).mpr ⟨hr, hkey⟩
  rw [Store.propose, hproposal, hrev, hdue, hretry]
  simp only [bind, Except.bind]
  rw [hrow]

/-- **A replay is recognised** in a run exactly when no call of it moves the proposal to another
time. -/
theorem propose_replays (sha256 : String → String) (before calls : List Call) {s : Store}
    {now : String} {proposalId revision payload : Json} {dueAt : Datetime}
    {nextDue : Option Datetime} {a : Proposed}
    (h : (runCalls sha256 .empty before).propose now proposalId revision payload dueAt nextDue
      = .ok (a, s)) (hinserted : a.inserted = true) :
    Replays sha256 (runCalls sha256 s calls) proposalId revision payload dueAt nextDue ↔
      Unmoved sha256 (a.ref.proposalId, a.ref.revision) s calls := by
  obtain ⟨proposal, rev, due, retry, hproposal, hrev, hdue, hretry, href, hrows⟩ := propose_rows h
  have hentered : s.rows = (runCalls sha256 .empty before).rows ++ [⟨proposal, rev,
      payload.sortKeys.dumps, .pending, due, retry, 1, none, none, none, none, now, now⟩] := by
    rcases hrows with ⟨hfalse, -⟩ | ⟨-, hrows⟩
    · rw [hinserted] at hfalse
      cases hfalse
    · exact hrows
  have hr : ⟨proposal, rev, payload.sortKeys.dumps, .pending, due, retry, 1, none, none, none,
      none, now, now⟩ ∈ s.rows := by
    rw [hentered]
    exact List.mem_append_right _ (List.mem_singleton_self _)
  obtain ⟨r', hr', hkey, hpayload, hnext, hsame, hother⟩ := row_of_run sha256 calls hr
  rw [href]
  constructor
  · intro hreplays
    by_contra hmoved
    obtain ⟨ref, hrepeat⟩ := hreplays.repeated now
    rw [Call.exec, propose_existing now payload hproposal hrev hdue hretry hr' hkey,
      if_pos fun heq => (hother hmoved).2 (congrArg (fun columns => columns.2.1) heq)] at hrepeat
    cases hrepeat
  · intro hunmoved
    have hcolumns : (r'.payloadJson, r'.dueAt, r'.nextDue) = (payload.sortKeys.dumps, due, retry) :=
      Prod.ext hpayload (Prod.ext (hsame hunmoved) hnext)
    constructor
    · intro now'
      refine ⟨⟨proposal, rev, 1⟩, ?_⟩
      rw [Call.exec, propose_existing now' payload hproposal hrev hdue hretry hr' hkey,
        if_neg (not_not.mpr hcolumns)]
      rfl
    · intro now' payload' dueAt' nextDue' hdiffers
      cases hexec : (Call.propose now' proposalId revision payload' dueAt' nextDue').exec sha256
          (runCalls sha256 s calls) with
      | error e => exact ⟨e, rfl⟩
      | ok result =>
          obtain ⟨⟨p, t⟩, hcall, -⟩ := map_eq_ok.mp hexec
          obtain ⟨_, _, due', retry', hproposal', hrev', hdue', hretry', -, -⟩ := propose_rows hcall
          rw [propose_existing now' payload' hproposal hrev hdue' hretry' hr' hkey,
            hcolumns] at hcall
          split_ifs at hcall with heq
          · cases hcall
          · obtain ⟨htext, heq'⟩ := Prod.mk.inj (not_not.mp heq)
            obtain ⟨rfl, rfl⟩ := Prod.mk.inj heq'
            rcases hdiffers with hp | hd | hn
            · exact absurd htext hp
            · exact absurd (moment_eq hdue hdue') hd
            · exact absurd (map_moment_eq hretry hretry') hn

/-- A proposal that is due, and one that can be deferred for an hour. -/
def offer (now : String) (s : Store) : Except PyError (Proposed × Store) :=
  s.propose now (.str "p") (.str "r") (.obj []) ⟨0, some 0⟩ (some ⟨3600000000, some 0⟩)

/-- A proposal that is withdrawn is recognised. -/
theorem propose_replays_withdrawn :
    ∃ a s, offer "0" (runCalls id .empty []) = .ok (a, s) ∧ a.inserted = true ∧
      Replays id (runCalls id s [.withdraw "1" "p" "r"]) (.str "p") (.str "r") (.obj [])
        ⟨0, some 0⟩ (some ⟨3600000000, some 0⟩) := by
  have hfirst : (offer "0" (runCalls id .empty [])).toOption.map (fun r => r.1.inserted)
      = some true := by decide +kernel
  obtain ⟨⟨a, s⟩, hoffer, hinserted⟩ := Option.map_eq_some_iff.mp hfirst
  have hoffer' : offer "0" (runCalls id .empty []) = .ok (a, s) := by
    cases hresult : offer "0" (runCalls id .empty []) with
    | error e =>
        rw [hresult] at hoffer
        cases hoffer
    | ok result =>
        rw [hresult] at hoffer
        rw [Option.some.inj hoffer]
  refine ⟨a, s, hoffer', hinserted, ?_⟩
  refine (propose_replays id [] [.withdraw "1" "p" "r"] hoffer' hinserted).mpr ⟨?_, trivial⟩
  rintro ⟨r, -, -, ⟨now, token, selection, hcall, -⟩, -⟩
  cases hcall

/-- The proposal of `offer`, claimed and deferred. -/
def deferCalls : List Call :=
  let ref : Json := .obj [("proposal_id", .str "p"), ("revision", .str "r"),
    ("state_version", .int 1)]
  let turn : Json := .obj [("session_id", .str "s"), ("turn_id", .str "t")]
  [.propose "0" (.str "p") (.str "r") (.obj []) ⟨0, some 0⟩ (some ⟨3600000000, some 0⟩),
    .select "1" "f" ref turn ⟨0, some 0⟩, .transition "2" (.str "drift-selection:f") "defer"]

/-- A proposal that was deferred is not recognised: the same call raises. -/
theorem deferred_conflicts :
    (offer "0" .empty).toOption.map (fun r => r.1.inserted) = some true ∧
      (offer "3" (runCalls id .empty deferCalls)).toOption.map (fun r => r.1.inserted) = none ∧
      ¬Replays id (runCalls id .empty deferCalls) (.str "p") (.str "r") (.obj [])
        ⟨0, some 0⟩ (some ⟨3600000000, some 0⟩) := by
  have hraises : (offer "3" (runCalls id .empty deferCalls)).toOption.map
      (fun r => r.1.inserted) = none := by decide +kernel
  refine ⟨by decide +kernel, hraises, fun h => ?_⟩
  obtain ⟨ref, hrepeat⟩ := h.repeated "3"
  rw [Call.exec] at hrepeat
  obtain ⟨r, hoffer, -⟩ := map_eq_ok.mp hrepeat
  rw [offer, hoffer] at hraises
  cases hraises

end Kirakira.Drift
