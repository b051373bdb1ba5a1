import Kirakira.Reader
import Kirakira.TurnProjection

/-!
# When a Source Waits for a Reply

`_ReplyState` and `_read_state` of `plugins/sources/session.py`. A source waits for a reply
when its latest input is above everything an output has finished, a control has abandoned
and a pause still covers. The state is computed in two ways: from the whole sequence of
messages, or by a message reader, which looks up the latest input and reads only the
finished outputs and the controls after it.

The reader never sees a control from before the latest input, though a pause stays until a
resume covers the largest paused prefix. It need not: such a control addresses a prefix
below the input, so what it leaves behind stays below the input in the one state and is
missing in the other, and a resume that removes a higher pause removes both.

## Main results

* `ReplyState.Agree.add` — two states that agree still agree after one more message.
* `foldl_add_eq` — the messages after the latest input count through their last finished
  output and their controls.
* `readState_agrees` — both readings of a log decide alike, now and after a further message
  of the source.
-/

namespace Kirakira

open Exceptions SortedBy

/-! ### The state -/

/-- `_ReplyState`: the positions that decide whether the source waits. -/
structure ReplyState where
  head : ℤ
  latestInput : ℤ
  boundary : ℤ
  pausedThrough : ℤ
  deriving DecidableEq, Repr

namespace ReplyState

/-- `_ReplyState()`. -/
def start : ReplyState :=
  ⟨-1, -1, -1, -1⟩

/-- `pending`: the latest input is above every boundary. -/
def pending (state : ReplyState) : Bool :=
  decide (state.latestInput > max state.boundary state.pausedThrough)

/-- `add_control`. -/
def addControl (state : ReplyState) (body : Control) : ReplyState :=
  match body.action with
  | .abandon => { state with boundary := max state.boundary body.throughSeq }
  | .pause | .failure =>
      { state with pausedThrough := max state.pausedThrough body.throughSeq }
  | .resume =>
      if (body.throughSeq : ℤ) ≥ state.pausedThrough then { state with pausedThrough := -1 }
      else state

/-- `add`. -/
def add (state : ReplyState) (message : Message) : ReplyState :=
  let state := { state with head := message.seq }
  match message.body with
  | .input _ => { state with latestInput := message.seq }
  | .output body => if body.finish ≠ .continue then { state with boundary := message.seq } else state
  | .toolResult _ => state
  | .control body => state.addControl body

end ReplyState

/-- `_read_state` over a sequence of messages. -/
def readState (messages : List Message) (source : String) : ReplyState :=
  messages.foldl (fun state message =>
    if message.source = source then state.add message else state) .start

/-! ### The reader -/

/-- `latest_input_seq`. -/
def Db.latestInputSeq (db : Db) (sessionId source : String) (throughSeq : ℤ) : Option ℕ :=
  db.maxSeq fun row => row.sessionKey = sessionId && row.source = source &&
    (decide ((row.seq : ℤ) ≤ throughSeq) && bodyKind row.body = some (.str "input"))

/-- Whether `json_extract(body, '$.finish') IN ('complete', 'quiet')` holds of an output. -/
def finishedOutput (body : Json) : Bool :=
  bodyKind body = some (.str "output") &&
    (body.get? "finish" = some (.str "complete") || body.get? "finish" = some (.str "quiet"))

/-- `latest_finished_output_seq`. -/
def Db.latestFinishedOutputSeq (db : Db) (sessionId source : String) (afterSeq throughSeq : ℤ) :
    Option ℕ :=
  db.maxSeq fun row => row.sessionKey = sessionId && row.source = source &&
    (decide (afterSeq < row.seq) && decide ((row.seq : ℤ) ≤ throughSeq) &&
      finishedOutput row.body)

/-- The control a row of `scan_controls` holds. -/
def controlOf (row : MessageRow) : Except PyError (ℕ × Control) := do
  let body ← decodeBody row.body
  match body with
  | .control control =>
      if control.throughSeq ≥ row.seq then
        valueError "Control cannot refer to an unaccepted prefix"
      else return (row.seq, control)
  | _ => .error ⟨.assertionError, ""⟩

/-- The rows of the controls of a source in a range. -/
def Db.controlRows (db : Db) (sessionId source : String) (afterSeq throughSeq : ℤ) :
    List MessageRow :=
  between MessageRow.seq afterSeq throughSeq ((db.sourceRows sessionId (some source)).filter
    fun row => bodyKind row.body = some (.str "control"))

/-- The number of rows `scan_controls` reads at a time. -/
def controlPage : ℕ := 64

/-- The loop of `scan_controls`. -/
def Db.controlPages (db : Db) (sessionId source : String) (throughSeq : ℤ) :
    ℕ → ℤ → Except PyError (List (ℕ × Control))
  | 0, _ => .ok []
  | fuel + 1, cursor =>
      if cursor < throughSeq then
        let rows := (db.controlRows sessionId source cursor throughSeq).take controlPage
        match rows.getLast? with
        | none => return []
        | some last => do
            let page ← rows.mapM controlOf
            let rest ← db.controlPages sessionId source throughSeq fuel last.seq
            return page ++ rest
      else return []

/-- `scan_controls`: the controls it hands to its callback. A page that is not empty moves
the cursor, so the loop takes at most one round for each row. -/
def Db.scanControls (db : Db) (sessionId source : String) (afterSeq throughSeq : ℤ) :
    Except PyError (List (ℕ × Control)) :=
  db.controlPages sessionId source throughSeq (db.messages.length + 1) afterSeq

/-- `_read_state` over a message reader. -/
def Db.readState (db : Db) (sessionId source : String) : Except PyError ReplyState :=
  let state := { ReplyState.start with head := db.sourceHead sessionId source }
  match db.latestInputSeq sessionId source state.head with
  | none => .ok state
  | some latest => do
      let boundary := coalesceSeq (db.latestFinishedOutputSeq sessionId source latest state.head)
      let controls ← db.scanControls sessionId source latest state.head
      return controls.foldl (fun state row => state.addControl row.2)
        { state with latestInput := latest, boundary := boundary }

/-! ### Agreement -/

namespace ReplyState

/-- Every position of the state is one of its source's prefix. -/
structure Bounded (state : ReplyState) : Prop where
  boundary_ge : -1 ≤ state.boundary
  boundary_le : state.boundary ≤ state.head
  paused_ge : -1 ≤ state.pausedThrough
  paused_le : state.pausedThrough ≤ state.head

/-- Two positions that are the same, or both below the input. -/
def Same (input a b : ℤ) : Prop :=
  a = b ∨ a < input ∧ b < input

/-- Two states of one log, which may differ below the latest input. -/
structure Agree (a b : ReplyState) : Prop where
  head : a.head = b.head
  latestInput : a.latestInput = b.latestInput
  left : a.Bounded
  right : b.Bounded
  boundary : 0 ≤ a.latestInput → Same a.latestInput a.boundary b.boundary
  paused : 0 ≤ a.latestInput → Same a.latestInput a.pausedThrough b.pausedThrough

variable {a b : ReplyState}

theorem Agree.pending_eq (h : Agree a b) : a.pending = b.pending := by
  obtain ⟨-, hinput, hleft, hright, hboundary, hpaused⟩ := h
  have hl := hleft.boundary_ge
  have hr := hright.boundary_ge
  rw [pending, pending, decide_eq_decide, ← hinput]
  by_cases hsome : 0 ≤ a.latestInput
  · have hb := hboundary hsome
    have hp := hpaused hsome
    rw [Same] at hb hp
    omega
  · omega

variable {body : Control}

theorem Bounded.addControl {state : ReplyState} (h : state.Bounded)
    (hbelow : (body.throughSeq : ℤ) ≤ state.head) : (state.addControl body).Bounded := by
  obtain ⟨hb, hb', hp, hp'⟩ := h
  rw [ReplyState.addControl]
  cases body.action with
  | abandon => exact ⟨by dsimp only; omega, by dsimp only; omega, hp, hp'⟩
  | pause => exact ⟨hb, hb', by dsimp only; omega, by dsimp only; omega⟩
  | failure => exact ⟨hb, hb', by dsimp only; omega, by dsimp only; omega⟩
  | resume =>
      dsimp only
      split
      · exact ⟨hb, hb', by dsimp only; omega, by dsimp only; omega⟩
      · exact ⟨hb, hb', hp, hp'⟩

theorem Bounded.advance {state : ReplyState} (h : state.Bounded) {head : ℤ}
    (hle : state.head ≤ head) : ({ state with head := head } : ReplyState).Bounded :=
  ⟨h.boundary_ge, h.boundary_le.trans hle, h.paused_ge, h.paused_le.trans hle⟩

@[simp] theorem addControl_fields (state : ReplyState) (body : Control) :
    (state.addControl body).head = state.head ∧
      (state.addControl body).latestInput = state.latestInput := by
  rw [addControl]
  split
  · exact ⟨rfl, rfl⟩
  · exact ⟨rfl, rfl⟩
  · exact ⟨rfl, rfl⟩
  · split <;> exact ⟨rfl, rfl⟩

/-- Two states that agree still agree after a control. A pause above the input makes the
paused positions the same; a resume clears both, or those above the input only. -/
theorem Agree.addControl (h : Agree a b) (hbelow : (body.throughSeq : ℤ) ≤ a.head) :
    Agree (a.addControl body) (b.addControl body) := by
  have hleft := h.left.addControl hbelow
  have hright := h.right.addControl (h.head ▸ hbelow)
  obtain ⟨ha, ha'⟩ := addControl_fields a body
  obtain ⟨hb, hb'⟩ := addControl_fields b body
  refine ⟨by rw [ha, hb, h.head], by rw [ha', hb', h.latestInput], hleft, hright, ?_, ?_⟩
  · intro hsome
    rw [ha'] at hsome ⊢
    have hsame := h.boundary hsome
    rw [Same] at hsame ⊢
    rw [ReplyState.addControl, ReplyState.addControl]
    cases body.action with
    | abandon => dsimp only; omega
    | pause => exact hsame
    | failure => exact hsame
    | resume => dsimp only; split <;> split <;> exact hsame
  · intro hsome
    rw [ha'] at hsome ⊢
    have hsame := h.paused hsome
    rw [Same] at hsame ⊢
    rw [ReplyState.addControl, ReplyState.addControl]
    cases body.action with
    | abandon => exact hsame
    | pause => dsimp only; omega
    | failure => dsimp only; omega
    | resume =>
        dsimp only
        split <;> split
        · exact .inl rfl
        · dsimp only; omega
        · dsimp only; omega
        · exact hsame

/-- **One more message of the source keeps the agreement.** An input is above everything
either state has seen, so there the states may differ as they like. -/
theorem Agree.add (h : Agree a b) {m : Message} (hnext : a.head < m.seq) :
    Agree (a.add m) (b.add m) := by
  have hle : a.head ≤ m.seq := hnext.le
  have hle' : b.head ≤ m.seq := h.head ▸ hle
  have hmoved : Agree { a with head := m.seq } { b with head := m.seq } :=
    ⟨rfl, h.latestInput, h.left.advance hle, h.right.advance hle', h.boundary, h.paused⟩
  rw [ReplyState.add, ReplyState.add]
  cases hbody : m.body with
  | input body =>
      have hl := h.left
      have hr := h.right
      refine ⟨rfl, rfl, ?_, ?_, fun _ => .inr ⟨?_, ?_⟩, fun _ => .inr ⟨?_, ?_⟩⟩
      · exact ⟨hl.boundary_ge, hl.boundary_le.trans hle, hl.paused_ge, hl.paused_le.trans hle⟩
      · exact ⟨hr.boundary_ge, hr.boundary_le.trans hle', hr.paused_ge, hr.paused_le.trans hle'⟩
      · exact lt_of_le_of_lt hl.boundary_le hnext
      · exact lt_of_le_of_lt hr.boundary_le (h.head ▸ hnext)
      · exact lt_of_le_of_lt hl.paused_le hnext
      · exact lt_of_le_of_lt hr.paused_le (h.head ▸ hnext)
  | output body =>
      dsimp only
      by_cases hfinish : body.finish ≠ .continue
      · rw [if_pos hfinish, if_pos hfinish]
        refine ⟨rfl, h.latestInput, ?_, ?_, fun _ => .inl rfl, h.paused⟩
        · exact ⟨by dsimp only; omega, le_refl _, hmoved.left.paused_ge, hmoved.left.paused_le⟩
        · exact ⟨by dsimp only; omega, le_refl _, hmoved.right.paused_ge, hmoved.right.paused_le⟩
      · rw [if_neg hfinish, if_neg hfinish]
        exact hmoved
  | toolResult body => exact hmoved
  | control body =>
      have hbelow := m.control_ok body hbody
      exact hmoved.addControl (by dsimp only; omega)

@[simp] theorem add_head (state : ReplyState) (m : Message) : (state.add m).head = m.seq := by
  rw [add]
  cases m.body with
  | input _ => rfl
  | output body => dsimp only; split <;> rfl
  | toolResult _ => rfl
  | control body => exact (addControl_fields _ body).1

theorem Agree.foldl_add (h : Agree a b) {messages : List Message}
    (hsorted : Sorted Message.seq messages) (hnext : ∀ m ∈ messages, a.head < m.seq) :
    Agree (messages.foldl ReplyState.add a) (messages.foldl ReplyState.add b) := by
  induction messages generalizing a b with
  | nil => exact h
  | cons m messages ih =>
      obtain ⟨hm, hrest⟩ := List.pairwise_cons.mp hsorted
      refine ih (h.add (hnext m List.mem_cons_self)) hrest fun x hx => ?_
      rw [add_head]
      have := hm x hx
      omega

theorem agree_start : Agree start start :=
  ⟨rfl, rfl, ⟨le_refl _, le_refl _, le_refl _, le_refl _⟩,
    ⟨le_refl _, le_refl _, le_refl _, le_refl _⟩, fun _ => .inl rfl, fun _ => .inl rfl⟩

theorem addControl_boundary (state : ReplyState) {boundary : ℤ}
    (hbelow : (body.throughSeq : ℤ) ≤ boundary) :
    ({ state with boundary := boundary } : ReplyState).addControl body
      = { state.addControl body with boundary := boundary } := by
  rw [addControl, addControl]
  cases body.action with
  | abandon => dsimp only; rw [max_eq_left hbelow]
  | pause => rfl
  | failure => rfl
  | resume => dsimp only; split <;> rfl

theorem addControl_head (state : ReplyState) (body : Control) (head : ℤ) :
    ({ state with head := head } : ReplyState).addControl body
      = { state.addControl body with head := head } := by
  rw [addControl, addControl]
  cases body.action with
  | resume => dsimp only; split <;> rfl
  | _ => rfl

/-- The controls of `scan_controls` on a state. -/
def addControls (state : ReplyState) (controls : List (ℕ × Control)) : ReplyState :=
  controls.foldl (fun state row => state.addControl row.2) state

theorem addControls_concat (state : ReplyState) (controls : List (ℕ × Control))
    (row : ℕ × Control) :
    state.addControls (controls ++ [row]) = (state.addControls controls).addControl row.2 := by
  rw [addControls, List.foldl_append]
  rfl

theorem addControls_boundary (state : ReplyState) {controls : List (ℕ × Control)} {boundary : ℤ}
    (hbelow : ∀ row ∈ controls, (row.2.throughSeq : ℤ) ≤ boundary) :
    ({ state with boundary := boundary } : ReplyState).addControls controls
      = { state.addControls controls with boundary := boundary } := by
  induction controls generalizing state with
  | nil => rfl
  | cons row controls ih =>
      rw [addControls, List.foldl_cons, addControl_boundary state (hbelow row List.mem_cons_self)]
      exact ih _ fun x hx => hbelow x (List.mem_cons_of_mem _ hx)

theorem addControls_head (state : ReplyState) (controls : List (ℕ × Control)) (head : ℤ) :
    ({ state with head := head } : ReplyState).addControls controls
      = { state.addControls controls with head := head } := by
  induction controls generalizing state with
  | nil => rfl
  | cons row controls ih =>
      rw [addControls, List.foldl_cons, addControl_head]
      exact ih _

end ReplyState

/-! ### The messages after the latest input -/

/-- Whether the body is an input. -/
def Body.isInput : Body → Bool
  | .input _ => true
  | _ => false

/-- Whether the body is a finished output. -/
def Body.isFinished : Body → Bool
  | .output body => decide (body.finish ≠ .continue)
  | _ => false

/-- The control a message is, with its number. -/
def Message.control? (m : Message) : Option (ℕ × Control) :=
  match m.body with
  | .control body => some (m.seq, body)
  | _ => none

theorem throughSeq_of_control? {m : Message} {row : ℕ × Control} (h : m.control? = some row) :
    row.1 = m.seq ∧ row.2.throughSeq < m.seq := by
  rw [Message.control?] at h
  split at h
  · next body hbody =>
      obtain rfl := Option.some.inj h
      exact ⟨rfl, m.control_ok body hbody⟩
  · cases h

/-- The position of the last finished output, `-1` when there is none. -/
def lastFinished (messages : List Message) : ℤ :=
  lastKey Message.seq (messages.filter fun m => m.body.isFinished)

variable {messages : List Message}

/-- **The messages after the latest input count through their last finished output and
their controls.** The induction is on the messages from the front; a finished output takes
the boundary over, since every control before it addresses less. -/
theorem foldl_add_eq (input : ℤ) (hsorted : Sorted Message.seq messages)
    (hinputs : ∀ m ∈ messages, m.body.isInput = false) (head : ℤ)
    (hhead : head = (messages.getLast?.map fun m => (m.seq : ℤ)).getD input) :
    messages.foldl ReplyState.add ⟨input, input, -1, -1⟩
      = ReplyState.addControls ⟨head, input, lastFinished messages, -1⟩
          (messages.filterMap Message.control?) := by
  induction messages using List.reverseRecOn generalizing head with
  | nil => rw [hhead]; rfl
  | append_singleton messages m ih =>
      have hfront : Sorted Message.seq messages := (List.pairwise_append.mp hsorted).1
      have hrest := ih hfront (fun x hx => hinputs x (List.mem_append_left _ hx)) _ rfl
      have hlast : head = m.seq := by simpa using hhead
      have hinput := hinputs m (List.mem_append_right _ List.mem_cons_self)
      rw [List.foldl_append, List.foldl_cons, List.foldl_nil, hrest, hlast, List.filterMap_append,
        ReplyState.add]
      generalize hmid : (messages.getLast?.map fun m => (m.seq : ℤ)).getD input = mid
      have hmove := ReplyState.addControls_head ⟨mid, input, lastFinished messages, -1⟩
        (messages.filterMap Message.control?) m.seq
      have hkept : m.body.isFinished = false →
          lastFinished (messages ++ [m]) = lastFinished messages := by
        intro hfinished
        simp [lastFinished, hfinished]
      cases hbody : m.body with
      | input body => rw [hbody] at hinput; cases hinput
      | output body =>
          have hnone : [m].filterMap Message.control? = [] := by
            simp [Message.control?, hbody]
          rw [hnone, List.append_nil]
          dsimp only
          by_cases hfinish : body.finish ≠ .continue
          · have hfinished : m.body.isFinished = true := by
              rw [hbody]; exact decide_eq_true hfinish
            have hboundary : lastFinished (messages ++ [m]) = m.seq := by
              simp [lastFinished, hfinished]
            have hbelow : ∀ row ∈ messages.filterMap Message.control?,
                (row.2.throughSeq : ℤ) ≤ m.seq := by
              intro row hrow
              obtain ⟨x, hx, hcontrol⟩ := List.mem_filterMap.mp hrow
              have hlt := (List.pairwise_append.mp hsorted).2.2 x hx m List.mem_cons_self
              have hadmitted := throughSeq_of_control? hcontrol
              omega
            rw [if_pos hfinish, hboundary]
            refine Eq.trans ?_ (ReplyState.addControls_boundary
              ⟨m.seq, input, lastFinished messages, -1⟩ hbelow).symm
            exact congrArg (fun state : ReplyState => { state with boundary := m.seq }) hmove.symm
          · have hfinished : m.body.isFinished = false := by
              rw [hbody]; exact decide_eq_false hfinish
            rw [if_neg hfinish, hkept hfinished]
            exact hmove.symm
      | toolResult body =>
          have hnone : [m].filterMap Message.control? = [] := by
            simp [Message.control?, hbody]
          rw [hnone, List.append_nil, hkept (by rw [hbody]; rfl)]
          exact hmove.symm
      | control body =>
          have hsome : [m].filterMap Message.control? = [(m.seq, body)] := by
            simp [Message.control?, hbody]
          rw [hsome, hkept (by rw [hbody]; rfl), ReplyState.addControls_concat]
          exact congrArg (fun state : ReplyState => state.addControl body) hmove.symm

/-! ### The queries of the reader -/

/-- The messages of a source of a session. -/
def ofSource (sessionId source : String) (messages : List Message) : List Message :=
  (ofSession sessionId messages).filter fun m => m.source = source

/-- The loop of `scan_controls` reads exactly the controls of its range. The induction is
on the rounds, each of which leaves less of the range. -/
theorem controlPages_eq {db : Db} {sessionId source : String}
    (hsorted : Sorted MessageRow.seq (db.sourceRows sessionId (some source))) (throughSeq : ℤ)
    (fuel : ℕ) (cursor : ℤ)
    (hfuel : (db.controlRows sessionId source cursor throughSeq).length < fuel) :
    db.controlPages sessionId source throughSeq fuel cursor
      = (db.controlRows sessionId source cursor throughSeq).mapM controlOf := by
  induction fuel generalizing cursor with
  | zero => omega
  | succ fuel ih =>
      rw [Db.controlPages]
      by_cases hlt : cursor < throughSeq
      · have hpaged := between_lastKey_take (a := cursor) (b := throughSeq) (n := controlPage)
          (hsorted.filter fun row => decide (bodyKind row.body = some (.str "control")))
        rw [if_pos hlt]
        rw [Db.controlRows] at hfuel ⊢
        generalize hrange : between MessageRow.seq cursor throughSeq
          ((db.sourceRows sessionId (some source)).filter
            fun row => bodyKind row.body = some (.str "control")) = range at hpaged hfuel ⊢
        rcases List.eq_nil_or_concat' (range.take controlPage) with hnil | ⟨front, last, hpage⟩
        · have hnone : range = [] := by
            rcases List.take_eq_nil_iff.mp hnil with hzero | hnone
            · rw [controlPage] at hzero
              omega
            · exact hnone
          rw [hnone]
          rfl
        · have hnext := hpaged (by rw [hpage]; simp)
          rw [hpage, lastKey_concat] at hnext
          have hpos : 0 < range.length := by
            rw [List.length_pos_iff]
            rintro rfl
            simp at hpage
          have hrest := ih last.seq (by
            rw [Db.controlRows, hnext, List.length_drop, controlPage]
            omega)
          rw [Db.controlRows, hnext] at hrest
          dsimp only
          rw [hpage, List.getLast?_concat]
          dsimp only
          rw [hrest]
          conv_rhs => rw [← List.take_append_drop controlPage range, mapM_append_eq, hpage]
      · have hnone : db.controlRows sessionId source cursor throughSeq = [] := by
          rw [Db.controlRows, between, List.filter_eq_nil_iff]
          intro row _
          simp
          omega
        rw [if_neg hlt, hnone]
        rfl

section Reading

variable {db : Db} {messages : List Message}

theorem Ledger.sorted_ofSource (h : Ledger db messages) (sessionId source : String) :
    Sorted Message.seq (ofSource sessionId source messages) := by
  have hsession : Sorted Message.seq (ofSession sessionId messages) := by
    rw [Sorted, ← List.pairwise_map, h.seqs]
    exact List.pairwise_lt_range
  exact hsession.filter _

theorem Ledger.sourceRows_eq (h : Ledger db messages) (sessionId source : String) :
    db.sourceRows sessionId (some source) = (ofSource sessionId source messages).map Message.row := by
  rw [Db.sourceRows, h.sessionRows_eq, h.rows, List.filter_map, List.filter_map]
  rfl

theorem Ledger.maxSeq_eq (h : Ledger db messages) (sessionId source : String)
    (p : MessageRow → Bool) :
    (db.maxSeq fun row => row.sessionKey = sessionId && row.source = source && p row)
      = ((ofSource sessionId source messages).filter fun m => p m.row).getLast?.map
          Message.seq := by
  have hfilter : (db.messages.filter fun row =>
      row.sessionKey = sessionId && row.source = source && p row).map MessageRow.seq
      = ((ofSource sessionId source messages).filter fun m => p m.row).map Message.seq := by
    rw [h.rows, List.filter_map, List.map_map, ofSource, ofSession, List.filter_filter,
      List.filter_filter]
    congr 1
    refine List.filter_congr fun m _ => ?_
    change (decide (m.sessionId = sessionId) && decide (m.source = source) && p m.row)
      = (p m.row && decide (m.source = source) && decide (m.sessionId = sessionId))
    ac_rfl
  rw [Db.maxSeq, hfilter]
  exact Sorted.max?_eq ((h.sorted_ofSource sessionId source).filter _)

theorem Ledger.sourceHead_eq (h : Ledger db messages) (sessionId source : String) :
    db.sourceHead sessionId source
      = lastKey Message.seq (ofSource sessionId source messages) := by
  have hmax := h.maxSeq_eq sessionId source fun _ => true
  simp only [Bool.and_true, List.filter_true] at hmax
  rw [Db.sourceHead, hmax, lastKey]
  cases (ofSource sessionId source messages).getLast? <;> rfl

theorem Ledger.latestInputSeq_eq (h : Ledger db messages) (sessionId source : String) :
    db.latestInputSeq sessionId source (db.sourceHead sessionId source)
      = ((ofSource sessionId source messages).filter fun m => m.body.isInput).getLast?.map
          Message.seq := by
  rw [Db.latestInputSeq, h.maxSeq_eq sessionId source]
  congr 2
  refine List.filter_congr fun m hm => ?_
  have hle := (h.sorted_ofSource sessionId source).le_lastKey m hm
  rw [← h.sourceHead_eq] at hle
  have hkind : decide (bodyKind m.row.body = some (.str "input")) = m.body.isInput := by
    rw [Message.row, bodyKind_payload]
    cases m.body <;> rfl
  rw [hkind]
  change (decide ((m.seq : ℤ) ≤ db.sourceHead sessionId source) && m.body.isInput) = _
  rw [decide_eq_true hle, Bool.true_and]

theorem finishedOutput_payload (body : Body) : finishedOutput (payload body) = body.isFinished := by
  cases body with
  | output body =>
      have hfinish : (payload (.output body)).get? "finish" = some (.str body.finish.text) := rfl
      rw [finishedOutput, hfinish]
      cases hf : body.finish <;> simp [Body.isFinished, hf, Body.type, BodyType.text, Finish.text]
  | _ => rfl

theorem Ledger.latestFinishedOutputSeq_eq (h : Ledger db messages) (sessionId source : String)
    (afterSeq : ℤ) :
    coalesceSeq (db.latestFinishedOutputSeq sessionId source afterSeq
        (db.sourceHead sessionId source))
      = lastFinished ((ofSource sessionId source messages).filter fun m => afterSeq < m.seq) := by
  rw [Db.latestFinishedOutputSeq, h.maxSeq_eq sessionId source, lastFinished, List.filter_filter]
  have hfilter : (ofSource sessionId source messages).filter (fun m =>
      decide (afterSeq < m.row.seq) && decide ((m.row.seq : ℤ) ≤ db.sourceHead sessionId source) &&
        finishedOutput m.row.body)
      = (ofSource sessionId source messages).filter fun m =>
          m.body.isFinished && decide (afterSeq < m.seq) := by
    refine List.filter_congr fun m hm => ?_
    have hle := (h.sorted_ofSource sessionId source).le_lastKey m hm
    rw [← h.sourceHead_eq] at hle
    change (decide (afterSeq < m.seq) && decide ((m.seq : ℤ) ≤ db.sourceHead sessionId source) &&
      finishedOutput (payload m.body)) = _
    rw [decide_eq_true hle, Bool.and_true, finishedOutput_payload, Bool.and_comm]
  rw [hfilter, lastKey]
  cases (((ofSource sessionId source messages).filter _).getLast?) <;> rfl

theorem controlOf_row {m : Message} {row : ℕ × Control} (h : m.control? = some row) :
    controlOf m.row = .ok row := by
  rw [Message.control?] at h
  split at h
  · next body hbody =>
      obtain rfl := Option.some.inj h
      have hbelow := m.control_ok body hbody
      have hdecode : decodeBody m.row.body = .ok (.control body) := by
        rw [Message.row, hbody, decodeBody_payload]
      rw [controlOf, hdecode]
      change (if body.throughSeq ≥ m.seq then _ else _) = _
      rw [if_neg (by omega)]
      rfl
  · cases h

theorem Ledger.scanControls_eq (h : Ledger db messages) (sessionId source : String)
    (afterSeq : ℤ) :
    db.scanControls sessionId source afterSeq (db.sourceHead sessionId source)
      = .ok (((ofSource sessionId source messages).filter fun m => afterSeq < m.seq).filterMap
          Message.control?) := by
  have hrows := h.sourceRows_eq sessionId source
  have hsorted : Sorted MessageRow.seq (db.sourceRows sessionId (some source)) := by
    rw [hrows, Sorted, List.pairwise_map]
    exact h.sorted_ofSource sessionId source
  have hcontrols : db.controlRows sessionId source afterSeq (db.sourceHead sessionId source)
      = ((((ofSource sessionId source messages).filter fun m => afterSeq < m.seq)).filter
          fun m => m.control?.isSome).map Message.row := by
    rw [Db.controlRows, hrows, between, List.filter_filter, List.filter_map, List.filter_filter]
    congr 1
    refine List.filter_congr fun m hm => ?_
    have hle := (h.sorted_ofSource sessionId source).le_lastKey m hm
    rw [← h.sourceHead_eq] at hle
    have hkind : decide (bodyKind m.row.body = some (.str "control")) = m.control?.isSome := by
      rw [Message.row, bodyKind_payload, Message.control?]
      cases m.body <;> rfl
    change (decide (afterSeq < m.seq) && decide ((m.seq : ℤ) ≤ db.sourceHead sessionId source) &&
      decide (bodyKind m.row.body = some (.str "control"))) = _
    rw [hkind, decide_eq_true hle, Bool.and_true, Bool.and_comm]
  have hfuel : (db.controlRows sessionId source afterSeq
      (db.sourceHead sessionId source)).length < db.messages.length + 1 := by
    rw [hcontrols, List.length_map, h.rows, List.length_map, Nat.lt_succ_iff]
    refine (List.length_filter_le _ _).trans ((List.length_filter_le _ _).trans ?_)
    exact (List.length_filter_le _ _).trans (List.length_filter_le _ _)
  rw [Db.scanControls, controlPages_eq hsorted _ _ _ hfuel, hcontrols]
  generalize (ofSource sessionId source messages).filter (fun m => afterSeq < m.seq) = rest
  clear hcontrols hfuel hsorted hrows
  induction rest with
  | nil => rfl
  | cons m rest ih =>
      cases hcontrol : m.control? with
      | none => simpa [List.filter_cons, hcontrol] using ih
      | some row =>
          rw [List.filter_cons_of_pos (by rw [hcontrol]; rfl), List.map_cons, List.mapM_cons,
            controlOf_row hcontrol, ih, List.filterMap_cons_some hcontrol]
          rfl

end Reading

/-! ### Both readings -/

theorem readState_ofSession (messages : List Message) (sessionId source : String) :
    readState (ofSession sessionId messages) source
      = (ofSource sessionId source messages).foldl ReplyState.add .start := by
  rw [readState, ofSource, List.foldl_filter]
  simp only [decide_eq_true_eq]

theorem foldl_add_head (state : ReplyState) (messages : List Message) :
    (messages.foldl ReplyState.add state).head
      = (messages.getLast?.map fun m => (m.seq : ℤ)).getD state.head := by
  rcases List.eq_nil_or_concat' messages with rfl | ⟨front, m, rfl⟩
  · rfl
  · rw [List.foldl_append, List.foldl_cons, List.foldl_nil, ReplyState.add_head,
      List.getLast?_concat]
    rfl

theorem foldl_add_latestInput {state : ReplyState}
    (hinputs : ∀ m ∈ messages, m.body.isInput = false) :
    (messages.foldl ReplyState.add state).latestInput = state.latestInput := by
  induction messages generalizing state with
  | nil => rfl
  | cons m messages ih =>
      rw [List.foldl_cons, ih fun x hx => hinputs x (List.mem_cons_of_mem _ hx), ReplyState.add]
      have hm := hinputs m List.mem_cons_self
      cases hbody : m.body with
      | input body => rw [hbody] at hm; cases hm
      | output body => dsimp only; split <;> rfl
      | toolResult body => rfl
      | control body => exact (ReplyState.addControl_fields _ body).2

theorem split_at_last {α : Type} {p : α → Bool} {xs : List α} {x : α}
    (h : (xs.filter p).getLast? = some x) :
    ∃ front rest, xs = front ++ x :: rest ∧ ∀ y ∈ rest, p y = false := by
  obtain ⟨ys, hys⟩ := List.getLast?_eq_some_iff.mp h
  obtain ⟨l₁, l₂, rfl, -, hlast⟩ := List.filter_eq_append_iff.mp hys
  obtain ⟨front, rest, rfl, -, -, hrest⟩ := List.filter_eq_cons_iff.mp hlast
  refine ⟨l₁ ++ front, rest, by rw [List.append_assoc], fun y hy => ?_⟩
  simpa using List.filter_eq_nil_iff.mp hrest y hy

/-- At an input, everything the whole sequence has seen lies below, so the reader may start
from nothing. -/
theorem agree_at_input {front : List Message} {input : Message}
    (hfront : Sorted Message.seq front) (hbefore : ∀ m ∈ front, m.seq < input.seq)
    (hinput : input.body.isInput = true) :
    ((front.foldl ReplyState.add .start).add input).Agree ⟨input.seq, input.seq, -1, -1⟩ := by
  have hat : (front.foldl ReplyState.add .start).Agree (front.foldl ReplyState.add .start) :=
    ReplyState.agree_start.foldl_add hfront fun m _ => by
      change (-1 : ℤ) < m.seq
      omega
  have hhead : (front.foldl ReplyState.add .start).head < input.seq := by
    rw [foldl_add_head]
    rcases List.eq_nil_or_concat' front with rfl | ⟨ys, y, rfl⟩
    · change (-1 : ℤ) < input.seq
      omega
    · have := hbefore y (List.mem_append_right _ List.mem_cons_self)
      rw [List.getLast?_concat, Option.map_some, Option.getD_some]
      omega
  obtain ⟨hb, hb', hp, hp'⟩ := hat.left
  rw [ReplyState.add]
  cases hbody : input.body with
  | input body =>
      dsimp only
      refine ⟨rfl, rfl, ⟨hb, by dsimp only; omega, hp, by dsimp only; omega⟩,
        ⟨le_refl _, by dsimp only; omega, le_refl _, by dsimp only; omega⟩, ?_, ?_⟩
      · exact fun _ => .inr ⟨by dsimp only; omega, by dsimp only; omega⟩
      · exact fun _ => .inr ⟨by dsimp only; omega, by dsimp only; omega⟩
  | _ => rw [hbody] at hinput; cases hinput

theorem addControls_head_eq (state : ReplyState) (controls : List (ℕ × Control)) :
    (state.addControls controls).head = state.head := by
  induction controls generalizing state with
  | nil => rfl
  | cons row controls ih =>
      rw [ReplyState.addControls, List.foldl_cons]
      exact (ih _).trans (ReplyState.addControl_fields state row.2).1

theorem readState_head {db : Db} {sessionId source : String} {state : ReplyState}
    (h : db.readState sessionId source = .ok state) :
    state.head = db.sourceHead sessionId source := by
  rw [Db.readState] at h
  dsimp only at h
  split at h
  · obtain rfl := Except.ok.inj h
    rfl
  · obtain ⟨controls, -, h⟩ := bind_eq_ok.mp h
    obtain rfl := Except.ok.inj h
    exact addControls_head_eq _ controls

/-- **The two readings of a log agree.** Where the source has an input, the whole sequence
is split at the latest one: what its state holds from before stays below it. -/
theorem Ledger.readState_agree {db : Db} (h : Ledger db messages) (sessionId source : String) :
    ∃ state, db.readState sessionId source = .ok state ∧
      (readState (ofSession sessionId messages) source).Agree state := by
  have hsorted := h.sorted_ofSource sessionId source
  have hhead := h.sourceHead_eq sessionId source
  have hinput := h.latestInputSeq_eq sessionId source
  have hfinished := h.latestFinishedOutputSeq_eq sessionId source
  have hcontrols := h.scanControls_eq sessionId source
  rw [readState_ofSession]
  generalize ofSource sessionId source messages = xs at hsorted hhead hinput hfinished hcontrols ⊢
  have hwhole : (xs.foldl ReplyState.add .start).Agree (xs.foldl ReplyState.add .start) :=
    ReplyState.agree_start.foldl_add hsorted fun m _ => by
      change (-1 : ℤ) < m.seq
      omega
  rw [Db.readState]
  dsimp only
  rw [hinput]
  cases hlast : (xs.filter fun m => m.body.isInput).getLast? with
  | none =>
      have hnone : ∀ m ∈ xs, m.body.isInput = false := by
        intro m hm
        rw [List.getLast?_eq_none_iff, List.filter_eq_nil_iff] at hlast
        simpa using hlast m hm
      have hinputs : (xs.foldl ReplyState.add .start).latestInput = -1 :=
        foldl_add_latestInput hnone
      have hxs : (xs.foldl ReplyState.add .start).head = db.sourceHead sessionId source := by
        rw [foldl_add_head, hhead, lastKey]
        cases xs.getLast? <;> rfl
      refine ⟨_, rfl, hxs, hinputs, hwhole.left, ?_, fun hsome => ?_, fun hsome => ?_⟩
      · have hge : -1 ≤ db.sourceHead sessionId source := hhead ▸ neg_one_le_lastKey xs
        exact ⟨le_refl _, hge, le_refl _, hge⟩
      · rw [hinputs] at hsome
        cases hsome
      · rw [hinputs] at hsome
        cases hsome
  | some input =>
      obtain ⟨front, rest, rfl, hrest⟩ := split_at_last hlast
      obtain ⟨hfront, hback, hbefore⟩ := List.pairwise_append.mp hsorted
      obtain ⟨habove, hbackrest⟩ := List.pairwise_cons.mp hback
      have hafter : (front ++ input :: rest).filter (fun m => (input.seq : ℤ) < m.seq) = rest := by
        rw [List.filter_append, List.filter_cons_of_neg (by simp), List.filter_eq_nil_iff.mpr,
          List.nil_append, List.filter_eq_self]
        · intro m hm
          have := habove m hm
          simpa using this
        · intro m hm
          have := hbefore m hm input List.mem_cons_self
          simp
          omega
      have hinputBody : input.body.isInput = true :=
        (List.mem_filter.mp (List.mem_of_getLast? hlast)).2
      have hnow := hfinished input.seq
      have hscan := hcontrols input.seq
      rw [hafter] at hnow hscan
      rw [Option.map_some]
      dsimp only
      rw [hscan]
      refine ⟨_, rfl, ?_⟩
      have hlastSeq : db.sourceHead sessionId source
          = (rest.getLast?.map fun m => (m.seq : ℤ)).getD input.seq := by
        rw [hhead, lastKey]
        rcases List.eq_nil_or_concat' rest with rfl | ⟨ys, y, rfl⟩
        · rw [List.getLast?_concat]; rfl
        · rw [List.getLast?_concat, ← List.cons_append, ← List.append_assoc, List.getLast?_concat]
          rfl
      have hreader := foldl_add_eq input.seq hbackrest hrest _ hlastSeq
      rw [ReplyState.addControls] at hreader
      dsimp only [ReplyState.start]
      rw [hnow, ← hreader, List.foldl_append, List.foldl_cons]
      exact (agree_at_input hfront (fun m hm => hbefore m hm input List.mem_cons_self)
        hinputBody).foldl_add hbackrest fun m hm => by
          rw [ReplyState.add_head]
          have := habove m hm
          omega

/-- **The two ways to decide whether a source waits for a reply agree.** The message reader
and the whole sequence of a session of a ledger give the same answer and the same head; and
after any further message of the source, adding it to either state answers as reading the
new log from the start does, in both ways. -/
theorem readState_agrees {db : Db} {messages : List Message} (h : Ledger db messages)
    (sessionId source : String) :
    ∃ state, db.readState sessionId source = .ok state ∧
      state.pending = (readState (ofSession sessionId messages) source).pending ∧
      state.head = (readState (ofSession sessionId messages) source).head ∧
      ∀ (db' : Db) (m : Message), Ledger db' (messages ++ [m]) → m.sessionId = sessionId →
        m.source = source →
        ∃ state', db'.readState sessionId source = .ok state' ∧
          state'.pending = (readState (ofSession sessionId (messages ++ [m])) source).pending ∧
          (state.add m).pending = state'.pending ∧
          ((readState (ofSession sessionId messages) source).add m).pending
            = state'.pending := by
  obtain ⟨state, hstate, hagree⟩ := h.readState_agree sessionId source
  refine ⟨state, hstate, hagree.pending_eq.symm, hagree.head.symm, ?_⟩
  intro db' m hnew hsession hsource
  obtain ⟨state', hstate', hagree'⟩ := hnew.readState_agree sessionId source
  have hxs : ofSource sessionId source (messages ++ [m])
      = ofSource sessionId source messages ++ [m] := by
    rw [ofSource, ofSession_append, ofSession_singleton, if_pos hsession, List.filter_append,
      List.filter_cons_of_pos (by simpa using hsource), List.filter_nil]
    rfl
  have hwhole : readState (ofSession sessionId (messages ++ [m])) source
      = (readState (ofSession sessionId messages) source).add m := by
    rw [readState_ofSession, readState_ofSession, hxs, List.foldl_append]
    rfl
  have hnext : (readState (ofSession sessionId messages) source).head < m.seq := by
    have hsorted := hnew.sorted_ofSource sessionId source
    rw [hxs] at hsorted
    have hlast := hsorted.lastKey_lt m List.mem_cons_self
    rw [hagree.head, (readState_head hstate), h.sourceHead_eq]
    exact hlast
  refine ⟨state', hstate', hagree'.pending_eq.symm, ?_, ?_⟩
  · rw [← (hagree.add hnext).pending_eq, ← hwhole]
    exact hagree'.pending_eq
  · rw [← hwhole]
    exact hagree'.pending_eq

/-! ### A log of one conversation -/

/-- A database that holds one conversation. -/
def chatDb (messages : List Message) : Db :=
  { Db.fresh with
    sessions := (∅ : AList fun _ : String => SessionRow).insert "session"
      ⟨⟨"2026-01-01T00:00:00+00:00"⟩, ⟨"2026-01-01T00:00:00+00:00"⟩, none, messages.length⟩
    messages := messages.map Message.row }

theorem ledger_chatDb (hsession : ∀ m ∈ messages, m.sessionId = "session")
    (hseqs : messages.map Message.seq = List.range messages.length)
    (hresults : ∀ m ∈ messages, m.body.type ≠ .toolResult)
    (hids : (messages.map Message.messageId).Nodup) : Ledger (chatDb messages) messages := by
  refine ⟨rfl, fun s => ?_, ?_, ?_, hids⟩
  · by_cases hs : s = "session"
    · subst hs
      have hall : ofSession "session" messages = messages :=
        List.filter_eq_self.mpr fun m hm => by simpa using hsession m hm
      have hnext : (chatDb messages).nextSeq "session" = messages.length := by
        rw [Db.nextSeq, chatDb, AList.lookup_insert]
        rfl
      rw [hall, hseqs, hnext]
    · have hnone : ofSession s messages = [] := by
        refine List.filter_eq_nil_iff.mpr fun m hm => ?_
        have := hsession m hm
        simp [this, Ne.symm hs]
      have hnext : (chatDb messages).nextSeq s = 0 := by
        rw [Db.nextSeq, chatDb, AList.lookup_insert_ne hs]
        rfl
      rw [hnone, hnext]
      rfl
  · intro m hm r hbody
    exact absurd (by rw [hbody]; rfl) (hresults m hm)
  · refine List.pairwise_of_forall_mem_list fun m hm m' _ r _ hbody _ => ?_
    exact absurd (by rw [hbody]; rfl) (hresults m hm)

theorem control_ok_pause : ∀ c, Body.control ⟨.pause, 0, none⟩ = .control c → c.throughSeq < 1 := by
  rintro c hc
  cases hc
  decide

theorem control_ok_newer : ∀ c, Body.input ⟨[]⟩ = .control c → c.throughSeq < 2 := by
  simp

theorem pauseId_ne : "pause-1" ≠ "" := by decide

/-- An input that is paused, a newer input, and a resume of the old prefix. -/
def pausedMessages : List Message :=
  [chatMessage "input-1" 0 (.input ⟨[]⟩) firstInput_ne control_ok_firstInput,
    chatMessage "pause-1" 1 (.control ⟨.pause, 0, none⟩) pauseId_ne control_ok_pause,
    chatMessage "input-2" 2 (.input ⟨[]⟩) secondInput_ne control_ok_newer]

/-- The resume that follows. -/
def resumeMessage : Message :=
  chatMessage "resume-1" 3 (.control ⟨.resume, 0, none⟩) (by decide)
    (by rintro c hc; cases hc; decide)

/-- The agreement on the paused conversation, and after its resume. -/
theorem readState_agrees_pausedMessages :
    ∃ state, (chatDb pausedMessages).readState "session" "chat" = .ok state ∧
      state.pending = (readState (ofSession "session" pausedMessages) "chat").pending ∧
      (state.add resumeMessage).pending
        = (readState (ofSession "session" (pausedMessages ++ [resumeMessage])) "chat").pending := by
  have hbefore : Ledger (chatDb pausedMessages) pausedMessages :=
    ledger_chatDb (by decide) (by decide) (by decide) (by decide)
  have hafter : Ledger (chatDb (pausedMessages ++ [resumeMessage]))
      (pausedMessages ++ [resumeMessage]) :=
    ledger_chatDb (by decide) (by decide) (by decide) (by decide)
  obtain ⟨state, hstate, hpending, -, hnext⟩ := readState_agrees hbefore "session" "chat"
  obtain ⟨state', -, hpending', hadded, -⟩ := hnext _ resumeMessage hafter rfl rfl
  exact ⟨state, hstate, hpending, hadded.trans hpending'⟩

end Kirakira
