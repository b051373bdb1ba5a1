import Kirakira.Ledger
import Kirakira.Lib.SortedBy

/-!
# Turns of a Session

`TurnProjection.project` of `plugins/turn_projection/plugin.py`: it reads the messages of a
session in order and cuts those of one source into turns. A turn is closed by an output that
finishes, or afterwards by a control that abandons everything up to some sequence number;
what is left at the end is the open turn. A consumer that has dealt with a closed turn goes
on from its end with the messages after it.

## Main results

* `project_eq_ok` — a projection checks the order of all messages and advances over those
  of its source.
* `advance_withTurns` — a projection that goes on from a closed turn takes the same steps.
* `resumed_abandon` — where a control closes a turn in retrospect, what was read since then
  is what a projection from its end has read.
* `project_resume` — going on from a closed turn returns exactly the turns that follow it.
-/

namespace Kirakira

open Exceptions SortedBy

/-! ### Turns -/

/-- How a turn stands; `openTail` is `"open"`. -/
inductive TurnStatus where
  | openTail
  | complete
  | quiet
  | abandoned
  deriving DecidableEq, Repr

/-- `Turn`. -/
structure Turn where
  source : String
  afterSeq : ℤ
  throughSeq : ℤ
  endingMessageId : Option String
  status : TurnStatus
  messageIds : List String
  observations : List (CallRef × String)
  deriving DecidableEq

/-- `_Member`: a message of the turn that is being read. -/
structure Member where
  seq : ℕ
  messageId : String
  callRef : Option CallRef
  calls : List CallRef
  deriving DecidableEq

/-- `_build_turn`. -/
def buildTurn (source : String) (afterSeq throughSeq : ℤ) (endingMessageId : Option String)
    (status : TurnStatus) (messages : List Member) : Turn where
  source := source
  afterSeq := afterSeq
  throughSeq := throughSeq
  endingMessageId := endingMessageId
  status := status
  messageIds := (messages.filter fun item => item.callRef = none).map Member.messageId
  observations := messages.filterMap fun item =>
    item.callRef.map fun ref => (ref, item.messageId)

/-- The calls an output proposes. -/
def Output.callRefs (output : Output) (messageId : String) (h : messageId ≠ "") :
    List CallRef :=
  (output.parts.zipIdx.filter fun part => part.1.isToolCall).map fun part =>
    ⟨messageId, part.2, h⟩

/-- The status of a turn that an output finishes. -/
def Finish.status : Finish → TurnStatus
  | .quiet => .quiet
  | _ => .complete

/-! ### The projection -/

/-- The variables of `project` that depend on the source. -/
structure Segments where
  afterSeq : ℤ
  turns : List Turn
  pending : List Member
  calls : List CallRef
  sourceHead : ℤ

/-- A projection that has read nothing. -/
def Segments.start (afterSeq : ℤ) : Segments :=
  ⟨afterSeq, [], [], [], afterSeq⟩

/-- A member more, and the calls it proposes. -/
def Segments.add (g : Segments) (item : Member) : Segments :=
  { g with pending := g.pending ++ [item], calls := g.calls ++ item.calls }

/-- `turns.append(…)`, when closed turns are included. -/
def Segments.close (g : Segments) (includeClosed : Bool) (turn : Turn) : List Turn :=
  if includeClosed then g.turns ++ [turn] else g.turns

/-- An output has finished the turn. -/
def Segments.finished (g : Segments) (source : String) (includeClosed : Bool) (m : Message)
    (status : TurnStatus) : Segments where
  afterSeq := m.seq
  turns := g.close includeClosed
    (buildTurn source g.afterSeq m.seq (some m.messageId) status g.pending)
  pending := []
  calls := []
  sourceHead := g.sourceHead

/-- What is after the abandoned prefix. -/
def Segments.after (g : Segments) (throughSeq : ℕ) : List Member :=
  g.pending.filter fun item => throughSeq < item.seq

/-- What is in the abandoned prefix. -/
def Segments.upTo (g : Segments) (throughSeq : ℕ) : List Member :=
  g.pending.filter fun item => item.seq ≤ throughSeq

/-- Whether the member is no result, or the result of one of these calls. -/
def Member.answers (calls : List CallRef) (item : Member) : Bool :=
  item.callRef.all fun ref => calls.contains ref

/-- Members without the results of other calls. -/
def answering (calls : List CallRef) (items : List Member) : List Member :=
  items.filter (Member.answers calls)

/-- A control has abandoned everything up to the number. -/
def Segments.abandoned (g : Segments) (source : String) (includeClosed : Bool) (m : Message)
    (throughSeq : ℕ) : Segments where
  afterSeq := throughSeq
  turns :=
    if g.upTo throughSeq = [] then g.turns
    else g.close includeClosed (buildTurn source g.afterSeq throughSeq (some m.messageId)
      .abandoned (g.upTo throughSeq))
  pending := answering ((g.after throughSeq).flatMap Member.calls) (g.after throughSeq)
  calls := (g.after throughSeq).flatMap Member.calls
  sourceHead := g.sourceHead

/-- The branches of the loop for a message of the source; `consumedThrough` is where the
projection began. -/
def Segments.advance (source : String) (includeClosed : Bool) (consumedThrough : ℤ)
    (g : Segments) (m : Message) : Except PyError Segments :=
  let seen := { g with sourceHead := m.seq }
  match m.body with
  | .input _ => .ok (seen.add ⟨m.seq, m.messageId, none, []⟩)
  | .output o =>
      let added := seen.add ⟨m.seq, m.messageId, none, o.callRefs m.messageId m.identity_ok.1⟩
      if o.finish = .continue then .ok added
      else .ok (added.finished source includeClosed m o.finish.status)
  | .toolResult r =>
      if g.calls.contains r.callRef then .ok (seen.add ⟨m.seq, m.messageId, some r.callRef, []⟩)
      else .ok seen
  | .control c =>
      if c.action ≠ .abandon then .ok seen
      else if (c.throughSeq : ℤ) ≤ consumedThrough then .ok seen
      else if (c.throughSeq : ℤ) ≤ g.afterSeq then
        valueError "abandon 不能重新关闭已经结束的前缀"
      else .ok (seen.abandoned source includeClosed m c.throughSeq)

/-- The variables of `project`. -/
structure Projecting where
  sessionId : Option String
  previousSeq : ℤ
  segments : Segments

/-- One round of the loop. -/
def Projecting.read (source : String) (includeClosed : Bool) (consumedThrough : ℤ)
    (st : Projecting) (m : Message) : Except PyError Projecting :=
  let sessionId := st.sessionId.getD m.sessionId
  if m.sessionId ≠ sessionId ∨ (m.seq : ℤ) ≤ st.previousSeq then
    valueError "Turn 投影要求同一 Session 按 seq 严格递增"
  else if m.source ≠ source then .ok ⟨some sessionId, m.seq, st.segments⟩
  else do
    let segments ← st.segments.advance source includeClosed consumedThrough m
    return ⟨some sessionId, m.seq, segments⟩

/-- The turns at the end: what is pending is the open one. -/
def Segments.result (g : Segments) (source : String) : List Turn :=
  if g.pending = [] then g.turns
  else g.turns ++ [buildTurn source g.afterSeq g.sourceHead none .openTail g.pending]

/-- `TurnProjection.project`. -/
def project (messages : List Message) (source : String) (afterSeq : ℤ) (includeClosed : Bool) :
    Except PyError (List Turn) := do
  let st ← messages.foldlM (Projecting.read source includeClosed afterSeq)
    ⟨none, afterSeq, .start afterSeq⟩
  return st.segments.result source

/-! ### Order -/

/-- The messages that pass the check of the loop. -/
def InOrder : Option String → ℤ → List Message → Prop
  | _, _, [] => True
  | sessionId, previousSeq, m :: messages =>
      m.sessionId = sessionId.getD m.sessionId ∧ previousSeq < m.seq ∧
        InOrder (some m.sessionId) m.seq messages

/-- Messages in order are of one session and have increasing numbers. -/
theorem inOrder_iff (sessionId : Option String) (previousSeq : ℤ) (messages : List Message) :
    InOrder sessionId previousSeq messages ↔
      (∀ m ∈ messages, previousSeq < m.seq) ∧ Sorted Message.seq messages ∧
        (∀ m ∈ messages, ∀ s, sessionId = some s → m.sessionId = s) ∧
        messages.Pairwise fun a b => b.sessionId = a.sessionId := by
  induction messages generalizing sessionId previousSeq with
  | nil => simp [InOrder, Sorted]
  | cons m messages ih =>
      rw [InOrder, ih, Sorted, Sorted, List.pairwise_cons, List.pairwise_cons]
      constructor
      · rintro ⟨hsession, hlt, habove, hsorted, hsame, hpairs⟩
        have hall : ∀ x ∈ messages, x.sessionId = m.sessionId :=
          fun x hx => hsame x hx m.sessionId rfl
        refine ⟨?_, ⟨?_, hsorted⟩, ?_, hall, hpairs⟩
        · intro x hx
          rcases List.mem_cons.mp hx with rfl | hrest
          · exact hlt
          · exact lt_trans hlt (habove x hrest)
        · intro x hx
          have := habove x hx
          omega
        · rintro x hx s rfl
          rcases List.mem_cons.mp hx with rfl | hrest
          · exact hsession
          · exact (hall x hrest).trans hsession
      · rintro ⟨habove, ⟨hlt, hsorted⟩, hsession, hall, hpairs⟩
        refine ⟨?_, habove m List.mem_cons_self, ?_, hsorted, ?_, hpairs⟩
        · cases sessionId with
          | none => rfl
          | some s => exact hsession m List.mem_cons_self s rfl
        · intro x hx
          have := hlt x hx
          omega
        · intro x hx s hs
          exact (hall x hx).trans (Option.some.inj hs)

variable {messages ms read : List Message} {includeClosed : Bool} {source : String} {c : ℤ}
  {g g' h : Segments} {m : Message} {item : Member} {t : ℕ}

theorem InOrder.after {previousSeq : ℤ} (h : InOrder none previousSeq messages) (t : ℤ) :
    InOrder none t (messages.filter fun m => t < (m.seq : ℤ)) := by
  rw [inOrder_iff] at h ⊢
  obtain ⟨-, hsorted, -, hpairs⟩ := h
  refine ⟨fun m hm => ?_, hsorted.filter _, fun m _ s hs => ?_, hpairs.filter _⟩
  · simpa using (List.mem_filter.mp hm).2
  · cases hs

/-- **The loop** checks the order of all messages and advances over those of the source. -/
theorem read_eq_ok (source : String) (includeClosed : Bool) (consumedThrough : ℤ)
    (messages : List Message) (st : Projecting) (g : Segments) :
    (∃ st', messages.foldlM (Projecting.read source includeClosed consumedThrough) st = .ok st' ∧
        st'.segments = g) ↔
      InOrder st.sessionId st.previousSeq messages ∧
        (messages.filter fun m => m.source = source).foldlM
          (Segments.advance source includeClosed consumedThrough) st.segments = .ok g := by
  induction messages generalizing st with
  | nil =>
      constructor
      · rintro ⟨st', hst', rfl⟩
        obtain rfl := Except.ok.inj hst'
        exact ⟨trivial, rfl⟩
      · rintro ⟨-, hg⟩
        exact ⟨st, rfl, Except.ok.inj hg⟩
  | cons m messages ih =>
      rw [List.foldlM_cons, InOrder, Projecting.read]
      by_cases hcheck : m.sessionId ≠ st.sessionId.getD m.sessionId ∨
          (m.seq : ℤ) ≤ st.previousSeq
      · rw [if_pos hcheck]
        constructor
        · rintro ⟨st', hst', -⟩
          cases hst'
        · rintro ⟨⟨hsession, hlt, -⟩, -⟩
          rcases hcheck with hne | hle
          · exact absurd hsession hne
          · omega
      · rw [if_neg hcheck]
        obtain ⟨hsession, hlt⟩ := not_or.mp hcheck
        have hsession' := not_not.mp hsession
        have hlt' := not_le.mp hlt
        rw [← hsession']
        by_cases hsource : m.source = source
        · rw [if_neg (not_not.mpr hsource), List.filter_cons_of_pos (by simpa using hsource),
            List.foldlM_cons]
          cases hadvance : st.segments.advance source includeClosed consumedThrough m with
          | error e =>
              constructor
              · rintro ⟨st', hst', -⟩
                cases hst'
              · rintro ⟨-, hg⟩
                cases hg
          | ok g' =>
              refine (ih ⟨some m.sessionId, m.seq, g'⟩).trans ?_
              exact and_congr_left fun _ =>
                ⟨fun h => ⟨rfl, hlt', h⟩, fun h => h.2.2⟩
        · rw [if_pos hsource, List.filter_cons_of_neg (by simpa using hsource)]
          refine (ih ⟨some m.sessionId, m.seq, st.segments⟩).trans ?_
          exact and_congr_left fun _ => ⟨fun h => ⟨rfl, hlt', h⟩, fun h => h.2.2⟩

variable {turns : List Turn} {turn : Turn}

/-- **A projection**, as a run over the messages of its source. -/
theorem project_eq_ok {afterSeq : ℤ} :
    project messages source afterSeq includeClosed = .ok turns ↔
      InOrder none afterSeq messages ∧ ∃ g,
        (messages.filter fun m => m.source = source).foldlM
          (Segments.advance source includeClosed afterSeq) (.start afterSeq) = .ok g ∧
        turns = g.result source := by
  constructor
  · intro h
    obtain ⟨st, hst, hturns⟩ := bind_eq_ok.mp h
    obtain ⟨horder, hrun⟩ := (read_eq_ok source includeClosed afterSeq messages
      ⟨none, afterSeq, .start afterSeq⟩ st.segments).mp ⟨st, hst, rfl⟩
    exact ⟨horder, st.segments, hrun, (Except.ok.inj hturns).symm⟩
  · rintro ⟨horder, g, hrun, rfl⟩
    obtain ⟨st, hst, rfl⟩ := (read_eq_ok source includeClosed afterSeq messages
      ⟨none, afterSeq, .start afterSeq⟩ g).mpr ⟨horder, hrun⟩
    exact bind_eq_ok.mpr ⟨st, hst, rfl⟩

/-! ### Projections in the same turn -/

/-- A projection in the same turn that has returned these turns. -/
def Segments.withTurns (g : Segments) (turns : List Turn) : Segments :=
  { g with turns := turns }

/-- What a projection that includes closed turns adds, another one may leave out. -/
def included (includeClosed : Bool) (turns : List Turn) : List Turn :=
  if includeClosed then turns else []

@[simp] theorem included_nil (includeClosed : Bool) : included includeClosed [] = [] :=
  ite_self []

@[simp] theorem included_true (turns : List Turn) : included true turns = turns := rfl

theorem included_append (includeClosed : Bool) (turns turns' : List Turn) :
    included includeClosed (turns ++ turns')
      = included includeClosed turns ++ included includeClosed turns' := by
  cases includeClosed <;> rfl

theorem close_eq (g : Segments) (includeClosed : Bool) (turn : Turn) :
    g.close includeClosed turn = g.turns ++ included includeClosed [turn] := by
  cases includeClosed with
  | true => rfl
  | false => exact (List.append_nil g.turns).symm

/-- The turn a control closes in retrospect, unless nothing is left in it. -/
def Segments.abandonedTurn (g : Segments) (source : String) (m : Message) (throughSeq : ℕ) :
    Option Turn :=
  if g.upTo throughSeq = [] then none
  else some (buildTurn source g.afterSeq throughSeq (some m.messageId) .abandoned
    (g.upTo throughSeq))

theorem abandoned_turns (g : Segments) (source : String) (includeClosed : Bool) (m : Message)
    (throughSeq : ℕ) : (g.abandoned source includeClosed m throughSeq).turns
      = g.turns ++ included includeClosed (g.abandonedTurn source m throughSeq).toList := by
  rw [Segments.abandoned, Segments.abandonedTurn]
  by_cases hempty : g.upTo throughSeq = []
  · rw [if_pos hempty, if_pos hempty, Option.toList_none, included_nil, List.append_nil]
  · rw [if_neg hempty, if_neg hempty, close_eq]
    rfl

theorem abandoned_withTurns (g : Segments) (source : String) (includeClosed : Bool)
    (m : Message) (throughSeq : ℕ) (ts : List Turn) :
    (g.withTurns ts).abandoned source includeClosed m throughSeq
      = (g.abandoned source true m throughSeq).withTurns
          (ts ++ included includeClosed (g.abandonedTurn source m throughSeq).toList) := by
  have hturns := abandoned_turns (g.withTurns ts) source includeClosed m throughSeq
  change _ = ts ++ included includeClosed (g.abandonedTurn source m throughSeq).toList at hturns
  rw [← hturns]
  rfl

/-- **Projections in the same turn take the same step**, when the one that began later has
passed its beginning. A closed turn that one of them returns the other returns as well,
unless it leaves out closed turns. -/
theorem advance_withTurns (includeClosed : Bool) {c' : ℤ}
    (hstep : g.advance source true c m = .ok g') (hc : c ≤ c') (hc' : c' ≤ g.afterSeq) :
    ∃ new : Option Turn, g'.turns = g.turns ++ new.toList ∧
      (∀ turn ∈ new, turn.status ≠ .openTail) ∧
      ∀ ts, (g.withTurns ts).advance source includeClosed c' m
        = .ok (g'.withTurns (ts ++ included includeClosed new.toList)) := by
  have hsame : ∀ seen : Segments, seen.turns = g.turns →
      (∀ ts, (g.withTurns ts).advance source includeClosed c' m = .ok (seen.withTurns ts)) →
      ∃ new : Option Turn, seen.turns = g.turns ++ new.toList ∧
        (∀ turn ∈ new, turn.status ≠ .openTail) ∧
        ∀ ts, (g.withTurns ts).advance source includeClosed c' m
          = .ok (seen.withTurns (ts ++ included includeClosed new.toList)) := by
    intro seen hturns h
    refine ⟨none, hturns.trans (List.append_nil _).symm, by simp, fun ts => ?_⟩
    rw [Option.toList_none, included_nil, List.append_nil]
    exact h ts
  unfold Segments.advance at hstep hsame ⊢
  cases hbody : m.body with
  | input body =>
      rw [hbody] at hstep hsame
      obtain rfl := Except.ok.inj hstep
      exact hsame _ rfl fun _ => rfl
  | output o =>
      rw [hbody] at hstep hsame
      dsimp only at hstep hsame ⊢
      by_cases hfinish : o.finish = .continue
      · simp only [if_pos hfinish] at hstep hsame ⊢
        obtain rfl := Except.ok.inj hstep
        exact hsame _ rfl fun _ => rfl
      · simp only [if_neg hfinish] at hstep ⊢
        obtain rfl := Except.ok.inj hstep
        refine ⟨some _, close_eq _ true _, fun turn hturn => ?_, fun ts => ?_⟩
        · obtain rfl := Option.some.inj hturn
          cases hstatus : o.finish <;> simp [buildTurn, Finish.status]
        · refine congrArg Except.ok ?_
          rw [Segments.finished, close_eq]
          rfl
  | toolResult r =>
      rw [hbody] at hstep hsame
      dsimp only at hstep hsame ⊢
      by_cases hcall : g.calls.contains r.callRef = true
      · rw [if_pos hcall] at hstep
        obtain rfl := Except.ok.inj hstep
        exact hsame _ rfl fun _ => if_pos hcall
      · rw [if_neg hcall] at hstep
        obtain rfl := Except.ok.inj hstep
        exact hsame _ rfl fun _ => if_neg hcall
  | control control =>
      rw [hbody] at hstep hsame
      dsimp only at hstep hsame ⊢
      by_cases haction : control.action ≠ .abandon
      · rw [if_pos haction] at hstep
        obtain rfl := Except.ok.inj hstep
        exact hsame _ rfl fun _ => if_pos haction
      · simp only [if_neg haction] at hstep hsame ⊢
        by_cases hconsumed : (control.throughSeq : ℤ) ≤ c
        · rw [if_pos hconsumed] at hstep
          obtain rfl := Except.ok.inj hstep
          exact hsame _ rfl fun _ => if_pos (le_trans hconsumed hc)
        · rw [if_neg hconsumed] at hstep
          by_cases hclosed : (control.throughSeq : ℤ) ≤ g.afterSeq
          · rw [if_pos hclosed] at hstep
            cases hstep
          · rw [if_neg hclosed] at hstep
            obtain rfl := Except.ok.inj hstep
            have hlater : ¬ (control.throughSeq : ℤ) ≤ c' := by omega
            refine ⟨_, abandoned_turns _ source true m control.throughSeq, fun turn hturn => ?_,
              fun ts => ?_⟩
            · unfold Segments.abandonedTurn at hturn
              split at hturn
              · cases hturn
              · obtain rfl := Option.some.inj hturn
                simp [buildTurn]
            · refine (if_neg hlater).trans ((if_neg hclosed).trans (congrArg Except.ok ?_))
              exact abandoned_withTurns { g with sourceHead := m.seq } source includeClosed m
                control.throughSeq ts

/-- A step does not move the beginning of the turn back, and not past the message. -/
theorem advance_afterSeq (hstep : g.advance source includeClosed c m = .ok g')
    (hbefore : g.afterSeq < m.seq) : g.afterSeq ≤ g'.afterSeq ∧ g'.afterSeq ≤ m.seq := by
  unfold Segments.advance at hstep
  cases hbody : m.body with
  | input body =>
      rw [hbody] at hstep
      obtain rfl := Except.ok.inj hstep
      exact ⟨le_refl _, le_of_lt hbefore⟩
  | output o =>
      rw [hbody] at hstep
      dsimp only at hstep
      split at hstep
      · obtain rfl := Except.ok.inj hstep
        exact ⟨le_refl _, le_of_lt hbefore⟩
      · obtain rfl := Except.ok.inj hstep
        exact ⟨le_of_lt hbefore, le_refl _⟩
  | toolResult r =>
      rw [hbody] at hstep
      dsimp only at hstep
      split at hstep
      · obtain rfl := Except.ok.inj hstep
        exact ⟨le_refl _, le_of_lt hbefore⟩
      · obtain rfl := Except.ok.inj hstep
        exact ⟨le_refl _, le_of_lt hbefore⟩
  | control control =>
      have hbelow := m.control_ok control hbody
      rw [hbody] at hstep
      dsimp only at hstep
      split at hstep
      · obtain rfl := Except.ok.inj hstep
        exact ⟨le_refl _, le_of_lt hbefore⟩
      · split at hstep
        · obtain rfl := Except.ok.inj hstep
          exact ⟨le_refl _, le_of_lt hbefore⟩
        · obtain ⟨-, ⟨⟩⟩ | ⟨hopen, hstep⟩ := ite_eq_iff.mp hstep
          obtain rfl := Except.ok.inj hstep
          refine ⟨le_of_lt (not_le.mp hopen), ?_⟩
          change ((control.throughSeq : ℕ) : ℤ) ≤ m.seq
          omega

/-- A run over messages above the beginning of the turn does not move it back, and not past
what bounds the messages. -/
theorem run_afterSeq (hrun : ms.foldlM (Segments.advance source includeClosed c) g = .ok g')
    (hsorted : Sorted Message.seq ms) (habove : ∀ m ∈ ms, g.afterSeq < m.seq) :
    g.afterSeq ≤ g'.afterSeq ∧
      ∀ b, g.afterSeq ≤ b → (∀ m ∈ ms, (m.seq : ℤ) ≤ b) → g'.afterSeq ≤ b := by
  induction ms generalizing g with
  | nil =>
      obtain rfl := Except.ok.inj hrun
      exact ⟨le_refl _, fun b hb _ => hb⟩
  | cons m ms ih =>
      rw [List.foldlM_cons] at hrun
      obtain ⟨g₁, hstep, hrest⟩ := bind_eq_ok.mp hrun
      obtain ⟨hfirst, hsorted'⟩ := List.pairwise_cons.mp hsorted
      obtain ⟨hmono, hle⟩ := advance_afterSeq hstep (habove m List.mem_cons_self)
      obtain ⟨hmono', hle'⟩ := ih hrest hsorted' fun x hx => by have := hfirst x hx; omega
      refine ⟨le_trans hmono hmono', fun b _ hb => ?_⟩
      exact hle' b (le_trans hle (hb m List.mem_cons_self))
        fun x hx => hb x (List.mem_cons_of_mem m hx)

/-- **Projections in the same turn take the same run.** -/
theorem run_withTurns (includeClosed : Bool) {c' : ℤ}
    (hrun : ms.foldlM (Segments.advance source true c) g = .ok g') (hsorted : Sorted Message.seq ms)
    (habove : ∀ m ∈ ms, g.afterSeq < m.seq) (hc : c ≤ c') (hc' : c' ≤ g.afterSeq) :
    ∃ new : List Turn, g'.turns = g.turns ++ new ∧ (∀ turn ∈ new, turn.status ≠ .openTail) ∧
      ∀ ts, ms.foldlM (Segments.advance source includeClosed c') (g.withTurns ts)
        = .ok (g'.withTurns (ts ++ included includeClosed new)) := by
  induction ms generalizing g with
  | nil =>
      obtain rfl := Except.ok.inj hrun
      refine ⟨[], (List.append_nil _).symm, by simp, fun ts => ?_⟩
      rw [included_nil, List.append_nil]
      rfl
  | cons m ms ih =>
      rw [List.foldlM_cons] at hrun
      obtain ⟨g₁, hstep, hrest⟩ := bind_eq_ok.mp hrun
      obtain ⟨hfirst, hsorted'⟩ := List.pairwise_cons.mp hsorted
      obtain ⟨hmono, hle⟩ := advance_afterSeq hstep (habove m List.mem_cons_self)
      obtain ⟨one, hone, hclosed, hstep'⟩ := advance_withTurns includeClosed hstep hc hc'
      obtain ⟨new, hnew, hclosed', hrest'⟩ := ih hrest hsorted'
        (fun x hx => by have := hfirst x hx; omega) (by omega)
      refine ⟨one.toList ++ new, ?_, ?_, fun ts => ?_⟩
      · rw [hnew, hone, List.append_assoc]
      · intro turn hturn
        rcases List.mem_append.mp hturn with hold | hmem
        · exact hclosed turn (Option.mem_toList.mp hold)
        · exact hclosed' turn hmem
      · rw [List.foldlM_cons]
        refine bind_eq_ok.mpr ⟨_, hstep' ts, ?_⟩
        rw [hrest', included_append, List.append_assoc]

/-- Where a turn was closed: the run up to the message that closed it, that message, and the
rest of the run. -/
theorem turn_origin (hrun : ms.foldlM (Segments.advance source true c) g = .ok g')
    (hsorted : Sorted Message.seq ms) (habove : ∀ m ∈ ms, g.afterSeq < m.seq) (hc : c ≤ g.afterSeq)
    {k : ℕ} (hk : g'.turns[k]? = some turn) (hnew : g.turns.length ≤ k) :
    ∃ pre m post g₀ g₁, ms = pre ++ m :: post ∧
      pre.foldlM (Segments.advance source true c) g = .ok g₀ ∧
      g₀.advance source true c m = .ok g₁ ∧
      post.foldlM (Segments.advance source true c) g₁ = .ok g' ∧
      g₀.turns.length = k ∧ g₁.turns = g₀.turns ++ [turn] := by
  induction ms generalizing g with
  | nil =>
      obtain rfl := Except.ok.inj hrun
      have := (List.getElem?_eq_some_iff.mp hk).1
      omega
  | cons m ms ih =>
      rw [List.foldlM_cons] at hrun
      obtain ⟨g₁, hstep, hrest⟩ := bind_eq_ok.mp hrun
      obtain ⟨hfirst, hsorted'⟩ := List.pairwise_cons.mp hsorted
      obtain ⟨hmono, hle⟩ := advance_afterSeq hstep (habove m List.mem_cons_self)
      have habove' : ∀ x ∈ ms, g₁.afterSeq < x.seq := by
        intro x hx
        have := hfirst x hx
        omega
      obtain ⟨one, hone, -⟩ := advance_withTurns true hstep (le_refl c) hc
      by_cases hhere : g₁.turns.length ≤ k
      · obtain ⟨pre, m', post, g₀, g₂, rfl, hpre, hm', hpost, hlen, hturns⟩ :=
          ih hrest hsorted' habove' (by omega) hhere
        refine ⟨m :: pre, m', post, g₀, g₂, rfl, ?_, hm', hpost, hlen, hturns⟩
        rw [List.foldlM_cons]
        exact bind_eq_ok.mpr ⟨g₁, hstep, hpre⟩
      · obtain ⟨new, hnew', -⟩ := run_withTurns true hrest hsorted' habove' (le_refl c) (by omega)
        cases one with
        | none =>
            rw [hone, Option.toList_none, List.append_nil] at hhere
            exact absurd hnew hhere
        | some first =>
            rw [Option.toList_some] at hone
            have hlen : g.turns.length = k := by
              rw [hone, List.length_append, List.length_singleton] at hhere
              omega
            refine ⟨[], m, ms, g, g₁, rfl, rfl, hstep, hrest, hlen, ?_⟩
            rw [hnew', hone, List.append_assoc, ← hlen, List.getElem?_append_right (le_refl _),
              Nat.sub_self] at hk
            obtain rfl := Option.some.inj hk
            exact hone

/-! ### How a turn is closed -/

/-- **A closed turn** ends with an output that finishes, after which the projection has
nothing pending, or with a control that abandons it. -/
theorem closing_step (hstep : g.advance source true c m = .ok g')
    (hturns : g'.turns = g.turns ++ [turn]) :
    (turn.throughSeq = m.seq ∧ g' = (Segments.start m.seq).withTurns g'.turns) ∨
      ∃ control, m.body = .control control ∧ control.action = .abandon ∧
        turn.throughSeq = control.throughSeq ∧ c < control.throughSeq ∧
        g.afterSeq < control.throughSeq ∧
        g' = { g with sourceHead := m.seq }.abandoned source true m control.throughSeq := by
  have hmore : g'.turns ≠ g.turns := by
    intro hsame
    have hlength := congrArg List.length (hturns.symm.trans hsame)
    rw [List.length_append, List.length_singleton] at hlength
    omega
  unfold Segments.advance at hstep
  cases hbody : m.body with
  | input body =>
      rw [hbody] at hstep
      obtain rfl := Except.ok.inj hstep
      exact absurd rfl hmore
  | output o =>
      rw [hbody] at hstep
      dsimp only at hstep
      split at hstep
      · obtain rfl := Except.ok.inj hstep
        exact absurd rfl hmore
      · obtain rfl := Except.ok.inj hstep
        obtain rfl := List.singleton_inj.mp (List.append_cancel_left hturns)
        exact .inl ⟨rfl, rfl⟩
  | toolResult r =>
      rw [hbody] at hstep
      dsimp only at hstep
      split at hstep
      · obtain rfl := Except.ok.inj hstep
        exact absurd rfl hmore
      · obtain rfl := Except.ok.inj hstep
        exact absurd rfl hmore
  | control control =>
      rw [hbody] at hstep
      dsimp only at hstep
      split at hstep
      · obtain rfl := Except.ok.inj hstep
        exact absurd rfl hmore
      · next haction =>
          split at hstep
          · obtain rfl := Except.ok.inj hstep
            exact absurd rfl hmore
          · next hlater =>
              obtain ⟨-, ⟨⟩⟩ | ⟨hopen, hstep⟩ := ite_eq_iff.mp hstep
              obtain rfl := Except.ok.inj hstep
              refine .inr ⟨control, rfl, not_not.mp haction, ?_, not_le.mp hlater,
                not_le.mp hopen, rfl⟩
              have hclosed := abandoned_turns { g with sourceHead := m.seq } source true m
                control.throughSeq
              have hsingle := List.append_cancel_left (hclosed.symm.trans hturns)
              rw [included_true, Segments.abandonedTurn] at hsingle
              split at hsingle
              · cases hsingle
              · obtain rfl := List.singleton_inj.mp hsingle
                rfl

/-! ### Turns closed in retrospect -/

/-- What a projection knows about its members: they and the calls they mention come from the
messages it has read, only messages that are no results propose calls, and `calls` are
those of the members. -/
structure Segments.Wf (read : List Message) (g : Segments) : Prop where
  calls : g.calls = g.pending.flatMap Member.calls
  results : ∀ item ∈ g.pending, item.callRef ≠ none → item.calls = []
  seqs : ∀ item ∈ g.pending, ∃ m ∈ read, m.seq = item.seq
  answered : ∀ item ∈ g.pending, ∀ ref, item.callRef = some ref →
    ∃ m ∈ read, m.messageId = ref.messageId
  proposed : ∀ item ∈ g.pending, ∀ ref ∈ item.calls, ∃ m ∈ read, m.messageId = ref.messageId

theorem wf_start (afterSeq : ℤ) : (Segments.start afterSeq).Wf [] := by
  refine ⟨rfl, ?_, ?_, ?_, ?_⟩ <;> intro item hitem <;> cases hitem

theorem flatMap_calls_answering (calls : List CallRef) (items : List Member)
    (h : ∀ item ∈ items, item.callRef ≠ none → item.calls = []) :
    (answering calls items).flatMap Member.calls = items.flatMap Member.calls := by
  induction items with
  | nil => rfl
  | cons item items ih =>
      have hrest := ih fun x hx => h x (List.mem_cons_of_mem item hx)
      unfold answering at hrest ⊢
      by_cases hkept : item.answers calls = true
      · rw [List.filter_cons_of_pos hkept, List.flatMap_cons, List.flatMap_cons, hrest]
      · have hsome : item.callRef ≠ none := by
          intro hnone
          rw [Member.answers, hnone] at hkept
          exact hkept rfl
        rw [List.filter_cons_of_neg hkept, List.flatMap_cons,
          h item List.mem_cons_self hsome, List.nil_append, hrest]

/-- A member more, from a message that has just been read. -/
theorem Segments.Wf.add (h : g.Wf read) {head : ℤ} (hseq : item.seq = m.seq)
    (hresult : item.callRef ≠ none → item.calls = [])
    (hanswered : ∀ ref, item.callRef = some ref → ref ∈ g.calls)
    (hproposed : ∀ ref ∈ item.calls, ref.messageId = m.messageId) :
    ({ g with sourceHead := head }.add item).Wf (read ++ [m]) := by
  have hin : ∀ {P : Message → Prop}, (∃ x ∈ read, P x) → ∃ x ∈ read ++ [m], P x := by
    rintro P ⟨x, hx, hP⟩
    exact ⟨x, List.mem_append_left _ hx, hP⟩
  have hnew : m ∈ read ++ [m] := List.mem_append_right _ (List.mem_singleton_self m)
  refine ⟨?_, ?_, ?_, ?_, ?_⟩
  · change g.calls ++ item.calls = (g.pending ++ [item]).flatMap Member.calls
    rw [h.calls, List.flatMap_append, List.flatMap_singleton]
  · intro x hx
    rcases List.mem_append.mp hx with hold | hitem
    · exact h.results x hold
    · obtain rfl := List.mem_singleton.mp hitem
      exact hresult
  · intro x hx
    rcases List.mem_append.mp hx with hold | hitem
    · exact hin (h.seqs x hold)
    · obtain rfl := List.mem_singleton.mp hitem
      exact ⟨m, hnew, hseq.symm⟩
  · intro x hx ref href
    rcases List.mem_append.mp hx with hold | hitem
    · exact hin (h.answered x hold ref href)
    · obtain rfl := List.mem_singleton.mp hitem
      have hcall := hanswered ref href
      rw [h.calls] at hcall
      obtain ⟨y, hy, hcalls⟩ := List.mem_flatMap.mp hcall
      exact hin (h.proposed y hy ref hcalls)
  · intro x hx ref href
    rcases List.mem_append.mp hx with hold | hitem
    · exact hin (h.proposed x hold ref href)
    · obtain rfl := List.mem_singleton.mp hitem
      exact ⟨m, hnew, (hproposed ref href).symm⟩

theorem Segments.Wf.sub (h : g.Wf read) (m : Message)
    (hpending : ∀ item ∈ g'.pending, item ∈ g.pending)
    (hcalls : g'.calls = g'.pending.flatMap Member.calls) : g'.Wf (read ++ [m]) := by
  have hin : ∀ {P : Message → Prop}, (∃ x ∈ read, P x) → ∃ x ∈ read ++ [m], P x := by
    rintro P ⟨x, hx, hP⟩
    exact ⟨x, List.mem_append_left _ hx, hP⟩
  exact ⟨hcalls, fun x hx => h.results x (hpending x hx),
    fun x hx => hin (h.seqs x (hpending x hx)),
    fun x hx ref href => hin (h.answered x (hpending x hx) ref href),
    fun x hx ref href => hin (h.proposed x (hpending x hx) ref href)⟩

theorem callRefs_messageId (o : Output) (messageId : String) (h : messageId ≠ "") :
    ∀ ref ∈ o.callRefs messageId h, ref.messageId = messageId := by
  intro ref href
  obtain ⟨part, -, rfl⟩ := List.mem_map.mp href
  rfl

/-- **A step keeps what a projection knows about its members.** -/
theorem advance_wf (hstep : g.advance source includeClosed c m = .ok g') (h : g.Wf read) :
    g'.Wf (read ++ [m]) := by
  unfold Segments.advance at hstep
  cases hbody : m.body with
  | input body =>
      rw [hbody] at hstep
      obtain rfl := Except.ok.inj hstep
      exact h.add rfl (fun _ => rfl) (fun ref href => by cases href) fun ref href => by cases href
  | output o =>
      have hadd : ({ g with sourceHead := (m.seq : ℤ) }.add
          ⟨m.seq, m.messageId, none, o.callRefs m.messageId m.identity_ok.1⟩).Wf (read ++ [m]) :=
        h.add rfl (fun hsome => absurd rfl hsome) (fun ref href => by cases href)
          (callRefs_messageId o _ _)
      rw [hbody] at hstep
      dsimp only at hstep
      split at hstep
      · obtain rfl := Except.ok.inj hstep
        exact hadd
      · obtain rfl := Except.ok.inj hstep
        exact h.sub m (fun item hitem => by cases hitem) rfl
  | toolResult r =>
      rw [hbody] at hstep
      dsimp only at hstep
      split at hstep
      · next hcall =>
          obtain rfl := Except.ok.inj hstep
          refine h.add rfl (fun _ => rfl) (fun ref href => ?_) fun ref href => by cases href
          obtain rfl := Option.some.inj href
          exact List.contains_iff_mem.mp hcall
      · obtain rfl := Except.ok.inj hstep
        exact h.sub m (fun _ hitem => hitem) h.calls
  | control control =>
      rw [hbody] at hstep
      dsimp only at hstep
      split at hstep
      · obtain rfl := Except.ok.inj hstep
        exact h.sub m (fun _ hitem => hitem) h.calls
      · split at hstep
        · obtain rfl := Except.ok.inj hstep
          exact h.sub m (fun _ hitem => hitem) h.calls
        · split at hstep
          · cases hstep
          · obtain rfl := Except.ok.inj hstep
            refine h.sub m (fun item hitem => ?_) ?_
            · exact List.mem_of_mem_filter (List.mem_of_mem_filter hitem)
            · refine (flatMap_calls_answering _ _ fun item hitem => ?_).symm
              exact h.results item (List.mem_of_mem_filter hitem)

theorem run_wf (hrun : ms.foldlM (Segments.advance source includeClosed c) g = .ok g')
    (h : g.Wf read) : g'.Wf (read ++ ms) := by
  induction ms generalizing g read with
  | nil =>
      obtain rfl := Except.ok.inj hrun
      rw [List.append_nil]
      exact h
  | cons m ms ih =>
      rw [List.foldlM_cons] at hrun
      obtain ⟨g₁, hstep, hrest⟩ := bind_eq_ok.mp hrun
      have := ih hrest (advance_wf hstep h)
      rw [List.append_assoc] at this
      exact this

/-- A projection from `t` beside one that has not closed anything up to `t` yet: it has the
members after `t`, without the results of calls from before. -/
structure Resumed (t : ℕ) (g h : Segments) : Prop where
  afterSeq : h.afterSeq = t
  turns : h.turns = []
  calls : h.calls = (g.after t).flatMap Member.calls
  pending : h.pending = answering h.calls (g.after t)

theorem answers_mono {calls calls' : List CallRef} (hsub : ∀ ref ∈ calls, ref ∈ calls')
    (h : item.answers calls = true) : item.answers calls' = true := by
  unfold Member.answers at h ⊢
  cases hitem : item.callRef with
  | none => rfl
  | some ref =>
      rw [hitem] at h
      exact List.contains_iff_mem.mpr (hsub ref (List.contains_iff_mem.mp h))

theorem Resumed.calls_subset (hres : Resumed t g h) (hwf : g.Wf read) :
    ∀ ref ∈ h.calls, ref ∈ g.calls := by
  intro ref href
  rw [hres.calls] at href
  obtain ⟨item, hitem, hcall⟩ := List.mem_flatMap.mp href
  rw [hwf.calls]
  exact List.mem_flatMap.mpr ⟨item, List.mem_of_mem_filter hitem, hcall⟩

theorem after_add (g : Segments) (head : ℤ) (hitem : t < item.seq) :
    ({ g with sourceHead := head }.add item).after t = g.after t ++ [item] := by
  have hkept : [item].filter (fun x : Member => decide (t < x.seq)) = [item] := by simp [hitem]
  rw [Segments.after, Segments.add, List.filter_append, hkept]
  rfl

theorem Resumed.add {head : ℤ} (hres : Resumed t g h) (hwf : g.Wf read) (hitem : t < item.seq)
    (hfresh : ∀ ref ∈ item.calls, ∀ x ∈ read, x.messageId ≠ ref.messageId)
    (hanswers : item.answers (h.calls ++ item.calls) = true) :
    Resumed t ({ g with sourceHead := head }.add item) ({ h with sourceHead := head }.add item) := by
  have hafter := after_add g head hitem
  refine ⟨hres.afterSeq, hres.turns, ?_, ?_⟩
  · rw [hafter, List.flatMap_append, List.flatMap_singleton, ← hres.calls]
    rfl
  · rw [hafter]
    change h.pending ++ [item] = answering (h.calls ++ item.calls) (g.after t ++ [item])
    have hold : answering (h.calls ++ item.calls) (g.after t) = answering h.calls (g.after t) := by
      refine List.filter_congr fun x hx => ?_
      rw [Bool.eq_iff_iff]
      constructor
      · intro hboth
        unfold Member.answers at hboth ⊢
        cases href : x.callRef with
        | none => rfl
        | some ref =>
            rw [href] at hboth
            rcases List.mem_append.mp (List.contains_iff_mem.mp hboth) with hin | hin
            · exact List.contains_iff_mem.mpr hin
            · obtain ⟨y, hy, hid⟩ := hwf.answered x (List.mem_of_mem_filter hx) ref href
              exact absurd hid (hfresh ref hin y hy)
      · exact answers_mono fun ref href => List.mem_append_left _ href
    have hsingle : answering (h.calls ++ item.calls) [item] = [item] :=
      List.filter_cons_of_pos hanswers
    rw [answering, List.filter_append, ← answering, ← answering, hold, hsingle, hres.pending]

theorem Resumed.skip {head : ℤ} (hres : Resumed t g h) (hitem : t < item.seq)
    (hcalls : item.calls = []) (hanswers : ¬ item.answers h.calls = true) :
    Resumed t ({ g with sourceHead := head }.add item) { h with sourceHead := head } := by
  have hafter := after_add g head hitem
  refine ⟨hres.afterSeq, hres.turns, ?_, ?_⟩
  · rw [hafter, List.flatMap_append, List.flatMap_singleton, hcalls, List.append_nil]
    exact hres.calls
  · have hsingle : answering h.calls [item] = [] := List.filter_cons_of_neg hanswers
    rw [hafter, answering, List.filter_append, ← answering, ← answering, hsingle,
      List.append_nil]
    exact hres.pending

/-- An earlier prefix that the whole projection abandons. -/
theorem Resumed.abandoned {n : ℕ} {head : ℤ} (hres : Resumed t g h) (hwf : g.Wf read) (hn : n < t) :
    Resumed t ({ g with sourceHead := head }.abandoned source includeClosed m n)
      { h with sourceHead := head } := by
  have hlater : (g.after n).filter (fun item => decide (t < item.seq)) = g.after t := by
    rw [Segments.after, Segments.after, List.filter_filter]
    refine List.filter_congr fun item _ => ?_
    by_cases hitem : t < item.seq
    · have : n < item.seq := by omega
      simp [hitem, this]
    · simp [hitem]
  have hafter : ({ g with sourceHead := head }.abandoned source includeClosed m n).after t
      = answering ((g.after n).flatMap Member.calls) (g.after t) := by
    change (answering ((g.after n).flatMap Member.calls) (g.after n)).filter _ = _
    rw [answering, List.filter_filter, ← hlater, answering, List.filter_filter]
    refine List.filter_congr fun item _ => Bool.and_comm _ _
  have hcalls := flatMap_calls_answering ((g.after n).flatMap Member.calls) (g.after t)
    fun item hitem => hwf.results item (List.mem_of_mem_filter hitem)
  refine ⟨hres.afterSeq, hres.turns, ?_, ?_⟩
  · rw [hafter, hcalls]
    exact hres.calls
  · rw [hafter]
    change h.pending = answering h.calls (answering _ (g.after t))
    rw [hres.pending, answering, answering, answering, List.filter_filter]
    refine List.filter_congr fun item _ => ?_
    rw [Bool.eq_iff_iff, Bool.and_eq_true]
    refine ⟨fun hanswers => ⟨hanswers, answers_mono (fun ref href => ?_) hanswers⟩,
      fun hboth => hboth.1⟩
    rw [hres.calls, ← hlater] at href
    obtain ⟨x, hx, hcall⟩ := List.mem_flatMap.mp href
    exact List.mem_flatMap.mpr ⟨x, List.mem_of_mem_filter hx, hcall⟩

/-- **A step beside a resumed projection.** A turn that is closed in retrospect at `t` was not
closed in between, so only abandoned prefixes below `t`, which the resumed projection
skips, and results of calls from before make a difference. -/
theorem resumed_step (includeClosed : Bool) (hstep : g.advance source true c m = .ok g')
    (hres : Resumed t g h) (hwf : g.Wf read) (hfresh : ∀ x ∈ read, x.messageId ≠ m.messageId)
    (hm : t < m.seq) (hc : c ≤ t) (hafter : g'.afterSeq < t) :
    ∃ h', h.advance source includeClosed t m = .ok h' ∧ Resumed t g' h' := by
  unfold Segments.advance at hstep ⊢
  cases hbody : m.body with
  | input body =>
      rw [hbody] at hstep
      obtain rfl := Except.ok.inj hstep
      exact ⟨_, rfl, hres.add hwf hm (fun ref href => by cases href) rfl⟩
  | output o =>
      rw [hbody] at hstep
      dsimp only at hstep ⊢
      split at hstep
      · next hfinish =>
          obtain rfl := Except.ok.inj hstep
          rw [if_pos hfinish]
          refine ⟨_, rfl, hres.add hwf hm (fun ref href x hx => ?_) rfl⟩
          rw [callRefs_messageId o _ _ ref href]
          exact hfresh x hx
      · obtain rfl := Except.ok.inj hstep
        have hle : (m.seq : ℤ) < t := hafter
        omega
  | toolResult r =>
      rw [hbody] at hstep
      dsimp only at hstep ⊢
      by_cases hknown : h.calls.contains r.callRef = true
      · have hcall : g.calls.contains r.callRef = true := List.contains_iff_mem.mpr
          (hres.calls_subset hwf _ (List.contains_iff_mem.mp hknown))
        rw [if_pos hcall] at hstep
        rw [if_pos hknown]
        obtain rfl := Except.ok.inj hstep
        refine ⟨_, rfl, hres.add hwf hm (fun ref href => by cases href) ?_⟩
        rw [List.append_nil]
        exact hknown
      · rw [if_neg hknown]
        split at hstep
        · obtain rfl := Except.ok.inj hstep
          exact ⟨_, rfl, hres.skip hm rfl hknown⟩
        · obtain rfl := Except.ok.inj hstep
          exact ⟨_, rfl, hres.afterSeq, hres.turns, hres.calls, hres.pending⟩
  | control control =>
      rw [hbody] at hstep
      dsimp only at hstep ⊢
      split at hstep
      · next haction =>
          rw [if_pos haction]
          obtain rfl := Except.ok.inj hstep
          exact ⟨_, rfl, hres.afterSeq, hres.turns, hres.calls, hres.pending⟩
      · next haction =>
          rw [if_neg haction]
          split at hstep
          · next hconsumed =>
              rw [if_pos (le_trans hconsumed hc)]
              obtain rfl := Except.ok.inj hstep
              exact ⟨_, rfl, hres.afterSeq, hres.turns, hres.calls, hres.pending⟩
          · split at hstep
            · cases hstep
            · obtain rfl := Except.ok.inj hstep
              have hlt : (control.throughSeq : ℤ) < t := hafter
              rw [if_pos (le_of_lt hlt)]
              exact ⟨_, rfl, hres.abandoned hwf (by omega)⟩

theorem resumed_run {pre : List Message}
    (hrun : pre.foldlM (Segments.advance source true c) g = .ok g') (hres : Resumed t g h)
    (hwf : g.Wf read) (hids : ((read ++ pre).map Message.messageId).Nodup)
    (hm : ∀ m ∈ pre, t < m.seq) (hsorted : Sorted Message.seq pre)
    (habove : ∀ m ∈ pre, g.afterSeq < m.seq) (hc : c ≤ t) (hafter : g'.afterSeq < t) :
    ∃ h', pre.foldlM (Segments.advance source includeClosed t) h = .ok h' ∧
      Resumed t g' h' := by
  induction pre generalizing g h read with
  | nil =>
      obtain rfl := Except.ok.inj hrun
      exact ⟨h, rfl, hres⟩
  | cons m pre ih =>
      rw [List.foldlM_cons] at hrun
      obtain ⟨g₁, hstep, hrest⟩ := bind_eq_ok.mp hrun
      obtain ⟨hfirst, hsorted'⟩ := List.pairwise_cons.mp hsorted
      obtain ⟨hmono, hle⟩ := advance_afterSeq hstep (habove m List.mem_cons_self)
      have habove' : ∀ x ∈ pre, g₁.afterSeq < x.seq := by
        intro x hx
        have := hfirst x hx
        omega
      have hmono' := (run_afterSeq hrest hsorted' habove').1
      have hfresh : ∀ x ∈ read, x.messageId ≠ m.messageId := by
        intro x hx heq
        rw [List.map_append, List.map_cons, List.nodup_append] at hids
        exact hids.2.2 x.messageId (List.mem_map_of_mem hx) m.messageId List.mem_cons_self heq
      obtain ⟨h₁, hstep', hres'⟩ := resumed_step includeClosed hstep hres hwf
        hfresh (hm m List.mem_cons_self) hc (by omega)
      have hids' : ((read ++ [m] ++ pre).map Message.messageId).Nodup := by
        rw [List.append_assoc]
        exact hids
      obtain ⟨h', hrun', hres''⟩ := ih hrest hres' (advance_wf hstep hwf) hids'
        (fun x hx => hm x (List.mem_cons_of_mem m hx)) hsorted' habove'
      refine ⟨h', ?_, hres''⟩
      rw [List.foldlM_cons]
      exact bind_eq_ok.mpr ⟨h₁, hstep', hrun'⟩

/-- Where nothing after `t` has been read, a projection from `t` has read nothing. -/
theorem resumed_start (hwf : g.Wf read) (hread : ∀ m ∈ read, m.seq ≤ t) :
    Resumed t g (.start t) := by
  have hnone : g.after t = [] := by
    rw [Segments.after, List.filter_eq_nil_iff]
    intro item hitem
    obtain ⟨m, hm, hseq⟩ := hwf.seqs item hitem
    have := hread m hm
    simp
    omega
  refine ⟨rfl, rfl, ?_, ?_⟩
  · rw [hnone]
    rfl
  · rw [hnone]
    rfl

/-- A control that closes the turn at `t` brings both projections into the same turn. -/
theorem resumed_abandon (hres : Resumed t g h) :
    { h with sourceHead := (m.seq : ℤ) }
      = ({ g with sourceHead := (m.seq : ℤ) }.abandoned source true m t).withTurns [] := by
  obtain ⟨hafter, hturns, hcalls, hpending⟩ := hres
  rw [hcalls] at hpending
  cases h with
  | mk afterSeq turns pending calls sourceHead =>
      simp only at hafter hturns hcalls hpending
      subst hafter hturns hcalls hpending
      rfl

/-- Beside a run that has not closed anything up to `t` yet, a projection from `t` reads the
messages after `t`. -/
theorem retrospect_run (includeClosed : Bool) {pre : List Message}
    (hrun : pre.foldlM (Segments.advance source true (-1)) (.start (-1)) = .ok g)
    (hsorted : Sorted Message.seq pre) (hids : (pre.map Message.messageId).Nodup)
    (hopen : g.afterSeq < t) :
    ∃ h, (pre.filter fun m => (t : ℤ) < (m.seq : ℤ)).foldlM
        (Segments.advance source includeClosed t) (.start t) = .ok h ∧ Resumed t g h := by
  have hparts := upTo_append_above hsorted (t : ℤ)
  rw [← hparts] at hids
  rw [← hparts, List.foldlM_append] at hrun
  obtain ⟨g₀, hrun₀, hrun₁⟩ := bind_eq_ok.mp hrun
  have hwf := run_wf hrun₀ (wf_start (-1))
  rw [List.nil_append] at hwf
  have hres : Resumed t g₀ (.start t) := by
    refine resumed_start hwf fun x hx => ?_
    have := (List.mem_filter.mp hx).2
    simpa using this
  have hbound : g₀.afterSeq ≤ t := by
    refine (run_afterSeq hrun₀ (hsorted.filter _) fun x _ => ?_).2 t ?_ fun x hx => ?_
    · change (-1 : ℤ) < x.seq
      omega
    · change (-1 : ℤ) ≤ t
      omega
    · have := (List.mem_filter.mp hx).2
      simpa using this
  have habove : ∀ x ∈ pre.filter (fun m => (t : ℤ) < (m.seq : ℤ)), t < x.seq := by
    intro x hx
    have := (List.mem_filter.mp hx).2
    simpa using this
  refine resumed_run hrun₁ hres hwf hids habove (hsorted.filter _) (fun x hx => ?_) ?_ hopen
  · have := habove x hx
    omega
  · omega

/-- **A run that goes on from a closed turn** ends where the whole run does, with the turns
that follow. -/
theorem run_resume (includeClosed : Bool)
    (hrun : ms.foldlM (Segments.advance source true (-1)) (.start (-1)) = .ok g)
    (hsorted : Sorted Message.seq ms) (hids : (ms.map Message.messageId).Nodup) {k : ℕ}
    (hk : g.turns[k]? = some turn) :
    (ms.filter fun m => turn.throughSeq < (m.seq : ℤ)).foldlM
        (Segments.advance source includeClosed turn.throughSeq) (.start turn.throughSeq)
      = .ok (g.withTurns (included includeClosed (g.turns.drop (k + 1)))) := by
  have habove : ∀ m ∈ ms, (Segments.start (-1)).afterSeq < m.seq := by
    intro m _
    change (-1 : ℤ) < m.seq
    omega
  obtain ⟨pre, m, post, g₀, g₁, rfl, hpre, hstep, hpost, hlen, hturns⟩ :=
    turn_origin hrun hsorted habove (le_refl _) hk (Nat.zero_le k)
  have hsplit := List.pairwise_append.mp hsorted
  obtain ⟨hfirst, hsortedPost⟩ := List.pairwise_cons.mp hsplit.2.1
  have hbelow : ∀ x ∈ pre, x.seq < m.seq := fun x hx => hsplit.2.2 x hx m List.mem_cons_self
  have haboveMid : g₀.afterSeq < m.seq := by
    have hbound := (run_afterSeq hpre hsplit.1
      fun x hx => habove x (List.mem_append_left _ hx)).2 ((m.seq : ℤ) - 1)
    have hle : g₀.afterSeq ≤ (m.seq : ℤ) - 1 := by
      refine hbound ?_ fun x hx => ?_
      · change (-1 : ℤ) ≤ (m.seq : ℤ) - 1
        omega
      · have := hbelow x hx
        omega
    omega
  obtain ⟨-, hlePost⟩ := advance_afterSeq hstep haboveMid
  have habovePost : ∀ x ∈ post, g₁.afterSeq < x.seq := by
    intro x hx
    have := hfirst x hx
    omega
  -- Both projections are in the same turn after `m`, and take the same steps from there.
  have hfinish : ∀ t : ℤ, (-1 : ℤ) ≤ t → t ≤ g₁.afterSeq →
      post.foldlM (Segments.advance source includeClosed t) (g₁.withTurns [])
        = .ok (g.withTurns (included includeClosed (g.turns.drop (k + 1)))) := by
    intro t ht ht'
    obtain ⟨new, hnew, -, hrest⟩ :=
      run_withTurns includeClosed hpost hsortedPost habovePost ht ht'
    have hdrop : g.turns.drop (k + 1) = new := by
      rw [hnew, hturns, ← hlen]
      exact List.drop_left' (by rw [List.length_append, List.length_singleton])
    rw [hrest, hdrop]
    rfl
  rcases closing_step hstep hturns with ⟨hthrough, hstart⟩ |
    ⟨control, hbody, haction, hthrough, -, hopen, hclosed⟩
  · have hfilter : (pre ++ m :: post).filter (fun x => turn.throughSeq < (x.seq : ℤ)) = post := by
      rw [List.filter_append, List.filter_eq_nil_iff.mpr, List.nil_append, List.filter_cons_of_neg,
        List.filter_eq_self.mpr]
      · intro x hx
        have := hfirst x hx
        simp
        omega
      · simp
        omega
      · intro x hx
        have := hbelow x hx
        simp
        omega
    have hafterSeq : g₁.afterSeq = m.seq := by rw [hstart]; rfl
    have hsame := hfinish m.seq (by omega) (le_of_eq hafterSeq.symm)
    rw [hfilter, hthrough]
    rw [hstart] at hsame
    exact hsame
  · have hlt := m.control_ok control hbody
    have hafterSeq : g₁.afterSeq = control.throughSeq := by rw [hclosed]; rfl
    have hfilter : (pre ++ m :: post).filter (fun x => turn.throughSeq < (x.seq : ℤ))
        = pre.filter (fun x => (control.throughSeq : ℤ) < (x.seq : ℤ)) ++ m :: post := by
      rw [hthrough, List.filter_append]
      congr 1
      refine List.filter_eq_self.mpr fun x hx => ?_
      rcases List.mem_cons.mp hx with rfl | hrest
      · simpa using hlt
      · have := hfirst x hrest
        simp
        omega
    have hidsPre : (pre.map Message.messageId).Nodup := by
      rw [List.map_append] at hids
      exact (List.nodup_append.mp hids).1
    obtain ⟨h₀, hrun₀, hres⟩ :=
      retrospect_run includeClosed hpre hsplit.1 hidsPre hopen
    have hskip : h₀.advance source includeClosed control.throughSeq m
        = .ok { h₀ with sourceHead := (m.seq : ℤ) } := by
      simp [Segments.advance, hbody, haction]
    rw [hfilter, hthrough, List.foldlM_append]
    refine bind_eq_ok.mpr ⟨h₀, hrun₀, ?_⟩
    rw [List.foldlM_cons]
    refine bind_eq_ok.mpr ⟨_, hskip, ?_⟩
    rw [resumed_abandon hres, ← hclosed]
    exact hfinish control.throughSeq (by omega) (le_of_eq hafterSeq.symm)

/-! ### Going on from a closed turn -/

/-- The open turn, if there is one. -/
def Segments.openTurn (g : Segments) (source : String) : List Turn :=
  if g.pending = [] then []
  else [buildTurn source g.afterSeq g.sourceHead none .openTail g.pending]

theorem result_withTurns (g : Segments) (source : String) (turns : List Turn) :
    (g.withTurns turns).result source = turns ++ g.openTurn source := by
  unfold Segments.result Segments.openTurn
  by_cases hempty : g.pending = []
  · rw [if_pos hempty, List.append_nil]
    exact if_pos hempty
  · rw [if_neg hempty]
    exact if_neg hempty

theorem status_openTurn (h : turn ∈ g.openTurn source) : turn.status = .openTail := by
  unfold Segments.openTurn at h
  split at h
  · cases h
  · obtain rfl := List.mem_singleton.mp h
    rfl

/-- The turns that are open. -/
def openTurns (turns : List Turn) : List Turn :=
  turns.filter fun turn => turn.status = .openTail

theorem openTurns_append (h : ∀ turn ∈ turns, turn.status ≠ .openTail) :
    openTurns (turns ++ g.openTurn source) = g.openTurn source := by
  rw [openTurns, List.filter_append, List.filter_eq_nil_iff.mpr, List.filter_eq_self.mpr,
    List.nil_append]
  · intro turn hturn
    simpa using status_openTurn hturn
  · intro turn hturn
    simpa using h turn hturn

/-- What a projection returns, by whether it includes closed turns. -/
def shownTurns (includeClosed : Bool) (turns : List Turn) : List Turn :=
  if includeClosed then turns else openTurns turns

theorem included_append_openTurn (includeClosed : Bool)
    (h : ∀ turn ∈ turns, turn.status ≠ .openTail) :
    included includeClosed turns ++ g.openTurn source
      = shownTurns includeClosed (turns ++ g.openTurn source) := by
  cases includeClosed with
  | true => rfl
  | false => exact (openTurns_append h).symm

/-- **Going on from a closed turn.** When a projection from the start succeeds, only its last
turn may be open; without closed turns it returns just that one; and a projection of the
messages after a closed turn, from the end of that turn, returns the turns that follow it,
or without closed turns again just the open one. -/
theorem project_resume {messages : List Message} {source : String} {turns : List Turn}
    (hids : (messages.map Message.messageId).Nodup)
    (h : project messages source (-1) true = .ok turns) :
    (∀ turn ∈ turns.dropLast, turn.status ≠ .openTail) ∧
    project messages source (-1) false = .ok (openTurns turns) ∧
    ∀ (k : ℕ) (turn : Turn), turns[k]? = some turn → turn.status ≠ .openTail →
      ∀ includeClosed,
        project (messages.filter fun m => turn.throughSeq < (m.seq : ℤ)) source turn.throughSeq
            includeClosed
          = .ok (shownTurns includeClosed (turns.drop (k + 1))) := by
  obtain ⟨horder, g, hrun, hturns⟩ := project_eq_ok.mp h
  have hresult := result_withTurns g source g.turns
  have hsplit : turns = g.turns ++ g.openTurn source := hturns.trans hresult
  obtain ⟨habove, hsorted, -⟩ := (inOrder_iff _ _ _).mp horder
  have hsortedSource : Sorted Message.seq (messages.filter fun m => m.source = source) :=
    hsorted.filter _
  have haboveSource : ∀ m ∈ messages.filter (fun m => m.source = source),
      (Segments.start (-1)).afterSeq < m.seq :=
    fun m hm => habove m (List.mem_of_mem_filter hm)
  have hidsSource : ((messages.filter fun m => m.source = source).map
      Message.messageId).Nodup := hids.sublist (List.filter_sublist.map _)
  obtain ⟨new, hnew, hclosed, hsame⟩ := run_withTurns false hrun hsortedSource haboveSource
    (le_refl _) (le_refl _)
  have hnew' : g.turns = new := hnew
  rw [← hnew'] at hclosed
  refine ⟨fun turn hturn => ?_, ?_, fun k turn hk hstatus includeClosed => ?_⟩
  · rw [hsplit] at hturn
    unfold Segments.openTurn at hturn
    split at hturn
    · rw [List.append_nil] at hturn
      exact hclosed turn ((List.dropLast_sublist _).mem hturn)
    · rw [List.dropLast_concat] at hturn
      exact hclosed turn hturn
  · refine project_eq_ok.mpr ⟨horder, _, hsame [], ?_⟩
    rw [result_withTurns, hsplit]
    exact openTurns_append hclosed
  · have hlt : k < g.turns.length := by
      by_contra hge
      rw [hsplit, List.getElem?_append_right (by omega)] at hk
      exact hstatus (status_openTurn (List.mem_of_getElem? hk))
    have hkg : g.turns[k]? = some turn := by
      rw [hsplit, List.getElem?_append_left hlt] at hk
      exact hk
    have hresume := run_resume includeClosed hrun hsortedSource hidsSource hkg
    have hcomm : (messages.filter fun m => m.source = source).filter
          (fun m => turn.throughSeq < (m.seq : ℤ))
        = (messages.filter fun m => turn.throughSeq < (m.seq : ℤ)).filter
          fun m => m.source = source := by
      rw [List.filter_filter, List.filter_filter]
      exact List.filter_congr fun m _ => Bool.and_comm _ _
    rw [hcomm] at hresume
    refine project_eq_ok.mpr ⟨horder.after turn.throughSeq,
      g.withTurns (included includeClosed (g.turns.drop (k + 1))), hresume, ?_⟩
    rw [result_withTurns, hsplit, List.drop_append_of_le_length (by omega)]
    exact (included_append_openTurn includeClosed fun x hx =>
      hclosed x (List.mem_of_mem_drop hx)).symm

theorem nodup_ofSession {db : Db} (h : Ledger db messages) (s : String) :
    ((ofSession s messages).map Message.messageId).Nodup :=
  h.ids.sublist (List.filter_sublist.map _)

/-- A message of one conversation. -/
def chatMessage (messageId : String) (seq : ℕ) (body : Body) (hid : messageId ≠ "")
    (hcontrol : ∀ c, body = .control c → c.throughSeq < seq) : Message where
  messageId := messageId
  sessionId := "session"
  seq := seq
  recordedAt := ⟨"2026-01-01T00:00:00+00:00"⟩
  author := "user"
  source := "chat"
  body := body
  metadata := .empty
  identity_ok := ⟨hid, by decide, by decide, by decide⟩
  control_ok := hcontrol

theorem control_ok_firstInput : ∀ c, Body.input ⟨[]⟩ = .control c → c.throughSeq < 0 := by
  simp

theorem firstInput_ne : "input-1" ≠ "" := by decide

theorem secondInput_ne : "input-2" ≠ "" := by decide

/-- Two inputs, and a control that abandons the first one. -/
def abandonedInput : List Message :=
  [chatMessage "input-1" 0 (.input ⟨[]⟩) firstInput_ne control_ok_firstInput,
    chatMessage "input-2" 1 (.input ⟨[]⟩) secondInput_ne (by simp),
    chatMessage "control-1" 2 (.control ⟨.abandon, 0, none⟩) (by decide)
      (by rintro c hc; cases hc; decide)]

/-- The turns of the two inputs. -/
def abandonedTurns : List Turn :=
  [⟨"chat", -1, 0, some "control-1", .abandoned, ["input-1"], []⟩,
    ⟨"chat", 0, 2, none, .openTail, ["input-2"], []⟩]

/-- A projection from the end of the abandoned turn returns the open one. -/
theorem project_resume_abandonedInput :
    project abandonedInput "chat" (-1) true = .ok abandonedTurns ∧
      project (abandonedInput.filter fun m => (0 : ℤ) < (m.seq : ℤ)) "chat" 0 true
        = .ok (abandonedTurns.drop 1) := by
  have hproject : project abandonedInput "chat" (-1) true = .ok abandonedTurns := rfl
  obtain ⟨-, -, hresume⟩ := project_resume (by decide) hproject
  exact ⟨hproject, hresume 0 _ rfl (by decide) true⟩

end Kirakira
