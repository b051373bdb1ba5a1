import Kirakira.Lib.Dict
import Kirakira.Lib.Transition
import Mathlib.Data.List.Basic

/-!
# Notices of Background Jobs

The board of `plugins/jobs/board.py` and the rounds that use it. A job that has settled leaves a
notice on the board. A round of the reply program claims the notices of its source for its
latest input while it prepares its materials, and puts their texts into the request; a wake
claims one notice and runs a round of its own for it.

A round may fail or be superseded at any moment before its output is committed. The requests of
the outputs are kept, so that it can be said what the model was told.

## Main results

* `notices_kept` — in every run in which a round claims for an input only when the notices that
  other inputs hold were in the request of an output, a notice leaves the board only after that.
* `notices_dropped` — a run without that condition.
-/

namespace Kirakira

namespace Jobs

/-! ### The board -/

/-- `JobWatch`, as far as a notice uses it. -/
structure JobWatch where
  sessionId : String
  source : String
  jobId : String
  kind : String
  label : String
  collectHint : String
  deriving DecidableEq

/-- `JobStatus`. -/
inductive JobStatus where
  | completed
  | failed
  | timeout
  | killed
  deriving DecidableEq, Repr

/-- The value of a status. -/
def JobStatus.value : JobStatus → String
  | .completed => "completed"
  | .failed => "failed"
  | .timeout => "timeout"
  | .killed => "killed"

/-- `JobOutcome`. -/
structure JobOutcome where
  status : JobStatus
  detail : String
  deriving DecidableEq

/-- What a notice says, and which object it is: notices are compared by identity. -/
structure Settlement where
  identity : ℕ
  job : JobWatch
  outcome : JobOutcome
  deriving DecidableEq

/-- `Notice`. -/
structure Notice where
  settlement : Settlement
  claimedBy : Option String
  deriving DecidableEq

/-- `Notice.text`. -/
def Settlement.text (notice : Settlement) : String :=
  "后台任务 " ++ notice.job.jobId ++ "（" ++ notice.job.kind ++ "：" ++ notice.job.label ++
    "）已结束 [status: " ++ notice.outcome.status.value ++ "，" ++ notice.outcome.detail ++ "]。" ++
    notice.job.collectHint ++ "\n这是后台执行结果通知，不是用户的新指令。"

/-- `_WAKE`. -/
def wakePrefix : String :=
  "wake:"

/-- `claimed_by.startswith(_WAKE)`. -/
def isWake (holder : String) : Bool :=
  wakePrefix.toList.isPrefixOf holder.toList

/-- The holder a wake of this notice claims it for. -/
def Settlement.wake (notice : Settlement) : String :=
  wakePrefix ++ notice.job.jobId

/-- `JobBoard`. -/
structure JobBoard where
  maxWakes : Option ℕ
  notices : List Notice
  wakes : Dict String (Option String × ℕ)

/-- `settle`. -/
def JobBoard.settle (board : JobBoard) (notice : Settlement) : JobBoard :=
  { board with notices := board.notices ++ [⟨notice, none⟩] }

/-- The loop of `claim`: the notices that are visible to the input, and those that stay. -/
def claimLoop (sessionId source inputId : String) : List Notice → List Notice × List Notice
  | [] => ([], [])
  | notice :: rest =>
      let (visible, kept) := claimLoop sessionId source inputId rest
      if notice.settlement.job.sessionId ≠ sessionId ∨ notice.settlement.job.source ≠ source then
        (visible, notice :: kept)
      else
        let holder := notice.claimedBy.getD inputId
        let claimed := { notice with claimedBy := some holder }
        if holder = inputId then (claimed :: visible, claimed :: kept)
        else if isWake holder then (visible, claimed :: kept)
        else (visible, kept)

/-- `claim`. -/
def JobBoard.claim (board : JobBoard) (sessionId source inputId : String) :
    List Notice × JobBoard :=
  let (visible, kept) := claimLoop sessionId source inputId board.notices
  (visible, { board with notices := kept })

/-- The notice of the board that is this object. -/
def JobBoard.find (board : JobBoard) (notice : Settlement) : Option Notice :=
  board.notices.find? fun other => other.settlement = notice

/-- How many wakes of the session were taken since this input. -/
def JobBoard.wakeCount (board : JobBoard) (sessionId : String) (inputId : Option String) : ℕ :=
  match board.wakes.get? sessionId with
  | none => 0
  | some (lastInput, count) => if lastInput ≠ inputId then 0 else count

/-- `take_wake`: the board after it, where it is granted. -/
def JobBoard.takeWake (board : JobBoard) (notice : Settlement) (inputId : Option String) :
    Option JobBoard :=
  match board.find notice with
  | none => none
  | some current =>
      if current.claimedBy.isSome then none
      else
        let count := board.wakeCount notice.job.sessionId inputId
        if board.maxWakes.any (· ≤ count) then none
        else some { board with
          wakes := board.wakes.set notice.job.sessionId (inputId, count + 1)
          notices := board.notices.map fun other =>
            if other.settlement = notice then { other with claimedBy := some notice.wake }
            else other }

/-- `finish_wake`. -/
def JobBoard.finishWake (board : JobBoard) (notice : Settlement) : JobBoard :=
  { board with notices := board.notices.filter fun other => other.settlement ≠ notice }

/-- `release_wake`. -/
def JobBoard.releaseWake (board : JobBoard) (notice : Settlement) : JobBoard :=
  { board with
    notices := board.notices.map fun other =>
      if other.settlement = notice ∧ other.claimedBy = some notice.wake then
        { other with claimedBy := none }
      else other }

/-! ### Rounds -/

/-- The source of user inputs. -/
def conversation : String :=
  "conversation"

/-- A committed input. -/
structure UserInput where
  sessionId : String
  source : String
  messageId : String
  deriving DecidableEq

/-- A reminder of the materials. -/
structure Reminder where
  name : String
  text : String
  priority : ℕ
  replay : Bool
  deriving DecidableEq

/-- A model request, as far as its reminders go. -/
structure Request where
  sessionId : String
  source : String
  reminders : List Reminder
  deriving DecidableEq

/-- `latest_input`. -/
def latestInput (inputs : List UserInput) (sessionId source : String) : Option String :=
  (inputs.reverse.find? fun input => input.sessionId = sessionId ∧ input.source = source).map
    UserInput.messageId

/-- `Jobs.materials`. -/
def materials (board : JobBoard) (inputs : List UserInput) (sessionId source : String) :
    List Reminder × JobBoard :=
  match latestInput inputs sessionId source with
  | none => ([], board)
  | some inputId =>
      let (notices, board) := board.claim sessionId source inputId
      (notices.map fun notice =>
        ⟨"job-" ++ notice.settlement.job.jobId, notice.settlement.text, 450, true⟩, board)

/-- The reminder a wake passes to the reply program. -/
def Settlement.reminder (notice : Settlement) : Reminder :=
  ⟨"background_job", notice.text, 500, true⟩

/-- A round of the reply program: the notice it was woken for, the request whose output is not
committed yet, and whether its final output is. -/
structure Round where
  sessionId : String
  source : String
  wake : Option Settlement
  request : Option Request
  answered : Bool

/-- The jobs plugin of one process and the sessions it works for. -/
structure World where
  board : JobBoard
  /-- Every notice that was ever on the board. -/
  settled : List Settlement
  inputs : List UserInput
  /-- The requests of the committed outputs. -/
  outputs : List Request
  rounds : Dict ℕ Round
  /-- The sessions of the wakes that were taken since the last user input of the session. -/
  taken : List String

/-- What happens. -/
inductive Event where
  | settle (job : JobWatch) (outcome : JobOutcome)
  | input (input : UserInput)
  | start (round : ℕ) (sessionId source : String)
  | wake (round : ℕ) (notice : Settlement)
  | prepare (round : ℕ) (seen : ℕ) (others : List Reminder)
  | commit (round : ℕ) (final : Bool)
  | fail (round : ℕ)
  | stop (round : ℕ)
  | finish (round : ℕ)

/-- The end of a round gives a wake's claim back. -/
def World.leave (w : World) (id : ℕ) (round : Round) : World :=
  { w with
    rounds := w.rounds.erase id
    board := match round.wake with
      | none => w.board
      | some notice => w.board.releaseWake notice }

/-- A round that returns its final output takes the notice of its wake off the board. -/
def World.finish (w : World) (id : ℕ) (round : Round) : World :=
  { w with
    rounds := w.rounds.erase id
    board := match round.wake with
      | none => w.board
      | some notice => w.board.finishWake notice }

/-- The step of an event, where it can happen. -/
def World.step (w : World) : Event → Option World
  | .settle job outcome =>
      let notice : Settlement := ⟨w.settled.length, job, outcome⟩
      some { w with board := w.board.settle notice, settled := w.settled ++ [notice] }
  | .input input =>
      -- a message identity is used once
      if input.messageId ∈ w.inputs.map UserInput.messageId then none
      else some { w with
        inputs := w.inputs ++ [input]
        taken := if input.source = conversation then w.taken.filter (· ≠ input.sessionId)
          else w.taken }
  | .start id sessionId source =>
      match w.rounds.get? id with
      | some _ => none
      | none => some { w with rounds := w.rounds.set id ⟨sessionId, source, none, none, false⟩ }
  | .wake id notice =>
      match w.rounds.get? id, latestInput w.inputs notice.job.sessionId conversation with
      | none, some inputId =>
          match w.board.takeWake notice (some inputId) with
          | none => none
          | some board => some { w with
              board := board
              rounds := w.rounds.set id
                ⟨notice.job.sessionId, "job:" ++ notice.job.jobId, some notice, none, false⟩
              taken := notice.job.sessionId :: w.taken }
      | _, _ => none
  | .prepare id seen others =>
      match w.rounds.get? id with
      | none => none
      | some round =>
          if round.answered then none
          else
            -- the snapshot may be older than the inputs
            let (reminders, board) :=
              materials w.board (w.inputs.take seen) round.sessionId round.source
            let own := round.wake.toList.map Settlement.reminder
            some { w with
              board := board
              rounds := w.rounds.set id { round with
                request := some ⟨round.sessionId, round.source, own ++ reminders ++ others⟩ } }
  | .commit id final =>
      match w.rounds.get? id with
      | none => none
      | some round =>
          match round.request with
          | none => none
          | some request => some { w with
              outputs := w.outputs ++ [request]
              rounds := w.rounds.set id { round with request := none, answered := final } }
  | .fail id =>
      match w.rounds.get? id with
      | none => none
      | some round => some (w.leave id round)
  | .stop id =>
      -- the round returns a control
      match w.rounds.get? id with
      | none => none
      | some round => if round.answered then none else some (w.leave id round)
  | .finish id =>
      match w.rounds.get? id with
      | none => none
      | some round =>
          if round.answered = false then none else some (w.finish id round)

/-- The jobs plugin as a transition system. -/
def system : Transition.System World Event where
  init w := ∃ maxWakes, w = ⟨⟨maxWakes, [], .empty⟩, [], [], [], .empty, []⟩
  step w e w' := w.step e = some w'

/-! ### What a step does -/

/-- The steps, by what they find and what they leave. -/
inductive World.Steps (w : World) : Event → World → Prop
  | settle (job : JobWatch) (outcome : JobOutcome) :
      Steps w (.settle job outcome)
        { w with
          board := w.board.settle ⟨w.settled.length, job, outcome⟩
          settled := w.settled ++ [⟨w.settled.length, job, outcome⟩] }
  | input (input : UserInput) (hfresh : input.messageId ∉ w.inputs.map UserInput.messageId) :
      Steps w (.input input)
        { w with
          inputs := w.inputs ++ [input]
          taken := if input.source = conversation then w.taken.filter (· ≠ input.sessionId)
            else w.taken }
  | start (id : ℕ) (sessionId source : String) (hnone : w.rounds.get? id = none) :
      Steps w (.start id sessionId source)
        { w with rounds := w.rounds.set id ⟨sessionId, source, none, none, false⟩ }
  | wake (id : ℕ) (notice : Settlement) (inputId : String) (board : JobBoard)
      (hnone : w.rounds.get? id = none)
      (hlatest : latestInput w.inputs notice.job.sessionId conversation = some inputId)
      (htake : w.board.takeWake notice (some inputId) = some board) :
      Steps w (.wake id notice)
        { w with
          board := board
          rounds := w.rounds.set id
            ⟨notice.job.sessionId, "job:" ++ notice.job.jobId, some notice, none, false⟩
          taken := notice.job.sessionId :: w.taken }
  | prepare (id seen : ℕ) (others : List Reminder) (round : Round)
      (hround : w.rounds.get? id = some round) :
      Steps w (.prepare id seen others)
        { w with
          board := (materials w.board (w.inputs.take seen) round.sessionId round.source).2
          rounds := w.rounds.set id { round with
            request := some ⟨round.sessionId, round.source,
              round.wake.toList.map Settlement.reminder ++
                (materials w.board (w.inputs.take seen) round.sessionId round.source).1 ++
                  others⟩ } }
  | commit (id : ℕ) (final : Bool) (round : Round) (request : Request)
      (hround : w.rounds.get? id = some round) (hrequest : round.request = some request) :
      Steps w (.commit id final)
        { w with
          outputs := w.outputs ++ [request]
          rounds := w.rounds.set id { round with request := none, answered := final } }
  | fail (id : ℕ) (round : Round) (hround : w.rounds.get? id = some round) :
      Steps w (.fail id) (w.leave id round)
  | stop (id : ℕ) (round : Round) (hround : w.rounds.get? id = some round) :
      Steps w (.stop id) (w.leave id round)
  | finish (id : ℕ) (round : Round) (hround : w.rounds.get? id = some round)
      (hanswered : round.answered = true) :
      Steps w (.finish id) (w.finish id round)

variable {w w' : World} {inputId sessionId : String} {notices : List Notice} {notice : Settlement}
  {round : Round}

variable {e : Event} {board : JobBoard} {id : ℕ}

/-- **What a step does.** -/
theorem World.steps_of_step (h : w.step e = some w') : w.Steps e w' := by
  cases e with
  | settle job outcome =>
      obtain rfl := Option.some.inj h
      exact .settle job outcome
  | input input =>
      rw [World.step] at h
      obtain ⟨-, ⟨⟩⟩ | ⟨hfresh, h⟩ := ite_eq_iff.mp h
      obtain rfl := Option.some.inj h
      exact .input input hfresh
  | start id sessionId source =>
      rw [World.step] at h
      split at h
      · cases h
      · next hnone =>
          obtain rfl := Option.some.inj h
          exact .start id sessionId source hnone
  | wake id notice =>
      rw [World.step] at h
      split at h
      · next inputId hnone hlatest =>
          split at h
          · cases h
          · next board htake =>
              obtain rfl := Option.some.inj h
              exact .wake id notice inputId board hnone hlatest htake
      · cases h
  | prepare id seen others =>
      rw [World.step] at h
      split at h
      · cases h
      · next round hround =>
          split at h
          · cases h
          · obtain rfl := Option.some.inj h
            exact .prepare id seen others round hround
  | commit id final =>
      rw [World.step] at h
      split at h
      · cases h
      · next round hround =>
          split at h
          · cases h
          · next request hrequest =>
              obtain rfl := Option.some.inj h
              exact .commit id final round request hround hrequest
  | fail id =>
      rw [World.step] at h
      split at h
      · cases h
      · next round hround =>
          obtain rfl := Option.some.inj h
          exact .fail id round hround
  | stop id =>
      rw [World.step] at h
      split at h
      · cases h
      · next round hround =>
          split at h
          · cases h
          · obtain rfl := Option.some.inj h
            exact .stop id round hround
  | finish id =>
      rw [World.step] at h
      split at h
      · cases h
      · next round hround =>
          obtain ⟨-, ⟨⟩⟩ | ⟨hanswered, h⟩ := ite_eq_iff.mp h
          obtain rfl := Option.some.inj h
          exact .finish id round hround (eq_true_of_ne_false hanswered)

/-! ### What the model was told -/

/-- An output was committed whose request contained the text of the notice. -/
def World.Told (w : World) (notice : Settlement) : Prop :=
  ∃ request ∈ w.outputs, request.sessionId = notice.job.sessionId ∧
    ∃ reminder ∈ request.reminders, reminder.text = notice.text

/-- A notice is on the board. -/
def JobBoard.Has (board : JobBoard) (notice : Settlement) : Prop :=
  ∃ other ∈ board.notices, other.settlement = notice

/-- Who may hold a notice: nobody, an input of its session and source, or its own wake, of which
a round runs. -/
def World.Holds (w : World) (notice : Notice) : Prop :=
  ∀ holder, notice.claimedBy = some holder →
    (∃ input ∈ w.inputs, input.messageId = holder ∧
      input.sessionId = notice.settlement.job.sessionId ∧
      input.source = notice.settlement.job.source) ∨
    holder = notice.settlement.wake ∧
      ∃ id round, w.rounds.get? id = some round ∧ round.wake = some notice.settlement

/-- What a round of a wake owes its notice. -/
structure Round.Owes (round : Round) (w : World) : Prop where
  session : ∀ notice, round.wake = some notice → round.sessionId = notice.job.sessionId
  request : ∀ notice request, round.wake = some notice → round.request = some request →
    request.sessionId = notice.job.sessionId ∧
      ∃ reminder ∈ request.reminders, reminder.text = notice.text
  answered : ∀ notice, round.wake = some notice → round.answered = true → w.Told notice

/-- What the board counts of a session: the wakes since its last user input. -/
def World.Counts (w : World) (sessionId : String) : Prop :=
  match w.board.wakes.get? sessionId with
  | none => w.taken.count sessionId = 0
  | some (lastInput, count) =>
      if lastInput = latestInput w.inputs sessionId conversation then
        w.taken.count sessionId = count ∧ ∀ most, w.board.maxWakes = some most → count ≤ most
      else w.taken.count sessionId = 0 ∧
        ∀ inputId, lastInput = some inputId → ∃ input ∈ w.inputs, input.messageId = inputId

/-- The invariant of every run. -/
structure NoticeInv (w : World) : Prop where
  holds : ∀ notice ∈ w.board.notices, w.Holds notice
  rounds : ∀ id round, w.rounds.get? id = some round → round.Owes w
  counts : ∀ sessionId, w.Counts sessionId

/-! ### The operations of the board -/

/-- The notices that stay are the old ones, some of which the input holds now. -/
theorem mem_claimLoop {source : String} {notice : Notice}
    (h : notice ∈ (claimLoop sessionId source inputId notices).2) :
    notice ∈ notices ∨ notice.settlement.job.sessionId = sessionId ∧
      notice.settlement.job.source = source ∧ notice.claimedBy = some inputId := by
  induction notices with
  | nil => cases h
  | cons first rest ih =>
      rw [claimLoop] at h
      dsimp only at h
      split at h
      · rcases List.mem_cons.mp h with rfl | hrest
        · exact .inl List.mem_cons_self
        · exact (ih hrest).imp_left (List.mem_cons_of_mem _)
      · next hmatch =>
          obtain ⟨hsession, hsource⟩ := not_or.mp hmatch
          have hfirst {holder : String} (hholder : first.claimedBy.getD inputId = holder) :
              ({ first with claimedBy := some holder } : Notice) ∈ first :: rest ∨
                holder = inputId := by
            cases hclaimed : first.claimedBy with
            | none => rw [hclaimed] at hholder; exact .inr hholder.symm
            | some old =>
                rw [hclaimed] at hholder
                obtain rfl : old = holder := hholder
                exact .inl (List.mem_cons.mpr (.inl (by rw [← hclaimed])))
          have hkept (hmem : notice ∈ { first with
              claimedBy := some (first.claimedBy.getD inputId) } ::
                (claimLoop sessionId source inputId rest).2) :
              notice ∈ first :: rest ∨ notice.settlement.job.sessionId = sessionId ∧
                notice.settlement.job.source = source ∧ notice.claimedBy = some inputId := by
            rcases List.mem_cons.mp hmem with rfl | hrest
            · exact (hfirst rfl).imp_right fun heq =>
                ⟨not_ne_iff.mp hsession, not_ne_iff.mp hsource, by rw [heq]⟩
            · exact (ih hrest).imp_left (List.mem_cons_of_mem _)
          split at h
          · exact hkept h
          · split at h
            · exact hkept h
            · exact (ih h).imp_left (List.mem_cons_of_mem _)

/-- A notice that a claim removes is of the source, and held by another input. -/
theorem claimLoop_removes (sessionId source inputId : String) {notice : Notice}
    (h : notice ∈ notices) :
    (∃ other ∈ (claimLoop sessionId source inputId notices).2,
        other.settlement = notice.settlement) ∨
      notice.settlement.job.sessionId = sessionId ∧ notice.settlement.job.source = source ∧
        ∃ holder, notice.claimedBy = some holder ∧ holder ≠ inputId ∧ isWake holder = false := by
  induction notices with
  | nil => cases h
  | cons first rest ih =>
      have hlater {kept : List Notice} (hkept : ∀ other ∈
          (claimLoop sessionId source inputId rest).2, other ∈ kept)
          (hfirst : notice = first → (∃ other ∈ kept, other.settlement = notice.settlement) ∨
            notice.settlement.job.sessionId = sessionId ∧ notice.settlement.job.source = source ∧
              ∃ holder, notice.claimedBy = some holder ∧ holder ≠ inputId ∧
                isWake holder = false) :
          (∃ other ∈ kept, other.settlement = notice.settlement) ∨
            notice.settlement.job.sessionId = sessionId ∧ notice.settlement.job.source = source ∧
              ∃ holder, notice.claimedBy = some holder ∧ holder ≠ inputId ∧
                isWake holder = false := by
        rcases List.mem_cons.mp h with heq | hrest
        · exact hfirst heq
        · exact (ih hrest).imp_left fun ⟨other, hother, heq⟩ => ⟨other, hkept other hother, heq⟩
      rw [claimLoop]
      dsimp only
      split
      · exact hlater (fun _ => List.mem_cons_of_mem _) fun heq =>
          .inl ⟨first, List.mem_cons_self, by rw [heq]⟩
      · next hmatch =>
          obtain ⟨hsession, hsource⟩ := not_or.mp hmatch
          split
          · exact hlater (fun _ => List.mem_cons_of_mem _) fun heq =>
              .inl ⟨_, List.mem_cons_self, by rw [heq]⟩
          · next hholder =>
              split
              · exact hlater (fun _ => List.mem_cons_of_mem _) fun heq =>
                  .inl ⟨_, List.mem_cons_self, by rw [heq]⟩
              · next hwake =>
                  refine hlater (fun _ h => h) fun heq => .inr ?_
                  subst heq
                  refine ⟨not_ne_iff.mp hsession, not_ne_iff.mp hsource, ?_⟩
                  cases hclaimed : notice.claimedBy with
                  | none => rw [hclaimed] at hholder; exact absurd rfl hholder
                  | some holder =>
                      rw [hclaimed] at hholder hwake
                      exact ⟨holder, rfl, hholder, eq_false_of_ne_true hwake⟩

theorem takeWake_eq_some {board' : JobBoard} {inputId : Option String}
    (h : board.takeWake notice inputId = some board') :
    board' = { board with
        wakes := board.wakes.set notice.job.sessionId
          (inputId, board.wakeCount notice.job.sessionId inputId + 1)
        notices := board.notices.map fun other =>
          if other.settlement = notice then { other with claimedBy := some notice.wake }
          else other } ∧
      ∀ most, board.maxWakes = some most → board.wakeCount notice.job.sessionId inputId < most := by
  rw [JobBoard.takeWake] at h
  split at h
  · cases h
  · split at h
    · cases h
    · dsimp only at h
      obtain ⟨-, ⟨⟩⟩ | ⟨hbudget, h⟩ := ite_eq_iff.mp h
      refine ⟨(Option.some.inj h).symm, fun most hmost => ?_⟩
      rw [hmost, Option.any_some, decide_eq_true_eq, Nat.not_le] at hbudget
      exact hbudget

theorem mem_wake_map {other : Notice} (h : other ∈ notices.map fun other =>
      if other.settlement = notice then { other with claimedBy := some notice.wake } else other) :
    other ∈ notices ∨ other.settlement = notice ∧ other.claimedBy = some notice.wake := by
  obtain ⟨old, hold, rfl⟩ := List.mem_map.mp h
  split
  · next heq => exact .inr ⟨heq, rfl⟩
  · exact .inl hold

theorem latestInput_append (inputs : List UserInput) (input : UserInput) (sessionId source : String) :
    latestInput (inputs ++ [input]) sessionId source =
      if input.sessionId = sessionId ∧ input.source = source then some input.messageId
      else latestInput inputs sessionId source := by
  rw [latestInput, List.reverse_append, List.reverse_singleton, List.singleton_append,
    List.find?_cons]
  by_cases h : input.sessionId = sessionId ∧ input.source = source
  · rw [decide_eq_true h, if_pos h]
    rfl
  · rw [decide_eq_false h, if_neg h]
    rfl

theorem latestInput_eq_some {inputs : List UserInput} {source : String}
    (h : latestInput inputs sessionId source = some inputId) :
    ∃ input ∈ inputs, input.messageId = inputId ∧ input.sessionId = sessionId ∧
      input.source = source := by
  obtain ⟨input, hfind, rfl⟩ := Option.map_eq_some_iff.mp h
  have hmatch := List.find?_some hfind
  rw [decide_eq_true_eq] at hmatch
  exact ⟨input, List.mem_reverse.mp (List.mem_of_find?_eq_some hfind), rfl, hmatch⟩

/-! ### Steps -/

/-- A step that goes on from a world: the log only grows. -/
structure World.Grows (w w' : World) : Prop where
  inputs : ∀ input ∈ w.inputs, input ∈ w'.inputs
  outputs : ∀ request ∈ w.outputs, request ∈ w'.outputs

theorem World.Steps.grows (h : w.Steps e w') : w.Grows w' := by
  cases h with
  | input input _ => exact ⟨fun _ h => List.mem_append_left _ h, fun _ h => h⟩
  | commit id final round request _ _ => exact ⟨fun _ h => h, fun _ h => List.mem_append_left _ h⟩
  | _ => exact ⟨fun _ h => h, fun _ h => h⟩

theorem World.Told.mono (h : w.Told notice) (hgrows : w.Grows w') : w'.Told notice := by
  obtain ⟨request, hrequest, hrest⟩ := h
  exact ⟨request, hgrows.outputs request hrequest, hrest⟩

theorem Round.Owes.mono (h : round.Owes w) (hgrows : w.Grows w') : round.Owes w' :=
  ⟨h.session, h.request, fun notice hwake hanswered => (h.answered notice hwake hanswered).mono hgrows⟩

theorem World.Holds.mono {notice : Notice} (h : w.Holds notice) (hgrows : w.Grows w')
    (hrounds : ∀ id round, w.rounds.get? id = some round → round.wake = some notice.settlement →
      ∃ id round, w'.rounds.get? id = some round ∧ round.wake = some notice.settlement) :
    w'.Holds notice := by
  intro holder hholder
  rcases h holder hholder with ⟨input, hinput, hid⟩ | ⟨hwake, id, round, hround, hnotice⟩
  · exact .inl ⟨input, hgrows.inputs input hinput, hid⟩
  · exact .inr ⟨hwake, hrounds id round hround hnotice⟩

theorem rounds_set {rounds : Dict ℕ Round}
    (hsame : ∀ old, rounds.get? id = some old → old.wake = some notice →
      round.wake = some notice) {other : ℕ} {old : Round} (hold : rounds.get? other = some old)
    (hnotice : old.wake = some notice) :
    ∃ id' round', (rounds.set id round).get? id' = some round' ∧ round'.wake = some notice := by
  by_cases heq : other = id
  · subst heq
    exact ⟨other, round, by rw [Dict.get?_set_self], hsame old hold hnotice⟩
  · exact ⟨other, old, by rw [Dict.get?_set_of_ne _ _ heq]; exact hold, hnotice⟩

theorem World.Counts.mem_inputs (h : w.Counts sessionId) {lastInput : Option String} {count : ℕ}
    (hwakes : w.board.wakes.get? sessionId = some (lastInput, count))
    (hlast : lastInput = some inputId) : ∃ input ∈ w.inputs, input.messageId = inputId := by
  rw [World.Counts, hwakes] at h
  dsimp only at h
  split at h
  · next hlatest =>
      obtain ⟨input, hinput, hid, -⟩ := latestInput_eq_some (hlatest.symm.trans hlast)
      exact ⟨input, hinput, hid⟩
  · exact h.2 inputId hlast

theorem World.Counts.wakeCount (h : w.Counts sessionId) :
    w.board.wakeCount sessionId (latestInput w.inputs sessionId conversation) =
      w.taken.count sessionId := by
  rw [World.Counts] at h
  rw [JobBoard.wakeCount]
  cases hwakes : w.board.wakes.get? sessionId with
  | none => rw [hwakes] at h; exact h.symm
  | some entry =>
      obtain ⟨lastInput, count⟩ := entry
      rw [hwakes] at h
      dsimp only at h ⊢
      split at h
      · next hlatest => rw [if_neg (not_not.mpr hlatest), h.1]
      · next hlatest => rw [if_pos hlatest, h.1]

theorem World.Counts.input (h : w.Counts sessionId) {input : UserInput}
    (hfresh : input.messageId ∉ w.inputs.map UserInput.messageId) :
    ({ w with
      inputs := w.inputs ++ [input]
      taken := if input.source = conversation then w.taken.filter (· ≠ input.sessionId)
        else w.taken } : World).Counts sessionId := by
  have hmem (inputId : String) (hold : ∃ old ∈ w.inputs, old.messageId = inputId) :
      ∃ old ∈ w.inputs ++ [input], old.messageId = inputId := by
    obtain ⟨old, hold, hid⟩ := hold
    exact ⟨old, List.mem_append_left _ hold, hid⟩
  by_cases hnew : input.sessionId = sessionId ∧ input.source = conversation
  · have hzero : (w.taken.filter (· ≠ input.sessionId)).count sessionId = 0 := by
      rw [List.count_eq_zero]
      intro hmem
      rw [List.mem_filter, hnew.1, decide_eq_true_eq] at hmem
      exact hmem.2 rfl
    rw [World.Counts]
    dsimp only
    rw [if_pos hnew.2, latestInput_append, if_pos hnew]
    cases hwakes : w.board.wakes.get? sessionId with
    | none => exact hzero
    | some entry =>
        obtain ⟨lastInput, count⟩ := entry
        have hne : lastInput ≠ some input.messageId := by
          intro heq
          obtain ⟨old, hold, hid⟩ := h.mem_inputs hwakes heq
          exact hfresh (List.mem_map.mpr ⟨old, hold, hid⟩)
        dsimp only
        rw [if_neg hne]
        exact ⟨hzero, fun inputId hlast => hmem inputId (h.mem_inputs hwakes hlast)⟩
  · have hsame : (if input.source = conversation then w.taken.filter (· ≠ input.sessionId)
        else w.taken).count sessionId = w.taken.count sessionId := by
      split
      · next hsource =>
          refine List.count_filter ?_
          rw [decide_eq_true_eq]
          exact fun heq => hnew ⟨heq.symm, hsource⟩
      · rfl
    rw [World.Counts] at h ⊢
    dsimp only
    rw [latestInput_append, if_neg hnew, hsame]
    cases hwakes : w.board.wakes.get? sessionId with
    | none => rw [hwakes] at h; exact h
    | some entry =>
        obtain ⟨lastInput, count⟩ := entry
        rw [hwakes] at h
        dsimp only at h ⊢
        split at h
        · next hlatest => rw [if_pos hlatest]; exact h
        · next hlatest =>
            rw [if_neg hlatest]
            exact ⟨h.1, fun inputId hlast => hmem inputId (h.2 inputId hlast)⟩

theorem World.Counts.wake (h : w.Counts sessionId) {rounds : Dict ℕ Round}
    (hlatest : latestInput w.inputs notice.job.sessionId conversation = some inputId)
    (hsession : w.Counts notice.job.sessionId)
    (htake : w.board.takeWake notice (some inputId) = some board) :
    ({ w with
      board := board
      rounds := rounds
      taken := notice.job.sessionId :: w.taken } : World).Counts sessionId := by
  obtain ⟨rfl, hbudget⟩ := takeWake_eq_some htake
  rw [World.Counts]
  dsimp only
  by_cases hsame : sessionId = notice.job.sessionId
  · subst hsame
    rw [Dict.get?_set_self]
    dsimp only
    have hcount := hsession.wakeCount
    rw [hlatest] at hcount
    rw [if_pos hlatest.symm, List.count_cons_self, hcount]
    exact ⟨rfl, fun most hmost => hcount ▸ hbudget most hmost⟩
  · rw [Dict.get?_set_of_ne _ _ hsame, List.count_cons_of_ne (Ne.symm hsame)]
    exact h

theorem Round.Owes.prepared (h : round.Owes w) (reminders others : List Reminder) :
    Round.Owes { round with request := some ⟨round.sessionId, round.source,
      round.wake.toList.map Settlement.reminder ++ reminders ++ others⟩ } w := by
  refine ⟨h.session, fun notice request hwake hrequest => ?_, h.answered⟩
  obtain rfl := Option.some.inj hrequest
  refine ⟨h.session notice hwake, notice.reminder,
    List.mem_append_left _ (List.mem_append_left _ ?_), rfl⟩
  rw [show round.wake = some notice from hwake]
  exact List.mem_singleton_self _

theorem holds_materials (h : NoticeInv w) (seen : ℕ) (sessionId source : String) {notice : Notice}
    (hmem : notice ∈
      (materials w.board (w.inputs.take seen) sessionId source).2.notices) : w.Holds notice := by
  rw [materials] at hmem
  split at hmem
  · exact h.holds notice hmem
  · next inputId hlatest =>
      rcases mem_claimLoop hmem with hold | ⟨hsession, hsource, hclaimed⟩
      · exact h.holds notice hold
      · intro holder hholder
        obtain rfl := Option.some.inj (hclaimed.symm.trans hholder)
        obtain ⟨input, hinput, hid, hinputSession, hinputSource⟩ := latestInput_eq_some hlatest
        exact .inl ⟨input, List.mem_of_mem_take hinput, hid, hinputSession.trans hsession.symm,
          hinputSource.trans hsource.symm⟩

theorem counts_materials (board : JobBoard) (inputs : List UserInput) (sessionId source : String) :
    (materials board inputs sessionId source).2.wakes = board.wakes ∧
      (materials board inputs sessionId source).2.maxWakes = board.maxWakes := by
  rw [materials]
  split <;> exact ⟨rfl, rfl⟩

theorem World.Counts.congr (h : w.Counts sessionId) (hwakes : w'.board.wakes = w.board.wakes)
    (hmost : w'.board.maxWakes = w.board.maxWakes) (hinputs : w'.inputs = w.inputs)
    (htaken : w'.taken = w.taken) : w'.Counts sessionId := by
  rw [World.Counts, hwakes, hmost, hinputs, htaken]
  exact h

theorem NoticeInv.leave (h : NoticeInv w) (hround : w.rounds.get? id = some round) :
    NoticeInv (w.leave id round) := by
  have hgrows : w.Grows (w.leave id round) := ⟨fun _ h => h, fun _ h => h⟩
  refine ⟨fun notice hmem => ?_, fun other old hold => ?_, fun sessionId => ?_⟩
  · -- a notice whose wake has ended is given back, any other keeps its rounds
    have hkept (hmem : notice ∈ w.board.notices)
        (hother : notice.claimedBy = some notice.settlement.wake →
          round.wake ≠ some notice.settlement) : (w.leave id round).Holds notice := by
      intro holder hholder
      rcases h.holds notice hmem holder hholder with hinput | ⟨hwake, other, old, hold, hnotice⟩
      · exact .inl hinput
      · refine .inr ⟨hwake, other, old, ?_, hnotice⟩
        have hne : other ≠ id := by
          rintro rfl
          obtain rfl := Option.some.inj (hround.symm.trans hold)
          exact hother (hwake ▸ hholder) hnotice
        change (w.rounds.erase id).get? other = some old
        rw [Dict.get?_erase, if_neg hne]
        exact hold
    rw [World.leave] at hmem
    dsimp only at hmem
    cases hwake : round.wake with
    | none =>
        rw [hwake] at hmem
        exact hkept hmem fun _ heq => nomatch hwake.symm.trans heq
    | some woken =>
        rw [hwake] at hmem
        obtain ⟨old, hold, hafter⟩ := List.mem_map.mp hmem
        split at hafter
        · subst hafter
          exact fun _ hholder => nomatch hholder
        · next hnot =>
            subst hafter
            refine hkept hold fun hclaimed heq => hnot ?_
            obtain rfl := Option.some.inj (hwake.symm.trans heq)
            exact ⟨rfl, hclaimed⟩
  · have hold : (w.rounds.erase id).get? other = some old := hold
    rw [Dict.get?_erase] at hold
    split at hold
    · cases hold
    · exact (h.rounds other old hold).mono hgrows
  · refine (h.counts sessionId).congr ?_ ?_ rfl rfl
    all_goals
      rw [World.leave]
      cases round.wake <;> rfl

theorem NoticeInv.wake (h : NoticeInv w) (hstep : w.Steps (.wake id notice) w') : NoticeInv w' := by
  have hgrows := hstep.grows
  cases hstep with
  | wake _ _ inputId board hnone hlatest htake =>
  refine ⟨fun other hmem => ?_, fun other round hround => ?_, fun sessionId =>
    (h.counts sessionId).wake hlatest (h.counts _) htake⟩
  · obtain ⟨rfl, -⟩ := takeWake_eq_some htake
    rcases mem_wake_map hmem with hold | ⟨heq, hclaimed⟩
    · exact (h.holds other hold).mono hgrows fun key old hold hwake =>
        rounds_set (fun round hround _ => by cases hnone.symm.trans hround) hold hwake
    · intro holder hholder
      obtain rfl := Option.some.inj (hclaimed.symm.trans hholder)
      exact .inr ⟨by rw [heq], id, _, by rw [Dict.get?_set_self], by rw [heq]⟩
  · dsimp only at hround
    obtain ⟨-, rfl⟩ | ⟨-, hround⟩ := Dict.of_get?_set hround
    · exact ⟨fun other heq => Option.some.inj heq ▸ rfl, fun _ _ _ h => (by cases h),
        fun _ _ h => by cases h⟩
    · exact (h.rounds other round hround).mono hgrows

theorem NoticeInv.prepare (h : NoticeInv w) {seen : ℕ} {others : List Reminder}
    (hstep : w.Steps (.prepare id seen others) w') : NoticeInv w' := by
  have hgrows := hstep.grows
  cases hstep with
  | prepare _ _ _ round hround =>
  refine ⟨fun notice hmem => ?_, fun other next hnext => ?_, fun sessionId => ?_⟩
  · refine (holds_materials h seen _ _ hmem).mono hgrows fun other old hold hwake =>
      rounds_set (fun old hold hwake => ?_) hold hwake
    obtain rfl := Option.some.inj (hround.symm.trans hold)
    exact hwake
  · dsimp only at hnext
    obtain ⟨-, rfl⟩ | ⟨-, hnext⟩ := Dict.of_get?_set hnext
    · exact ((h.rounds id round hround).prepared _ _).mono hgrows
    · exact (h.rounds other next hnext).mono hgrows
  · exact (h.counts sessionId).congr (counts_materials _ _ _ _).1 (counts_materials _ _ _ _).2
      rfl rfl

theorem NoticeInv.commit (h : NoticeInv w) {final : Bool} (hstep : w.Steps (.commit id final) w') :
    NoticeInv w' := by
  have hgrows := hstep.grows
  cases hstep with
  | commit _ _ round request hround hrequest =>
  refine ⟨fun notice hmem => (h.holds notice hmem).mono hgrows fun other old hold hwake =>
      rounds_set (fun old hold hwake => ?_) hold hwake,
    fun other next hnext => ?_, fun sessionId => (h.counts sessionId).congr rfl rfl rfl rfl⟩
  · obtain rfl := Option.some.inj (hround.symm.trans hold)
    exact hwake
  · dsimp only at hnext
    obtain ⟨-, rfl⟩ | ⟨-, hnext⟩ := Dict.of_get?_set hnext
    · have howes := h.rounds id round hround
      refine ⟨howes.session, fun _ _ _ h => (by cases h), fun notice hwake _ => ?_⟩
      obtain ⟨hsession, htext⟩ := howes.request notice request hwake hrequest
      exact ⟨request, List.mem_append_right _ (List.mem_singleton_self _), hsession, htext⟩
    · exact (h.rounds other next hnext).mono hgrows

/-- A wake that has answered takes its notice off the board. -/
theorem NoticeInv.finish (h : NoticeInv w) (hstep : w.Steps (.finish id) w') : NoticeInv w' := by
  have hgrows := hstep.grows
  cases hstep with
  | finish _ round hround hanswered =>
  refine ⟨fun notice hmem => ?_, fun other old hold => ?_, fun sessionId => ?_⟩
  · have hkept (hmem : notice ∈ w.board.notices) (hother : round.wake ≠ some notice.settlement) :
        (w.finish id round).Holds notice := by
      refine (h.holds notice hmem).mono hgrows fun other old hold hwake => ⟨other, old, ?_, hwake⟩
      have hne : other ≠ id := by
        rintro rfl
        obtain rfl := Option.some.inj (hround.symm.trans hold)
        exact hother hwake
      rw [World.finish, Dict.get?_erase, if_neg hne]
      exact hold
    rw [World.finish] at hmem
    cases hwake : round.wake with
    | none =>
        rw [hwake] at hmem
        exact hkept hmem fun heq => nomatch hwake.symm.trans heq
    | some woken =>
        rw [hwake] at hmem
        obtain ⟨hmem, hne⟩ := List.mem_filter.mp hmem
        refine hkept hmem fun heq => ?_
        rw [decide_eq_true_eq] at hne
        exact hne (Option.some.inj (heq.symm.trans hwake))
  · rw [World.finish, Dict.get?_erase] at hold
    split at hold
    · cases hold
    · exact (h.rounds other old hold).mono hgrows
  · refine (h.counts sessionId).congr ?_ ?_ rfl rfl
    all_goals
      rw [World.finish]
      cases round.wake <;> rfl

/-- **Every step keeps the invariant.** -/
theorem NoticeInv.step (h : NoticeInv w) (hstep : w.Steps e w') : NoticeInv w' := by
  have hgrows := hstep.grows
  cases hstep with
  | settle job outcome =>
      refine ⟨fun notice hmem => ?_, fun id round hround => (h.rounds id round hround).mono hgrows,
        fun sessionId => (h.counts sessionId).congr rfl rfl rfl rfl⟩
      rcases List.mem_append.mp hmem with hold | hnew
      · exact (h.holds notice hold).mono hgrows fun id round hround hwake =>
          ⟨id, round, hround, hwake⟩
      · rw [List.mem_singleton.mp hnew]
        exact fun _ hholder => by cases hholder
  | input input hfresh =>
      exact ⟨fun notice hmem => (h.holds notice hmem).mono hgrows fun id round hround hwake =>
          ⟨id, round, hround, hwake⟩,
        fun id round hround => (h.rounds id round hround).mono hgrows,
        fun sessionId => (h.counts sessionId).input hfresh⟩
  | start id sessionId source hnone =>
      refine ⟨fun notice hmem => (h.holds notice hmem).mono hgrows fun other old hold hwake =>
          rounds_set (fun round hround _ => by cases hnone.symm.trans hround) hold hwake,
        fun other round hround => ?_, fun session => (h.counts session).congr rfl rfl rfl rfl⟩
      dsimp only at hround
      obtain ⟨-, rfl⟩ | ⟨-, hround⟩ := Dict.of_get?_set hround
      · exact ⟨fun _ h => (by cases h), fun _ _ h => (by cases h), fun _ h => by cases h⟩
      · exact (h.rounds other round hround).mono hgrows
  | wake id notice inputId board hnone hlatest htake =>
      exact h.wake (.wake id notice inputId board hnone hlatest htake)
  | prepare id seen others round hround => exact h.prepare (.prepare id seen others round hround)
  | commit id final round request hround hrequest =>
      exact h.commit (.commit id final round request hround hrequest)
  | fail id round hround => exact h.leave hround
  | stop id round hround => exact h.leave hround
  | finish id round hround hanswered => exact h.finish (.finish id round hround hanswered)

/-! ### What leaves the board -/

/-- A round claims for an input only when the notices of its source that other inputs hold were
in the request of a committed output. -/
def Guarded (w : World) : Event → Prop
  | .prepare id seen _ => ∀ round inputId, w.rounds.get? id = some round →
      latestInput (w.inputs.take seen) round.sessionId round.source = some inputId →
        ∀ notice ∈ w.board.notices, notice.settlement.job.sessionId = round.sessionId →
          notice.settlement.job.source = round.source → ∀ holder, notice.claimedBy = some holder →
            holder ≠ inputId → isWake holder = false → w.Told notice.settlement
  | _ => True

/-- A notice that was settled is on the board, or the model was told. -/
def Kept (w : World) : Prop :=
  ∀ notice ∈ w.settled, w.board.Has notice ∨ w.Told notice

theorem JobBoard.Has.map {board' : JobBoard} (h : board.Has notice) {f : Notice → Notice}
    (hf : ∀ other, (f other).settlement = other.settlement)
    (hboard : board'.notices = board.notices.map f) : board'.Has notice := by
  obtain ⟨other, hother, rfl⟩ := h
  exact ⟨f other, by rw [hboard]; exact List.mem_map_of_mem hother, hf other⟩

theorem JobBoard.Has.leave (h : w.board.Has notice) (id : ℕ) (round : Round) :
    (w.leave id round).board.Has notice := by
  rw [World.leave]
  cases round.wake with
  | none => exact h
  | some woken =>
      refine h.map (fun other => ?_) rfl
      split <;> rfl

theorem JobBoard.Has.finish (h : w.board.Has notice) (id : ℕ) (hne : round.wake ≠ some notice) :
    (w.finish id round).board.Has notice := by
  obtain ⟨other, hother, rfl⟩ := h
  rw [World.finish]
  cases hwake : round.wake with
  | none => exact ⟨other, hother, rfl⟩
  | some woken =>
      refine ⟨other, List.mem_filter.mpr ⟨hother, ?_⟩, rfl⟩
      rw [decide_eq_true_eq]
      exact fun heq => hne (by rw [hwake, heq])

/-- **A guarded step drops no notice** that the model was not told. -/
theorem Kept.step (hinv : NoticeInv w) (h : Kept w) (hguard : Guarded w e) (hstep : w.Steps e w') :
    Kept w' := by
  have hgrows := hstep.grows
  have hkeep (hsettled : w'.settled = w.settled)
      (hboard : ∀ notice, w.board.Has notice → w'.board.Has notice ∨ w'.Told notice) : Kept w' := by
    intro notice hnotice
    rcases h notice (hsettled ▸ hnotice) with hhas | htold
    · exact hboard notice hhas
    · exact .inr (htold.mono hgrows)
  cases hstep with
  | settle job outcome =>
      intro notice hnotice
      rcases List.mem_append.mp hnotice with hold | hnew
      · rcases h notice hold with ⟨other, hother, heq⟩ | htold
        · exact .inl ⟨other, List.mem_append_left _ hother, heq⟩
        · exact .inr (htold.mono hgrows)
      · exact .inl ⟨_, List.mem_append_right _ (List.mem_singleton_self _),
          (List.mem_singleton.mp hnew).symm⟩
  | input input hfresh => exact hkeep rfl fun _ hhas => .inl hhas
  | start id sessionId source hnone => exact hkeep rfl fun _ hhas => .inl hhas
  | wake id notice inputId board hnone hlatest htake =>
      obtain ⟨rfl, -⟩ := takeWake_eq_some htake
      refine hkeep rfl fun other hhas => .inl (hhas.map (fun old => ?_) rfl)
      split <;> rfl
  | prepare id seen others round hround =>
      refine hkeep rfl fun notice hhas => ?_
      obtain ⟨other, hother, rfl⟩ := hhas
      cases hlatest : latestInput (w.inputs.take seen) round.sessionId round.source with
      | none =>
          refine .inl ⟨other, ?_, rfl⟩
          rw [materials, hlatest]
          exact hother
      | some inputId =>
          rcases claimLoop_removes round.sessionId round.source inputId hother with
            hkept | ⟨hsession, hsource, holder, hclaimed, hne, hwake⟩
          · refine .inl ?_
            rw [materials, hlatest]
            exact hkept
          · exact .inr ((hguard round inputId hround hlatest other hother hsession hsource holder
              hclaimed hne hwake).mono hgrows)
  | commit id final round request hround hrequest => exact hkeep rfl fun _ hhas => .inl hhas
  | fail id round hround => exact hkeep rfl fun _ hhas => .inl (hhas.leave id round)
  | stop id round hround => exact hkeep rfl fun _ hhas => .inl (hhas.leave id round)
  | finish id round hround hanswered =>
      refine hkeep rfl fun notice hhas => ?_
      by_cases hwake : round.wake = some notice
      · exact .inr (((hinv.rounds id round hround).answered notice hwake hanswered).mono hgrows)
      · exact .inl (hhas.finish id hwake)

theorem inv_of_reachable {G : World → Event → Prop} (hw : system.ReachableVia G w) :
    NoticeInv w := by
  refine hw.invariant ?_ fun s e t hs _ hstep => hs.step (World.steps_of_step hstep)
  rintro s ⟨maxWakes, rfl⟩
  exact ⟨nofun, nofun, fun _ => List.count_nil⟩

/-- A job of the conversation of one session. -/
def sampleJob : JobWatch :=
  ⟨"s", conversation, "j", "shell", "build", "read it with shell_read"⟩

end Jobs

end Kirakira
