import Kirakira.Lib.Transition
import Mathlib.Data.List.DropRight
import Mathlib.Data.List.Nodup
import Mathlib.Logic.Function.Basic

/-!
# Output of a Shell Execution

`plugins/host_execution/process_runtime.py`: a pump appends the output of a process to a
buffer, and the callers of `exec_command` and `write_stdin` observe it. An observation drains
the buffer into a buffer of its own, again and again, waits in between, and makes a result of
what it has.

The model is one execution under every interleaving of its tasks. A move is what a task does
between two suspensions. An observation may be cancelled wherever it is suspended, and the
locks are never held across a suspension. A byte is an `Octet`: its value, and its position in
the output, which no code looks at. Times are in milliseconds.

* `State.handed` records what was drained, in order, and by which observation, and
  `State.after` how many results there were when an observation began. No move reads them.
* The text of the omission marker, the log file and the wall time of a result are left out.

## Main results

* `output_handed_over` — every byte is accounted for once at most and a result shows its bytes
  in order, also after results that were there before its observation began; while no
  observation is lost that holds bytes, nothing is lost; and while one observation holds bytes
  at a time, all results are in order.
* `cancelled_observation_loses` — a caller that is cancelled while it waits takes the bytes it
  has drained with it.
-/

namespace Kirakira.Shell

/-! ### Buffers -/

/-- `_push_to_tail`: the tail after a chunk, and how many bytes are omitted for it. -/
def pushToTail {α : Type} (tailBudget : ℕ) (tail chunk : List α) : List α × ℕ :=
  if chunk.isEmpty then (tail, 0)
  else if tailBudget = 0 then (tail, chunk.length)
  else if tailBudget ≤ chunk.length then
    let kept := chunk.rtake tailBudget
    (kept, tail.length + chunk.length - kept.length)
  else
    let excess := (tail ++ chunk).length - tailBudget
    ((tail ++ chunk).drop excess, excess)

/-- How many bytes of a chunk go to the head. -/
def headLength {α : Type} (headBudget : ℕ) (head data : List α) : ℕ :=
  min (headBudget - head.length) data.length

theorem pushToTail_ordered {α : Type} {headBudget tailBudget : ℕ} {head tail data : List α}
    (h : tail ≠ [] → headBudget ≤ head.length)
    (hne : (pushToTail tailBudget tail (data.drop (headLength headBudget head data))).1 ≠ []) :
    headBudget ≤ (head ++ data.take (headLength headBudget head data)).length := by
  rw [List.length_append, List.length_take]
  by_cases hrest : data.drop (headLength headBudget head data) = []
  · rw [hrest] at hne
    exact (h hne).trans (Nat.le_add_right ..)
  · have hlt : headLength headBudget head data < data.length := by
      simpa [List.drop_eq_nil_iff] using hrest
    unfold headLength at hlt ⊢
    omega

/-- `HeadTailBuffer`, over bytes of any kind. -/
structure HeadTailBuffer (α : Type) where
  maxBytes : ℕ
  head : List α
  tail : List α
  omittedBytes : ℕ
  ordered : tail ≠ [] → maxBytes / 2 ≤ head.length

namespace HeadTailBuffer

variable {α : Type}

theorem ordered_nil (n : ℕ) : ([] : List α) ≠ [] → n / 2 ≤ ([] : List α).length :=
  fun h => absurd rfl h

/-- `HeadTailBuffer(max_bytes)`. -/
def empty (maxBytes : ℕ) : HeadTailBuffer α :=
  ⟨maxBytes, [], [], 0, ordered_nil maxBytes⟩

/-- `total_bytes`. -/
def totalBytes (b : HeadTailBuffer α) : ℕ :=
  b.head.length + b.tail.length + b.omittedBytes

/-- `to_bytes`. -/
def toBytes (b : HeadTailBuffer α) : List α :=
  b.head ++ b.tail

/-- `push_chunk`. -/
def pushChunk (b : HeadTailBuffer α) (data : List α) : HeadTailBuffer α :=
  if b.maxBytes = 0 then { b with omittedBytes := b.omittedBytes + data.length }
  else
    let n := headLength (b.maxBytes / 2) b.head data
    let rest := pushToTail (b.maxBytes - b.maxBytes / 2) b.tail (data.drop n)
    ⟨b.maxBytes, b.head ++ data.take n, rest.1, b.omittedBytes + rest.2,
      pushToTail_ordered b.ordered⟩

/-- `push_buffer`. -/
def pushBuffer (b c : HeadTailBuffer α) : HeadTailBuffer α :=
  let pushed := (b.pushChunk c.head).pushChunk c.tail
  { pushed with omittedBytes := pushed.omittedBytes + c.omittedBytes }

/-- `drain`: what is drained, and the buffer that is left. -/
def drain (b : HeadTailBuffer α) : HeadTailBuffer α × HeadTailBuffer α :=
  (b, empty b.maxBytes)

/-- `_limit_output`. -/
def limitOutput (b : HeadTailBuffer α) (maxOutputTokens : ℕ) : HeadTailBuffer α :=
  (empty (maxOutputTokens * 4)).pushBuffer b

/-- A buffer accounts for bytes: it shows some of them, in order, and counts all of them. -/
def Accounts (b : HeadTailBuffer α) (bytes : List α) : Prop :=
  b.toBytes.Sublist bytes ∧ b.totalBytes = bytes.length

theorem accounts_empty (maxBytes : ℕ) : (empty maxBytes : HeadTailBuffer α).Accounts [] :=
  ⟨List.Sublist.slnil, rfl⟩

theorem pushToTail_spec (tailBudget : ℕ) (tail chunk : List α) :
    (pushToTail tailBudget tail chunk).1.Sublist (tail ++ chunk) ∧
      (pushToTail tailBudget tail chunk).1.length + (pushToTail tailBudget tail chunk).2 =
        tail.length + chunk.length := by
  unfold pushToTail
  split
  · next h =>
      rw [List.isEmpty_iff.mp h, List.append_nil]
      exact ⟨List.Sublist.refl _, rfl⟩
  · split
    · exact ⟨List.sublist_append_left .., rfl⟩
    · split
      · next hle =>
          refine ⟨(List.drop_sublist ..).trans (List.sublist_append_right ..), ?_⟩
          simp only [List.rtake, List.length_drop]
          omega
      · refine ⟨List.drop_sublist .., ?_⟩
        simp only [List.length_drop, List.length_append]
        omega

/-- A chunk that is pushed is accounted for, with what was there. -/
theorem pushChunk_spec (b : HeadTailBuffer α) (data : List α) :
    (b.pushChunk data).toBytes.Sublist (b.toBytes ++ data) ∧
      (b.pushChunk data).totalBytes = b.totalBytes + data.length := by
  unfold pushChunk
  split
  · refine ⟨List.sublist_append_left .., ?_⟩
    simp only [totalBytes]
    omega
  · obtain ⟨hsub, hlength⟩ := pushToTail_spec (b.maxBytes - b.maxBytes / 2) b.tail
      (data.drop (headLength (b.maxBytes / 2) b.head data))
    constructor
    · simp only [toBytes]
      by_cases htail : b.tail = []
      · rw [htail] at hsub ⊢
        rw [List.append_nil, List.append_assoc]
        refine List.Sublist.append (List.Sublist.refl _) ?_
        have hall := List.Sublist.append (List.Sublist.refl (data.take
          (headLength (b.maxBytes / 2) b.head data))) hsub
        rwa [List.nil_append, List.take_append_drop] at hall
      · -- the head is full, so the chunk goes to the tail
        have hzero : headLength (b.maxBytes / 2) b.head data = 0 := by
          have hfull := b.ordered htail
          unfold headLength
          omega
        rw [hzero] at hsub ⊢
        rw [List.take_zero, List.append_nil, List.append_assoc]
        exact List.Sublist.append (List.Sublist.refl _) hsub
    · simp only [totalBytes, List.length_append, List.length_take]
      rw [List.length_drop] at hlength
      have hle : headLength (b.maxBytes / 2) b.head data ≤ data.length := Nat.min_le_right ..
      omega

variable {b c : HeadTailBuffer α} {bytes more : List α}

/-- **A chunk** is accounted for after what was there. -/
theorem Accounts.pushChunk (h : b.Accounts bytes) (data : List α) :
    (b.pushChunk data).Accounts (bytes ++ data) := by
  obtain ⟨hsub, htotal⟩ := b.pushChunk_spec data
  refine ⟨hsub.trans (h.1.append (List.Sublist.refl _)), ?_⟩
  rw [htotal, h.2, List.length_append]

/-- **A buffer** is accounted for after what was there. -/
theorem Accounts.pushBuffer (h : b.Accounts bytes) (hc : c.Accounts more) :
    (b.pushBuffer c).Accounts (bytes ++ more) := by
  obtain ⟨hsub, htotal⟩ := (h.pushChunk c.head).pushChunk c.tail
  refine ⟨hsub.trans ?_, ?_⟩
  · rw [List.append_assoc]
    exact List.Sublist.append (List.Sublist.refl _) hc.1
  · have hmore := hc.2
    unfold totalBytes at htotal hmore ⊢
    rw [List.length_append, List.length_append] at htotal
    simp only [HeadTailBuffer.pushBuffer, List.length_append]
    omega

theorem Accounts.limitOutput (h : b.Accounts bytes) (maxOutputTokens : ℕ) :
    (b.limitOutput maxOutputTokens).Accounts bytes :=
  (accounts_empty _).pushBuffer h

end HeadTailBuffer

/-! ### Executions -/

/-- A byte of the output and its position in it. -/
structure Octet where
  value : UInt8
  position : ℕ
  deriving DecidableEq, Repr

/-- `OUTPUT_MAX_BYTES`. -/
def outputMaxBytes : ℕ := 1048576

/-- `POST_EXIT_DRAIN_GRACE_S`. -/
def postExitDrainGrace : ℕ := 200

/-- `ExecutionResult`. -/
structure ExecutionResult where
  /-- The bytes of `output` that are not part of the omission marker. -/
  output : List Octet
  originalTokenCount : ℕ
  outputOmittedBytes : ℕ
  /-- Whether there is an `execution_id`, and no `exit_code`. -/
  alive : Bool
  exitCode : Option ℤ
  /-- Whether there is an `output_path`. -/
  keepsLog : Bool
  finishReason : String
  deriving DecidableEq, Repr

/-- Where an observation is suspended. -/
inductive Phase where
  /-- At the lock of the buffer, in the loop. -/
  | drain
  /-- At the output event, until a time; the event may have been set since. -/
  | wait (deadline : ℕ) (woken : Bool)
  /-- At the pump of a process that has exited, until a time. -/
  | pump (deadline : ℕ)
  /-- At the pump that was cancelled. -/
  | join
  /-- At the lock of the buffer, after the loop. -/
  | final
  /-- In `_remove_execution`, with what comes of the observation. -/
  | remove (outcome : Except String ExecutionResult)
  deriving DecidableEq

/-- A running call of `_observe`. -/
structure Observation where
  deadline : ℕ
  maxOutputTokens : ℕ
  collected : HeadTailBuffer Octet
  postExitDeadline : Option ℕ
  phase : Phase

/-- An execution and its observations. -/
structure State where
  now : ℕ
  /-- What `_append_output` has pushed. -/
  stream : List Octet
  buffer : HeadTailBuffer Octet
  outputEvent : Bool
  exitEvent : Bool
  outputClosed : Bool
  returncode : Option ℤ
  pumpDone : Bool
  failureMessage : Option String
  finishReason : String
  /-- Whether the manager holds the execution. -/
  registered : Bool
  observations : ℕ → Option Observation
  /-- How many observations have begun. -/
  begun : ℕ
  /-- The results, each with its observation. -/
  returned : List (ℕ × ExecutionResult)
  handed : List (Octet × ℕ)
  after : ℕ → ℕ

/-- An execution that has started. -/
def State.initial : State where
  now := 0
  stream := []
  buffer := .empty outputMaxBytes
  outputEvent := false
  exitEvent := false
  outputClosed := false
  returncode := none
  pumpDone := false
  failureMessage := none
  finishReason := "natural"
  registered := true
  observations := fun _ => none
  begun := 0
  returned := []
  handed := []
  after := fun _ => 0

namespace State

/-- What is in the buffer, or omitted there. -/
def pending (s : State) : List Octet :=
  s.stream.drop s.handed.length

/-- What an observation has drained. -/
def taken (s : State) (n : ℕ) : List Octet :=
  (s.handed.filter fun e => e.2 = n).map Prod.fst

/-! ### Moves -/

/-- An observation at the output event is woken. -/
def wake (o : Observation) : Observation :=
  match o.phase with
  | .wait deadline _ => { o with phase := .wait deadline true }
  | _ => o

/-- `output_event.set()`. -/
def setEvent (s : State) : State :=
  { s with outputEvent := true, observations := fun n => (s.observations n).map wake }

/-- A change of one observation. -/
def put (s : State) (n : ℕ) (o : Option Observation) : State :=
  { s with observations := Function.update s.observations n o }

/-- What an observation has after it drains. -/
def collect (s : State) (o : Observation) : HeadTailBuffer Octet :=
  if s.buffer.drain.1.totalBytes ≠ 0 then o.collected.pushBuffer s.buffer.drain.1
  else o.collected

/-- The buffer after an observation drains. -/
def drained (s : State) (n : ℕ) : State :=
  { s with
    buffer := s.buffer.drain.2
    outputEvent := false
    handed := s.handed ++ s.pending.map fun x => (x, n) }

/-- Where an observation goes on after the loop. -/
def settle (s : State) : Phase :=
  if s.returncode = none then .final else .pump (s.now + postExitDrainGrace)

/-- The time until which an observation waits after the process has exited. -/
def postExit (s : State) (o : Observation) : ℕ :=
  o.postExitDeadline.getD (min o.deadline (s.now + postExitDrainGrace))

/-- Where an observation goes on after it has drained: out of the loop, or to the event. -/
def proceed (s : State) (o : Observation) : Observation :=
  if s.exitEvent then
    if s.outputClosed then { o with phase := s.settle }
    else
      { o with
        postExitDeadline := some (s.postExit o)
        phase := if s.postExit o ≤ s.now then s.settle else .wait (s.postExit o) false }
  else { o with phase := if o.deadline ≤ s.now then s.settle else .wait o.deadline false }

/-- `_build_result`: the result. -/
def result (s : State) (o : Observation) : ExecutionResult :=
  let alive := s.returncode = none ∧ s.exitEvent = false
  let output := o.collected.limitOutput o.maxOutputTokens
  { output := output.toBytes
    originalTokenCount := (o.collected.totalBytes + 3) / 4
    outputOmittedBytes := output.omittedBytes
    alive := alive
    exitCode := if alive then none else s.returncode
    keepsLog := alive || decide (0 < output.omittedBytes) || decide (0 < o.collected.omittedBytes)
    finishReason := s.finishReason }

/-- An observation ends with what comes of it. -/
def finish (s : State) (n : ℕ) : Except String ExecutionResult → State
  | .ok r => { s.put n none with returned := s.returned ++ [(n, r)] }
  | .error _ => s.put n none

/-- `_build_result`. -/
def build (s : State) (n : ℕ) (o : Observation) : State :=
  match s.failureMessage with
  | some message => s.put n (some { o with phase := .remove (.error message) })
  | none =>
      if s.returncode = none ∧ s.exitEvent = false then s.finish n (.ok (s.result o))
      else s.put n (some { o with phase := .remove (.ok (s.result o)) })

/-- An observation goes on. -/
def run (s : State) (n : ℕ) (o : Observation) : Option State :=
  match o.phase with
  | .drain =>
      some ((s.drained n).put n (some (s.proceed { o with collected := s.collect o })))
  | .wait _ woken => if woken then some (s.put n (some { o with phase := .drain })) else none
  | .pump _ | .join =>
      if s.pumpDone then some (s.put n (some { o with phase := .final })) else none
  | .final => some ((s.drained n).build n { o with collected := s.collect o })
  | .remove outcome =>
      if s.registered then
        if s.pumpDone then some ({ s with registered := false }.finish n outcome) else none
      else some (s.finish n outcome)

/-- The wait of an observation ends at its time. -/
def timeout (s : State) (n : ℕ) (o : Observation) : Option State :=
  match o.phase with
  | .wait deadline _ =>
      if deadline ≤ s.now then some (s.put n (some { o with phase := s.settle })) else none
  | .pump deadline =>
      if deadline ≤ s.now then some (s.put n (some { o with phase := .join })) else none
  | .drain | .join | .final | .remove _ => none

/-- `_append_output`. -/
def append (s : State) (chunk : List UInt8) : State :=
  let octets := chunk.zipIdx s.stream.length |>.map fun b => ⟨b.1, b.2⟩
  { s with stream := s.stream ++ octets, buffer := s.buffer.pushChunk octets }.setEvent

/-- A new observation. -/
def begin (s : State) (waitMs maxOutputTokens : ℕ) : State :=
  { s.put s.begun (some ⟨s.now + waitMs, maxOutputTokens, .empty outputMaxBytes, none, .drain⟩) with
    begun := s.begun + 1
    after := Function.update s.after s.begun s.returned.length }

end State

/-- What can happen between two suspensions. -/
inductive Move where
  /-- The reader appends a chunk. -/
  | append (chunk : List UInt8)
  /-- Time passes. -/
  | tick (ms : ℕ)
  /-- The process ends. -/
  | exit (code : ℤ)
  /-- The exit event is set: by the pump, or where a termination is confirmed. -/
  | exited
  /-- The pump ends: after the reader, at the end of the grace period, or cancelled. -/
  | pumpEnds
  /-- The pump or the hard timeout notes a failure. -/
  | fail (message : String)
  /-- A stop, a hard timeout, a shutdown or a pruning gives its reason. -/
  | reason (finishReason : String)
  /-- The execution is removed after a termination. -/
  | unregister
  | begin (waitMs maxOutputTokens : ℕ)
  | run (n : ℕ)
  | timeout (n : ℕ)
  /-- The caller of an observation is cancelled. -/
  | cancel (n : ℕ)
  /-- `_remove_execution` raises in an observation. -/
  | removalFails (n : ℕ)

/-- What a move does, where it can happen. -/
def State.apply (s : State) : Move → Option State
  | .append chunk => if s.pumpDone then none else some (s.append chunk)
  | .tick ms => some { s with now := s.now + ms }
  | .exit code => if s.returncode = none then some { s with returncode := some code } else none
  | .exited => some { s with exitEvent := true }.setEvent
  | .pumpEnds =>
      some { s with exitEvent := true, outputClosed := true, pumpDone := true }.setEvent
  | .fail message => some { s with failureMessage := some message }.setEvent
  | .reason finishReason => some { s with finishReason := finishReason }
  | .unregister => if s.pumpDone then some { s with registered := false } else none
  | .begin waitMs maxOutputTokens => some (s.begin waitMs maxOutputTokens)
  | .run n => (s.observations n).bind (s.run n)
  | .timeout n => (s.observations n).bind (s.timeout n)
  | .cancel n => (s.observations n).map fun _ => s.put n none
  | .removalFails n => (s.observations n).bind fun o =>
      match o.phase with
      | .remove _ => some (s.put n none)
      | _ => none

/-- The runs of an execution. -/
def shell : Transition.System State Move where
  init s := s = .initial
  step s move t := s.apply move = some t

/-! ### The invariant -/

/-- Bytes that come before others. -/
def Before (xs ys : List Octet) : Prop :=
  ∀ x ∈ xs, ∀ y ∈ ys, x.position < y.position

/-- A result accounts for bytes: it shows some of them, in order, and counts the others. -/
def ExecutionResult.Accounts (r : ExecutionResult) (bytes : List Octet) : Prop :=
  r.output.Sublist bytes ∧ r.output.length + r.outputOmittedBytes = bytes.length

/-- An observation accounts for bytes, also where it has its result. -/
structure Observation.Holds (o : Observation) (bytes : List Octet) : Prop where
  collected : o.collected.Accounts bytes
  result : ∀ r, o.phase = .remove (.ok r) → r.Accounts bytes

/-- **The invariant of an execution.** -/
structure Inv (s : State) : Prop where
  handed : s.handed.map Prod.fst <+: s.stream
  buffer : s.buffer.Accounts s.pending
  positions : s.stream.map Octet.position = List.range s.stream.length
  begun : ∀ e ∈ s.handed, e.2 < s.begun
  running : ∀ n o, s.observations n = some o → n < s.begun ∧ o.Holds (s.taken n)
  returned : ∀ r ∈ s.returned, r.1 < s.begun ∧ s.observations r.1 = none ∧
    r.2.Accounts (s.taken r.1)
  distinct : (s.returned.map Prod.fst).Nodup
  after : ∀ n < s.begun, s.after n ≤ s.returned.length
  order : ∀ k r, s.returned[k]? = some r → ∀ n < s.begun, k < s.after n →
    Before (s.taken r.1) (s.taken n)

theorem Inv.initial : Inv .initial where
  handed := List.prefix_rfl
  buffer := HeadTailBuffer.accounts_empty _
  positions := rfl
  begun e he := by cases he
  running n o ho := by cases ho
  returned r hr := by cases hr
  distinct := List.nodup_nil
  after n hn := by cases hn
  order k r hr := by cases hr

section Steps

variable {s t : State} {n : ℕ} {o : Observation}

theorem Inv.split (h : Inv s) : s.handed.map Prod.fst ++ s.pending = s.stream := by
  obtain ⟨rest, hrest⟩ := h.handed
  have hpending : s.pending = rest := by
    rw [State.pending, ← hrest, ← List.length_map Prod.fst, List.drop_left]
  rw [hpending, hrest]

theorem Inv.sorted (h : Inv s) : s.stream.Pairwise fun x y => x.position < y.position := by
  rw [← List.pairwise_map, h.positions]
  exact List.pairwise_lt_range

theorem Inv.taken_before (h : Inv s) (n : ℕ) : Before (s.taken n) s.pending := by
  have hsorted := h.sorted
  rw [← h.split] at hsorted
  intro x hx y hy
  obtain ⟨e, he, rfl⟩ := List.mem_map.mp hx
  have hmem := List.mem_map_of_mem (f := Prod.fst) (List.mem_of_mem_filter he)
  exact (List.pairwise_append.mp hsorted).2.2 _ hmem y hy

theorem Inv.taken_eq_nil (h : Inv s) (hn : s.begun ≤ n) : s.taken n = [] := by
  rw [State.taken, List.map_eq_nil_iff, List.filter_eq_nil_iff]
  intro e he heq
  exact absurd (of_decide_eq_true heq) (Nat.ne_of_lt ((h.begun e he).trans_le hn))

/-- A change that leaves the bytes and the results where they are. -/
theorem Inv.frame (h : Inv s) (hstream : t.stream = s.stream) (hbuffer : t.buffer = s.buffer)
    (hhanded : t.handed = s.handed) (hbegun : t.begun = s.begun) (hafter : t.after = s.after)
    (hreturned : t.returned = s.returned)
    (hobservations : ∀ n o', t.observations n = some o' → ∃ o, s.observations n = some o ∧
      (o.Holds (s.taken n) → o'.Holds (s.taken n))) : Inv t := by
  have htaken : t.taken = s.taken := by
    funext n
    rw [State.taken, hhanded]
    rfl
  refine ⟨?_, ?_, ?_, ?_, fun n o' ho => ?_, fun r hr => ?_, ?_, ?_, ?_⟩
  · rw [hhanded, hstream]
    exact h.handed
  · rw [hbuffer, State.pending, hstream, hhanded]
    exact h.buffer
  · rw [hstream]
    exact h.positions
  · rw [hhanded, hbegun]
    exact h.begun
  · obtain ⟨o, hold, hholds⟩ := hobservations n o' ho
    rw [hbegun, htaken]
    exact ⟨(h.running n o hold).1, hholds (h.running n o hold).2⟩
  · rw [hreturned] at hr
    rw [hbegun, htaken]
    obtain ⟨hlt, hnone, haccounts⟩ := h.returned r hr
    refine ⟨hlt, ?_, haccounts⟩
    cases ho : t.observations r.1 with
    | none => rfl
    | some o' =>
        obtain ⟨o, hold, -⟩ := hobservations r.1 o' ho
        rw [hnone] at hold
        cases hold
  · rw [hreturned]
    exact h.distinct
  · rw [hbegun, hafter, hreturned]
    exact h.after
  · rw [hbegun, hafter, hreturned, htaken]
    exact h.order

theorem wake_holds {bytes : List Octet} (h : o.Holds bytes) : (State.wake o).Holds bytes := by
  unfold State.wake
  split
  · exact ⟨h.collected, fun r hr => by cases hr⟩
  · exact h

theorem Inv.setEvent (h : Inv s) : Inv s.setEvent := by
  refine h.frame rfl rfl rfl rfl rfl rfl fun n o' ho => ?_
  obtain ⟨o, hold, rfl⟩ := Option.map_eq_some_iff.mp ho
  exact ⟨o, hold, wake_holds⟩

theorem Inv.put (h : Inv s) {o' : Option Observation}
    (ho' : ∀ o₁, o' = some o₁ → ∃ o, s.observations n = some o ∧
      (o.Holds (s.taken n) → o₁.Holds (s.taken n))) : Inv (s.put n o') := by
  refine h.frame rfl rfl rfl rfl rfl rfl fun m o₁ ho => ?_
  by_cases hm : m = n
  · subst hm
    simp only [State.put, Function.update_self] at ho
    exact ho' o₁ ho
  · simp only [State.put, Function.update_of_ne hm] at ho
    exact ⟨o₁, ho, id⟩

theorem taken_drained (s : State) (n m : ℕ) :
    (s.drained n).taken m = if m = n then s.taken n ++ s.pending else s.taken m := by
  change ((s.handed ++ s.pending.map fun x => (x, n)).filter fun e => e.2 = m).map Prod.fst = _
  rw [List.filter_append, List.map_append]
  by_cases hm : m = n
  · subst hm
    have hall : (s.pending.map fun x => (x, m)).filter (fun e => e.2 = m) =
        s.pending.map fun x => (x, m) := by
      refine List.filter_eq_self.mpr fun e he => ?_
      obtain ⟨x, -, rfl⟩ := List.mem_map.mp he
      exact decide_eq_true rfl
    rw [if_pos rfl, hall, List.map_map]
    exact congrArg _ (List.map_id _)
  · have hnone : (s.pending.map fun x => (x, n)).filter (fun e => e.2 = m) = [] := by
      refine List.filter_eq_nil_iff.mpr fun e he heq => ?_
      obtain ⟨x, -, rfl⟩ := List.mem_map.mp he
      exact hm (of_decide_eq_true heq).symm
    rw [if_neg hm, hnone]
    exact List.append_nil _

theorem Inv.pending_drained (h : Inv s) (n : ℕ) : (s.drained n).pending = [] := by
  have hlength := congrArg List.length h.split
  rw [List.length_append, List.length_map] at hlength
  rw [State.pending, List.drop_eq_nil_iff]
  simp only [State.drained, List.length_append, List.length_map]
  omega

theorem Inv.collect (h : Inv s) (ho : s.observations n = some o) :
    (s.collect o).Accounts (s.taken n ++ s.pending) := by
  have hholds := (h.running n o ho).2.collected
  rw [State.collect]
  split
  · exact hholds.pushBuffer h.buffer
  · next hzero =>
      have hnil : s.pending = [] := by
        have htotal : s.buffer.totalBytes = 0 := by simpa [HeadTailBuffer.drain] using hzero
        rw [← List.length_eq_zero_iff, ← h.buffer.2, htotal]
      rw [hnil, List.append_nil]
      exact hholds

/-- **A drain**: what is pending goes to one observation. -/
theorem Inv.drained (h : Inv s) (ho : s.observations n = some o) {o' : Observation}
    (hcollected : o'.collected = s.collect o) (hphase : ∀ r, o'.phase ≠ .remove (.ok r)) :
    Inv ((s.drained n).put n (some o')) := by
  have hlt := (h.running n o ho).1
  have hother : ∀ r ∈ s.returned, r.1 ≠ n := by
    intro r hr heq
    rw [← heq, (h.returned r hr).2.1] at ho
    cases ho
  have htaken : ∀ m, ((s.drained n).put n (some o')).taken m =
      if m = n then s.taken n ++ s.pending else s.taken m := taken_drained s n
  refine ⟨?_, ?_, h.positions, ?_, fun m o₁ ho₁ => ?_, fun r hr => ?_, h.distinct, h.after, ?_⟩
  · change (s.handed ++ s.pending.map fun x => (x, n)).map Prod.fst <+: s.stream
    rw [List.map_append, List.map_map]
    refine (congrArg (· <+: s.stream) ?_).mpr List.prefix_rfl
    refine Eq.trans ?_ h.split
    exact congrArg _ (List.map_id _)
  · change HeadTailBuffer.Accounts _ (s.drained n).pending
    rw [h.pending_drained]
    exact HeadTailBuffer.accounts_empty _
  · intro e he
    rcases List.mem_append.mp he with he | he
    · exact h.begun e he
    · obtain ⟨x, -, rfl⟩ := List.mem_map.mp he
      exact hlt
  · rw [htaken]
    by_cases hm : m = n
    · subst hm
      simp only [State.put, Function.update_self] at ho₁
      obtain rfl := Option.some.inj ho₁
      rw [if_pos rfl]
      refine ⟨hlt, hcollected ▸ h.collect ho, fun r hr => absurd hr (hphase r)⟩
    · simp only [State.put, Function.update_of_ne hm] at ho₁
      rw [if_neg hm]
      exact h.running m o₁ ho₁
  · rw [htaken, if_neg (hother r hr)]
    obtain ⟨hbegun, hnone, haccounts⟩ := h.returned r hr
    exact ⟨hbegun, (Function.update_of_ne (hother r hr) ..).trans hnone, haccounts⟩
  · intro k r hr m hm hk
    rw [htaken, htaken, if_neg (hother r (List.mem_of_getElem? hr))]
    split
    · next heq =>
        subst heq
        intro x hx y hy
        rcases List.mem_append.mp hy with hy | hy
        · exact h.order k r hr m hm hk x hx y hy
        · exact h.taken_before r.1 x hx y hy
    · exact h.order k r hr m hm hk

/-- **A result**: an observation ends with what it has taken. -/
theorem Inv.finish (h : Inv s) (ho : s.observations n = some o)
    {outcome : Except String ExecutionResult}
    (houtcome : ∀ r, outcome = .ok r → r.Accounts (s.taken n)) : Inv (s.finish n outcome) := by
  have hput : Inv (s.put n none) := h.put fun o₁ ho₁ => by cases ho₁
  cases outcome with
  | error message => exact hput
  | ok r =>
      refine ⟨hput.handed, hput.buffer, hput.positions, hput.begun, hput.running, fun r' hr' => ?_,
        ?_, fun m hm => ?_, fun k r' hr' m hm hk => ?_⟩
      · rcases List.mem_append.mp hr' with hr' | hr'
        · exact hput.returned r' hr'
        · obtain rfl := List.mem_singleton.mp hr'
          exact ⟨(h.running n o ho).1, Function.update_self .., houtcome r rfl⟩
      · change ((s.returned ++ [(n, r)]).map Prod.fst).Nodup
        rw [List.map_append]
        refine List.nodup_append.mpr ⟨h.distinct, List.pairwise_singleton _ _, ?_⟩
        rintro m hm _ hm' rfl
        obtain ⟨r', hr', heq⟩ := List.mem_map.mp hm
        have hn : m = n := List.mem_singleton.mp hm'
        rw [← hn, ← heq] at ho
        exact absurd ((h.returned r' hr').2.1.symm.trans ho) (Option.some_ne_none o).symm
      · refine (h.after m hm).trans ?_
        change s.returned.length ≤ (s.returned ++ [(n, r)]).length
        rw [List.length_append]
        exact Nat.le_add_right ..
      · -- the new result is the last one, and no observation has begun after it
        have hlt : k < s.returned.length := hk.trans_le (h.after m hm)
        change (s.returned ++ [(n, r)])[k]? = some r' at hr'
        rw [List.getElem?_append_left hlt] at hr'
        exact h.order k r' hr' m hm hk

/-- **A chunk** is pending, after what was. -/
theorem Inv.append (h : Inv s) (chunk : List UInt8) : Inv (s.append chunk) := by
  refine Inv.setEvent ?_
  let octets : List Octet := (chunk.zipIdx s.stream.length).map fun b => ⟨b.1, b.2⟩
  change Inv { s with stream := s.stream ++ octets, buffer := s.buffer.pushChunk octets }
  have hpending : State.pending { s with
      stream := s.stream ++ octets, buffer := s.buffer.pushChunk octets } =
      s.pending ++ octets := by
    have hle : s.handed.length ≤ s.stream.length := by
      have hlength := h.handed.length_le
      rwa [List.length_map] at hlength
    exact List.drop_append_of_le_length hle
  refine ⟨h.handed.trans (List.prefix_append ..), ?_, ?_, h.begun, h.running, h.returned,
    h.distinct, h.after, h.order⟩
  · rw [hpending]
    exact h.buffer.pushChunk octets
  · have hpositions : octets.map Octet.position = List.range' s.stream.length chunk.length := by
      rw [List.map_map]
      exact List.zipIdx_map_snd ..
    have hlength : octets.length = chunk.length := by
      rw [List.length_map, List.length_zipIdx]
    change (s.stream ++ octets).map Octet.position = List.range (s.stream ++ octets).length
    rw [List.map_append, h.positions, hpositions, List.length_append, hlength,
      List.range_eq_range', List.range_eq_range', ← List.range'_append_1, Nat.zero_add]

/-- **A new observation** has nothing. -/
theorem Inv.begin (h : Inv s) (waitMs maxOutputTokens : ℕ) :
    Inv (s.begin waitMs maxOutputTokens) := by
  have hnil : (s.begin waitMs maxOutputTokens).taken s.begun = [] := h.taken_eq_nil le_rfl
  have hold : ∀ m, m < s.begun → m ≠ s.begun := fun m hm => Nat.ne_of_lt hm
  refine ⟨h.handed, h.buffer, h.positions, fun e he => Nat.lt_succ_of_lt (h.begun e he),
    fun m o ho => ?_, fun r hr => ?_, h.distinct, fun m hm => ?_, fun k r hr m hm hk => ?_⟩
  · by_cases hm : m = s.begun
    · subst hm
      simp only [State.begin, State.put, Function.update_self] at ho
      obtain rfl := Option.some.inj ho
      rw [hnil]
      exact ⟨Nat.lt_succ_self _, HeadTailBuffer.accounts_empty _, fun r hr => by cases hr⟩
    · simp only [State.begin, State.put, Function.update_of_ne hm] at ho
      obtain ⟨hlt, hholds⟩ := h.running m o ho
      exact ⟨Nat.lt_succ_of_lt hlt, hholds⟩
  · obtain ⟨hlt, hnone, haccounts⟩ := h.returned r hr
    exact ⟨Nat.lt_succ_of_lt hlt, (Function.update_of_ne (hold r.1 hlt) ..).trans hnone,
      haccounts⟩
  · change Function.update s.after s.begun s.returned.length m ≤ s.returned.length
    by_cases heq : m = s.begun
    · rw [heq, Function.update_self]
    · rw [Function.update_of_ne heq]
      exact h.after m (Nat.lt_of_le_of_ne (Nat.lt_succ_iff.mp hm) heq)
  · by_cases heq : m = s.begun
    · rw [heq, hnil]
      exact fun _ _ _ hy => by cases hy
    · change k < Function.update s.after s.begun s.returned.length m at hk
      rw [Function.update_of_ne heq] at hk
      exact h.order k r hr m (Nat.lt_of_le_of_ne (Nat.lt_succ_iff.mp hm) heq) hk

theorem Inv.move (h : Inv s) (ho : s.observations n = some o) {phase : Phase}
    (hphase : ∀ r, phase = .remove (.ok r) → r.Accounts (s.taken n)) :
    Inv (s.put n (some { o with phase := phase })) := by
  refine h.put fun o₁ ho₁ => ⟨o, ho, fun hholds => ?_⟩
  obtain rfl := Option.some.inj ho₁
  exact ⟨hholds.collected, hphase⟩

theorem settle_ne_remove (s : State) (outcome : Except String ExecutionResult) :
    s.settle ≠ .remove outcome := by
  unfold State.settle
  split
  · exact fun h => by cases h
  · exact fun h => by cases h

theorem proceed_spec (s : State) (o : Observation) :
    (s.proceed o).collected = o.collected ∧
      ∀ outcome, (s.proceed o).phase ≠ .remove outcome := by
  unfold State.proceed
  split
  · split
    · exact ⟨rfl, settle_ne_remove s⟩
    · refine ⟨rfl, fun outcome => ?_⟩
      dsimp only
      split
      · exact settle_ne_remove s outcome
      · exact fun h => by cases h
  · refine ⟨rfl, fun outcome => ?_⟩
    dsimp only
    split
    · exact settle_ne_remove s outcome
    · exact fun h => by cases h

theorem result_accounts {bytes : List Octet} (s : State) (h : o.collected.Accounts bytes) :
    (s.result o).Accounts bytes := by
  obtain ⟨hsub, htotal⟩ := h.limitOutput o.maxOutputTokens
  refine ⟨hsub, ?_⟩
  rw [← htotal]
  simp only [State.result, HeadTailBuffer.toBytes, HeadTailBuffer.totalBytes, List.length_append]

/-- **A build**: the observation has its result, or fails. -/
theorem Inv.build (h : Inv s) (ho : s.observations n = some o) : Inv (s.build n o) := by
  have hresult := result_accounts s (h.running n o ho).2.collected
  unfold State.build
  split
  · exact h.move ho fun r hr => by cases hr
  · split
    · refine h.finish ho fun r hr => ?_
      obtain rfl := Except.ok.inj hr
      exact hresult
    · refine h.move ho fun r hr => ?_
      obtain rfl := Except.ok.inj (Phase.remove.inj hr)
      exact hresult

theorem put_put (s : State) (n : ℕ) (o o' : Option Observation) :
    (s.put n o).put n o' = s.put n o' := by
  simp only [State.put, Function.update_idem]

theorem build_put (s : State) (n : ℕ) (o₁ : Option Observation) (o : Observation) :
    (s.put n o₁).build n o = s.build n o := by
  have hresult : (s.put n o₁).result o = s.result o := rfl
  have hfinish : (s.put n o₁).finish n (.ok (s.result o)) = s.finish n (.ok (s.result o)) := by
    simp only [State.finish, put_put]
    rfl
  simp only [State.build, put_put, hresult, hfinish]
  rfl

/-- **An observation that goes on** keeps the invariant. -/
theorem Inv.run (h : Inv s) (ho : s.observations n = some o) (hrun : s.run n o = some t) :
    Inv t := by
  unfold State.run at hrun
  split at hrun
  · obtain rfl := Option.some.inj hrun
    obtain ⟨hcollected, hphase⟩ := proceed_spec s { o with collected := s.collect o }
    exact h.drained ho hcollected fun r => hphase (.ok r)
  · split at hrun
    · obtain rfl := Option.some.inj hrun
      exact h.move ho fun r hr => by cases hr
    · cases hrun
  iterate 2
    · split at hrun
      · obtain rfl := Option.some.inj hrun
        exact h.move ho fun r hr => by cases hr
      · cases hrun
  · next hphase =>
      obtain rfl := Option.some.inj hrun
      rw [← build_put _ n (some { o with collected := s.collect o })]
      refine (h.drained ho rfl fun r hr => ?_).build (Function.update_self ..)
      rw [hphase] at hr
      cases hr
  · next outcome hphase =>
      have houtcome : ∀ r, outcome = .ok r → r.Accounts (s.taken n) := by
        rintro r rfl
        exact (h.running n o ho).2.result r hphase
      split at hrun
      · split at hrun
        · obtain rfl := Option.some.inj hrun
          have hframe : Inv { s with registered := false } :=
            h.frame rfl rfl rfl rfl rfl rfl fun m o₁ ho₁ => ⟨o₁, ho₁, id⟩
          exact hframe.finish ho houtcome
        · cases hrun
      · obtain rfl := Option.some.inj hrun
        exact h.finish ho houtcome

theorem Inv.timeout (h : Inv s) (ho : s.observations n = some o)
    (htimeout : s.timeout n o = some t) : Inv t := by
  unfold State.timeout at htimeout
  split at htimeout
  · split at htimeout
    · obtain rfl := Option.some.inj htimeout
      exact h.move ho fun r hr => absurd hr (settle_ne_remove s _)
    · cases htimeout
  · split at htimeout
    · obtain rfl := Option.some.inj htimeout
      exact h.move ho fun r hr => by cases hr
    · cases htimeout
  iterate 4 cases htimeout

/-- **The step lemma.** -/
theorem Inv.step (h : Inv s) {move : Move} (hstep : s.apply move = some t) : Inv t := by
  have hsame : ∀ {u : State}, u.stream = s.stream → u.buffer = s.buffer → u.handed = s.handed →
      u.begun = s.begun → u.after = s.after → u.returned = s.returned →
      u.observations = s.observations → Inv u := by
    intro u h₁ h₂ h₃ h₄ h₅ h₆ h₇
    exact h.frame h₁ h₂ h₃ h₄ h₅ h₆ fun m o ho => ⟨o, h₇ ▸ ho, id⟩
  cases move with
  | append chunk =>
      rw [State.apply] at hstep
      split at hstep
      · cases hstep
      · obtain rfl := Option.some.inj hstep
        exact h.append chunk
  | tick ms =>
      obtain rfl := Option.some.inj hstep
      exact hsame rfl rfl rfl rfl rfl rfl rfl
  | exit code =>
      rw [State.apply] at hstep
      split at hstep
      · obtain rfl := Option.some.inj hstep
        exact hsame rfl rfl rfl rfl rfl rfl rfl
      · cases hstep
  | exited =>
      obtain rfl := Option.some.inj hstep
      refine Inv.setEvent ?_
      exact hsame rfl rfl rfl rfl rfl rfl rfl
  | pumpEnds =>
      obtain rfl := Option.some.inj hstep
      refine Inv.setEvent ?_
      exact hsame rfl rfl rfl rfl rfl rfl rfl
  | fail message =>
      obtain rfl := Option.some.inj hstep
      refine Inv.setEvent ?_
      exact hsame rfl rfl rfl rfl rfl rfl rfl
  | reason finishReason =>
      obtain rfl := Option.some.inj hstep
      exact hsame rfl rfl rfl rfl rfl rfl rfl
  | unregister =>
      rw [State.apply] at hstep
      split at hstep
      · obtain rfl := Option.some.inj hstep
        exact hsame rfl rfl rfl rfl rfl rfl rfl
      · cases hstep
  | begin waitMs maxOutputTokens =>
      obtain rfl := Option.some.inj hstep
      exact h.begin waitMs maxOutputTokens
  | run n =>
      obtain ⟨o, ho, hrun⟩ := Option.bind_eq_some_iff.mp hstep
      exact h.run ho hrun
  | timeout n =>
      obtain ⟨o, ho, htimeout⟩ := Option.bind_eq_some_iff.mp hstep
      exact h.timeout ho htimeout
  | cancel n =>
      obtain ⟨o, ho, rfl⟩ := Option.map_eq_some_iff.mp hstep
      exact h.put fun o₁ ho₁ => by cases ho₁
  | removalFails n =>
      obtain ⟨o, ho, hfails⟩ := Option.bind_eq_some_iff.mp hstep
      split at hfails
      · obtain rfl := Option.some.inj hfails
        exact h.put fun o₁ ho₁ => by cases ho₁
      · cases hfails

end Steps

theorem inv_of_reachable {G : State → Move → Prop} {s : State} (h : shell.ReachableVia G s) :
    Inv s := by
  refine Transition.System.ReachableVia.invariant (I := Inv) ?_ ?_ h
  · rintro s rfl
    exact .initial
  · exact fun _ _ _ hinv _ hstep => hinv.step hstep

/-! ### What is promised -/

/-- Every byte is in the buffer or drained by one observation. The buffer, the observations and the
results account for what they have, a result shows it in order, and it shows nothing that comes
before a result that was there when its observation began. -/
structure State.Accounted (s : State) : Prop where
  somewhere : ∀ x, x ∈ s.stream ↔ x ∈ s.pending ∨ ∃ n, x ∈ s.taken n
  once : s.pending.Nodup ∧ ∀ n, (s.taken n).Nodup ∧ ∀ x ∈ s.taken n, x ∉ s.pending
  apart : ∀ n m x, x ∈ s.taken n → x ∈ s.taken m → n = m
  buffer : s.buffer.Accounts s.pending
  running : ∀ n o, s.observations n = some o → o.Holds (s.taken n)
  returned : ∀ r ∈ s.returned, s.observations r.1 = none ∧ r.2.Accounts (s.taken r.1)
  distinct : (s.returned.map Prod.fst).Nodup
  shown : ∀ r ∈ s.returned, r.2.output.Pairwise fun x y => x.position < y.position
  successive : ∀ k r r', s.returned[k]? = some r → r' ∈ s.returned → k < s.after r'.1 →
    Before r.2.output r'.2.output

/-- No byte is lost as long as the manager holds the execution. -/
def State.Kept (s : State) : Prop :=
  s.registered = true → ∀ x ∈ s.stream, x ∈ s.pending ∨
    (∃ n o, s.observations n = some o ∧ x ∈ s.taken n) ∨ ∃ r ∈ s.returned, x ∈ s.taken r.1

/-- The results show their bytes in the order in which they were returned. -/
def State.Ordered (s : State) : Prop :=
  ∀ (k j : ℕ) (r r' : ℕ × ExecutionResult), k < j → s.returned[k]? = some r →
    s.returned[j]? = some r' → Before r.2.output r'.2.output

/-- Whether an observation is about to drain. -/
def State.drains (s : State) (n : ℕ) : Bool :=
  match s.observations n with
  | some o => o.phase = .drain || o.phase = .final
  | none => false

/-- **The condition for completeness**: an observation that holds bytes is not cancelled, and does
not fail, as long as the manager holds the execution. -/
def Keeps (s : State) : Move → Prop
  | .cancel n | .removalFails n => s.registered = true → s.taken n = []
  | _ => True

/-- **The condition for the order of overlapping observations**: nothing is drained while another
observation holds bytes. -/
def Alone (s : State) : Move → Prop
  | .run n => s.drains n = true → s.pending ≠ [] →
      ∀ m < s.begun, m ≠ n → s.observations m ≠ none → s.taken m = []
  | _ => True

section Accounting

variable {s : State} {n : ℕ}

theorem Inv.nodup (h : Inv s) : s.stream.Nodup :=
  h.sorted.imp fun hlt heq => absurd (congrArg Octet.position heq) (Nat.ne_of_lt hlt)

theorem taken_sublist (s : State) (n : ℕ) : (s.taken n).Sublist (s.handed.map Prod.fst) :=
  (List.filter_sublist ..).map _

theorem Inv.taken_apart (h : Inv s) {m : ℕ} {x : Octet} (hn : x ∈ s.taken n)
    (hm : x ∈ s.taken m) : n = m := by
  have hnodup : (s.handed.map Prod.fst).Nodup := h.nodup.sublist h.handed.sublist
  obtain ⟨e, he, rfl⟩ := List.mem_map.mp hn
  obtain ⟨e', he', heq⟩ := List.mem_map.mp hm
  obtain ⟨he, hen⟩ := List.mem_filter.mp he
  obtain ⟨he', hem⟩ := List.mem_filter.mp he'
  obtain rfl := List.inj_on_of_nodup_map hnodup he' he heq
  exact (of_decide_eq_true hen).symm.trans (of_decide_eq_true hem)

theorem mem_handed {x : Octet} : x ∈ s.handed.map Prod.fst ↔ ∃ n, x ∈ s.taken n := by
  constructor
  · intro hx
    obtain ⟨e, he, rfl⟩ := List.mem_map.mp hx
    exact ⟨e.2, List.mem_map_of_mem (List.mem_filter.mpr ⟨he, decide_eq_true rfl⟩)⟩
  · rintro ⟨n, hx⟩
    exact (taken_sublist s n).subset hx

theorem Before.mono {xs ys xs' ys' : List Octet} (h : Before xs ys) (hx : xs' ⊆ xs)
    (hy : ys' ⊆ ys) : Before xs' ys' :=
  fun x hmem y hmem' => h x (hx hmem) y (hy hmem')

theorem Inv.accounted (h : Inv s) : s.Accounted where
  somewhere x := by
    rw [← h.split, List.mem_append, mem_handed]
    exact or_comm
  once := by
    have hnodup := h.nodup
    rw [← h.split] at hnodup
    obtain ⟨hhanded, hpending, hdisjoint⟩ := List.nodup_append.mp hnodup
    refine ⟨hpending, fun n => ⟨hhanded.sublist (taken_sublist s n), fun x hx hx' => ?_⟩⟩
    exact hdisjoint x ((taken_sublist s n).subset hx) x hx' rfl
  apart _ _ _ hn hm := h.taken_apart hn hm
  buffer := h.buffer
  running n o ho := (h.running n o ho).2
  returned r hr := (h.returned r hr).2
  distinct := h.distinct
  shown r hr := by
    have hsub := ((h.returned r hr).2.2.1.trans (taken_sublist s r.1)).trans h.handed.sublist
    exact h.sorted.sublist hsub
  successive k r r' hr hr' hk := by
    obtain ⟨hlt, -, haccounts⟩ := h.returned r' hr'
    have hbefore := h.order k r hr r'.1 hlt hk
    exact hbefore.mono (h.returned r (List.mem_of_getElem? hr)).2.2.1.subset haccounts.1.subset

end Accounting

/-! ### Rules for moves -/

/-- The conditions of a move: `D` where an observation drains, `L` where one is lost. -/
def Meets (D L : State → ℕ → Prop) (s : State) : Move → Prop
  | .run n => s.drains n = true → D s n
  | .cancel n | .removalFails n => L s n
  | _ => True

/-- A state with the same bytes, results and observations. -/
structure Same (s t : State) : Prop where
  pending : t.pending = s.pending
  taken : t.taken = s.taken
  handed : t.handed = s.handed
  begun : t.begun = s.begun
  returned : t.returned = s.returned
  running : ∀ n, t.observations n = none ↔ s.observations n = none
  registered : t.registered = true → s.registered = true

/-- What is true of a state and kept by every drain, result and loss is kept by every move. -/
structure Preserved (D L : State → ℕ → Prop) (P : State → Prop) : Prop where
  same : ∀ {s t}, Same s t → P s → P t
  append : ∀ {s} chunk, P s → P (s.append chunk)
  begin : ∀ {s} waitMs maxOutputTokens, Inv s → P s → P (s.begin waitMs maxOutputTokens)
  drain : ∀ {s n o}, Inv s → s.observations n = some o → D s n → P s →
    ∀ o', P ((s.drained n).put n (some o'))
  give : ∀ {s n o}, s.observations n = some o → P s → ∀ r, P (s.finish n (.ok r))
  lose : ∀ {s n o}, s.observations n = some o → L s n → P s → P (s.put n none)
  unheld : ∀ {s n}, s.registered = false → L s n

section Rules

variable {D L : State → ℕ → Prop} {P : State → Prop} {s t : State} {n : ℕ} {o : Observation}

theorem Same.setEvent (h : Same s t) : Same s t.setEvent := by
  refine ⟨h.pending, h.taken, h.handed, h.begun, h.returned, fun n => ?_, h.registered⟩
  exact Option.map_eq_none_iff.trans (h.running n)

theorem Same.put (ho : s.observations n = some o) (o' : Observation) :
    Same s (s.put n (some o')) := by
  refine ⟨rfl, rfl, rfl, rfl, rfl, fun m => ?_, id⟩
  by_cases hm : m = n
  · subst hm
    simp only [State.put, Function.update_self, ho]
    exact ⟨fun h => (by cases h), fun h => (by cases h)⟩
  · simp only [State.put, Function.update_of_ne hm]

theorem Preserved.build (h : Preserved D L P) (ho : s.observations n = some o) (hP : P s)
    (o' : Observation) :
    P (s.build n o') := by
  unfold State.build
  split
  · exact h.same (.put ho _) hP
  · split
    · exact h.give ho hP _
    · exact h.same (.put ho _) hP

theorem Preserved.run (h : Preserved D L P) (hinv : Inv s) (ho : s.observations n = some o)
    (hP : P s) (hD : s.drains n = true → D s n) (hrun : s.run n o = some t) : P t := by
  have hdrains : o.phase = .drain ∨ o.phase = .final → s.drains n = true := by
    intro hphase
    rw [State.drains, ho]
    simpa using hphase
  unfold State.run at hrun
  split at hrun
  · next hphase =>
      obtain rfl := Option.some.inj hrun
      exact h.drain hinv ho (hD (hdrains (.inl hphase))) hP _
  · split at hrun
    · obtain rfl := Option.some.inj hrun
      exact h.same (.put ho _) hP
    · cases hrun
  iterate 2
    · split at hrun
      · obtain rfl := Option.some.inj hrun
        exact h.same (.put ho _) hP
      · cases hrun
  · next hphase =>
      obtain rfl := Option.some.inj hrun
      rw [← build_put _ n (some o)]
      refine h.build (Function.update_self ..) ?_ _
      exact h.drain hinv ho (hD (hdrains (.inr hphase))) hP o
  · next outcome hphase =>
      have hunregister : Same s { s with registered := false } :=
        ⟨rfl, rfl, rfl, rfl, rfl, fun _ => Iff.rfl, fun hr => by cases hr⟩
      split at hrun
      · split at hrun
        · obtain rfl := Option.some.inj hrun
          have hP' : P { s with registered := false } := h.same hunregister hP
          have ho' : State.observations { s with registered := false } n = some o := ho
          cases outcome with
          | ok r => exact h.give ho' hP' r
          | error message => exact h.lose ho' (h.unheld rfl) hP'
        · cases hrun
      · next hregistered =>
          obtain rfl := Option.some.inj hrun
          cases outcome with
          | ok r => exact h.give ho hP r
          | error message => exact h.lose ho (h.unheld (eq_false_of_ne_true hregistered)) hP

theorem Preserved.timeout (h : Preserved D L P) (ho : s.observations n = some o) (hP : P s)
    (htimeout : s.timeout n o = some t) : P t := by
  unfold State.timeout at htimeout
  split at htimeout
  iterate 2
    · split at htimeout
      · obtain rfl := Option.some.inj htimeout
        exact h.same (.put ho _) hP
      · cases htimeout
  iterate 4 cases htimeout

/-- **The rule of moves.** -/
theorem Preserved.step (h : Preserved D L P) {move : Move} (hinv : Inv s) (hP : P s)
    (hmeets : Meets D L s move)
    (hstep : s.apply move = some t) : P t := by
  have hframe : ∀ {u : State}, u.stream = s.stream → u.handed = s.handed → u.begun = s.begun →
      u.returned = s.returned → u.observations = s.observations →
      (u.registered = true → s.registered = true) → Same s u := by
    intro u h₁ h₂ h₃ h₄ h₅ h₆
    refine ⟨?_, ?_, h₂, h₃, h₄, fun n => by rw [h₅], h₆⟩
    · rw [State.pending, h₁, h₂]
      rfl
    · funext n
      rw [State.taken, h₂]
      rfl
  cases move with
  | append chunk =>
      rw [State.apply] at hstep
      split at hstep
      · cases hstep
      · obtain rfl := Option.some.inj hstep
        exact h.append chunk hP
  | tick ms =>
      obtain rfl := Option.some.inj hstep
      exact h.same (hframe rfl rfl rfl rfl rfl id) hP
  | exit code =>
      rw [State.apply] at hstep
      split at hstep
      · obtain rfl := Option.some.inj hstep
        exact h.same (hframe rfl rfl rfl rfl rfl id) hP
      · cases hstep
  | exited =>
      obtain rfl := Option.some.inj hstep
      exact h.same (Same.setEvent (hframe rfl rfl rfl rfl rfl id)) hP
  | pumpEnds =>
      obtain rfl := Option.some.inj hstep
      exact h.same (Same.setEvent (hframe rfl rfl rfl rfl rfl id)) hP
  | fail message =>
      obtain rfl := Option.some.inj hstep
      exact h.same (Same.setEvent (hframe rfl rfl rfl rfl rfl id)) hP
  | reason finishReason =>
      obtain rfl := Option.some.inj hstep
      exact h.same (hframe rfl rfl rfl rfl rfl id) hP
  | unregister =>
      rw [State.apply] at hstep
      split at hstep
      · obtain rfl := Option.some.inj hstep
        exact h.same (hframe rfl rfl rfl rfl rfl fun hr => by cases hr) hP
      · cases hstep
  | begin waitMs maxOutputTokens =>
      obtain rfl := Option.some.inj hstep
      exact h.begin waitMs maxOutputTokens hinv hP
  | run n =>
      obtain ⟨o, ho, hrun⟩ := Option.bind_eq_some_iff.mp hstep
      exact h.run hinv ho hP hmeets hrun
  | timeout n =>
      obtain ⟨o, ho, htimeout⟩ := Option.bind_eq_some_iff.mp hstep
      exact h.timeout ho hP htimeout
  | cancel n =>
      obtain ⟨o, ho, rfl⟩ := Option.map_eq_some_iff.mp hstep
      exact h.lose ho hmeets hP
  | removalFails n =>
      obtain ⟨o, ho, hfails⟩ := Option.bind_eq_some_iff.mp hstep
      split at hfails
      · obtain rfl := Option.some.inj hfails
        exact h.lose ho hmeets hP
      · cases hfails

end Rules

/-! ### Completeness -/

/-- Every byte that was drained is held by a running observation, or a result has it. -/
def HeldOn (s : State) : Prop :=
  s.registered = true → ∀ e ∈ s.handed,
    s.observations e.2 ≠ none ∨ ∃ r ∈ s.returned, r.1 = e.2

/-- What is held on to stays so, as long as no bytes are lost. -/
theorem preserved_heldOn :
    Preserved (fun _ _ => True) (fun s n => s.registered = true → s.taken n = []) HeldOn where
  same h hP hregistered e he := by
    rw [h.returned]
    refine (hP (h.registered hregistered) e (h.handed ▸ he)).imp_left fun hne hnone => ?_
    exact hne ((h.running e.2).mp hnone)
  append chunk hP hregistered e he := by
    refine (hP hregistered e he).imp_left fun hne hnone => ?_
    exact hne (Option.map_eq_none_iff.mp hnone)
  begin waitMs maxOutputTokens hinv hP hregistered e he := by
    refine (hP hregistered e he).imp_left fun hne hnone => ?_
    exact hne ((Function.update_of_ne (Nat.ne_of_lt (hinv.begun e he)) ..).symm.trans hnone)
  drain {s n o} hinv ho _ hP o' hregistered e he := by
    by_cases hn : e.2 = n
    · refine .inl fun hnone => ?_
      rw [hn] at hnone
      exact absurd ((Function.update_self ..).symm.trans hnone) (Option.some_ne_none o')
    · rcases List.mem_append.mp he with he | he
      · refine (hP hregistered e he).imp_left fun hne hnone => ?_
        exact hne ((Function.update_of_ne hn ..).symm.trans hnone)
      · obtain ⟨x, -, rfl⟩ := List.mem_map.mp he
        exact absurd rfl hn
  give {s n o} ho hP r hregistered e he := by
    by_cases hn : e.2 = n
    · exact .inr ⟨(n, r), List.mem_append_right _ (List.mem_singleton.mpr rfl), hn.symm⟩
    · refine (hP hregistered e he).imp (fun hne hnone => ?_) fun ⟨r', hr', heq⟩ => ?_
      · exact hne ((Function.update_of_ne hn ..).symm.trans hnone)
      · exact ⟨r', List.mem_append_left _ hr', heq⟩
  lose {s n o} ho hL hP hregistered e he := by
    refine (hP hregistered e he).imp_left fun hne hnone => ?_
    have hn : e.2 ≠ n := by
      rintro rfl
      have hmem : e.1 ∈ s.taken e.2 :=
        List.mem_map_of_mem (List.mem_filter.mpr ⟨he, decide_eq_true rfl⟩)
      rw [hL hregistered] at hmem
      cases hmem
    exact hne ((Function.update_of_ne hn ..).symm.trans hnone)
  unheld hfalse htrue := by
    rw [hfalse] at htrue
    cases htrue

theorem HeldOn.kept {s : State} (h : HeldOn s) (hinv : Inv s) : s.Kept := by
  intro hregistered x hx
  rw [← hinv.split] at hx
  rcases List.mem_append.mp hx with hx | hx
  · obtain ⟨e, he, rfl⟩ := List.mem_map.mp hx
    have hmem : e.1 ∈ s.taken e.2 :=
      List.mem_map_of_mem (List.mem_filter.mpr ⟨he, decide_eq_true rfl⟩)
    rcases h hregistered e he with hne | ⟨r, hr, heq⟩
    · obtain ⟨o, ho⟩ := Option.ne_none_iff_exists'.mp hne
      exact .inr (.inl ⟨e.2, o, ho, hmem⟩)
    · exact .inr (.inr ⟨r, hr, heq ▸ hmem⟩)
  · exact .inl hx

/-! ### The order of results -/

/-- The results are in order, before the running observations, of which one holds bytes at most. -/
structure InOrder (s : State) : Prop where
  results : ∀ (k j : ℕ) (r r' : ℕ × ExecutionResult), k < j → s.returned[k]? = some r →
    s.returned[j]? = some r' → Before (s.taken r.1) (s.taken r'.1)
  running : ∀ r ∈ s.returned, ∀ n, s.observations n ≠ none → Before (s.taken r.1) (s.taken n)
  alone : ∀ n m, n ≠ m → s.observations n ≠ none → s.observations m ≠ none →
    s.taken n = [] ∨ s.taken m = []

theorem before_nil (xs : List Octet) : Before xs [] :=
  fun _ _ _ hy => by cases hy

theorem nil_before (xs : List Octet) : Before [] xs :=
  fun _ hx => by cases hx

/-- What is in order stays so, as long as one observation holds bytes at a time. -/
theorem preserved_inOrder :
    Preserved (fun s n => s.pending ≠ [] → ∀ m < s.begun, m ≠ n → s.observations m ≠ none →
      s.taken m = []) (fun _ _ => True) InOrder where
  same h hP := by
    refine ⟨?_, ?_, ?_⟩
    · rw [h.returned, h.taken]
      exact hP.results
    · rw [h.returned, h.taken]
      exact fun r hr n hn => hP.running r hr n (mt (h.running n).mpr hn)
    · rw [h.taken]
      exact fun n m hne hn hm => hP.alone n m hne (mt (h.running n).mpr hn)
        (mt (h.running m).mpr hm)
  append chunk hP := by
    refine ⟨hP.results, fun r hr n hn => hP.running r hr n ?_, fun n m hne hn hm => ?_⟩
    · exact mt Option.map_eq_none_iff.mpr hn
    · exact hP.alone n m hne (mt Option.map_eq_none_iff.mpr hn) (mt Option.map_eq_none_iff.mpr hm)
  begin {s} waitMs maxOutputTokens hinv hP := by
    have hnil : s.taken s.begun = [] := hinv.taken_eq_nil le_rfl
    have hold : ∀ n, n ≠ s.begun →
        (s.begin waitMs maxOutputTokens).observations n = s.observations n :=
      fun n hn => Function.update_of_ne hn ..
    refine ⟨hP.results, fun r hr n hn => ?_, fun n m hne hn hm => ?_⟩
    · by_cases heq : n = s.begun
      · exact heq ▸ hnil.symm ▸ before_nil _
      · exact hP.running r hr n (hold n heq ▸ hn)
    · by_cases heq : n = s.begun
      · exact .inl (heq ▸ hnil)
      · by_cases heq' : m = s.begun
        · exact .inr (heq' ▸ hnil)
        · exact hP.alone n m hne (hold n heq ▸ hn) (hold m heq' ▸ hm)
  drain {s n o} hinv ho hD hP o' := by
    have htaken : ∀ m, ((s.drained n).put n (some o')).taken m =
        if m = n then s.taken n ++ s.pending else s.taken m := taken_drained s n
    have hother : ∀ r ∈ s.returned, r.1 ≠ n := by
      intro r hr heq
      rw [← heq, (hinv.returned r hr).2.1] at ho
      cases ho
    have hold : ∀ m, m ≠ n → ((s.drained n).put n (some o')).observations m = s.observations m :=
      fun m hm => Function.update_of_ne hm ..
    have hne : s.observations n ≠ none := by
      rw [ho]
      exact Option.some_ne_none o
    have hempty : ∀ m, m ≠ n → s.observations m ≠ none →
        s.taken n ++ s.pending = [] ∨ s.taken m = [] := by
      intro m hm hrunning
      obtain ⟨o₁, ho₁⟩ := Option.ne_none_iff_exists'.mp hrunning
      by_cases hpending : s.pending = []
      · rw [hpending, List.append_nil]
        exact hP.alone n m hm.symm hne hrunning
      · exact .inr (hD hpending m (hinv.running m o₁ ho₁).1 hm hrunning)
    refine ⟨fun k j r r' hlt hr hr' => ?_, fun r hr m hm => ?_, fun m m' hmm hm hm' => ?_⟩
    · rw [htaken, htaken, if_neg (hother r (List.mem_of_getElem? hr)),
        if_neg (hother r' (List.mem_of_getElem? hr'))]
      exact hP.results k j r r' hlt hr hr'
    · rw [htaken, htaken, if_neg (hother r hr)]
      split
      · next heq =>
          intro x hx y hy
          rcases List.mem_append.mp hy with hy | hy
          · exact hP.running r hr n hne x hx y hy
          · exact hinv.taken_before r.1 x hx y hy
      · next heq => exact hP.running r hr m (hold m heq ▸ hm)
    · rw [htaken, htaken]
      by_cases heq : m = n
      · have hne' : m' ≠ n := heq ▸ hmm.symm
        rw [if_pos heq, if_neg hne']
        exact hempty m' hne' (hold m' hne' ▸ hm')
      · rw [if_neg heq]
        have hrunning := hold m heq ▸ hm
        split
        · exact (hempty m heq hrunning).symm
        · next heq' => exact hP.alone m m' hmm hrunning (hold m' heq' ▸ hm')
  give {s n o} ho hP r := by
    have hne : s.observations n ≠ none := by
      rw [ho]
      exact Option.some_ne_none o
    have hold : ∀ m, (s.finish n (.ok r)).observations m ≠ none →
        m ≠ n ∧ s.observations m ≠ none := by
      intro m hm
      by_cases heq : m = n
      · exact absurd (heq ▸ Function.update_self ..) hm
      · exact ⟨heq, fun hnone => hm ((Function.update_of_ne heq ..).trans hnone)⟩
    refine ⟨fun k j r₁ r₂ hlt hr₁ hr₂ => ?_, fun r₁ hr₁ m hm => ?_, fun m m' hmm hm hm' => ?_⟩
    · change (s.returned ++ [(n, r)])[k]? = some r₁ at hr₁
      change (s.returned ++ [(n, r)])[j]? = some r₂ at hr₂
      rcases Nat.lt_or_ge j s.returned.length with hj | hj
      · rw [List.getElem?_append_left hj] at hr₂
        rw [List.getElem?_append_left (hlt.trans hj)] at hr₁
        exact hP.results k j r₁ r₂ hlt hr₁ hr₂
      · rw [List.getElem?_append_right hj] at hr₂
        have hlast : j = s.returned.length := by
          have hlength := (List.getElem?_eq_some_iff.mp hr₂).1
          rw [List.length_singleton] at hlength
          omega
        obtain rfl := List.mem_singleton.mp (List.mem_of_getElem? hr₂)
        rw [List.getElem?_append_left (hlast ▸ hlt)] at hr₁
        exact hP.running r₁ (List.mem_of_getElem? hr₁) n hne
    · obtain ⟨hmn, hrunning⟩ := hold m hm
      rcases List.mem_append.mp hr₁ with hr₁ | hr₁
      · exact hP.running r₁ hr₁ m hrunning
      · obtain rfl := List.mem_singleton.mp hr₁
        rcases hP.alone n m hmn.symm hne hrunning with hnil | hnil
        · exact hnil.symm ▸ nil_before _
        · exact hnil.symm ▸ before_nil _
    · exact hP.alone m m' hmm (hold m hm).2 (hold m' hm').2
  lose {s n o} ho _ hP := by
    have hold : ∀ m, (s.put n none).observations m ≠ none → s.observations m ≠ none := by
      intro m hm hnone
      by_cases heq : m = n
      · exact hm (heq ▸ Function.update_self ..)
      · exact hm ((Function.update_of_ne heq ..).trans hnone)
    exact ⟨hP.results, fun r hr m hm => hP.running r hr m (hold m hm),
      fun m m' hmm hm hm' => hP.alone m m' hmm (hold m hm) (hold m' hm')⟩
  unheld _ := trivial

theorem InOrder.ordered {s : State} (h : InOrder s) (hinv : Inv s) : s.Ordered := by
  intro k j r r' hlt hr hr'
  refine (h.results k j r r' hlt hr hr').mono ?_ ?_
  · exact (hinv.returned r (List.mem_of_getElem? hr)).2.2.1.subset
  · exact (hinv.returned r' (List.mem_of_getElem? hr')).2.2.1.subset

/-! ### Main results -/

/-- **The output of an execution is handed over once.** In every run every byte is accounted for
once at most, a result shows its bytes in order, and nothing that comes before a result that was
there when its observation began. As long as no observation that holds bytes is cancelled or fails,
nothing is lost. As long as nothing is drained while another observation holds bytes, the results
are in order. -/
theorem output_handed_over (s : State) :
    (shell.Reachable s → s.Accounted) ∧ (shell.ReachableVia Keeps s → s.Kept) ∧
      (shell.ReachableVia Alone s → s.Ordered) := by
  refine ⟨fun h => (inv_of_reachable h).accounted, fun h => ?_, fun h => ?_⟩
  · refine HeldOn.kept ?_ (inv_of_reachable h)
    refine (Transition.System.ReachableVia.invariant (I := fun s => Inv s ∧ HeldOn s) ?_ ?_ h).2
    · rintro s rfl
      exact ⟨.initial, fun _ _ he => by cases he⟩
    · rintro s move t ⟨hinv, hP⟩ hguard hstep
      refine ⟨hinv.step hstep, preserved_heldOn.step hinv hP ?_ hstep⟩
      cases move with
      | cancel n => exact hguard
      | removalFails n => exact hguard
      | run n => exact fun _ => trivial
      | _ => trivial
  · refine InOrder.ordered ?_ (inv_of_reachable h)
    refine (Transition.System.ReachableVia.invariant (I := fun s => Inv s ∧ InOrder s) ?_ ?_ h).2
    · rintro s rfl
      refine ⟨.initial, fun _ _ _ _ _ hr => ?_, fun _ hr => ?_, fun _ _ _ _ _ => .inl rfl⟩
      · cases hr
      · cases hr
    · rintro s move t ⟨hinv, hP⟩ hguard hstep
      refine ⟨hinv.step hstep, preserved_inOrder.step hinv hP ?_ hstep⟩
      cases move with
      | run n => exact hguard
      | _ => trivial

instance (s : State) (move : Move) : Decidable (Keeps s move) :=
  match move with
  | .cancel n | .removalFails n =>
      inferInstanceAs (Decidable (s.registered = true → s.taken n = []))
  | .append _ | .tick _ | .exit _ | .exited | .pumpEnds | .fail _ | .reason _ | .unregister
  | .begin .. | .run _ | .timeout _ => .isTrue trivial

instance (s : State) (move : Move) : Decidable (Alone s move) :=
  match move with
  | .run n => inferInstanceAs (Decidable (s.drains n = true → s.pending ≠ [] →
      ∀ m < s.begun, m ≠ n → s.observations m ≠ none → s.taken m = []))
  | .append _ | .tick _ | .exit _ | .exited | .pumpEnds | .fail _ | .reason _ | .unregister
  | .begin .. | .timeout _ | .cancel _ | .removalFails _ => .isTrue trivial

/-- A move that meets both conditions. -/
def State.applyAlone (s : State) (move : Move) : Option State :=
  if Keeps s move ∧ Alone s move then s.apply move else none

/-- What can be seen of an execution. -/
structure View where
  registered : Bool
  stream : List Octet
  handed : List (Octet × ℕ)
  /-- Which of the first two observations are running. -/
  running : Bool × Bool
  /-- What the results show. -/
  shown : List (ℕ × List Octet)
  deriving DecidableEq

/-- The view of an execution. -/
def State.view (s : State) : View where
  registered := s.registered
  stream := s.stream
  handed := s.handed
  running := ((s.observations 0).isSome, (s.observations 1).isSome)
  shown := s.returned.map fun r => (r.1, r.2.output)

/-- The moves of a process that writes and exits, and is observed once. -/
def sampleMoves : List Move :=
  [.begin 1000 100, .run 0, .append [104], .run 0, .run 0, .append [105], .exit 0, .exited,
    .run 0, .run 0, .pumpEnds, .run 0, .run 0, .run 0, .run 0, .run 0]

/-- A run whose moves all meet the conditions. -/
theorem output_handed_over_sample : ∃ s : State, s.view.shown = [(0, [⟨104, 0⟩, ⟨105, 1⟩])] ∧
    s.Accounted ∧ s.Kept ∧ s.Ordered := by
  have hview : (sampleMoves.foldlM State.applyAlone .initial).map State.view =
      some ⟨false, [⟨104, 0⟩, ⟨105, 1⟩], [(⟨104, 0⟩, 0), (⟨105, 1⟩, 0)], (false, false),
        [(0, [⟨104, 0⟩, ⟨105, 1⟩])]⟩ := by
    decide +kernel
  obtain ⟨s, hmoves, hs⟩ := Option.map_eq_some_iff.mp hview
  have hrun : ∀ G : State → Move → Prop, (∀ s move, Keeps s move ∧ Alone s move → G s move) →
      shell.ReachableVia G s := by
    intro G hG
    refine ⟨.initial, rfl, Transition.System.RunVia.foldlM_guarded ?_ hmoves⟩
    intro s move t hstep
    rw [State.applyAlone] at hstep
    split at hstep
    · next hmeets => exact ⟨hG s move hmeets, hstep⟩
    · cases hstep
  obtain ⟨haccounted, hkept, hordered⟩ := output_handed_over s
  refine ⟨s, by rw [hs], ?_, ?_, ?_⟩
  · exact haccounted (hrun _ fun _ _ _ => trivial)
  · exact hkept (hrun _ fun _ _ hmeets => hmeets.1)
  · exact hordered (hrun _ fun _ _ hmeets => hmeets.2)

theorem reachable_of_foldlM {moves : List Move} {v : View}
    (h : (moves.foldlM State.apply .initial).map State.view = some v) :
    ∃ s, shell.Reachable s ∧ s.view = v := by
  obtain ⟨s, hmoves, hs⟩ := Option.map_eq_some_iff.mp h
  exact ⟨s, ⟨.initial, rfl, Transition.System.RunVia.foldlM (fun _ _ _ hstep => hstep)
    (fun _ _ _ => trivial) hmoves⟩, hs⟩

/-- An observation has drained a byte and waits for more when its caller is cancelled; the next
observation finds nothing. -/
def cancelledMoves : List Move :=
  [.begin 1000 100, .append [104], .run 0, .cancel 0, .begin 1000 100, .run 1, .tick 1000,
    .timeout 1, .run 1]

/-- Two observations take turns. -/
def overlappingMoves : List Move :=
  [.begin 1000 100, .begin 1000 100, .append [104], .run 0, .append [105], .run 1, .append [106],
    .run 0, .run 0, .tick 1000, .timeout 0, .run 0, .timeout 1, .run 1]

/-- **A cancelled caller takes its bytes with it**: the execution stays registered, and the byte is
neither in the buffer nor in an observation nor in a result. And the results of two observations
that overlap are not in order. -/
theorem cancelled_observation_loses :
    (∃ s, shell.Reachable s ∧ ¬s.Kept) ∧ ∃ s, shell.Reachable s ∧ ¬s.Ordered := by
  constructor
  · have hview : (cancelledMoves.foldlM State.apply .initial).map State.view =
        some ⟨true, [⟨104, 0⟩], [(⟨104, 0⟩, 0)], (false, false), [(1, [])]⟩ := by
      decide +kernel
    obtain ⟨s, hreach, hs⟩ := reachable_of_foldlM hview
    obtain ⟨hregistered, hstream, hhanded, hrunning, hshown⟩ := View.mk.inj hs
    refine ⟨s, hreach, fun hkept => ?_⟩
    have htaken : ∀ n, (⟨104, 0⟩ : Octet) ∈ s.taken n → n = 0 := by
      intro n hn
      rw [State.taken, hhanded] at hn
      obtain ⟨e, he, -⟩ := List.mem_map.mp hn
      obtain ⟨he, heq⟩ := List.mem_filter.mp he
      obtain rfl := List.mem_singleton.mp he
      exact (of_decide_eq_true heq).symm
    rcases hkept hregistered ⟨104, 0⟩ (hstream ▸ List.mem_singleton.mpr rfl) with
      hpending | ⟨n, o, ho, hn⟩ | ⟨r, hr, hn⟩
    · rw [State.pending, hstream, hhanded] at hpending
      cases hpending
    · obtain rfl := htaken n hn
      have hnone := (Prod.mk.inj hrunning).1
      rw [ho] at hnone
      cases hnone
    · have hmem := List.mem_map_of_mem (f := fun r => (r.1, r.2.output)) hr
      rw [hshown] at hmem
      have hone := congrArg Prod.fst (List.mem_singleton.mp hmem)
      exact absurd ((htaken r.1 hn).symm.trans hone) (by decide)
  · have hview : (overlappingMoves.foldlM State.apply .initial).map State.view =
        some ⟨true, [⟨104, 0⟩, ⟨105, 1⟩, ⟨106, 2⟩],
          [(⟨104, 0⟩, 0), (⟨105, 1⟩, 1), (⟨106, 2⟩, 0)], (false, false),
          [(0, [⟨104, 0⟩, ⟨106, 2⟩]), (1, [⟨105, 1⟩])]⟩ := by
      decide +kernel
    obtain ⟨s, hreach, hs⟩ := reachable_of_foldlM hview
    obtain ⟨-, -, -, -, hshown⟩ := View.mk.inj hs
    refine ⟨s, hreach, fun hordered => ?_⟩
    have hat : ∀ (k : ℕ) (v : ℕ × List Octet),
        ([(0, [⟨104, 0⟩, ⟨106, 2⟩]), (1, [⟨105, 1⟩])] : List (ℕ × List Octet))[k]? = some v →
        ∃ r, s.returned[k]? = some r ∧ (r.1, r.2.output) = v := by
      intro k v hv
      rw [← hshown, List.getElem?_map] at hv
      exact Option.map_eq_some_iff.mp hv
    obtain ⟨r, hr, hrv⟩ := hat 0 _ rfl
    obtain ⟨r', hr', hrv'⟩ := hat 1 _ rfl
    have hbefore := hordered 0 1 r r' Nat.one_pos hr hr'
    rw [(Prod.mk.inj hrv).2, (Prod.mk.inj hrv').2] at hbefore
    exact absurd (hbefore ⟨106, 2⟩ (by decide) ⟨105, 1⟩ (by decide)) (by decide)

end Kirakira.Shell
