import Kirakira.Lib.Dict
import Kirakira.ReplyState

/-!
# Abandoned Calls

A control that abandons a prefix of its source abandons the tool calls in it that have no
result. Four components read that off the messages, each with a scan of its own:

* `_fold_rebuild` of `plugins/models/projection.py`, for the rendered conversation;
* `settled_prefixes` of `plugins/context/api.py`, for compaction;
* `abandoned_calls` of `plugins/tools/abandon.py`, for the settlement of the calls of a
  control;
* `MessageReply.abandoned` of `plugins/tools/api.py`, for the tool that is called.

The first and the third forget the calls of a source at its next finished output; the
second and the fourth never do. The first forgets them at every finished output before the
control, the third only at those the control covers.

## Main results

* `mem_foldRebuild_iff`, `get?_settledScan_iff`, `mem_abandonedCalls_iff`, `abandoned_iff` —
  what each scan takes for abandoned.
* `scans_agree_iff` — the four agree on a call without a result exactly when no finished
  output of its source comes between the call and the first control that covers it.
-/

namespace Kirakira

open SortedBy

/-- The calls a message proposes. -/
def Message.callRefs (m : Message) : List CallRef :=
  match m.body with
  | .output body => body.callRefs m.messageId m.messageId_ok
  | _ => []

/-! ### The rendered conversation -/

/-- What `_fold_rebuild` keeps of abandoned calls: the outputs that wait for their results,
by source, the outputs that were abandoned, and their calls. -/
structure AbandonFold where
  pending : Dict String (List Message)
  abandoned : List String
  abandonedCalls : List CallRef

/-- `pending.get(source, [])`. -/
def AbandonFold.waiting (fold : AbandonFold) (source : String) : List Message :=
  (fold.pending.get? source).getD []

/-- The body of the first loop of `_fold_rebuild`. -/
def AbandonFold.read (fold : AbandonFold) (message : Message) : AbandonFold :=
  match message.body with
  | .output body =>
      if body.finish = .continue then
        { fold with
          pending := fold.pending.set message.source (fold.waiting message.source ++ [message]) }
      else { fold with pending := fold.pending.set message.source [] }
  | .control body =>
      if body.action = .abandon then
        let outputs := fold.waiting message.source
        let covered := outputs.filter fun output => output.seq ≤ body.throughSeq
        { pending := fold.pending.set message.source
            (outputs.filter fun output => body.throughSeq < output.seq)
          abandoned := fold.abandoned ++ covered.map Message.messageId
          abandonedCalls := fold.abandonedCalls ++ covered.flatMap Message.callRefs }
      else fold
  | _ => fold

/-- The abandoned calls of `_fold_rebuild`. The facts and the receipts of the outputs, which
the fold collects as well, do not change them. -/
def foldRebuild (messages : List Message) : AbandonFold :=
  messages.foldl AbandonFold.read ⟨.empty, [], []⟩

/-! ### Settled prefixes -/

/-- The loop state of `settled_prefixes`. -/
structure SettledScan where
  pending : Dict CallRef Message
  ends : List ℕ
  index : ℕ

/-- What a message makes of the pending calls. -/
def settledRead (pending : Dict CallRef Message) (message : Message) : Dict CallRef Message :=
  match message.body with
  | .input _ => pending
  | .output _ => message.callRefs.foldl (fun pending ref => pending.set ref message) pending
  | .toolResult body => pending.erase body.callRef
  | .control body =>
      if body.action = .abandon then
        pending.filter fun _ call =>
          call.source ≠ message.source || decide (call.seq > body.throughSeq)
      else pending

/-- The body of the loop. -/
def SettledScan.read (scan : SettledScan) (message : Message) : SettledScan :=
  let pending := settledRead scan.pending message
  { pending := pending
    ends := if pending.entries = [] then scan.ends ++ [scan.index + 1] else scan.ends
    index := scan.index + 1 }

/-- The loop of `settled_prefixes`. -/
def settledScan (messages : List Message) : SettledScan :=
  messages.foldl SettledScan.read ⟨.empty, [], 0⟩

/-- `settled_prefixes`. -/
def settledPrefixes (messages : List Message) : List ℕ :=
  (settledScan messages).ends

/-! ### The settlement of a control -/

/-- The body of the loop of `abandoned_calls`. -/
def abandonedRead (source : String) (body : Control) (calls : Dict CallRef ℕ)
    (message : Message) : Dict CallRef ℕ :=
  if message.source ≠ source then calls
  else
    match message.body with
    | .output output =>
        if message.seq ≤ body.throughSeq then
          if output.finish ≠ .continue then .empty
          else message.callRefs.foldl (fun calls ref => calls.set ref message.seq) calls
        else calls
    | _ => calls

/-- `abandoned_calls`, for a control message with this body. -/
def abandonedCalls (messages : List Message) (control : Message) (body : Control) :
    List CallRef :=
  (messages.foldl (abandonedRead control.source body) .empty).entries.map Prod.fst

/-! ### The call itself -/

/-- `MessageReply.abandoned`, where the reader sees these messages. -/
def MessageReply.abandoned (messages : List Message) (callRef : CallRef) :
    Except PyError Bool :=
  match messages.find? fun m => m.messageId = callRef.messageId with
  | none => valueError "工具调用消息缺失"
  | some call => .ok ((messages.filter fun m => call.seq < m.seq).any fun message =>
      message.source = call.source &&
        match message.body with
        | .control body => body.action = .abandon && decide (body.throughSeq ≥ call.seq)
        | _ => false)

/-! ### Covering and finishing -/

/-- The message is a control that abandons the prefix of this call's source up to the call
or further. -/
def Message.covers (message call : Message) : Bool :=
  match message.body with
  | .control body => body.action = .abandon && message.source = call.source &&
      decide (call.seq ≤ body.throughSeq)
  | _ => false

/-- The message is a finished output of this call's source. -/
def Message.finishes (message call : Message) : Bool :=
  message.source = call.source && message.body.isFinished

variable {m : Message} {ref : CallRef}

theorem Message.seq_lt_of_covers {k : Message} (h : k.covers m = true) : m.seq < k.seq := by
  rw [covers] at h
  split at h
  · next body hbody =>
      simp only [Bool.and_eq_true, decide_eq_true_eq] at h
      have := k.control_ok body hbody
      omega
  · cases h

theorem Message.control_of_covers {k : Message} (h : k.covers m = true) :
    ∃ body, k.body = .control body ∧ body.action = .abandon := by
  rw [covers] at h
  split at h
  · next body hbody =>
      simp only [Bool.and_eq_true, decide_eq_true_eq] at h
      exact ⟨body, hbody, h.1.1⟩
  · cases h

theorem Message.mem_callRefs_iff :
    ref ∈ m.callRefs ↔ ref.messageId = m.messageId ∧
      ∃ body call, m.body = .output body ∧ body.parts[ref.partIndex]? = some (.toolCall call) := by
  rw [callRefs]
  cases hbody : m.body with
  | output body =>
      dsimp only
      rw [Output.callRefs, List.mem_map]
      constructor
      · rintro ⟨⟨part, index⟩, hpart, rfl⟩
        obtain ⟨hmem, hcall⟩ := List.mem_filter.mp hpart
        rw [List.mem_zipIdx_iff_getElem?] at hmem
        cases part with
        | content part => cases hcall
        | toolCall call => exact ⟨rfl, body, call, rfl, hmem⟩
      · rintro ⟨hid, body', call, heq, hpart⟩
        obtain rfl := Body.output.inj heq
        refine ⟨(.toolCall call, ref.partIndex), List.mem_filter.mpr ⟨?_, rfl⟩, ?_⟩
        · rw [List.mem_zipIdx_iff_getElem?]
          exact hpart
        · cases ref
          cases hid
          rfl
  | _ => simp

theorem Message.messageId_of_mem_callRefs (h : ref ∈ m.callRefs) : ref.messageId = m.messageId :=
  (mem_callRefs_iff.mp h).1

theorem Message.continues_of_mem_callRefs (h : ref ∈ m.callRefs) :
    ∃ body, m.body = .output body ∧ body.finish = .continue := by
  obtain ⟨-, body, call, hbody, hpart⟩ := mem_callRefs_iff.mp h
  refine ⟨body, hbody, by_contra fun hfinish => ?_⟩
  have hnone := List.any_eq_false.mp (body.calls_continue hfinish) _
    (List.mem_of_getElem? hpart)
  exact hnone rfl

theorem AbandonFold.waiting_set (fold : AbandonFold) (source source' : String)
    (outputs : List Message) :
    (({ fold with pending := fold.pending.set source outputs } : AbandonFold).waiting source')
      = if source' = source then outputs else fold.waiting source' := by
  rw [AbandonFold.waiting, Dict.get?_set]
  split
  · rfl
  · rfl

/-! ### What the rendered conversation takes for abandoned -/

/-- Nothing in the fold knows the call. -/
structure AbandonFold.Without (ref : CallRef) (fold : AbandonFold) : Prop where
  calls : ref ∉ fold.abandonedCalls
  waiting : ∀ source, ∀ x ∈ fold.waiting source, ref ∉ x.callRefs

/-- The output of the call waits for its results, and nothing else knows the call. -/
structure AbandonFold.Waits (ref : CallRef) (m : Message) (fold : AbandonFold) : Prop where
  calls : ref ∉ fold.abandonedCalls
  mem : m ∈ fold.waiting m.source
  waiting : ∀ source, ∀ x ∈ fold.waiting source, ref ∈ x.callRefs → x = m ∧ source = m.source

namespace AbandonFold

variable {fold : AbandonFold} {ref : CallRef} {m : Message}

theorem mem_abandonedCalls_read (h : ref ∈ fold.abandonedCalls) (x : Message) :
    ref ∈ (fold.read x).abandonedCalls := by
  rw [read]
  split
  · split <;> exact h
  · split
    · exact List.mem_append_left _ h
    · exact h
  · exact h

theorem mem_abandonedCalls_foldl (h : ref ∈ fold.abandonedCalls) (xs : List Message) :
    ref ∈ (xs.foldl read fold).abandonedCalls := by
  induction xs generalizing fold with
  | nil => exact h
  | cons x xs ih => exact ih (mem_abandonedCalls_read h x)

/-- A message that does not propose the call does not make it known. -/
theorem Without.read (h : fold.Without ref) {x : Message} (hx : ref ∉ x.callRefs) :
    (fold.read x).Without ref := by
  rw [AbandonFold.read]
  split
  · split
    · refine ⟨h.calls, fun source y hy => ?_⟩
      rw [waiting_set] at hy
      split at hy
      · rcases List.mem_append.mp hy with hold | hnew
        · exact h.waiting _ y hold
        · rw [List.mem_singleton.mp hnew]
          exact hx
      · exact h.waiting _ y hy
    · refine ⟨h.calls, fun source y hy => ?_⟩
      rw [waiting_set] at hy
      split at hy
      · cases hy
      · exact h.waiting _ y hy
  · next body hbody =>
      split
      · refine ⟨fun hmem => ?_, fun source y hy => ?_⟩
        · rcases List.mem_append.mp hmem with hold | hnew
          · exact h.calls hold
          · obtain ⟨y, hy, hcall⟩ := List.mem_flatMap.mp hnew
            exact h.waiting _ y (List.mem_of_mem_filter hy) hcall
        · change y ∈ ({ fold with pending := fold.pending.set x.source _ } : AbandonFold).waiting
            source at hy
          rw [waiting_set] at hy
          split at hy
          · exact h.waiting _ y (List.mem_of_mem_filter hy)
          · exact h.waiting _ y hy
      · exact h
  · exact h

theorem Without.foldl (h : fold.Without ref) {xs : List Message}
    (hxs : ∀ x ∈ xs, ref ∉ x.callRefs) : (xs.foldl AbandonFold.read fold).Without ref := by
  induction xs generalizing fold with
  | nil => exact h
  | cons x xs ih =>
      exact ih (h.read (hxs x List.mem_cons_self)) fun y hy => hxs y (List.mem_cons_of_mem _ hy)

theorem Without.propose (h : fold.Without ref) (hm : ref ∈ m.callRefs) :
    (fold.read m).Waits ref m := by
  obtain ⟨body, hbody, hfinish⟩ := m.continues_of_mem_callRefs hm
  rw [AbandonFold.read, hbody]
  dsimp only
  rw [if_pos hfinish]
  refine ⟨h.calls, ?_, fun source y hy hcall => ?_⟩
  · rw [waiting_set, if_pos rfl]
    exact List.mem_append_right _ List.mem_cons_self
  · rw [waiting_set] at hy
    split at hy
    · next hsource =>
        rcases List.mem_append.mp hy with hold | hnew
        · exact absurd hcall (h.waiting _ y hold)
        · exact ⟨List.mem_singleton.mp hnew, hsource⟩
    · exact absurd hcall (h.waiting _ y hy)

/-- **What a message makes of a waiting call**: a control that covers it abandons it, a
finished output of its source forgets it, and every other message leaves it waiting. -/
theorem Waits.read (h : fold.Waits ref m) (hm : ref ∈ m.callRefs) {x : Message}
    (hx : ref ∉ x.callRefs) :
    if x.covers m then ref ∈ (fold.read x).abandonedCalls
    else if x.finishes m then (fold.read x).Without ref
    else (fold.read x).Waits ref m := by
  have hquiet : x.covers m = false → x.finishes m = false → (fold.read x).Waits ref m →
      if x.covers m then ref ∈ (fold.read x).abandonedCalls
      else if x.finishes m then (fold.read x).Without ref
      else (fold.read x).Waits ref m := by
    intro hcovers hfinishes hwaits
    rw [hcovers, hfinishes, if_neg Bool.false_ne_true, if_neg Bool.false_ne_true]
    exact hwaits
  cases hbody : x.body with
  | input body =>
      refine hquiet (by rw [Message.covers, hbody]) ?_ ?_
      · rw [Message.finishes, hbody]
        exact Bool.and_false _
      · rw [AbandonFold.read, hbody]
        exact h
  | toolResult body =>
      refine hquiet (by rw [Message.covers, hbody]) ?_ ?_
      · rw [Message.finishes, hbody]
        exact Bool.and_false _
      · rw [AbandonFold.read, hbody]
        exact h
  | output body =>
      have hcovers : x.covers m = false := by rw [Message.covers, hbody]
      by_cases hfinish : body.finish = .continue
      · refine hquiet hcovers (by simp [Message.finishes, hbody, Body.isFinished, hfinish]) ?_
        rw [AbandonFold.read, hbody]
        dsimp only
        rw [if_pos hfinish]
        refine ⟨h.calls, ?_, fun source y hy hcall => ?_⟩
        · rw [waiting_set]
          split
          · next hsource => exact List.mem_append_left _ (hsource ▸ h.mem)
          · exact h.mem
        · rw [waiting_set] at hy
          split at hy
          · next hsource =>
              rcases List.mem_append.mp hy with hold | hnew
              · rw [hsource]
                exact h.waiting _ y hold hcall
              · rw [List.mem_singleton.mp hnew] at hcall
                exact absurd hcall hx
          · exact h.waiting _ y hy hcall
      · have hread : fold.read x = { fold with pending := fold.pending.set x.source [] } := by
          rw [AbandonFold.read, hbody]
          exact if_neg hfinish
        by_cases hsource : x.source = m.source
        · have hfinishes : x.finishes m = true := by
            simp [Message.finishes, hbody, Body.isFinished, hfinish, hsource]
          rw [hcovers, hfinishes, if_neg Bool.false_ne_true, if_pos rfl, hread]
          refine ⟨h.calls, fun source y hy hcall => ?_⟩
          rw [waiting_set] at hy
          split at hy
          · cases hy
          · next hother => exact hother (((h.waiting _ y hy hcall).2).trans hsource.symm)
        · refine hquiet hcovers (by simp [Message.finishes, hsource]) ?_
          rw [hread]
          refine ⟨h.calls, ?_, fun source y hy hcall => ?_⟩
          · rw [waiting_set, if_neg (Ne.symm hsource)]
            exact h.mem
          · rw [waiting_set] at hy
            split at hy
            · cases hy
            · exact h.waiting _ y hy hcall
  | control body =>
      have hfinishes : x.finishes m = false := by
        rw [Message.finishes, hbody]
        exact Bool.and_false _
      by_cases haction : body.action = .abandon
      · have hcovers : x.covers m
            = (decide (x.source = m.source) && decide (m.seq ≤ body.throughSeq)) := by
          rw [Message.covers, hbody]
          dsimp only
          rw [decide_eq_true haction, Bool.true_and]
        by_cases hcovered : x.source = m.source ∧ m.seq ≤ body.throughSeq
        · rw [hcovers, if_pos (by simpa using hcovered), AbandonFold.read, hbody]
          dsimp only
          rw [if_pos haction]
          refine List.mem_append_right _ (List.mem_flatMap.mpr ⟨m, ?_, hm⟩)
          exact List.mem_filter.mpr ⟨hcovered.1 ▸ h.mem, decide_eq_true hcovered.2⟩
        · refine hquiet (by rw [hcovers]; simpa using hcovered) hfinishes ?_
          rw [AbandonFold.read, hbody]
          dsimp only
          rw [if_pos haction]
          refine ⟨fun hmem => ?_, ?_, fun source y hy hcall => ?_⟩
          · rcases List.mem_append.mp hmem with hold | hnew
            · exact h.calls hold
            · obtain ⟨y, hy, hcall⟩ := List.mem_flatMap.mp hnew
              obtain ⟨hmem, hle⟩ := List.mem_filter.mp hy
              obtain ⟨rfl, hsource⟩ := h.waiting _ y hmem hcall
              exact hcovered ⟨hsource, of_decide_eq_true hle⟩
          · change m ∈ ({ fold with pending := fold.pending.set x.source _ } :
              AbandonFold).waiting m.source
            rw [waiting_set]
            split
            · next hsource =>
                refine List.mem_filter.mpr ⟨hsource ▸ h.mem, decide_eq_true ?_⟩
                exact not_le.mp fun hle => hcovered ⟨hsource.symm, hle⟩
            · exact h.mem
          · change y ∈ ({ fold with pending := fold.pending.set x.source _ } :
              AbandonFold).waiting source at hy
            rw [waiting_set] at hy
            split at hy
            · next hsource =>
                rw [hsource]
                exact h.waiting _ y (List.mem_of_mem_filter hy) hcall
            · exact h.waiting _ y hy hcall
      · refine hquiet ?_ hfinishes ?_
        · rw [Message.covers, hbody]
          dsimp only
          rw [decide_eq_false haction, Bool.false_and, Bool.false_and]
        · rw [AbandonFold.read, hbody]
          dsimp only
          rw [if_neg haction]
          exact h

/-- **The run over the messages after the call**: it ends up among the abandoned calls when
a control covers it before a finished output of its source. -/
theorem Waits.foldl (h : fold.Waits ref m) (hm : ref ∈ m.callRefs) {xs : List Message}
    (hxs : ∀ x ∈ xs, ref ∉ x.callRefs) :
    ref ∈ (xs.foldl AbandonFold.read fold).abandonedCalls ↔
      ∃ front k rest, xs = front ++ k :: rest ∧ k.covers m = true ∧
        ∀ x ∈ front, x.finishes m = false := by
  induction xs generalizing fold with
  | nil => simpa using h.calls
  | cons x xs ih =>
      have hread := h.read hm (hxs x List.mem_cons_self)
      have hrest : ∀ y ∈ xs, ref ∉ y.callRefs := fun y hy => hxs y (List.mem_cons_of_mem _ hy)
      rw [List.foldl_cons]
      by_cases hcovers : x.covers m = true
      · rw [if_pos hcovers] at hread
        exact iff_of_true (mem_abandonedCalls_foldl hread xs) ⟨[], x, xs, rfl, hcovers, by simp⟩
      · rw [if_neg hcovers] at hread
        by_cases hfinishes : x.finishes m = true
        · rw [if_pos hfinishes] at hread
          refine iff_of_false (hread.foldl hrest).calls ?_
          rintro ⟨front, k, rest, hsplit, hk, hfront⟩
          cases front with
          | nil =>
              obtain ⟨rfl, -⟩ := List.cons.inj hsplit
              exact hcovers hk
          | cons y front =>
              obtain ⟨rfl, -⟩ := List.cons.inj hsplit
              rw [hfront x List.mem_cons_self] at hfinishes
              cases hfinishes
        · rw [if_neg hfinishes] at hread
          rw [ih hread hrest]
          constructor
          · rintro ⟨front, k, rest, rfl, hk, hfront⟩
            refine ⟨x :: front, k, rest, rfl, hk, fun y hy => ?_⟩
            rcases List.mem_cons.mp hy with rfl | hy
            · simpa using hfinishes
            · exact hfront y hy
          · rintro ⟨front, k, rest, hsplit, hk, hfront⟩
            cases front with
            | nil =>
                obtain ⟨rfl, -⟩ := List.cons.inj hsplit
                exact absurd hk hcovers
            | cons y front =>
                obtain ⟨rfl, rfl⟩ := List.cons.inj hsplit
                exact ⟨front, k, rest, rfl, hk,
                  fun z hz => hfront z (List.mem_cons_of_mem _ hz)⟩

end AbandonFold

/-! ### What the other scans take for abandoned -/

theorem settledScan_pending (messages : List Message) :
    (settledScan messages).pending = messages.foldl settledRead .empty := by
  have hfold : ∀ scan : SettledScan, (messages.foldl SettledScan.read scan).pending
      = messages.foldl settledRead scan.pending := by
    induction messages with
    | nil => exact fun _ => rfl
    | cons m messages ih => exact fun scan => ih (scan.read m)
  exact hfold _

/-- A message that neither proposes nor answers the call keeps it as it is, unless it is a
control that covers its output. -/
theorem get?_settledRead {pending : Dict CallRef Message} {x : Message} (hx : ref ∉ x.callRefs)
    (hresult : ∀ r, x.body = .toolResult r → r.callRef ≠ ref) :
    (settledRead pending x).get? ref
      = (pending.get? ref).filter fun call => !x.covers call := by
  rw [settledRead]
  have hkeep : ∀ pending : Dict CallRef Message, (∀ call, x.covers call = false) →
      pending.get? ref = (pending.get? ref).filter fun call => !x.covers call := by
    intro pending hnone
    cases pending.get? ref with
    | none => rfl
    | some call => rw [Option.filter_some, hnone, Bool.not_false, if_pos rfl]
  cases hbody : x.body with
  | input body => exact hkeep _ fun call => by rw [Message.covers, hbody]
  | output body =>
      dsimp only
      rw [Dict.get?_foldl_set, if_neg hx]
      exact hkeep _ fun call => by rw [Message.covers, hbody]
  | toolResult body =>
      dsimp only
      rw [Dict.get?_erase, if_neg (Ne.symm (hresult body hbody))]
      exact hkeep _ fun call => by rw [Message.covers, hbody]
  | control body =>
      dsimp only
      by_cases haction : body.action = .abandon
      · rw [if_pos haction, Dict.get?_filter]
        congr 1
        funext call
        rw [Message.covers, hbody]
        dsimp only
        have hsource : decide (call.source ≠ x.source) = !decide (x.source = call.source) := by
          rw [← decide_not, decide_eq_decide]
          exact not_congr eq_comm
        have hseq : decide (call.seq > body.throughSeq) = !decide (call.seq ≤ body.throughSeq) := by
          rw [← decide_not, decide_eq_decide, not_le]
        rw [decide_eq_true haction, Bool.true_and, Bool.not_and, hsource, hseq]
      · rw [if_neg haction]
        refine hkeep _ fun call => ?_
        rw [Message.covers, hbody]
        dsimp only
        rw [decide_eq_false haction, Bool.false_and, Bool.false_and]

/-- **The run over the messages after the call**: it stays pending until a control covers
it. -/
theorem get?_foldl_settledRead {pending : Dict CallRef Message} {xs : List Message}
    (h : pending.get? ref = some m) (hxs : ∀ x ∈ xs, ref ∉ x.callRefs)
    (hresults : ∀ x ∈ xs, ∀ r, x.body = .toolResult r → r.callRef ≠ ref) :
    (xs.foldl settledRead pending).get? ref = none ↔ ∃ k ∈ xs, k.covers m = true := by
  have hgone : ∀ xs : List Message, (∀ x ∈ xs, ref ∉ x.callRefs) →
      (∀ x ∈ xs, ∀ r, x.body = .toolResult r → r.callRef ≠ ref) →
      ∀ pending : Dict CallRef Message, pending.get? ref = none →
        (xs.foldl settledRead pending).get? ref = none := by
    intro xs hxs hresults
    induction xs with
    | nil => exact fun _ hnone => hnone
    | cons x xs ih =>
        intro pending hnone
        refine ih (fun y hy => hxs y (List.mem_cons_of_mem _ hy))
          (fun y hy => hresults y (List.mem_cons_of_mem _ hy)) _ ?_
        rw [get?_settledRead (hxs x List.mem_cons_self) (hresults x List.mem_cons_self), hnone,
          Option.filter_none]
  induction xs generalizing pending with
  | nil => simp [h]
  | cons x xs ih =>
      have hrest : ∀ y ∈ xs, ref ∉ y.callRefs := fun y hy => hxs y (List.mem_cons_of_mem _ hy)
      have hopen : ∀ y ∈ xs, ∀ r, y.body = .toolResult r → r.callRef ≠ ref :=
        fun y hy => hresults y (List.mem_cons_of_mem _ hy)
      have hread : (settledRead pending x).get? ref
          = (pending.get? ref).filter fun call => !x.covers call :=
        get?_settledRead (hxs x List.mem_cons_self) (hresults x List.mem_cons_self)
      rw [h, Option.filter_some] at hread
      rw [List.foldl_cons]
      cases hcovers : x.covers m with
      | true =>
          rw [hcovers] at hread
          exact iff_of_true (hgone xs hrest hopen _ hread) ⟨x, List.mem_cons_self, hcovers⟩
      | false =>
          rw [hcovers] at hread
          refine (ih hread hrest hopen).trans ?_
          constructor
          · rintro ⟨k, hk, hcover⟩
            exact ⟨k, List.mem_cons_of_mem _ hk, hcover⟩
          · rintro ⟨k, hk, hcover⟩
            rcases List.mem_cons.mp hk with rfl | hk
            · rw [hcovers] at hcover
              cases hcover
            · exact ⟨k, hk, hcover⟩

/-- Whether a message makes `abandoned_calls` forget what it has read. -/
def Message.clears (x : Message) (source : String) (body : Control) : Bool :=
  x.source = source && x.body.isFinished && decide (x.seq ≤ body.throughSeq)

/-- A message that does not propose the call keeps it as it is, unless it is a finished
output that the control covers. -/
theorem get?_abandonedRead {source : String} {body : Control} {calls : Dict CallRef ℕ} {x : Message}
    (hx : ref ∉ x.callRefs) :
    (abandonedRead source body calls x).get? ref
      = if x.clears source body then none else calls.get? ref := by
  rw [abandonedRead]
  by_cases hsource : x.source = source
  · rw [if_neg (not_not.mpr hsource)]
    cases hbody : x.body with
    | output output =>
        dsimp only
        have hclears : x.clears source body
            = (decide (output.finish ≠ .continue) && decide (x.seq ≤ body.throughSeq)) := by
          rw [Message.clears, hbody, decide_eq_true hsource, Bool.true_and]
          rfl
        rw [hclears]
        by_cases hle : x.seq ≤ body.throughSeq
        · rw [if_pos hle, decide_eq_true hle, Bool.and_true]
          by_cases hfinish : output.finish ≠ .continue
          · rw [if_pos hfinish, if_pos (decide_eq_true hfinish), Dict.get?_empty]
          · rw [if_neg hfinish, if_neg (by simpa using hfinish), Dict.get?_foldl_set, if_neg hx]
        · rw [if_neg hle, decide_eq_false hle, Bool.and_false, if_neg Bool.false_ne_true]
    | _ => simp [Message.clears, hbody, Body.isFinished]
  · rw [if_pos hsource, Message.clears, decide_eq_false hsource, Bool.false_and, Bool.false_and,
      if_neg Bool.false_ne_true]

/-- **The run over messages that do not propose the call**: it is kept until a finished
output that the control covers. -/
theorem get?_foldl_abandonedRead {source : String} {body : Control} {calls : Dict CallRef ℕ}
    {xs : List Message} (hxs : ∀ x ∈ xs, ref ∉ x.callRefs) :
    (xs.foldl (abandonedRead source body) calls).get? ref
      = if xs.any fun x => x.clears source body then none else calls.get? ref := by
  induction xs generalizing calls with
  | nil => rfl
  | cons x xs ih =>
      rw [List.foldl_cons, ih fun y hy => hxs y (List.mem_cons_of_mem _ hy),
        get?_abandonedRead (hxs x List.mem_cons_self), List.any_cons]
      cases x.clears source body <;> simp

/-! ### One call of a conversation -/

/-- A call of a message of a conversation that has no result in it. -/
structure OpenCall (messages : List Message) (m : Message) (ref : CallRef) : Prop where
  mem : m ∈ messages
  call : ref ∈ m.callRefs
  unanswered : ∀ x ∈ messages, ∀ r, x.body = .toolResult r → r.callRef ≠ ref

namespace OpenCall

variable {messages : List Message} {m : Message} {ref : CallRef}

theorem split (h : OpenCall messages m ref) (hids : (messages.map Message.messageId).Nodup) :
    ∃ front rest, messages = front ++ m :: rest ∧ (∀ x ∈ front, ref ∉ x.callRefs) ∧
      ∀ x ∈ rest, ref ∉ x.callRefs := by
  obtain ⟨front, rest, rfl⟩ := List.append_of_mem h.mem
  rw [List.map_append, List.map_cons] at hids
  obtain ⟨-, hback, hdisjoint⟩ := List.nodup_append.mp hids
  have hother : ∀ x : Message, x.messageId ≠ m.messageId → ref ∉ x.callRefs := by
    intro x hne hx
    exact hne ((Message.messageId_of_mem_callRefs hx).symm.trans
      (Message.messageId_of_mem_callRefs h.call))
  refine ⟨front, rest, rfl, fun x hx => hother x ?_, fun x hx => hother x fun heq => ?_⟩
  · exact hdisjoint _ (List.mem_map_of_mem hx) _ List.mem_cons_self
  · exact (List.nodup_cons.mp hback).1 (heq ▸ List.mem_map_of_mem hx)

theorem mem_rest {front rest : List Message} (hsorted : Sorted Message.seq (front ++ m :: rest))
    {k : Message} (hk : k ∈ front ++ m :: rest) (hlt : m.seq < k.seq) : k ∈ rest := by
  obtain ⟨-, -, hbefore⟩ := List.pairwise_append.mp hsorted
  rcases List.mem_append.mp hk with hfront | hback
  · have := hbefore k hfront m List.mem_cons_self
    omega
  · rcases List.mem_cons.mp hback with rfl | hrest
    · omega
    · exact hrest

/-- **What the rendered conversation takes for abandoned**: a call that a control covers
before any finished output of its source. -/
theorem mem_foldRebuild_iff (h : OpenCall messages m ref)
    (hids : (messages.map Message.messageId).Nodup) (hsorted : Sorted Message.seq messages) :
    ref ∈ (foldRebuild messages).abandonedCalls ↔
      ∃ k ∈ messages, k.covers m = true ∧
        ∀ f ∈ messages, f.finishes m = true → m.seq < f.seq → k.seq < f.seq := by
  obtain ⟨front, rest, rfl, hfront, hrest⟩ := h.split hids
  have hempty : (⟨.empty, [], []⟩ : AbandonFold).Without ref :=
    ⟨by simp, fun source x hx => by
      rw [AbandonFold.waiting, Dict.get?_empty] at hx
      cases hx⟩
  have hwaits := (hempty.foldl hfront).propose h.call
  rw [foldRebuild, List.foldl_append, List.foldl_cons, hwaits.foldl h.call hrest]
  obtain ⟨-, hback, -⟩ := List.pairwise_append.mp hsorted
  obtain ⟨habove, hrestSorted⟩ := List.pairwise_cons.mp hback
  constructor
  · rintro ⟨before, k, after, rfl, hk, hbefore⟩
    refine ⟨k, by simp, hk, fun f hf hfinishes hlt => ?_⟩
    have hmem := mem_rest hsorted hf hlt
    obtain ⟨-, hkAfter, -⟩ := List.pairwise_append.mp hrestSorted
    rcases List.mem_append.mp hmem with hfb | hfa
    · rw [hbefore f hfb] at hfinishes
      cases hfinishes
    · rcases List.mem_cons.mp hfa with rfl | hfa
      · rw [Message.finishes] at hfinishes
        rw [Message.covers] at hk
        cases hbody : f.body <;> simp [hbody, Body.isFinished] at hk hfinishes
      · exact (List.pairwise_cons.mp hkAfter).1 f hfa
  · rintro ⟨k, hk, hcovers, hbefore⟩
    have hkrest := mem_rest hsorted hk (Message.seq_lt_of_covers hcovers)
    obtain ⟨before, after, rfl⟩ := List.append_of_mem hkrest
    obtain ⟨-, -, hkBefore⟩ := List.pairwise_append.mp hrestSorted
    refine ⟨before, k, after, rfl, hcovers, fun f hf => ?_⟩
    by_contra hfinishes
    have hfk := hkBefore f hf k List.mem_cons_self
    have hmf := habove f (List.mem_append_left _ hf)
    have := hbefore f (by simp [hf]) (by simpa using hfinishes) hmf
    omega

/-- **What compaction does not wait for**: a call that a control covers. -/
theorem get?_settledScan_iff (h : OpenCall messages m ref)
    (hids : (messages.map Message.messageId).Nodup) (hsorted : Sorted Message.seq messages) :
    (settledScan messages).pending.get? ref = none ↔ ∃ k ∈ messages, k.covers m = true := by
  obtain ⟨front, rest, rfl, -, hrest⟩ := h.split hids
  obtain ⟨body, hbody, -⟩ := m.continues_of_mem_callRefs h.call
  rw [settledScan_pending, List.foldl_append, List.foldl_cons]
  have hset : (settledRead (front.foldl settledRead .empty) m).get? ref = some m := by
    rw [settledRead, hbody]
    dsimp only
    rw [Dict.get?_foldl_set, if_pos h.call]
  rw [get?_foldl_settledRead hset hrest fun x hx => h.unanswered x (by simp [hx])]
  constructor
  · rintro ⟨k, hk, hcovers⟩
    exact ⟨k, by simp [hk], hcovers⟩
  · rintro ⟨k, hk, hcovers⟩
    exact ⟨k, mem_rest hsorted hk (Message.seq_lt_of_covers hcovers), hcovers⟩

/-- **What the settlement of a control takes for abandoned**: a call that the control
covers, when it covers no finished output after it. -/
theorem mem_abandonedCalls_iff (h : OpenCall messages m ref)
    (hids : (messages.map Message.messageId).Nodup) (hsorted : Sorted Message.seq messages)
    {k : Message} {body : Control} (hk : k.body = .control body) (haction : body.action = .abandon) :
    ref ∈ abandonedCalls messages k body ↔ k.covers m = true ∧
      ∀ f ∈ messages, f.finishes m = true → m.seq < f.seq → body.throughSeq < f.seq := by
  obtain ⟨front, rest, rfl, hfront, hrest⟩ := h.split hids
  obtain ⟨output, hbody, hfinish⟩ := m.continues_of_mem_callRefs h.call
  obtain ⟨-, hback, -⟩ := List.pairwise_append.mp hsorted
  obtain ⟨habove, -⟩ := List.pairwise_cons.mp hback
  have hcovers : k.covers m = true ↔ m.source = k.source ∧ m.seq ≤ body.throughSeq := by
    rw [eq_comm (b := k.source)]
    simp [Message.covers, hk, haction]
  have hkey : ref ∈ abandonedCalls (front ++ m :: rest) k body ↔
      ((front ++ m :: rest).foldl (abandonedRead k.source body) .empty).get? ref ≠ none := by
    rw [Dict.get?, ne_eq, Dict.find_eq_none_iff, not_not]
    rfl
  -- before its output the call is unknown
  have hbefore : (front.foldl (abandonedRead k.source body) .empty).get? ref = none := by
    rw [get?_foldl_abandonedRead hfront, Dict.get?_empty, ite_self]
  have hread : (abandonedRead k.source body
      (front.foldl (abandonedRead k.source body) .empty) m).get? ref ≠ none ↔
        m.source = k.source ∧ m.seq ≤ body.throughSeq := by
    rw [abandonedRead, hbody]
    dsimp only
    by_cases hsource : m.source = k.source
    · rw [if_neg (not_not.mpr hsource)]
      by_cases hle : m.seq ≤ body.throughSeq
      · rw [if_pos hle, if_neg (not_not.mpr hfinish), Dict.get?_foldl_set, if_pos h.call]
        simp [hsource, hle]
      · rw [if_neg hle, hbefore]
        simp [hle]
    · rw [if_pos hsource, hbefore]
      simp [hsource]
  rw [hkey, List.foldl_append, List.foldl_cons, get?_foldl_abandonedRead hrest, hcovers, ← hread]
  have hclears : (rest.any fun x => x.clears k.source body) = true ↔
      ∃ f ∈ rest, f.source = k.source ∧ f.body.isFinished = true ∧ f.seq ≤ body.throughSeq := by
    simp [Message.clears, and_assoc]
  by_cases hcleared : (rest.any fun x => x.clears k.source body) = true
  · rw [if_pos hcleared]
    obtain ⟨f, hf, hsource, hfinished, hle⟩ := hclears.mp hcleared
    refine iff_of_false (by simp) ?_
    rintro ⟨hknown, hnone⟩
    have hlt := hnone f (by simp [hf]) (by
      rw [Message.finishes, hsource, (hread.mp hknown).1, hfinished]
      simp) (habove f hf)
    omega
  · rw [if_neg hcleared, iff_self_and]
    intro hknown f hf hfinishes hlt
    have hmem := mem_rest hsorted hf hlt
    by_contra hle
    refine hcleared (hclears.mpr ⟨f, hmem, ?_⟩)
    simp only [Message.finishes, Bool.and_eq_true, decide_eq_true_eq] at hfinishes
    exact ⟨hfinishes.1.trans (hread.mp hknown).1, hfinishes.2, by omega⟩

/-- **What the call itself takes for abandoned**: to be covered by a control. -/
theorem abandoned_iff (h : OpenCall messages m ref)
    (hids : (messages.map Message.messageId).Nodup) :
    ∃ answer, MessageReply.abandoned messages ref = .ok answer ∧
      (answer = true ↔ ∃ k ∈ messages, k.covers m = true) := by
  have hfind : messages.find? (fun x => x.messageId = ref.messageId) = some m := by
    rw [List.find?_eq_some_iff_append]
    obtain ⟨front, rest, rfl⟩ := List.append_of_mem h.mem
    refine ⟨by simp [Message.messageId_of_mem_callRefs h.call], front, rest, rfl, fun x hx => ?_⟩
    rw [List.map_append, List.map_cons] at hids
    have hne := (List.nodup_append.mp hids).2.2 _ (List.mem_map_of_mem hx) _ List.mem_cons_self
    simpa [Message.messageId_of_mem_callRefs h.call] using hne
  rw [MessageReply.abandoned, hfind]
  refine ⟨_, rfl, ?_⟩
  rw [List.any_eq_true]
  constructor
  · rintro ⟨k, hk, habandons⟩
    refine ⟨k, List.mem_of_mem_filter hk, ?_⟩
    rw [Message.covers]
    cases hbody : k.body with
    | control body => simpa [hbody, and_comm, and_left_comm, and_assoc] using habandons
    | _ => simp [hbody] at habandons
  · rintro ⟨k, hk, hcovers⟩
    refine ⟨k, List.mem_filter.mpr ⟨hk, decide_eq_true (Message.seq_lt_of_covers hcovers)⟩, ?_⟩
    rw [Message.covers] at hcovers
    cases hbody : k.body with
    | control body => simpa [hbody, and_comm, and_left_comm, and_assoc] using hcovers
    | _ => simp [hbody] at hcovers

end OpenCall

/-! ### Agreement -/

/-- The four scans agree on a call. -/
def ScansAgree (messages : List Message) (ref : CallRef) : Prop :=
  (ref ∈ (foldRebuild messages).abandonedCalls ↔
      (settledScan messages).pending.get? ref = none) ∧
    ((settledScan messages).pending.get? ref = none ↔
      ∃ k ∈ messages, ∃ body, k.body = .control body ∧ body.action = .abandon ∧
        ref ∈ abandonedCalls messages k body) ∧
    ((∃ k ∈ messages, ∃ body, k.body = .control body ∧ body.action = .abandon ∧
        ref ∈ abandonedCalls messages k body) ↔
      MessageReply.abandoned messages ref = .ok true)

/-- No finished output of the source comes between the call and the first control that
covers it. -/
def CoveredBeforeFinish (messages : List Message) (m : Message) : Prop :=
  (∃ k ∈ messages, k.covers m = true) →
    ∃ k ∈ messages, k.covers m = true ∧
      ∀ f ∈ messages, f.finishes m = true → m.seq < f.seq → k.seq < f.seq

/-- **The components agree on a call without a result exactly when no finished output of
its source comes between the call and the first control that covers it.** Where one does,
compaction and the call itself take the call for abandoned, and the rendered conversation
never will. -/
theorem scans_agree_iff {db : Db} {messages : List Message} (h : Ledger db messages)
    (sessionId : String) {m : Message} {ref : CallRef}
    (hcall : OpenCall (ofSession sessionId messages) m ref) :
    ScansAgree (ofSession sessionId messages) ref ↔
      CoveredBeforeFinish (ofSession sessionId messages) m := by
  have hids := nodup_ofSession h sessionId
  have hsorted : Sorted Message.seq (ofSession sessionId messages) := by
    rw [Sorted, ← List.pairwise_map, h.seqs]
    exact List.pairwise_lt_range
  have hfold := hcall.mem_foldRebuild_iff hids hsorted
  have hsettled := hcall.get?_settledScan_iff hids hsorted
  obtain ⟨answer, hanswer, habandoned⟩ := hcall.abandoned_iff hids
  have hsettle : ∀ (k : Message) (body : Control), k.body = .control body →
      body.action = .abandon → (ref ∈ abandonedCalls (ofSession sessionId messages) k body ↔
        k.covers m = true ∧ ∀ f ∈ ofSession sessionId messages, f.finishes m = true →
          m.seq < f.seq → body.throughSeq < f.seq) :=
    fun k body hbody haction => hcall.mem_abandonedCalls_iff hids hsorted hbody haction
  generalize ofSession sessionId messages = xs at *
  rw [ScansAgree, CoveredBeforeFinish, hanswer, hfold, hsettled]
  -- a call the rendered conversation takes for abandoned is so for its control, and a call
  -- a control takes for abandoned is covered by it
  have hweaker : (∃ k ∈ xs, ∃ body, k.body = .control body ∧ body.action = .abandon ∧
      ref ∈ abandonedCalls xs k body) → ∃ k ∈ xs, k.covers m = true := by
    rintro ⟨k, hk, body, hbody, haction, hmem⟩
    exact ⟨k, hk, ((hsettle k body hbody haction).mp hmem).1⟩
  have hstronger : (∃ k ∈ xs, k.covers m = true ∧
      ∀ f ∈ xs, f.finishes m = true → m.seq < f.seq → k.seq < f.seq) →
      ∃ k ∈ xs, ∃ body, k.body = .control body ∧ body.action = .abandon ∧
        ref ∈ abandonedCalls xs k body := by
    rintro ⟨k, hk, hcovers, hbefore⟩
    obtain ⟨body, hbody, haction⟩ := Message.control_of_covers hcovers
    refine ⟨k, hk, body, hbody, haction, (hsettle k body hbody haction).mpr ⟨hcovers, ?_⟩⟩
    intro f hf hfinishes hlt
    exact (k.control_ok body hbody).trans (hbefore f hf hfinishes hlt)
  have hsaid : ((Except.ok answer : Except PyError Bool) = .ok true) ↔
      ∃ k ∈ xs, k.covers m = true := by
    rw [← habandoned, Except.ok.injEq]
  rw [hsaid]
  constructor
  · rintro ⟨hrendered, -, -⟩ hcovered
    exact hrendered.mpr hcovered
  · intro hfirst
    refine ⟨⟨fun h => hweaker (hstronger h), hfirst⟩, ⟨fun h => hstronger (hfirst h), hweaker⟩,
      ⟨hweaker, fun h => hstronger (hfirst h)⟩⟩

/-! ### A call behind a finished output -/

/-- A tool call without arguments. -/
def emptyCall : ToolCall :=
  ⟨"binding-1", ⟨.obj [], by decide⟩, by decide, rfl⟩

theorem outputId_ne : "output-1" ≠ "" := by decide

/-- An output that proposes one call, and the position of that call. -/
def callMessage : Message :=
  chatMessage "output-1" 0 (.output ⟨[.toolCall emptyCall], .continue, by simp⟩) outputId_ne
    (by simp)

/-- The call of that output. -/
def callRef : CallRef :=
  ⟨"output-1", 0, outputId_ne⟩

/-- A control that abandons a prefix of the conversation. -/
def abandonMessage (seq throughSeq : ℕ) (hlt : throughSeq < seq) : Message :=
  chatMessage "abandon-1" seq (.control ⟨.abandon, throughSeq, none⟩) (by decide)
    (by rintro c hc; cases hc; exact hlt)

/-- A call, a finished output, and a control that abandons both. -/
def finishedThenAbandoned : List Message :=
  [callMessage,
    chatMessage "output-2" 1 (.output ⟨[], .complete, by simp⟩) (by decide) (by simp),
    abandonMessage 2 1 (by decide)]

/-- A call, and a control that abandons it. -/
def abandonedAtOnce : List Message :=
  [callMessage, abandonMessage 1 0 (by decide)]

/-- The agreement on a call that is abandoned at once. -/
theorem scans_agree_iff_abandonedAtOnce :
    ScansAgree (ofSession "session" abandonedAtOnce) callRef ↔
      CoveredBeforeFinish (ofSession "session" abandonedAtOnce) callMessage := by
  have hledger : Ledger (chatDb abandonedAtOnce) abandonedAtOnce :=
    ledger_chatDb (by decide) (by decide) (by decide) (by decide)
  refine scans_agree_iff hledger "session" ⟨by decide, by decide, ?_⟩
  intro x hx r hr
  have hnone : ∀ x ∈ ofSession "session" abandonedAtOnce, x.body.type ≠ .toolResult := by decide
  exact absurd (by rw [hr]; rfl) (hnone x hx)

/-- **The components disagree on a call behind a finished output**: the rendered
conversation does not take it for abandoned, compaction and the call itself do. -/
theorem scans_disagree :
    Ledger (chatDb finishedThenAbandoned) finishedThenAbandoned ∧
      OpenCall (ofSession "session" finishedThenAbandoned) callMessage callRef ∧
      callRef ∉ (foldRebuild (ofSession "session" finishedThenAbandoned)).abandonedCalls ∧
      (settledScan (ofSession "session" finishedThenAbandoned)).pending.get? callRef = none ∧
      MessageReply.abandoned (ofSession "session" finishedThenAbandoned) callRef = .ok true ∧
      ¬ ScansAgree (ofSession "session" finishedThenAbandoned) callRef := by
  have hledger : Ledger (chatDb finishedThenAbandoned) finishedThenAbandoned :=
    ledger_chatDb (by decide) (by decide) (by decide) (by decide)
  have hopen : OpenCall (ofSession "session" finishedThenAbandoned) callMessage callRef := by
    refine ⟨by decide, by decide, fun x hx r hr => ?_⟩
    have hnone : ∀ x ∈ ofSession "session" finishedThenAbandoned, x.body.type ≠ .toolResult := by
      decide
    exact absurd (by rw [hr]; rfl) (hnone x hx)
  have hfold : callRef ∉ (foldRebuild (ofSession "session" finishedThenAbandoned)).abandonedCalls := by
    decide
  have hsettled :
      (settledScan (ofSession "session" finishedThenAbandoned)).pending.get? callRef = none := by
    decide
  exact ⟨hledger, hopen, hfold, hsettled, rfl, fun h => hfold (h.1.mpr hsettled)⟩

end Kirakira
