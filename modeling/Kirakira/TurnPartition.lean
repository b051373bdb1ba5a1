import Kirakira.TurnProjection

/-!
# Turns as a Partition

What `TurnProjection.project` makes of the messages of a source, read from the start. A turn is
**gathered** from the messages of its interval: every input and output, and the results of calls
that an output of the interval proposes before.

A turn that a control abandons ends at the number it names, so a result between that number and
the control comes after the end of the turn of its call.

## Main results

* `gather_answering` — the end of what was gathered, without the results of calls from before, is
  gathered from the end of the messages.
* `advance_divided` — a step keeps that every turn is gathered from its interval.
* `project_partition` — **the turns partition the messages of the source**.
-/

namespace Kirakira

open Exceptions SortedBy

/-! ### Gathering -/

/-- The calls a message proposes. -/
def Message.calls (m : Message) : List CallRef :=
  match m.body with
  | .output o => o.callRefs m.messageId m.messageId_ok
  | _ => []

/-- Whether a message is an input or an output. -/
def Message.isDialogue (m : Message) : Bool :=
  match m.body with
  | .input _ | .output _ => true
  | _ => false

/-- What a turn that knows these calls keeps of a message. -/
def Message.member (calls : List CallRef) (m : Message) : Option Member :=
  match m.body with
  | .input _ | .output _ => some ⟨m.seq, m.messageId, none, m.calls⟩
  | .toolResult r =>
      if calls.contains r.callRef then some ⟨m.seq, m.messageId, some r.callRef, []⟩ else none
  | .control _ => none

/-- What a turn that knows these calls keeps of messages. -/
def gather (calls : List CallRef) : List Message → List Member
  | [] => []
  | m :: ms => (m.member calls).toList ++ gather (calls ++ m.calls) ms

/-- The calls that messages propose. -/
def proposed (ms : List Message) : List CallRef :=
  ms.flatMap Message.calls

/-- The identities of the inputs and outputs. -/
def dialogueIds (ms : List Message) : List String :=
  (ms.filter Message.isDialogue).map Message.messageId

@[simp] theorem proposed_nil : proposed [] = [] := rfl

theorem proposed_cons (m : Message) (ms : List Message) :
    proposed (m :: ms) = m.calls ++ proposed ms :=
  List.flatMap_cons

theorem proposed_append (ms ms' : List Message) :
    proposed (ms ++ ms') = proposed ms ++ proposed ms' :=
  List.flatMap_append

theorem dialogueIds_append (ms ms' : List Message) :
    dialogueIds (ms ++ ms') = dialogueIds ms ++ dialogueIds ms' := by
  rw [dialogueIds, List.filter_append, List.map_append]
  rfl

theorem gather_append (calls : List CallRef) (ms ms' : List Message) :
    gather calls (ms ++ ms') = gather calls ms ++ gather (calls ++ proposed ms) ms' := by
  induction ms generalizing calls with
  | nil =>
      rw [proposed_nil, List.append_nil]
      rfl
  | cons m ms ih =>
      rw [List.cons_append, gather, gather, ih, List.append_assoc, proposed_cons,
        ← List.append_assoc]

variable {calls : List CallRef}

variable {item : Member} {ms : List Message}

theorem member_eq_some {m : Message} (h : m.member calls = some item) :
    item.seq = m.seq ∧ item.messageId = m.messageId ∧ item.calls = m.calls ∧
      (item.callRef = none ↔ m.isDialogue = true) ∧
      ∀ ref, item.callRef = some ref →
        ref ∈ calls ∧ ∃ r, m.body = .toolResult r ∧ r.callRef = ref := by
  unfold Message.member at h
  cases hbody : m.body with
  | input body =>
      rw [hbody] at h
      obtain rfl := Option.some.inj h
      simp [Message.isDialogue, hbody]
  | output o =>
      rw [hbody] at h
      obtain rfl := Option.some.inj h
      simp [Message.isDialogue, hbody]
  | toolResult r =>
      rw [hbody] at h
      dsimp only at h
      obtain ⟨hcall, h⟩ | ⟨-, ⟨⟩⟩ := ite_eq_iff.mp h
      obtain rfl := Option.some.inj h
      simp [Message.isDialogue, Message.calls, hbody, List.contains_iff_mem.mp hcall]
  | control control =>
      rw [hbody] at h
      cases h

theorem member_of_isDialogue {m : Message} (h : m.isDialogue = true) (calls : List CallRef) :
    m.member calls = some ⟨m.seq, m.messageId, none, m.calls⟩ := by
  unfold Message.isDialogue at h
  unfold Message.member
  cases hbody : m.body with
  | input body => rfl
  | output o => rfl
  | toolResult r => simp [hbody] at h
  | control control => simp [hbody] at h

theorem mem_gather (h : item ∈ gather calls ms) :
    ∃ pre m post, ms = pre ++ m :: post ∧ m.member (calls ++ proposed pre) = some item := by
  induction ms generalizing calls with
  | nil => cases h
  | cons m ms ih =>
      rw [gather, List.mem_append, Option.mem_toList] at h
      rcases h with hhere | hrest
      · exact ⟨[], m, ms, rfl, by rwa [proposed_nil, List.append_nil]⟩
      · obtain ⟨pre, x, post, rfl, hx⟩ := ih hrest
        refine ⟨m :: pre, x, post, rfl, ?_⟩
        rwa [proposed_cons, ← List.append_assoc]

theorem mem_gather_of_member {pre post : List Message} {m : Message}
    (h : m.member (calls ++ proposed pre) = some item) :
    item ∈ gather calls (pre ++ m :: post) := by
  rw [gather_append, gather, h]
  exact List.mem_append_right _ (List.mem_append_left _ (Option.mem_toList.mpr rfl))

theorem flatMap_calls_gather (calls : List CallRef) (ms : List Message) :
    (gather calls ms).flatMap Member.calls = proposed ms := by
  induction ms generalizing calls with
  | nil => rfl
  | cons m ms ih =>
      rw [gather, List.flatMap_append, ih, proposed_cons]
      congr 1
      cases hmember : m.member calls with
      | some item =>
          rw [Option.toList_some, List.flatMap_singleton, (member_eq_some hmember).2.2.1]
      | none =>
          unfold Message.member at hmember
          unfold Message.calls
          cases hbody : m.body with
          | output o => simp [hbody] at hmember
          | input body => rfl
          | toolResult r => rfl
          | control control => rfl

theorem ids_gather (calls : List CallRef) (ms : List Message) :
    ((gather calls ms).filter fun item => item.callRef = none).map Member.messageId
      = dialogueIds ms := by
  induction ms generalizing calls with
  | nil => rfl
  | cons m ms ih =>
      rw [gather, List.filter_append, List.map_append, ih]
      have hsplit : dialogueIds (m :: ms) = dialogueIds [m] ++ dialogueIds ms :=
        dialogueIds_append [m] ms
      rw [hsplit]
      congr 1
      by_cases hdialogue : m.isDialogue = true
      · rw [member_of_isDialogue hdialogue]
        simp [dialogueIds, hdialogue]
      · cases hmember : m.member calls with
        | none => simp [dialogueIds, hdialogue]
        | some item =>
            have hresult : item.callRef ≠ none :=
              fun hnone => hdialogue ((member_eq_some hmember).2.2.2.1.mp hnone)
            simp [dialogueIds, hdialogue, hresult]

/-- **The results of calls from before** are what tells the end of what was gathered from what is
gathered from the end. -/
theorem gather_answering {earlier : List CallRef} (known : List CallRef)
    (h : ∀ ref ∈ earlier, ref ∉ known ++ proposed ms) :
    answering (known ++ proposed ms) (gather (earlier ++ known) ms) = gather known ms := by
  induction ms generalizing known with
  | nil => rfl
  | cons m ms ih =>
      have hcalls : known ++ proposed (m :: ms) = (known ++ m.calls) ++ proposed ms := by
        rw [proposed_cons, List.append_assoc]
      have hrest := ih (known ++ m.calls) (by rwa [hcalls] at h)
      rw [hcalls, gather, gather, answering, List.filter_append, List.append_assoc earlier]
      rw [answering] at hrest
      rw [hrest]
      congr 1
      cases hbody : m.body with
      | input body => simp [Message.member, hbody, Member.answers]
      | output o => simp [Message.member, hbody, Member.answers]
      | control control => simp [Message.member, hbody]
      | toolResult r =>
          have hnone : m.calls = [] := by rw [Message.calls, hbody]
          by_cases hknown : r.callRef ∈ known
          · simp [Message.member, hbody, Member.answers, hknown]
          · by_cases hearlier : r.callRef ∈ earlier
            · have hother := h r.callRef hearlier
              rw [hcalls, hnone, List.append_nil] at hother
              have hnot : r.callRef ∉ proposed ms :=
                fun hmem => hother (List.mem_append_right _ hmem)
              simp [Message.member, hbody, Member.answers, hknown, hearlier, hnone, hnot]
            · simp [Message.member, hbody, hknown, hearlier]

/-! ### Runs -/

/-- The messages after a number. -/
def above (k : ℤ) (ms : List Message) : List Message :=
  ms.filter fun m => k < (m.seq : ℤ)

/-- The messages of an interval. -/
abbrev within (a b : ℤ) (ms : List Message) : List Message :=
  between Message.seq a b ms

/-- A turn that is gathered from the messages of its interval. -/
structure Turn.Gathered (source : String) (ms : List Message) (turn : Turn) : Prop where
  eq : turn = buildTurn source turn.afterSeq turn.throughSeq turn.endingMessageId turn.status
    (gather [] (within turn.afterSeq turn.throughSeq ms))
  lt : turn.afterSeq < turn.throughSeq

/-- What a projection has made of the messages it has read: every turn is gathered from its
interval, the intervals follow one another, and the inputs and outputs up to the beginning of the
open turn are in the turns, in order. -/
structure Divided (source : String) (read : List Message) (g : Segments) : Prop where
  head : g.sourceHead = lastKey Message.seq read
  afterSeq : g.afterSeq ≤ lastKey Message.seq read
  pending : g.pending = gather [] (above g.afterSeq read)
  calls : g.calls = proposed (above g.afterSeq read)
  gathered : ∀ turn ∈ g.turns, turn.Gathered source read
  closed : ∀ turn ∈ g.turns, turn.status ≠ .openTail ∧ turn.throughSeq ≤ g.afterSeq
  increasing : g.turns.Pairwise fun a b => a.throughSeq ≤ b.afterSeq
  dialogue : g.turns.flatMap Turn.messageIds = dialogueIds (upTo Message.seq g.afterSeq read)

theorem divided_start (source : String) : Divided source [] (.start (-1)) where
  head := rfl
  afterSeq := le_rfl
  pending := rfl
  calls := rfl
  gathered := by simp [Segments.start]
  closed := by simp [Segments.start]
  increasing := .nil
  dialogue := rfl

section Step

variable {source : String} {read : List Message} {g : Segments} {m : Message}

theorem lastKey_append_singleton (read : List Message) (m : Message) :
    lastKey Message.seq (read ++ [m]) = m.seq := by
  rw [lastKey, List.getLast?_concat]

/-- What a projection that has read one more message knows, before it closes a turn. -/
theorem Divided.see (h : Divided source read g) (hlater : lastKey Message.seq read < m.seq) :
    Divided source (read ++ [m])
      { g with
        sourceHead := m.seq
        pending := g.pending ++ (m.member g.calls).toList
        calls := g.calls ++ m.calls } := by
  have habove : above g.afterSeq (read ++ [m]) = above g.afterSeq read ++ [m] := by
    have hm : g.afterSeq < m.seq := h.afterSeq.trans_lt hlater
    simp [above, List.filter_append, hm]
  have hwithin : ∀ a b, b ≤ g.afterSeq → within a b (read ++ [m]) = within a b read := by
    intro a b hb
    have hm : ¬(m.seq : ℤ) ≤ b := by
      have := h.afterSeq
      omega
    simp [within, between, List.filter_append, hm]
  refine ⟨(lastKey_append_singleton read m).symm, ?_, ?_, ?_, ?_, h.closed, h.increasing, ?_⟩
  · rw [lastKey_append_singleton]
    exact (h.afterSeq.trans_lt hlater).le
  · change g.pending ++ _ = gather [] (above g.afterSeq (read ++ [m]))
    rw [habove, gather_append, h.pending, h.calls, gather, gather, List.append_nil,
      List.nil_append]
  · change g.calls ++ _ = proposed (above g.afterSeq (read ++ [m]))
    rw [habove, proposed_append, h.calls, proposed_cons, proposed_nil, List.append_nil]
  · intro turn hturn
    obtain ⟨heq, hlt⟩ := h.gathered turn hturn
    exact ⟨by rwa [hwithin _ _ (h.closed turn hturn).2], hlt⟩
  · change _ = dialogueIds (upTo Message.seq g.afterSeq (read ++ [m]))
    have hm : ¬(m.seq : ℤ) ≤ g.afterSeq := by
      have := h.afterSeq
      omega
    rw [h.dialogue]
    simp [upTo, List.filter_append, hm]

theorem messageIds_buildTurn (a b : ℤ) (ending : Option String) (status : TurnStatus)
    (ms : List Message) :
    (buildTurn source a b ending status (gather [] ms)).messageIds = dialogueIds ms :=
  ids_gather [] ms

/-- What a projection that has closed everything up to a number knows: the members up to there
are a turn, unless there are none. -/
theorem Divided.close (h : Divided source read g) (hsorted : Sorted Message.seq read) {t : ℤ}
    (hlt : g.afterSeq < t) (hle : t ≤ lastKey Message.seq read) (ending : Option String)
    {status : TurnStatus} (hstatus : status ≠ .openTail) {new : List Turn}
    (hnew : new = [buildTurn source g.afterSeq t ending status
        (gather [] (within g.afterSeq t read))] ∨
      (new = [] ∧ gather [] (within g.afterSeq t read) = [])) :
    Divided source read
      ⟨t, g.turns ++ new, gather [] (above t read), proposed (above t read), g.sourceHead⟩ := by
  have hmem : ∀ turn ∈ new, turn = buildTurn source g.afterSeq t ending status
      (gather [] (within g.afterSeq t read)) := by
    intro turn hturn
    rcases hnew with rfl | ⟨rfl, -⟩
    · exact List.mem_singleton.mp hturn
    · cases hturn
  refine ⟨h.head, hle, rfl, rfl, fun turn hturn => ?_, fun turn hturn => ?_, ?_, ?_⟩
  · rcases List.mem_append.mp hturn with hold | hturn
    · exact h.gathered turn hold
    · rw [hmem turn hturn]
      exact ⟨rfl, hlt⟩
  · rcases List.mem_append.mp hturn with hold | hturn
    · exact ⟨(h.closed turn hold).1, (h.closed turn hold).2.trans hlt.le⟩
    · rw [hmem turn hturn]
      exact ⟨hstatus, le_rfl⟩
  · refine List.pairwise_append.mpr ⟨h.increasing, ?_, fun a ha b hb => ?_⟩
    · rcases hnew with rfl | ⟨rfl, -⟩
      · exact List.pairwise_singleton _ _
      · exact .nil
    · rw [hmem b hb]
      exact (h.closed a ha).2
  · have hids : new.flatMap Turn.messageIds = dialogueIds (within g.afterSeq t read) := by
      rcases hnew with rfl | ⟨rfl, hempty⟩
      · rw [List.flatMap_singleton, messageIds_buildTurn]
      · rw [← ids_gather [] (within g.afterSeq t read), hempty]
        rfl
    change (g.turns ++ new).flatMap Turn.messageIds = dialogueIds (upTo Message.seq t read)
    rw [List.flatMap_append, h.dialogue, hids, ← dialogueIds_append,
      upTo_append_between hsorted hlt.le]

theorem above_eq (hsorted : Sorted Message.seq read) {a b : ℤ} (hab : a ≤ b) :
    above a read = within a b read ++ above b read := by
  have ha := upTo_append_above hsorted a
  have hb := upTo_append_above hsorted b
  rw [← upTo_append_between hsorted hab, List.append_assoc] at hb
  exact List.append_cancel_left (ha.trans hb.symm)

theorem above_eq_nil (hsorted : Sorted Message.seq read) {k : ℤ}
    (h : lastKey Message.seq read ≤ k) : above k read = [] := by
  refine List.filter_eq_nil_iff.mpr fun x hx => ?_
  have hle := (hsorted.le_lastKey x hx).trans h
  simpa using hle

theorem seq_of_mem_gather {ms : List Message} {item : Member} (h : item ∈ gather calls ms) :
    ∃ m ∈ ms, item.seq = m.seq := by
  obtain ⟨pre, m, post, rfl, hm⟩ := mem_gather h
  exact ⟨m, List.mem_append_right _ List.mem_cons_self, (member_eq_some hm).1⟩

theorem messageId_of_mem_proposed {ms : List Message} {ref : CallRef} (h : ref ∈ proposed ms) :
    ∃ m ∈ ms, m.messageId = ref.messageId := by
  obtain ⟨m, hm, href⟩ := List.mem_flatMap.mp h
  refine ⟨m, hm, ?_⟩
  unfold Message.calls at href
  split at href
  · exact (callRefs_messageId _ _ _ ref href).symm
  · cases href

/-- The members up to a number are gathered from the messages up to there, and those after it,
without the results of calls from before, from the messages after it. -/
theorem Divided.split (h : Divided source read g) (hsorted : Sorted Message.seq read)
    (hids : (read.map Message.messageId).Nodup) {t : ℕ} (hlt : g.afterSeq < t) :
    g.upTo t = gather [] (within g.afterSeq t read) ∧
      (g.after t).flatMap Member.calls = proposed (above t read) ∧
      answering (proposed (above t read)) (g.after t) = gather [] (above t read) := by
  have hparts := above_eq hsorted hlt.le
  have hgather : g.pending = gather [] (within g.afterSeq t read) ++
      gather (proposed (within g.afterSeq t read)) (above t read) := by
    rw [h.pending, hparts, gather_append, List.nil_append]
  have hfirst : ∀ item ∈ gather [] (within g.afterSeq t read), item.seq ≤ t := by
    intro item hitem
    obtain ⟨x, hx, hseq⟩ := seq_of_mem_gather hitem
    have hx' := (List.mem_filter.mp hx).2
    simp only [Bool.and_eq_true, decide_eq_true_eq] at hx'
    omega
  have hsecond : ∀ item ∈ gather (proposed (within g.afterSeq t read)) (above t read),
      t < item.seq := by
    intro item hitem
    obtain ⟨x, hx, hseq⟩ := seq_of_mem_gather hitem
    have hx' := (List.mem_filter.mp hx).2
    rw [decide_eq_true_eq] at hx'
    omega
  have hupTo : g.upTo t = gather [] (within g.afterSeq t read) := by
    rw [Segments.upTo, hgather, List.filter_append, List.filter_eq_self.mpr,
      List.filter_eq_nil_iff.mpr, List.append_nil]
    · intro item hitem
      simpa using hsecond item hitem
    · intro item hitem
      simpa using hfirst item hitem
  have hafter : g.after t = gather (proposed (within g.afterSeq t read)) (above t read) := by
    rw [Segments.after, hgather, List.filter_append, List.filter_eq_nil_iff.mpr,
      List.filter_eq_self.mpr, List.nil_append]
    · intro item hitem
      simpa using hsecond item hitem
    · intro item hitem
      simpa using hfirst item hitem
  refine ⟨hupTo, by rw [hafter, flatMap_calls_gather], ?_⟩
  have hids' : ((within g.afterSeq t read ++ above t read).map Message.messageId).Nodup := by
    rw [← hparts]
    exact hids.sublist (List.filter_sublist.map _)
  rw [List.map_append] at hids'
  have hother : ∀ ref ∈ proposed (within g.afterSeq t read), ref ∉ [] ++ proposed (above t read) := by
    intro ref href href'
    obtain ⟨x, hx, hxid⟩ := messageId_of_mem_proposed href
    obtain ⟨y, hy, hyid⟩ := messageId_of_mem_proposed href'
    exact List.disjoint_of_nodup_append hids' (List.mem_map.mpr ⟨x, hx, hxid⟩)
      (List.mem_map.mpr ⟨y, hy, hyid⟩)
  have hanswering := gather_answering [] hother
  rwa [List.nil_append, List.append_nil, ← hafter] at hanswering

theorem Divided.finish (h : Divided source read g) (hsorted : Sorted Message.seq read)
    (hlast : lastKey Message.seq read = m.seq) (hlt : g.afterSeq < m.seq) {status : TurnStatus}
    (hstatus : status ≠ .openTail) : Divided source read (g.finished source true m status) := by
  have hnone : above m.seq read = [] := above_eq_nil hsorted hlast.le
  have hall : g.pending = gather [] (within g.afterSeq m.seq read) := by
    rw [h.pending, above_eq hsorted hlt.le, hnone, List.append_nil]
  have hclose := h.close hsorted hlt hlast.ge (some m.messageId) hstatus (.inl rfl)
  rw [hnone, ← hall] at hclose
  exact hclose

theorem Divided.abandon (h : Divided source read g) (hsorted : Sorted Message.seq read)
    (hids : (read.map Message.messageId).Nodup) {t : ℕ} (hlt : g.afterSeq < t)
    (hle : t ≤ lastKey Message.seq read) :
    Divided source read (g.abandoned source true m t) := by
  obtain ⟨hupTo, hcalls, hanswering⟩ := h.split hsorted hids hlt
  have hnew : (g.abandonedTurn source m t).toList = [buildTurn source g.afterSeq t
        (some m.messageId) .abandoned (gather [] (within g.afterSeq t read))] ∨
      ((g.abandonedTurn source m t).toList = [] ∧
        gather [] (within g.afterSeq t read) = []) := by
    rw [Segments.abandonedTurn, hupTo]
    split
    · next hempty => exact .inr ⟨rfl, hempty⟩
    · exact .inl rfl
  have hturns := abandoned_turns g source true m t
  rw [included_true] at hturns
  have hclose := h.close hsorted hlt hle (some m.messageId) (by decide) hnew
  rw [← hturns, ← hanswering, ← hcalls] at hclose
  exact hclose

theorem status_ne_open (finish : Finish) : finish.status ≠ .openTail := by
  cases finish <;> decide

/-- **A step keeps what a projection has made of its messages.** -/
theorem advance_divided {g' : Segments} (hstep : g.advance source true (-1) m = .ok g')
    (h : Divided source read g) (hsorted : Sorted Message.seq (read ++ [m]))
    (hids : ((read ++ [m]).map Message.messageId).Nodup) :
    Divided source (read ++ [m]) g' := by
  have hlater := hsorted.lastKey_lt m (List.mem_singleton_self m)
  have hsee := h.see hlater
  have hafter : g.afterSeq < m.seq := h.afterSeq.trans_lt hlater
  have hlast := lastKey_append_singleton read m
  unfold Segments.advance at hstep
  cases hbody : m.body with
  | input body =>
      rw [hbody] at hstep
      obtain rfl := Except.ok.inj hstep
      simpa [Message.member, Message.calls, hbody, Segments.add] using hsee
  | output o =>
      have hadd : Divided source (read ++ [m]) ({ g with sourceHead := (m.seq : ℤ) }.add
          ⟨m.seq, m.messageId, none, o.callRefs m.messageId m.messageId_ok⟩) := by
        simpa [Message.member, Message.calls, hbody, Segments.add] using hsee
      rw [hbody] at hstep
      dsimp only at hstep
      split at hstep
      · obtain rfl := Except.ok.inj hstep
        exact hadd
      · obtain rfl := Except.ok.inj hstep
        exact hadd.finish hsorted hlast hafter (status_ne_open o.finish)
  | toolResult r =>
      rw [hbody] at hstep
      dsimp only at hstep
      split at hstep
      · next hcall =>
          obtain rfl := Except.ok.inj hstep
          simpa [Message.member, Message.calls, hbody, Segments.add,
            List.contains_iff_mem.mp hcall] using hsee
      · next hcall =>
          obtain rfl := Except.ok.inj hstep
          have hnot : r.callRef ∉ g.calls := fun hmem => hcall (List.contains_iff_mem.mpr hmem)
          simpa [Message.member, Message.calls, hbody, hnot] using hsee
  | control control =>
      have hseen : Divided source (read ++ [m]) { g with sourceHead := m.seq } := by
        simpa [Message.member, Message.calls, hbody] using hsee
      rw [hbody] at hstep
      dsimp only at hstep
      split at hstep
      · obtain rfl := Except.ok.inj hstep
        exact hseen
      · split at hstep
        · obtain rfl := Except.ok.inj hstep
          exact hseen
        · obtain ⟨-, ⟨⟩⟩ | ⟨hopen, hstep⟩ := ite_eq_iff.mp hstep
          obtain rfl := Except.ok.inj hstep
          have hbelow := m.control_ok control hbody
          have hlt : g.afterSeq < control.throughSeq := not_le.mp hopen
          have hle : (control.throughSeq : ℤ) ≤ lastKey Message.seq (read ++ [m]) := by
            rw [hlast]
            omega
          exact hseen.abandon hsorted hids hlt hle

end Step

/-- **A run keeps it.** -/
theorem run_divided {source : String} {read : List Message} {g g' : Segments}
    (hrun : ms.foldlM (Segments.advance source true (-1)) g = .ok g') (h : Divided source read g)
    (hsorted : Sorted Message.seq (read ++ ms))
    (hids : ((read ++ ms).map Message.messageId).Nodup) : Divided source (read ++ ms) g' := by
  induction ms generalizing g read with
  | nil =>
      obtain rfl := Except.ok.inj hrun
      rwa [List.append_nil]
  | cons m ms ih =>
      rw [List.foldlM_cons] at hrun
      obtain ⟨g₁, hstep, hrest⟩ := bind_eq_ok.mp hrun
      rw [List.append_cons] at hsorted hids ⊢
      have hids' : ((read ++ [m]).map Message.messageId).Nodup :=
        hids.sublist ((List.sublist_append_left _ _).map _)
      exact ih hrest (advance_divided hstep h (List.pairwise_append.mp hsorted).1 hids')
        hsorted hids

/-! ### The partition -/

/-- The turns of a source, as a partition of its messages. -/
structure TurnPartition (messages : List Message) (source : String) (turns : List Turn) :
    Prop where
  /-- The inputs and outputs of the source are in the turns, each once, in the order of the log. -/
  dialogue : turns.flatMap Turn.messageIds
    = dialogueIds (messages.filter fun m => m.source = source)
  /-- No two turns share one. -/
  disjoint : turns.Pairwise fun a b => a.messageIds.Disjoint b.messageIds
  /-- The intervals are not empty, and one begins where the one before it has ended, or later. -/
  intervals : (∀ turn ∈ turns, turn.afterSeq < turn.throughSeq) ∧
    turns.Pairwise fun a b => a.throughSeq ≤ b.afterSeq
  /-- What a turn contains is in its interval. -/
  inside : ∀ turn ∈ turns, ∀ id ∈ turn.messageIds, ∃ m ∈ messages, m.source = source ∧
    m.isDialogue = true ∧ m.messageId = id ∧
    turn.afterSeq < m.seq ∧ (m.seq : ℤ) ≤ turn.throughSeq
  /-- What a turn observes is a result in its interval, and the output that holds its call is in
  the turn as well. -/
  observed : ∀ turn ∈ turns, ∀ ref id, (ref, id) ∈ turn.observations →
    (∃ m ∈ messages, m.source = source ∧ m.messageId = id ∧
      (∃ r, m.body = .toolResult r ∧ r.callRef = ref) ∧
      turn.afterSeq < m.seq ∧ (m.seq : ℤ) ≤ turn.throughSeq) ∧
    ∃ call ∈ messages, call.source = source ∧ ref ∈ call.calls ∧
      call.messageId ∈ turn.messageIds
  /-- A result that no turn observes comes after the end of the closed turn of its call. -/
  omitted : ∀ m ∈ messages, m.source = source → ∀ r, m.body = .toolResult r →
    (∀ turn ∈ turns, (r.callRef, m.messageId) ∉ turn.observations) →
    ∀ call ∈ messages, call.source = source → call.seq < m.seq → r.callRef ∈ call.calls →
      ∃ turn ∈ turns, call.messageId ∈ turn.messageIds ∧ turn.status ≠ .openTail ∧
        turn.throughSeq < m.seq
  /-- Only the last turn may be open. -/
  openLast : ∀ turn ∈ turns.dropLast, turn.status ≠ .openTail

section Final

variable {source : String} {ms : List Message} {g : Segments}

variable {turn : Turn}

theorem Divided.openTurn (h : Divided source ms g) (hsorted : Sorted Message.seq ms)
    (hturn : turn ∈ g.openTurn source) :
    turn.Gathered source ms ∧ turn.afterSeq = g.afterSeq ∧
      turn.throughSeq = lastKey Message.seq ms := by
  unfold Segments.openTurn at hturn
  split at hturn
  · cases hturn
  · next hpending =>
      obtain rfl := List.mem_singleton.mp hturn
      have hall : g.pending = gather [] (within g.afterSeq (lastKey Message.seq ms) ms) := by
        rw [h.pending, above_eq hsorted h.afterSeq, above_eq_nil hsorted le_rfl, List.append_nil]
      have hlt : g.afterSeq < lastKey Message.seq ms := by
        by_contra hge
        rw [h.pending, above_eq_nil hsorted (not_lt.mp hge)] at hpending
        exact hpending rfl
      refine ⟨⟨?_, ?_⟩, rfl, h.head⟩
      · rw [hall, h.head]
        rfl
      · change g.afterSeq < g.sourceHead
        rw [h.head]
        exact hlt

theorem Divided.flatMap_openTurn (h : Divided source ms g) :
    (g.openTurn source).flatMap Turn.messageIds = dialogueIds (above g.afterSeq ms) := by
  have hids := ids_gather [] (above g.afterSeq ms)
  rw [← h.pending] at hids
  unfold Segments.openTurn
  split
  · next hempty =>
      rw [← hids, hempty]
      rfl
  · rw [List.flatMap_singleton]
    exact hids

theorem isDialogue_of_mem_calls {m : Message} {ref : CallRef} (h : ref ∈ m.calls) :
    m.isDialogue = true := by
  unfold Message.calls at h
  split at h
  · next o hbody => rw [Message.isDialogue, hbody]
  · cases h

theorem Turn.Gathered.messageIds (h : turn.Gathered source ms) :
    turn.messageIds = dialogueIds (within turn.afterSeq turn.throughSeq ms) := by
  have hids := congrArg Turn.messageIds h.eq
  rwa [messageIds_buildTurn] at hids

theorem Turn.Gathered.observations (h : turn.Gathered source ms) :
    turn.observations = (gather [] (within turn.afterSeq turn.throughSeq ms)).filterMap
      fun item => item.callRef.map fun ref => (ref, item.messageId) :=
  congrArg Turn.observations h.eq

theorem mem_within {a b : ℤ} {m : Message} :
    m ∈ within a b ms ↔ m ∈ ms ∧ a < m.seq ∧ (m.seq : ℤ) ≤ b := by
  simp [within, between]

theorem Turn.Gathered.observed (h : turn.Gathered source ms) {ref : CallRef} {id : String}
    (hmem : (ref, id) ∈ turn.observations) :
    (∃ m ∈ ms, m.messageId = id ∧ (∃ r, m.body = .toolResult r ∧ r.callRef = ref) ∧
      turn.afterSeq < m.seq ∧ (m.seq : ℤ) ≤ turn.throughSeq) ∧
    ∃ call ∈ ms, ref ∈ call.calls ∧ call.messageId ∈ turn.messageIds := by
  rw [h.observations, List.mem_filterMap] at hmem
  obtain ⟨item, hitem, hobservation⟩ := hmem
  obtain ⟨ref', href, heq⟩ := Option.map_eq_some_iff.mp hobservation
  obtain ⟨rfl, rfl⟩ := Prod.mk.inj heq
  obtain ⟨pre, m, post, hms, hmember⟩ := mem_gather hitem
  obtain ⟨-, hid, -, -, hresult⟩ := member_eq_some hmember
  obtain ⟨hcall, hbody⟩ := hresult ref' href
  rw [List.nil_append] at hcall
  obtain ⟨call, hpre, hcalls⟩ := List.mem_flatMap.mp hcall
  have hin : ∀ x ∈ pre ++ m :: post, x ∈ within turn.afterSeq turn.throughSeq ms :=
    fun x hx => hms ▸ hx
  obtain ⟨hm, hbounds⟩ := mem_within.mp (hin m (List.mem_append_right _ List.mem_cons_self))
  have hcall_in := hin call (List.mem_append_left _ hpre)
  refine ⟨⟨m, hm, hid.symm, hbody, hbounds⟩, call, (mem_within.mp hcall_in).1, hcalls, ?_⟩
  rw [h.messageIds]
  exact List.mem_map.mpr ⟨call, List.mem_filter.mpr ⟨hcall_in, isDialogue_of_mem_calls hcalls⟩, rfl⟩

theorem Turn.Gathered.observes (h : turn.Gathered source ms) (hsorted : Sorted Message.seq ms)
    {m call : Message} {r : ToolResult} (hbody : m.body = .toolResult r)
    (hm : m ∈ within turn.afterSeq turn.throughSeq ms)
    (hcall : call ∈ within turn.afterSeq turn.throughSeq ms) (hlt : call.seq < m.seq)
    (hcalls : r.callRef ∈ call.calls) : (r.callRef, m.messageId) ∈ turn.observations := by
  obtain ⟨pre, post, hms⟩ := List.append_of_mem hm
  have hpre : call ∈ pre := by
    have hsorted' : Sorted Message.seq (pre ++ m :: post) := by
      rw [← hms]
      exact hsorted.filter _
    rw [hms, List.mem_append, List.mem_cons] at hcall
    rcases hcall with hpre | rfl | hpost
    · exact hpre
    · exact absurd hlt (lt_irrefl _)
    · have := (List.pairwise_cons.mp (List.pairwise_append.mp hsorted').2.1).1 call hpost
      omega
  have hknown : r.callRef ∈ [] ++ proposed pre := List.mem_flatMap.mpr ⟨call, hpre, hcalls⟩
  have hmember : m.member ([] ++ proposed pre) = some ⟨m.seq, m.messageId, some r.callRef, []⟩ := by
    unfold Message.member
    rw [hbody]
    exact if_pos (List.contains_iff_mem.mpr hknown)
  rw [h.observations, List.mem_filterMap, hms]
  exact ⟨_, mem_gather_of_member hmember, rfl⟩

end Final

/-- **The turns partition the messages of the source.** The one thing assumed of the messages is
that their identities differ. -/
theorem project_partition {messages : List Message} {source : String} {turns : List Turn}
    (hids : (messages.map Message.messageId).Nodup)
    (h : project messages source (-1) true = .ok turns) :
    TurnPartition messages source turns := by
  obtain ⟨horder, g, hrun, hturns⟩ := project_eq_ok.mp h
  have hsplit : turns = g.turns ++ g.openTurn source :=
    hturns.trans (result_withTurns g source g.turns)
  obtain ⟨-, hsorted, -⟩ := (inOrder_iff _ _ _).mp horder
  have hsource : ∀ {m : Message}, m ∈ messages.filter (fun m => m.source = source) →
      m ∈ messages ∧ m.source = source := by
    intro m hm
    simpa using List.mem_filter.mp hm
  have hin : ∀ {m : Message}, m ∈ messages → m.source = source →
      m ∈ messages.filter fun m => m.source = source :=
    fun hm hs => List.mem_filter.mpr ⟨hm, decide_eq_true hs⟩
  replace hsorted : Sorted Message.seq (messages.filter fun m => m.source = source) :=
    hsorted.filter _
  replace hids : ((messages.filter fun m => m.source = source).map Message.messageId).Nodup :=
    hids.sublist (List.filter_sublist.map _)
  have hdivided := run_divided hrun (divided_start source) hsorted hids
  rw [List.nil_append] at hdivided
  have hgathered : ∀ turn ∈ turns,
      turn.Gathered source (messages.filter fun m => m.source = source) := by
    intro turn hturn
    rw [hsplit] at hturn
    rcases List.mem_append.mp hturn with hclosed | hopen
    · exact hdivided.gathered turn hclosed
    · exact (hdivided.openTurn hsorted hopen).1
  have hdialogue : turns.flatMap Turn.messageIds
      = dialogueIds (messages.filter fun m => m.source = source) := by
    rw [hsplit, List.flatMap_append, hdivided.dialogue, hdivided.flatMap_openTurn,
      ← dialogueIds_append]
    exact congrArg dialogueIds (upTo_append_above hsorted _)
  refine ⟨hdialogue, ?_, ⟨fun turn hturn => (hgathered turn hturn).lt, ?_⟩, ?_, ?_, ?_, ?_⟩
  · have hnodup : (turns.flatMap Turn.messageIds).Nodup := by
      rw [hdialogue]
      exact hids.sublist (List.filter_sublist.map _)
    exact (List.nodup_flatMap.mp hnodup).2
  · rw [hsplit]
    refine List.pairwise_append.mpr ⟨hdivided.increasing, ?_, fun a ha b hb => ?_⟩
    · unfold Segments.openTurn
      split
      · exact .nil
      · exact List.pairwise_singleton _ _
    · rw [(hdivided.openTurn hsorted hb).2.1]
      exact (hdivided.closed a ha).2
  · intro turn hturn id hid
    rw [(hgathered turn hturn).messageIds] at hid
    obtain ⟨m, hm, rfl⟩ := List.mem_map.mp hid
    obtain ⟨hwithin, hdialogue⟩ := List.mem_filter.mp hm
    obtain ⟨hmem, hbounds⟩ := mem_within.mp hwithin
    exact ⟨m, (hsource hmem).1, (hsource hmem).2, hdialogue, rfl, hbounds⟩
  · intro turn hturn ref id hobserved
    obtain ⟨⟨m, hm, hrest⟩, call, hcall, hcalls⟩ := (hgathered turn hturn).observed hobserved
    exact ⟨⟨m, (hsource hm).1, (hsource hm).2, hrest⟩, call, (hsource hcall).1, (hsource hcall).2,
      hcalls⟩
  · intro m hm hms r hbody homitted call hcall hcs hlt hcalls
    replace hm := hin hm hms
    replace hcall := hin hcall hcs
    have hid : call.messageId ∈ turns.flatMap Turn.messageIds := by
      rw [hdialogue]
      exact List.mem_map.mpr
        ⟨call, List.mem_filter.mpr ⟨hcall, isDialogue_of_mem_calls hcalls⟩, rfl⟩
    obtain ⟨turn, hturn, hid⟩ := List.mem_flatMap.mp hid
    -- the message of the interval with the identity of the call is the call
    have hwithin := (hgathered turn hturn).messageIds ▸ hid
    obtain ⟨x, hx, hxid⟩ := List.mem_map.mp hwithin
    replace hx := List.mem_of_mem_filter hx
    obtain rfl := List.inj_on_of_nodup_map hids (mem_within.mp hx).1 hcall hxid
    obtain ⟨-, hlow, -⟩ := mem_within.mp hx
    have hlate : turn.throughSeq < m.seq := by
      by_contra hle
      refine homitted turn hturn ((hgathered turn hturn).observes hsorted hbody ?_ hx hlt hcalls)
      exact mem_within.mpr ⟨hm, by omega, not_lt.mp hle⟩
    refine ⟨turn, hturn, hid, fun hopen => ?_, hlate⟩
    rw [hsplit] at hturn
    rcases List.mem_append.mp hturn with hclosed | hopenTurn
    · exact (hdivided.closed turn hclosed).1 hopen
    · rw [(hdivided.openTurn hsorted hopenTurn).2.2] at hlate
      exact absurd (hsorted.le_lastKey m hm) (not_le.mpr hlate)
  · intro turn hturn
    rw [hsplit] at hturn
    unfold Segments.openTurn at hturn
    split at hturn
    · rw [List.append_nil] at hturn
      exact (hdivided.closed turn ((List.dropLast_sublist _).mem hturn)).1
    · rw [List.dropLast_concat] at hturn
      exact (hdivided.closed turn hturn).1

/-- The turns of two inputs, the first of which was abandoned. -/
theorem project_partition_abandonedInput :
    TurnPartition abandonedInput "chat" abandonedTurns :=
  project_partition (by decide) rfl

end Kirakira
