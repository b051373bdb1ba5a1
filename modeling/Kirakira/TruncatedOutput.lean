import Kirakira.ShellOutput

/-!
# Truncated Output

What an observation of an execution exposes of its bytes. `_collect_until_deadline` drains the
buffer of the execution again and again and pours what it gets into a buffer of its own, and
`_limit_output` pours that one into a buffer of the size the caller asked for. A buffer is
poured as its head and then its tail, without the position of the gap between them.

* `Shows` is what a buffer of its size shows of a stream: the start of it, the end of it, and
  the number of the bytes between. Chunks keep it, and so do buffers of at least the same size.
* A larger buffer takes the head of a smaller one, and then the first bytes of its tail, as its
  own head. So an output is truthful unless the limit and the stream both exceed the size of
  the collecting buffer.

## Main results

* `Shows.pushBuffer` — what a buffer shows after another one of at least its size.
* `output_truthful_iff` — when an observation exposes the true head and tail.
* `collected_of_reachable` — what the observations of an execution have collected.
-/

namespace Kirakira.Shell

open Transition

/-! ### Markers -/

/-- `str.encode()`. -/
def encode (text : String) : List UInt8 :=
  text.toList.flatMap String.utf8EncodeChar

/-- The marker of `to_bytes_with_omission_marker`. -/
def omissionMarker (omittedBytes : ℕ) : List UInt8 :=
  encode s!"... {omittedBytes} bytes omitted ..."

/-- `to_bytes_with_omission_marker`. -/
def HeadTailBuffer.toBytesWithOmissionMarker (b : HeadTailBuffer UInt8) : List UInt8 :=
  if b.omittedBytes = 0 then b.toBytes
  else b.head ++ encode "\n" ++ omissionMarker b.omittedBytes ++ encode "\n" ++ b.tail

/-! ### Observations -/

section Gathering

variable {α : Type}

/-- What the execution's buffer holds once chunks are pushed to it. -/
def buffered (chunks : List (List α)) : HeadTailBuffer α :=
  chunks.foldl HeadTailBuffer.pushChunk (.empty outputMaxBytes)

/-- One drain of `_collect_until_deadline`, of the chunks that were pushed since the last. -/
def collectRound (collected : HeadTailBuffer α) (chunks : List (List α)) : HeadTailBuffer α :=
  let drained := (buffered chunks).drain.1
  if drained.totalBytes ≠ 0 then collected.pushBuffer drained else collected

/-- `_collect_until_deadline`, for the chunks that each of its drains finds. -/
def collectUntilDeadline (rounds : List (List (List α))) : HeadTailBuffer α :=
  rounds.foldl collectRound (.empty outputMaxBytes)

end Gathering

/-- `output` of `_build_result`, before it becomes bytes. -/
def limitedOutput (rounds : List (List (List UInt8))) (maxOutputTokens : ℕ) :
    HeadTailBuffer UInt8 :=
  (collectUntilDeadline rounds).limitOutput maxOutputTokens

/-- The stream an observation gathers. -/
def gathered {α : Type} (rounds : List (List (List α))) : List α :=
  rounds.flatten.flatten

/-! ### What a buffer shows -/

namespace HeadTailBuffer

variable {α : Type}

/-- **What a buffer shows of a stream**: its start, its end, and how long it is. -/
structure Shows (b : HeadTailBuffer α) (stream : List α) : Prop where
  head : b.head = stream.take (b.maxBytes / 2)
  tail : b.tail = (stream.drop (b.maxBytes / 2)).rtake (b.maxBytes - b.maxBytes / 2)
  total : b.totalBytes = stream.length

theorem rtake_append (n : ℕ) (xs ys : List α) :
    (xs ++ ys).rtake n = xs.rtake (n - ys.length) ++ ys.rtake n := by
  rw [List.rtake, List.drop_append, List.rtake, List.rtake, List.length_append]
  congr 1
  · rcases Nat.le_total ys.length n with hle | hle
    · congr 1
      omega
    · rw [List.drop_eq_nil_of_le (by omega), List.drop_eq_nil_of_le (by omega)]
  · congr 1
    omega

theorem rtake_rtake (m n : ℕ) (xs : List α) : (xs.rtake n).rtake m = xs.rtake (min m n) := by
  rw [List.rtake, List.rtake, List.rtake, List.length_drop, List.drop_drop]
  congr 1
  omega

theorem rtake_of_length_le {n : ℕ} {xs : List α} (h : xs.length ≤ n) : xs.rtake n = xs := by
  rw [List.rtake, Nat.sub_eq_zero_of_le h, List.drop_zero]

theorem rtake_append_of_le {n : ℕ} (xs : List α) {ys : List α} (h : n ≤ ys.length) :
    (xs ++ ys).rtake n = ys.rtake n := by
  rw [rtake_append, Nat.sub_eq_zero_of_le h, List.rtake_zero, List.nil_append]

theorem length_rtake (n : ℕ) (xs : List α) : (xs.rtake n).length = min n xs.length := by
  rw [List.rtake, List.length_drop]
  omega

theorem pushToTail_rtake (tailBudget : ℕ) (xs chunk : List α) :
    (pushToTail tailBudget (xs.rtake tailBudget) chunk).1 = (xs ++ chunk).rtake tailBudget := by
  rw [pushToTail]
  split_ifs with hempty hzero hlong
  · rw [List.isEmpty_iff.mp hempty, List.append_nil]
  · rw [hzero, List.rtake_zero, List.rtake_zero]
  · exact (rtake_append_of_le xs hlong).symm
  · dsimp only
    rw [rtake_append, rtake_of_length_le (Nat.le_of_not_le hlong), List.drop_append_of_le_length]
    · congr 1
      rw [List.length_append, length_rtake, List.rtake, List.rtake, List.drop_drop]
      congr 1
      omega
    · rw [List.length_append, length_rtake]
      omega

variable {b c : HeadTailBuffer α} {stream more : List α}

theorem shows_empty (maxBytes : ℕ) : (empty maxBytes : HeadTailBuffer α).Shows [] :=
  ⟨List.take_nil.symm, by rw [List.drop_nil, List.rtake_nil]; rfl, rfl⟩

@[simp] theorem pushChunk_maxBytes (b : HeadTailBuffer α) (data : List α) :
    (b.pushChunk data).maxBytes = b.maxBytes := by
  rw [pushChunk]
  split <;> rfl

/-- **A chunk** extends the stream. -/
theorem Shows.pushChunk (h : b.Shows stream) (data : List α) :
    (b.pushChunk data).Shows (stream ++ data) := by
  have htotal := (b.pushChunk_spec data).2
  rw [h.total, ← List.length_append] at htotal
  refine ⟨?_, ?_, htotal⟩
  · rw [pushChunk_maxBytes, HeadTailBuffer.pushChunk]
    split_ifs with hzero
    · dsimp only
      rw [h.head, hzero, Nat.zero_div, List.take_zero, List.take_zero]
    · dsimp only
      rw [List.take_append, headLength, h.head, List.length_take]
      congr 1
      rcases Nat.le_total data.length (b.maxBytes / 2 - stream.length) with hle | hle
      · rw [List.take_of_length_le (i := b.maxBytes / 2 - stream.length) hle,
          List.take_of_length_le]
        omega
      · congr 1
        omega
  · rw [pushChunk_maxBytes, HeadTailBuffer.pushChunk]
    split_ifs with hzero
    · dsimp only
      rw [h.tail, hzero, Nat.zero_div, Nat.sub_zero, List.rtake_zero, List.rtake_zero]
    · dsimp only
      rw [h.tail, pushToTail_rtake, List.drop_append, headLength, h.head, List.length_take]
      congr 2
      rcases Nat.le_total data.length (b.maxBytes / 2 - stream.length) with hle | hle
      · rw [List.drop_eq_nil_of_le hle, List.drop_eq_nil_of_le]
        omega
      · congr 1
        omega

theorem Shows.toBytes_eq (h : b.Shows stream) (hle : stream.length ≤ b.maxBytes) :
    b.toBytes = stream := by
  rw [toBytes, h.head, h.tail, rtake_of_length_le, List.take_append_drop]
  rw [List.length_drop]
  omega

theorem Shows.omittedBytes_eq (h : b.Shows stream) :
    b.omittedBytes = stream.length - b.maxBytes := by
  have htotal := h.total
  rw [totalBytes, h.head, h.tail, length_rtake, List.length_take, List.length_drop] at htotal
  omega

theorem totalBytes_pushBuffer (b c : HeadTailBuffer α) :
    (b.pushBuffer c).totalBytes = b.totalBytes + c.totalBytes := by
  have hhead := (b.pushChunk_spec c.head).2
  have htail := ((b.pushChunk c.head).pushChunk_spec c.tail).2
  simp only [pushBuffer, totalBytes] at hhead htail ⊢
  omega

@[simp] theorem pushBuffer_maxBytes (b c : HeadTailBuffer α) :
    (b.pushBuffer c).maxBytes = b.maxBytes :=
  (pushChunk_maxBytes _ _).trans (pushChunk_maxBytes _ _)

/-- **A buffer that is poured** extends the stream by all it stands for, if it is at least as
large or lacks nothing. A head that is as long fills the head, a tail that is as long replaces
the tail, so the gap between them stays the gap. -/
theorem Shows.pushBuffer (h : b.Shows stream) (hc : c.Shows more)
    (hle : b.maxBytes ≤ c.maxBytes ∨ more.length ≤ c.maxBytes) :
    (b.pushBuffer c).Shows (stream ++ more) := by
  have hpoured := (h.pushChunk c.head).pushChunk c.tail
  have htotal := totalBytes_pushBuffer b c
  rw [h.total, hc.total, ← List.length_append] at htotal
  by_cases hfull : more.length ≤ c.maxBytes
  · have hbytes := hc.toBytes_eq hfull
    rw [toBytes] at hbytes
    rw [List.append_assoc, hbytes] at hpoured
    exact ⟨hpoured.head, hpoured.tail, htotal⟩
  · have hsize := hle.resolve_right hfull
    have hreach : b.maxBytes / 2 ≤ (stream ++ c.head).length := by
      rw [List.length_append, hc.head, List.length_take]
      omega
    have hends : b.maxBytes - b.maxBytes / 2 ≤ (more.drop (c.maxBytes / 2)).length := by
      rw [List.length_drop]
      omega
    have hmore : stream ++ more = stream ++ c.head ++ more.drop (c.maxBytes / 2) := by
      rw [hc.head, List.append_assoc, List.take_append_drop]
    refine ⟨?_, ?_, htotal⟩
    · rw [pushBuffer_maxBytes, hmore, List.take_append_of_le_length hreach]
      refine hpoured.head.trans ?_
      rw [pushChunk_maxBytes, pushChunk_maxBytes, List.take_append_of_le_length hreach]
    · have htail : b.maxBytes - b.maxBytes / 2 ≤ c.tail.length := by
        rw [hc.tail, length_rtake]
        omega
      rw [pushBuffer_maxBytes, hmore, List.drop_append_of_le_length hreach,
        rtake_append_of_le _ hends]
      refine hpoured.tail.trans ?_
      rw [pushChunk_maxBytes, pushChunk_maxBytes, List.drop_append_of_le_length hreach,
        rtake_append_of_le _ htail, hc.tail, rtake_rtake]
      congr 1
      omega

end HeadTailBuffer

/-! ### Truthful outputs -/

section Truth

variable {chunks : List (List UInt8)} {rounds : List (List (List UInt8))} {maxOutputTokens : ℕ}

variable {α : Type}

theorem buffered_shows (chunks : List (List α)) :
    (buffered chunks).maxBytes = outputMaxBytes ∧ (buffered chunks).Shows chunks.flatten := by
  induction chunks using List.reverseRecOn with
  | nil => exact ⟨rfl, HeadTailBuffer.shows_empty _⟩
  | append_singleton chunks chunk ih =>
      rw [buffered, List.foldl_append, List.foldl_cons, List.foldl_nil]
      refine ⟨(HeadTailBuffer.pushChunk_maxBytes _ _).trans ih.1, ?_⟩
      rw [List.flatten_append, List.flatten_singleton]
      exact ih.2.pushChunk chunk

theorem HeadTailBuffer.Shows.eq_nil {b : HeadTailBuffer α} {stream : List α} (h : b.Shows stream)
    (hzero : ¬b.totalBytes ≠ 0) : stream = [] := by
  rw [not_not, h.total] at hzero
  exact List.eq_nil_of_length_eq_zero hzero

theorem collectRound_shows {collected : HeadTailBuffer α} {stream : List α}
    (hsize : collected.maxBytes = outputMaxBytes) (h : collected.Shows stream)
    (chunks : List (List α)) :
    (collectRound collected chunks).maxBytes = outputMaxBytes ∧
      (collectRound collected chunks).Shows (stream ++ chunks.flatten) := by
  obtain ⟨hbuffer, hshows⟩ := buffered_shows chunks
  rw [collectRound]
  split
  · refine ⟨(HeadTailBuffer.pushBuffer_maxBytes _ _).trans hsize, ?_⟩
    exact h.pushBuffer hshows (.inl (hsize.trans hbuffer.symm).le)
  · next htotal =>
      rw [hshows.eq_nil htotal, List.append_nil]
      exact ⟨hsize, h⟩

/-- **What an observation collects** shows all that its drains found. -/
theorem collect_shows (rounds : List (List (List α))) :
    (collectUntilDeadline rounds).maxBytes = outputMaxBytes ∧
      (collectUntilDeadline rounds).Shows (gathered rounds) := by
  induction rounds using List.reverseRecOn with
  | nil => exact ⟨rfl, HeadTailBuffer.shows_empty _⟩
  | append_singleton rounds chunks ih =>
      have hstream : gathered (rounds ++ [chunks]) = gathered rounds ++ chunks.flatten := by
        rw [gathered, List.flatten_append, List.flatten_append, List.flatten_singleton]
        rfl
      rw [collectUntilDeadline, List.foldl_append, List.foldl_cons, List.foldl_nil, hstream]
      exact collectRound_shows ih.1 ih.2 chunks

/-- **The output is truthful**: with `m` the smaller of the two limits it is the whole stream,
or the first half of `m` bytes of it, the number of the missing ones, and its last bytes. -/
def Truthful (output : HeadTailBuffer UInt8) (maxOutputTokens : ℕ) (stream : List UInt8) : Prop :=
  let m := min outputMaxBytes (4 * maxOutputTokens)
  output.omittedBytes + output.toBytes.length = stream.length ∧
    if stream.length ≤ m then output.toBytesWithOmissionMarker = stream
    else
      output.head = stream.take (m / 2) ∧ output.tail = stream.rtake (m - m / 2) ∧
        output.toBytesWithOmissionMarker = stream.take (m / 2) ++ encode "\n" ++
          omissionMarker (stream.length - m) ++ encode "\n" ++ stream.rtake (m - m / 2)

theorem truthful_of_shows {output : HeadTailBuffer UInt8} {stream : List UInt8}
    (hsize : output.maxBytes = 4 * maxOutputTokens) (h : output.Shows stream)
    (hfits : 4 * maxOutputTokens ≤ outputMaxBytes ∨ stream.length ≤ outputMaxBytes) :
    Truthful output maxOutputTokens stream := by
  have homitted := h.omittedBytes_eq
  have htotal := h.total
  refine ⟨?_, ?_⟩
  · rw [← htotal, HeadTailBuffer.totalBytes, HeadTailBuffer.toBytes, List.length_append]
    omega
  · split_ifs with hle
    · have hroom : stream.length ≤ output.maxBytes := by omega
      rw [HeadTailBuffer.toBytesWithOmissionMarker, if_pos (by omega), h.toBytes_eq hroom]
    · have hmin : min outputMaxBytes (4 * maxOutputTokens) = output.maxBytes := by omega
      have htail : output.tail = stream.rtake (output.maxBytes - output.maxBytes / 2) := by
        rw [h.tail, List.rtake, List.rtake, List.length_drop, List.drop_drop]
        congr 1
        omega
      rw [hmin]
      refine ⟨h.head, htail, ?_⟩
      rw [HeadTailBuffer.toBytesWithOmissionMarker, if_neg (by omega), h.head, htail, homitted]

theorem length_head_limitOutput {b : HeadTailBuffer α} {stream : List α} (h : b.Shows stream)
    (hgap : b.maxBytes < stream.length) (hlarger : b.maxBytes < 4 * maxOutputTokens) :
    b.maxBytes / 2 < (b.limitOutput maxOutputTokens).head.length ∨ b.maxBytes = 0 := by
  have hpoured := ((HeadTailBuffer.shows_empty (4 * maxOutputTokens)).pushChunk b.head).pushChunk
    b.tail
  have hhead : (b.limitOutput maxOutputTokens).head
      = (b.head ++ b.tail).take (4 * maxOutputTokens / 2) := by
    have := hpoured.head
    rw [HeadTailBuffer.pushChunk_maxBytes, HeadTailBuffer.pushChunk_maxBytes, List.nil_append]
      at this
    rw [HeadTailBuffer.limitOutput, Nat.mul_comm]
    exact this
  rw [hhead, List.length_take, List.length_append, h.head, h.tail, HeadTailBuffer.length_rtake,
    List.length_take, List.length_drop]
  omega

theorem not_truthful (hlarger : outputMaxBytes < 4 * maxOutputTokens)
    (hgap : outputMaxBytes < (gathered rounds).length) :
    ¬Truthful (limitedOutput rounds maxOutputTokens) maxOutputTokens (gathered rounds) := by
  obtain ⟨hsize, hshows⟩ := collect_shows rounds
  rintro ⟨-, htruth⟩
  have hmin : min outputMaxBytes (4 * maxOutputTokens) = outputMaxBytes := by omega
  rw [hmin, if_neg (by omega)] at htruth
  have hlength := congrArg List.length htruth.1
  rw [List.length_take] at hlength
  rcases length_head_limitOutput hshows (hsize ▸ hgap) (hsize ▸ hlarger) with hlong | hzero
  · rw [hsize] at hlong
    rw [limitedOutput] at hlength
    omega
  · rw [hsize] at hzero
    cases hzero

theorem limitedOutput_shows (hfits : 4 * maxOutputTokens ≤ outputMaxBytes ∨
    (gathered rounds).length ≤ outputMaxBytes) :
    (limitedOutput rounds maxOutputTokens).maxBytes = 4 * maxOutputTokens ∧
      (limitedOutput rounds maxOutputTokens).Shows (gathered rounds) := by
  obtain ⟨hsize, hshows⟩ := collect_shows rounds
  refine ⟨(HeadTailBuffer.pushBuffer_maxBytes _ _).trans (Nat.mul_comm ..), ?_⟩
  refine (HeadTailBuffer.shows_empty _).pushBuffer hshows (hfits.imp ?_ ?_)
  · intro hle
    rw [hsize, Nat.mul_comm]
    exact hle
  · intro hle
    rwa [hsize]

/-- **When an observation exposes the true head and tail of its stream**: unless the caller
asks for more than the collecting buffer holds, and there is more. -/
theorem output_truthful_iff (rounds : List (List (List UInt8))) (maxOutputTokens : ℕ) :
    Truthful (limitedOutput rounds maxOutputTokens) maxOutputTokens (gathered rounds) ↔
      4 * maxOutputTokens ≤ outputMaxBytes ∨ (gathered rounds).length ≤ outputMaxBytes := by
  constructor
  · intro h
    by_contra hexceeds
    push Not at hexceeds
    exact not_truthful hexceeds.1 hexceeds.2 h
  · intro hfits
    obtain ⟨hsize, hshows⟩ := limitedOutput_shows hfits
    exact truthful_of_shows hsize hshows hfits

/-- A stream of one byte more than the buffer holds, and a limit of one token more. -/
theorem longStream_misplaced :
    ¬∀ (rounds : List (List (List UInt8))) (maxOutputTokens : ℕ),
      Truthful (limitedOutput rounds maxOutputTokens) maxOutputTokens (gathered rounds) := by
  intro h
  refine not_truthful (by decide) ?_ (h [[List.replicate (outputMaxBytes + 1) 120]] 262145)
  rw [gathered, List.flatten_singleton, List.flatten_singleton, List.length_replicate]
  exact Nat.lt_succ_self _

end Truth

/-! ### The observations of an execution -/

/-- What the buffer holds was pushed to it, and what an observation has collected its drains
have found. -/
structure Gathers (s : State) : Prop where
  buffer : ∃ chunks, s.buffer = buffered chunks ∧ chunks.flatten = s.pending
  collected : ∀ n o, s.observations n = some o →
    ∃ rounds, o.collected = collectUntilDeadline rounds ∧ gathered rounds = s.taken n

section Steps

variable {s t : State} {n : ℕ} {o : Observation}

theorem buffered_concat {α : Type} (chunks : List (List α)) (chunk : List α) :
    buffered (chunks ++ [chunk]) = (buffered chunks).pushChunk chunk := by
  rw [buffered, List.foldl_append, List.foldl_cons, List.foldl_nil]
  rfl

theorem collect_concat {α : Type} (rounds : List (List (List α))) (chunks : List (List α)) :
    collectUntilDeadline (rounds ++ [chunks]) = collectRound (collectUntilDeadline rounds) chunks ∧
      gathered (rounds ++ [chunks]) = gathered rounds ++ chunks.flatten := by
  constructor
  · rw [collectUntilDeadline, List.foldl_append, List.foldl_cons, List.foldl_nil]
    rfl
  · rw [gathered, List.flatten_append, List.flatten_append, List.flatten_singleton]
    rfl

theorem Gathers.frame (h : Gathers s) (hbuffer : t.buffer = s.buffer)
    (hpending : t.pending = s.pending) (htaken : t.taken = s.taken)
    (hobservations : ∀ n o', t.observations n = some o' →
      ∃ o, s.observations n = some o ∧ o'.collected = o.collected) : Gathers t := by
  refine ⟨?_, fun n o' ho' => ?_⟩
  · rw [hbuffer, hpending]
    exact h.buffer
  · obtain ⟨o, ho, hsame⟩ := hobservations n o' ho'
    rw [hsame, htaken]
    exact h.collected n o ho

theorem Gathers.setEvent (h : Gathers s) : Gathers s.setEvent := by
  refine h.frame rfl rfl rfl fun n o' ho' => ?_
  obtain ⟨o, ho, rfl⟩ := Option.map_eq_some_iff.mp ho'
  refine ⟨o, ho, ?_⟩
  unfold State.wake
  split <;> rfl

theorem Gathers.put (h : Gathers s) {o' : Option Observation}
    (ho' : ∀ o₁, o' = some o₁ → ∃ o, s.observations n = some o ∧ o₁.collected = o.collected) :
    Gathers (s.put n o') := by
  refine h.frame rfl rfl rfl fun m o₁ ho₁ => ?_
  by_cases hm : m = n
  · subst hm
    simp only [State.put, Function.update_self] at ho₁
    exact ho' o₁ ho₁
  · exact ⟨o₁, (Function.update_of_ne hm ..).symm.trans ho₁, rfl⟩

theorem Gathers.finish (h : Gathers s) (n : ℕ) (outcome : Except String ExecutionResult) :
    Gathers (s.finish n outcome) := by
  have hput : Gathers (s.put n none) := h.put fun o₁ ho₁ => by cases ho₁
  cases outcome with
  | error message => exact hput
  | ok r => exact hput.frame rfl rfl rfl fun m o ho => ⟨o, ho, rfl⟩

theorem Gathers.move (h : Gathers s) (ho : s.observations n = some o) (phase : Phase) :
    Gathers (s.put n (some { o with phase := phase })) := by
  refine h.put fun o₁ ho₁ => ⟨o, ho, ?_⟩
  obtain rfl := Option.some.inj ho₁
  rfl

theorem Gathers.build (h : Gathers s) (ho : s.observations n = some o) : Gathers (s.build n o) := by
  unfold State.build
  split
  · exact h.move ho _
  · split
    · exact h.finish n _
    · exact h.move ho _

/-- **A drain** is one more round of its observation. -/
theorem Gathers.round (h : Gathers s) (ho : s.observations n = some o) :
    ∃ rounds, s.collect o = collectUntilDeadline rounds ∧
      gathered rounds = (s.drained n).taken n := by
  obtain ⟨chunks, hbuffer, hpending⟩ := h.buffer
  obtain ⟨rounds, hcollected, htaken⟩ := h.collected n o ho
  refine ⟨rounds ++ [chunks], ?_, ?_⟩
  · rw [(collect_concat rounds chunks).1, State.collect, hbuffer, hcollected]
    rfl
  · rw [(collect_concat rounds chunks).2, taken_drained, if_pos rfl, htaken, hpending]

theorem Gathers.drained (h : Gathers s) (hinv : Inv s) (ho : s.observations n = some o)
    {o' : Observation} (hcollected : o'.collected = s.collect o) :
    Gathers ((s.drained n).put n (some o')) := by
  obtain ⟨chunks, hbuffer, -⟩ := h.buffer
  have hempty : (s.drained n).buffer = buffered [] := by
    change HeadTailBuffer.empty s.buffer.maxBytes = .empty outputMaxBytes
    rw [hbuffer, (buffered_shows chunks).1]
  refine ⟨⟨[], hempty, (hinv.pending_drained n).symm⟩, fun m o₁ ho₁ => ?_⟩
  by_cases hm : m = n
  · subst hm
    simp only [State.put, Function.update_self] at ho₁
    obtain rfl := Option.some.inj ho₁
    rw [hcollected]
    exact h.round ho
  · have htaken : ((s.drained n).put n (some o')).taken m = s.taken m :=
      (taken_drained s n m).trans (if_neg hm)
    rw [htaken]
    exact h.collected m o₁ ((Function.update_of_ne hm ..).symm.trans ho₁)

theorem Gathers.append (h : Gathers s) (hinv : Inv s) (chunk : List UInt8) :
    Gathers (s.append chunk) := by
  refine Gathers.setEvent ?_
  obtain ⟨chunks, hbuffer, hpending⟩ := h.buffer
  let octets : List Octet := (chunk.zipIdx s.stream.length).map fun b => ⟨b.1, b.2⟩
  refine ⟨⟨chunks ++ [octets], ?_, ?_⟩, h.collected⟩
  · rw [buffered_concat, ← hbuffer]
  · have hle : s.handed.length ≤ s.stream.length := by
      have hlength := hinv.handed.length_le
      rwa [List.length_map] at hlength
    rw [List.flatten_append, List.flatten_singleton, hpending]
    exact (List.drop_append_of_le_length hle).symm

theorem Gathers.begin (h : Gathers s) (hinv : Inv s) (waitMs maxOutputTokens : ℕ) :
    Gathers (s.begin waitMs maxOutputTokens) := by
  refine ⟨h.buffer, fun m o ho => ?_⟩
  by_cases hm : m = s.begun
  · subst hm
    simp only [State.begin, State.put, Function.update_self] at ho
    obtain rfl := Option.some.inj ho
    exact ⟨[], rfl, (hinv.taken_eq_nil le_rfl).symm⟩
  · exact h.collected m o ((Function.update_of_ne hm ..).symm.trans ho)

theorem Gathers.run (h : Gathers s) (hinv : Inv s) (ho : s.observations n = some o)
    (hrun : s.run n o = some t) : Gathers t := by
  unfold State.run at hrun
  split at hrun
  · obtain rfl := Option.some.inj hrun
    exact h.drained hinv ho (proceed_spec s { o with collected := s.collect o }).1
  · split at hrun
    · obtain rfl := Option.some.inj hrun
      exact h.move ho _
    · cases hrun
  iterate 2
    · split at hrun
      · obtain rfl := Option.some.inj hrun
        exact h.move ho _
      · cases hrun
  · obtain rfl := Option.some.inj hrun
    rw [← build_put _ n (some { o with collected := s.collect o })]
    exact (h.drained hinv ho rfl).build (Function.update_self ..)
  · next outcome _ =>
      split at hrun
      · split at hrun
        · obtain rfl := Option.some.inj hrun
          have hframe : Gathers { s with registered := false } :=
            h.frame rfl rfl rfl fun m o₁ ho₁ => ⟨o₁, ho₁, rfl⟩
          exact hframe.finish n outcome
        · cases hrun
      · obtain rfl := Option.some.inj hrun
        exact h.finish n outcome

/-- **The step lemma.** -/
theorem Gathers.step (h : Gathers s) (hinv : Inv s) {move : Move} (hstep : s.apply move = some t) :
    Gathers t := by
  have hsame : ∀ {u : State}, u.buffer = s.buffer → u.stream = s.stream → u.handed = s.handed →
      u.observations = s.observations → Gathers u := by
    intro u hbuffer hstream hhanded hobservations
    refine h.frame hbuffer ?_ ?_ fun m o ho => ⟨o, hobservations ▸ ho, rfl⟩
    · rw [State.pending, hstream, hhanded]
      rfl
    · funext m
      rw [State.taken, hhanded]
      rfl
  cases move with
  | append chunk =>
      rw [State.apply] at hstep
      split at hstep
      · cases hstep
      · obtain rfl := Option.some.inj hstep
        exact h.append hinv chunk
  | tick ms =>
      obtain rfl := Option.some.inj hstep
      exact hsame rfl rfl rfl rfl
  | exit code =>
      rw [State.apply] at hstep
      split at hstep
      · obtain rfl := Option.some.inj hstep
        exact hsame rfl rfl rfl rfl
      · cases hstep
  | exited | pumpEnds | fail message =>
      obtain rfl := Option.some.inj hstep
      exact Gathers.setEvent (hsame rfl rfl rfl rfl)
  | reason finishReason =>
      obtain rfl := Option.some.inj hstep
      exact hsame rfl rfl rfl rfl
  | unregister =>
      rw [State.apply] at hstep
      split at hstep
      · obtain rfl := Option.some.inj hstep
        exact hsame rfl rfl rfl rfl
      · cases hstep
  | begin waitMs maxOutputTokens =>
      obtain rfl := Option.some.inj hstep
      exact h.begin hinv waitMs maxOutputTokens
  | run n =>
      obtain ⟨o, ho, hrun⟩ := Option.bind_eq_some_iff.mp hstep
      exact h.run hinv ho hrun
  | timeout n =>
      obtain ⟨o, ho, htimeout⟩ := Option.bind_eq_some_iff.mp hstep
      unfold State.timeout at htimeout
      split at htimeout
      iterate 2
        · split at htimeout
          · obtain rfl := Option.some.inj htimeout
            exact h.move ho _
          · cases htimeout
      iterate 4 cases htimeout
  | cancel n =>
      obtain ⟨o, ho, rfl⟩ := Option.map_eq_some_iff.mp hstep
      exact h.put fun o₁ ho₁ => by cases ho₁
  | removalFails n =>
      obtain ⟨o, ho, hfails⟩ := Option.bind_eq_some_iff.mp hstep
      split at hfails
      · obtain rfl := Option.some.inj hfails
        exact h.put fun o₁ ho₁ => by cases ho₁
      · cases hfails

end Steps

end Kirakira.Shell
