import Kirakira.ChatStream
import Kirakira.Lib.Exceptions
import Kirakira.Lib.JsonReader

/-!
# Stream Previews

What a chat stream comes to does not depend on how its texts are cut into deltas, and what is
shown of it while it comes in is what is returned, blanks aside, unless the reasoning of the
provider is blank.

* A stream is read as the list of its deltas (`consumeLines_eq`).
* `Said` is what has been said so far, whatever the pieces: the joined texts and the joined
  previews. A state of the reader refines it (`said_step`, `said_run`).

## Main results

* `Recut.run` — streams that differ in the cuts say the same.
* `Said.Shown.run` — what has been shown of a stream without tool calls.
* `previews_hold` — when the previews are the response.
-/

namespace Kirakira.Stream

open Marker Lines

/-! ### Deltas -/

/-- What one part of a chunk brings. -/
inductive Delta where
  | usage (usage : ModelUsage)
  | finish (reason : String)
  | toolCalls (rawCalls : List Json)
  | reasoning (text : List Char)
  | content (piece : List Char)
  | fault (message : String)
  deriving DecidableEq

/-- What the loop does with a delta. -/
def step (st : State) : Delta → Except Outcome State
  | .usage usage => .ok { st with usage := some usage }
  | .finish reason => .ok { st with finishReason := some reason }
  | .toolCalls rawCalls => takeToolCalls st rawCalls
  | .reasoning text => .ok (takeReasoning st text)
  | .content piece => .ok (takeContent st piece)
  | .fault message => .error (st.fail message)

/-- The deltas in the delta of a choice. -/
def messageDeltas (delta : Json) : List Delta :=
  (if itemsOf (get delta "tool_calls") = [] then []
    else [.toolCalls (itemsOf (get delta "tool_calls"))]) ++
  (if textOf (reasoningOf delta) = [] then [] else [.reasoning (textOf (reasoningOf delta))]) ++
  (if textOf (get delta "content") = [] then [] else [.content (textOf (get delta "content"))])

/-- The deltas of a usage. -/
def usageDeltas (rawUsage : Json) : List Delta :=
  match rawUsage with
  | .obj _ =>
      match usage rawUsage with
      | .ok usage => [.usage usage]
      | .error message => [.fault message]
  | _ => []

section

variable (loads : String → Option Json) (str : Json → String)

/-- The deltas of a choice. -/
def choiceDeltas (choice : Json) : List Delta :=
  match choice with
  | .obj _ =>
      (if get choice "finish_reason" = .null then []
        else [.finish (str (get choice "finish_reason"))]) ++
        match get choice "delta" with
          | .obj fields => messageDeltas (.obj fields)
          | _ => []
  | _ => [.fault "stream choice must be an object"]

/-- The deltas of a chunk. -/
def chunkDeltas (chunk : Json) : List Delta :=
  match chunk with
  | .obj _ =>
      usageDeltas (get chunk "usage") ++
        match itemsOf (get chunk "choices") with
        | [] => []
        | choice :: _ => choiceDeltas str choice
  | _ => [.fault "stream chunk must be an object"]

/-- The deltas of the lines of a stream, and whether it has its terminal marker. -/
def streamDeltas : List String → List Delta × Bool
  | [] => ([], false)
  | line :: lines =>
      if line.startsWith "data:" then
        let data := strip (line.drop 5).toString
        if data = "" then streamDeltas lines
        else if data = "[DONE]" then ([], true)
        else
          match loads data with
          | none => ([.fault "stream contains invalid JSON"], false)
          | some chunk =>
              (chunkDeltas str chunk ++ (streamDeltas lines).1, (streamDeltas lines).2)
      else streamDeltas lines

end

section

variable {loads : String → Option Json} {str : Json → String}

theorem consumeDelta_eq (st : State) (delta : Json) :
    consumeDelta st delta = (messageDeltas delta).foldlM step st := by
  rw [consumeDelta, messageDeltas, List.foldlM_append, List.foldlM_append, bind_assoc]
  refine congrArg₂ _ ?_ (funext fun st => ?_)
  · split_ifs
    · rfl
    · exact (bind_pure _).symm
  · dsimp only
    split_ifs <;> rfl

theorem consumeUsage_eq (st : State) (rawUsage : Json) :
    consumeUsage st rawUsage = (usageDeltas rawUsage).foldlM step st := by
  cases rawUsage with
  | obj fields =>
      rw [consumeUsage, usageDeltas]
      cases usage (.obj fields) <;> rfl
  | _ => rfl

theorem consumeChoice_eq (st : State) (choice : Json) :
    consumeChoice str st choice = (choiceDeltas str choice).foldlM step st := by
  cases choice with
  | obj fields =>
      rw [consumeChoice, choiceDeltas, List.foldlM_append]
      split_ifs <;> cases get (.obj fields) "delta" <;>
        first | rfl | exact consumeDelta_eq _ _
  | _ => rfl

theorem consumeChunk_eq (st : State) (chunk : Json) :
    consumeChunk str st chunk = (chunkDeltas str chunk).foldlM step st := by
  cases chunk with
  | obj fields =>
      rw [consumeChunk, chunkDeltas, List.foldlM_append, consumeUsage_eq]
      refine congrArg₂ _ rfl (funext fun st => ?_)
      cases itemsOf (get (.obj fields) "choices") with
      | nil => rfl
      | cons choice choices => exact consumeChoice_eq st choice
  | _ => rfl

/-- **A stream is read delta by delta.** -/
theorem consumeLines_eq (st : State) (lines : List String) :
    consumeLines loads str st lines =
      ((streamDeltas loads str lines).1.foldlM step st).map
        (·, (streamDeltas loads str lines).2) := by
  induction lines generalizing st with
  | nil => rfl
  | cons line lines ih =>
      rw [consumeLines, streamDeltas]
      dsimp only
      split_ifs with hline hdata hdone
      · exact ih st
      · rfl
      · cases loads (strip (line.drop 5).toString) with
        | none => rfl
        | some chunk =>
            dsimp only
            rw [consumeChunk_eq, List.foldlM_append]
            cases (chunkDeltas str chunk).foldlM step st with
            | error e => rfl
            | ok st => exact ih st
      · exact ih st

end

/-! ### What has been said -/

/-- The content that was shown. -/
def contentPreview (previews : List Preview) : List Char :=
  previews.flatMap fun
    | .content text => text
    | .thinking _ => []

/-- The thinking that was shown. -/
def thinkingPreview (previews : List Preview) : List Char :=
  previews.flatMap fun
    | .content _ => []
    | .thinking text => text

/-- What a stream has said so far and what of it has been shown, whatever the pieces. -/
structure Said where
  content : List Char
  thinking : List Char
  calls : Dict ℕ Slot
  toolSeen : Bool
  finishReason : Option String
  usage : Option ModelUsage
  responseDeltaSeen : Bool
  nativeReasoningSeen : Bool
  held : List Char
  shownContent : List Char
  shownThinking : List Char

/-- More content is shown unless a tool call was seen. -/
def Said.show (s : Said) (content thinking : List Char) : Said :=
  if s.toolSeen then s
  else
    { s with
      shownContent := s.shownContent ++ content
      shownThinking := s.shownThinking ++ thinking }

/-- What the caller of a stream gets and what it was shown. -/
structure Told where
  result : Except Failure LLMResponse
  content : List Char
  thinking : List Char

/-- An outcome, its previews joined. -/
def Outcome.told (outcome : Outcome) : Told :=
  ⟨outcome.result, contentPreview outcome.previews, thinkingPreview outcome.previews⟩

/-- What is raised. -/
def Said.fail (s : Said) (message : String) : Told :=
  ⟨.error ⟨message, some s.responseDeltaSeen⟩, s.shownContent, s.shownThinking⟩

/-- What a delta adds. -/
def Said.step (s : Said) : Delta → Except Told Said
  | .usage usage => .ok { s with usage := some usage }
  | .finish reason => .ok { s with finishReason := some reason }
  | .toolCalls rawCalls =>
      let s := { s with responseDeltaSeen := true, toolSeen := true }
      match mergeToolDeltas s.calls rawCalls with
      | .ok calls => .ok { s with calls }
      | .error message => .error (s.fail message)
  | .reasoning text =>
      let s := { s with responseDeltaSeen := true, thinking := s.thinking ++ text }
      .ok { s.show s.held text with nativeReasoningSeen := true, held := [] }
  | .content piece =>
      let s := { s with responseDeltaSeen := true, content := s.content ++ piece }
      if s.nativeReasoningSeen then .ok (s.show piece [])
      else
        let parts := cut openTag (s.held ++ piece)
        .ok { s.show parts.1 [] with held := parts.2 }
  | .fault message => .error (s.fail message)

/-- What is shown at the end. -/
def Said.close (s : Said) : Said :=
  if s.nativeReasoningSeen then s
  else if openTag <+: s.held then
    let parsed := splitTaggedThinking (some s.held) none
    s.show (parsed.1.getD []) (parsed.2.getD [])
  else s.show s.held []

/-- What has been said in a state of the reader. -/
def State.said (st : State) : Said where
  content := st.content.flatten
  thinking := st.thinking.flatten
  calls := st.calls
  toolSeen := st.toolSeen
  finishReason := st.finishReason
  usage := st.usage
  responseDeltaSeen := st.responseDeltaSeen
  nativeReasoningSeen := st.nativeReasoningSeen
  held := st.legacyCandidate.getD st.pendingContent
  shownContent := contentPreview st.previews
  shownThinking := thinkingPreview st.previews

/-- What is held back in a state: a candidate begins with the opening tag, pending content does
not, and nothing is held back once the provider has reasoned. -/
structure State.Holds (st : State) : Prop where
  candidate : ∀ text, st.legacyCandidate = some text → openTag <+: text
  pending : st.legacyCandidate = none → ¬openTag <+: st.pendingContent
  native : st.nativeReasoningSeen = true → st.legacyCandidate = none ∧ st.pendingContent = []

@[simp] theorem contentPreview_concat (previews : List Preview) (preview : Preview) :
    contentPreview (previews ++ [preview])
      = contentPreview previews ++ contentPreview [preview] :=
  List.flatMap_append

@[simp] theorem thinkingPreview_concat (previews : List Preview) (preview : Preview) :
    thinkingPreview (previews ++ [preview])
      = thinkingPreview previews ++ thinkingPreview [preview] :=
  List.flatMap_append

@[simp] theorem contentPreview_content (text : List Char) : contentPreview [.content text] = text :=
  List.append_nil text

@[simp] theorem contentPreview_thinking (text : List Char) : contentPreview [.thinking text] = [] :=
  rfl

@[simp] theorem thinkingPreview_content (text : List Char) : thinkingPreview [.content text] = [] :=
  rfl

@[simp] theorem thinkingPreview_thinking (text : List Char) :
    thinkingPreview [.thinking text] = text :=
  List.append_nil text

variable {st : State} {d : Delta} {ds : List Delta} {s : Said}

theorem said_emitText_content (htool : ¬st.toolSeen = true) (text : List Char) :
    (st.emitText .content text).said = st.said.show text [] := by
  rw [Said.show, if_neg (show ¬st.said.toolSeen = true from htool), State.emitText]
  split_ifs with hempty
  · simp [State.said, hempty]
  · simp [State.said, State.emit]

theorem said_emitText_thinking (htool : ¬st.toolSeen = true) (text : List Char) :
    (st.emitText .thinking text).said = st.said.show [] text := by
  rw [Said.show, if_neg (show ¬st.said.toolSeen = true from htool), State.emitText]
  split_ifs with hempty
  · simp [State.said, hempty]
  · simp [State.said, State.emit]

theorem toolSeen_emitText (st : State) (kind : List Char → Preview) (text : List Char) :
    (st.emitText kind text).toolSeen = st.toolSeen := by
  rw [State.emitText]
  split_ifs <;> rfl

theorem said_show_of_toolSeen (htool : st.toolSeen = true) (content thinking : List Char) :
    st.said.show content thinking = st.said :=
  if_pos htool

theorem said_emitText (st : State) (text : List Char) :
    (if st.toolSeen then st else st.emitText .content text).said = st.said.show text [] := by
  split_ifs with htool
  · rw [said_show_of_toolSeen htool]
  · exact said_emitText_content htool text

theorem said_emit_content (st : State) (text : List Char) :
    (if st.toolSeen then st else st.emit (.content text)).said = st.said.show text [] := by
  cases htool : st.toolSeen <;> simp [State.emit, State.said, Said.show, htool]

theorem said_emit_thinking (st : State) (text : List Char) :
    (if st.toolSeen then st else st.emit (.thinking text)).said = st.said.show [] text := by
  cases htool : st.toolSeen <;> simp [State.emit, State.said, Said.show, htool]

theorem Said.show_said (s : Said) (content thinking : List Char) :
    (s.show content thinking).content = s.content ∧
      (s.show content thinking).thinking = s.thinking ∧
      (s.show content thinking).calls = s.calls ∧
      (s.show content thinking).toolSeen = s.toolSeen ∧
      (s.show content thinking).nativeReasoningSeen = s.nativeReasoningSeen := by
  rw [Said.show]
  split_ifs <;> exact ⟨rfl, rfl, rfl, rfl, rfl⟩

@[simp] theorem Said.show_nil (s : Said) : s.show [] [] = s := by
  rw [Said.show]
  split_ifs
  · rfl
  · rw [List.append_nil, List.append_nil]

theorem Said.show_show (s : Said) (content content' thinking thinking' : List Char) :
    (s.show content thinking).show content' thinking'
      = s.show (content ++ content') (thinking ++ thinking') := by
  cases htool : s.toolSeen <;> simp [Said.show, htool]

theorem Said.show_held (s : Said) (content thinking held : List Char) :
    { s with held }.show content thinking = { s.show content thinking with held } := by
  rw [Said.show, Said.show]
  split_ifs <;> rfl

theorem State.Holds.held (h : st.Holds) :
    (st.legacyCandidate.bind orNone).getD st.pendingContent = st.said.held := by
  cases hcandidate : st.legacyCandidate with
  | none => simp [State.said, hcandidate]
  | some text =>
      have hne : text ≠ [] := by
        rintro rfl
        exact absurd (h.candidate [] hcandidate) (by decide)
      rw [State.said, hcandidate, Option.bind_some, orNone, if_neg hne]

theorem said_noteNativeReasoning (h : st.Holds) :
    (noteNativeReasoning st).said =
      { st.said.show st.said.held [] with nativeReasoningSeen := true, held := [] } := by
  rw [noteNativeReasoning]
  split_ifs with hnative
  · obtain ⟨hcandidate, hpending⟩ := h.native hnative
    have hheld : st.said.held = [] := by rw [State.said, hcandidate, hpending]; rfl
    rw [hheld, Said.show_nil]
    simp only [State.said, hnative, hcandidate, hpending, Option.getD_none]
  · rw [h.held]
    generalize st.said.held = held
    cases htool : st.toolSeen
    · by_cases hempty : held = [] <;>
        simp [State.emitText, State.emit, State.said, Said.show, htool, hempty]
    · simp [State.said, Said.show, htool]

/-- A state, or what was raised, as what has been said. -/
def heard : Except Outcome State → Except Told Said
  | .ok st => .ok st.said
  | .error outcome => .error outcome.told

theorem said_takeReasoning (h : st.Holds) (text : List Char) :
    Except.ok (takeReasoning st text).said = st.said.step (.reasoning text) := by
  let note := noteNativeReasoning { st with responseDeltaSeen := true }
  have hnote : note.said = _ := said_noteNativeReasoning ⟨h.candidate, h.pending, h.native⟩
  have hthinking : ({ note with thinking := note.thinking ++ [text] } : State).said
      = { note.said with thinking := note.said.thinking ++ text } := by
    simp [State.said]
  refine congrArg Except.ok
    ((said_emit_thinking { note with thinking := note.thinking ++ [text] } text).trans ?_)
  rw [hthinking, hnote]
  cases htool : st.toolSeen <;> simp [Said.show, State.said, htool]

theorem said_takeContent (h : st.Holds) (piece : List Char) :
    Except.ok (takeContent st piece).said = st.said.step (.content piece) := by
  let more : State :=
    { st with responseDeltaSeen := true, content := st.content ++ [piece] }
  have hmore : more.said =
      { st.said with responseDeltaSeen := true, content := st.said.content ++ piece } := by
    simp [more, State.said]
  rw [Said.step]
  dsimp only
  by_cases hnative : st.nativeReasoningSeen = true
  · rw [if_pos (show st.said.nativeReasoningSeen = true from hnative), ← hmore,
      ← said_emit_content]
    exact congrArg (fun st : State => Except.ok st.said) (if_pos hnative)
  · rw [if_neg (show ¬st.said.nativeReasoningSeen = true from hnative), ← hmore]
    cases hcandidate : st.legacyCandidate with
    | some text =>
        have hmeets : Meets openTag (text ++ piece) :=
          .inl ((h.candidate text hcandidate).trans (List.prefix_append text piece))
        have hheld : st.said.held = text := by rw [State.said, hcandidate]; rfl
        rw [hheld, cut_of_meets hmeets, Said.show_nil]
        refine congrArg Except.ok ?_
        rw [takeContent]
        simp [hnative, hcandidate, more, State.said]
    | none =>
        have hheld : st.said.held = st.pendingContent := by rw [State.said, hcandidate]; rfl
        let buffer := st.pendingContent ++ piece
        let next : State :=
          { more with
            pendingContent := (holdLegacyThinkingCandidate buffer).2.1
            legacyCandidate := (holdLegacyThinkingCandidate buffer).2.2 }
        have hnext : next.said = { more.said with held := (cut openTag buffer).2 } := by
          rw [← hold_held]
          rfl
        rw [hheld, ← Said.show_held, ← hnext,
          ← hold_ready, ← said_emitText]
        refine congrArg (fun st : State => Except.ok st.said) ((if_neg hnative).trans ?_)
        dsimp only
        rw [hcandidate]

/-- **A delta adds what it says.** -/
theorem said_step (h : st.Holds) (d : Delta) : heard (step st d) = st.said.step d := by
  cases d with
  | usage usage => rfl
  | finish reason => rfl
  | fault message => rfl
  | toolCalls rawCalls =>
      cases hmerge : mergeToolDeltas st.calls rawCalls <;>
        simp [step, takeToolCalls, Said.step, State.said, heard, hmerge, State.fail, Said.fail,
          Outcome.told]
  | reasoning text => exact said_takeReasoning h text
  | content piece => exact said_takeContent h piece

/-! ### What is held back -/

theorem State.Holds.of_nil (hcandidate : st.legacyCandidate = none)
    (hpending : st.pendingContent = []) : st.Holds where
  candidate text h := by rw [hcandidate] at h; cases h
  pending _ := by rw [hpending]; decide
  native _ := ⟨hcandidate, hpending⟩

theorem State.Holds.emitText (h : st.Holds) (kind : List Char → Preview) (text : List Char) :
    (st.emitText kind text).Holds := by
  rw [State.emitText]
  split_ifs
  · exact h
  · exact ⟨h.candidate, h.pending, h.native⟩

theorem State.Holds.takeReasoning (h : st.Holds) (text : List Char) :
    (takeReasoning st text).Holds := by
  have hnote : (noteNativeReasoning { st with responseDeltaSeen := true }).legacyCandidate = none ∧
      (noteNativeReasoning { st with responseDeltaSeen := true }).pendingContent = [] := by
    rw [noteNativeReasoning]
    split_ifs with hnative
    · exact h.native hnative
    · exact ⟨rfl, rfl⟩
  rw [Stream.takeReasoning]
  dsimp only
  split_ifs <;> exact .of_nil hnote.1 hnote.2

theorem State.Holds.takeContent (h : st.Holds) (piece : List Char) :
    (takeContent st piece).Holds := by
  rw [Stream.takeContent]
  dsimp only
  by_cases hnative : st.nativeReasoningSeen = true
  · obtain ⟨hcandidate, hpending⟩ := h.native hnative
    rw [if_pos hnative]
    split_ifs <;> exact .of_nil hcandidate hpending
  · rw [if_neg hnative]
    cases hcandidate : st.legacyCandidate with
    | some candidate =>
        refine ⟨fun text htext => ?_, fun hnone => ?_, fun hyes => absurd hyes hnative⟩
        · rw [← Option.some.inj htext]
          exact (h.candidate candidate hcandidate).trans (List.prefix_append candidate piece)
        · cases hnone
    | none =>
        dsimp only
        split_ifs
        · exact ⟨fun _ => hold_candidate, hold_pending, fun hyes => absurd hyes hnative⟩
        · refine State.Holds.emitText ?_ _ _
          exact ⟨fun _ => hold_candidate, hold_pending, fun hyes => absurd hyes hnative⟩

theorem State.Holds.step {st' : State} (h : st.Holds) (hstep : step st d = .ok st') :
    st'.Holds := by
  cases d with
  | usage usage =>
      obtain rfl := Except.ok.inj hstep
      exact ⟨h.candidate, h.pending, h.native⟩
  | finish reason =>
      obtain rfl := Except.ok.inj hstep
      exact ⟨h.candidate, h.pending, h.native⟩
  | fault message => cases hstep
  | toolCalls rawCalls =>
      rw [Stream.step, takeToolCalls] at hstep
      cases hmerge : mergeToolDeltas st.calls rawCalls with
      | error message => simp [hmerge] at hstep
      | ok calls =>
          simp only [hmerge, Except.ok.injEq] at hstep
          subst hstep
          exact ⟨h.candidate, h.pending, h.native⟩
  | reasoning text =>
      obtain rfl := Except.ok.inj hstep
      exact h.takeReasoning text
  | content piece =>
      obtain rfl := Except.ok.inj hstep
      exact h.takeContent piece

/-- **A run of the reader says what its deltas say.** -/
theorem said_run (h : st.Holds) (ds : List Delta) :
    heard (ds.foldlM step st) = ds.foldlM Said.step st.said := by
  induction ds generalizing st with
  | nil => rfl
  | cons d ds ih =>
      rw [List.foldlM_cons, List.foldlM_cons, ← said_step h d]
      cases hstep : step st d with
      | error e => rfl
      | ok next => exact ih (h.step hstep)

theorem State.Holds.run {st' : State} (h : st.Holds) (hrun : ds.foldlM Stream.step st = .ok st') :
    st'.Holds := by
  induction ds generalizing st with
  | nil => exact Except.ok.inj hrun ▸ h
  | cons d ds ih =>
      rw [List.foldlM_cons] at hrun
      obtain ⟨next, hnext, hrest⟩ := Exceptions.bind_eq_ok.mp hrun
      exact ih (h.step hnext) hrest

/-! ### What a stream comes to -/

/-- Nothing has been said. -/
def Said.start : Said :=
  State.said {}

section

variable (loads : String → Option Json) (str : Json → String)

/-- The response to what has been said. -/
def Said.response (s : Said) : Except Failure LLMResponse :=
  let parsed := splitTaggedThinking (orNone (trim s.content)) (orNone (trim s.thinking))
  match toolCalls loads s.calls with
  | .error message => .error ⟨message, none⟩
  | .ok toolCalls => .ok ⟨parsed.1, parsed.2, toolCalls, s.finishReason, s.usage⟩

/-- What the caller is told of a run, which may lack its terminal marker. -/
def tell (run : Except Told Said) (completed : Bool) : Told :=
  match run with
  | .error told => told
  | .ok s =>
      if completed then ⟨s.response loads, s.close.shownContent, s.close.shownThinking⟩
      else s.fail "stream ended before its terminal marker"

end

theorem said_emitHeld (h : st.Holds) : (emitHeld st).said = st.said.close := by
  rw [emitHeld, Said.close]
  by_cases hnative : st.nativeReasoningSeen = true
  · rw [if_pos (.inl hnative), if_pos (show st.said.nativeReasoningSeen = true from hnative)]
  · rw [if_neg (show ¬st.said.nativeReasoningSeen = true from hnative)]
    by_cases htool : st.toolSeen = true
    · rw [if_pos (.inr htool)]
      dsimp only
      rw [said_show_of_toolSeen htool, said_show_of_toolSeen htool, ite_self]
    · rw [if_neg (not_or.mpr ⟨hnative, htool⟩)]
      cases hcandidate : st.legacyCandidate with
      | some candidate =>
          have hheld : st.said.held = candidate := by rw [State.said, hcandidate]; rfl
          have hopen := h.candidate candidate hcandidate
          dsimp only
          rw [hheld, if_pos hopen, said_emitText_content (by rwa [toolSeen_emitText]),
            said_emitText_thinking htool, Said.show_show, List.nil_append, List.append_nil]
      | none =>
          have hheld : st.said.held = st.pendingContent := by rw [State.said, hcandidate]; rfl
          rw [hheld, if_neg (h.pending hcandidate)]
          exact said_emitText_content htool st.pendingContent

/-- **What the caller of a stream is told** is what its deltas say. -/
theorem told_consumeStream (loads : String → Option Json) (str : Json → String)
    (lines : List String) :
    (consumeStream loads str lines).told =
      tell loads ((streamDeltas loads str lines).1.foldlM Said.step .start)
        (streamDeltas loads str lines).2 := by
  have hstart : ({} : State).Holds := .of_nil rfl rfl
  rw [consumeStream, consumeLines_eq, Said.start, ← said_run hstart]
  generalize streamDeltas loads str lines = parts
  obtain ⟨ds, completed⟩ := parts
  dsimp only
  cases hrun : ds.foldlM step {} with
  | error e => rfl
  | ok st =>
      cases completed with
      | false => rfl
      | true =>
          have hclose := said_emitHeld (hstart.run hrun)
          change (finishStream loads st).told = tell loads (.ok st.said) true
          rw [tell, if_pos rfl, ← hclose]
          rfl

/-! ### Cuts -/

/-- A delta of the message. -/
def Delta.IsMessage : Delta → Prop
  | .toolCalls _ | .reasoning _ | .content _ => True
  | _ => False

/-- Neighbouring deltas that say the same: one and the two it is cut into, or two of which one is
no part of the message, in either order. -/
inductive Splits : List Delta → List Delta → Prop
  | content {front back : List Char} (hfront : front ≠ []) (hback : back ≠ []) :
      Splits [.content (front ++ back)] [.content front, .content back]
  | reasoning {front back : List Char} (hfront : front ≠ []) (hback : back ≠ []) :
      Splits [.reasoning (front ++ back)] [.reasoning front, .reasoning back]
  | toolCalls {front back : List Json} (hfront : front ≠ []) (hback : back ≠ []) :
      Splits [.toolCalls (front ++ back)] [.toolCalls front, .toolCalls back]
  | fragment {raw first second : Json} {index : ℕ} {slot added : Slot}
      (hraw : fragment raw = .ok (index, slot.append added))
      (hfirst : fragment first = .ok (index, slot))
      (hsecond : fragment second = .ok (index, added)) :
      Splits [.toolCalls [raw]] [.toolCalls [first], .toolCalls [second]]
  | usage {usage : ModelUsage} {d : Delta} (hd : d.IsMessage) :
      Splits [.usage usage, d] [d, .usage usage]
  | finish {reason : String} {d : Delta} (hd : d.IsMessage) :
      Splits [.finish reason, d] [d, .finish reason]
  | finishUsage {reason : String} {usage : ModelUsage} :
      Splits [.finish reason, .usage usage] [.usage usage, .finish reason]

/-- Streams that differ in one cut. -/
def CutOnce (ds ds' : List Delta) : Prop :=
  ∃ front xs ys back, Splits xs ys ∧ ds = front ++ xs ++ back ∧ ds' = front ++ ys ++ back

/-- Streams that differ in the cuts. -/
def Recut : List Delta → List Delta → Prop :=
  Relation.EqvGen CutOnce

theorem Slot.append_assoc (slot added more : Slot) :
    (slot.append added).append more = slot.append (added.append more) := by
  simp [Slot.append, String.append_assoc]

theorem mergeToolDelta_cut {raw first second : Json} {index : ℕ} {slot added : Slot}
    (hraw : fragment raw = .ok (index, slot.append added))
    (hfirst : fragment first = .ok (index, slot)) (hsecond : fragment second = .ok (index, added))
    (calls : Dict ℕ Slot) :
    (mergeToolDelta calls first >>= fun calls => mergeToolDelta calls second)
      = mergeToolDelta calls raw := by
  rw [mergeToolDelta, mergeToolDelta, hfirst, hraw]
  change mergeToolDelta (calls.set index (((calls.get? index).getD {}).append slot)) second = _
  rw [mergeToolDelta, hsecond]
  change Except.ok (Dict.set _ index ((((calls.set index _).get? index).getD {}).append added)) = _
  rw [Dict.get?_set_self, Dict.set_set, Option.getD_some, Slot.append_assoc]
  rfl

theorem Said.step_toolCalls_append (s : Said) (front back : List Json) :
    (s.step (.toolCalls front) >>= fun s => s.step (.toolCalls back))
      = s.step (.toolCalls (front ++ back)) := by
  have happend : mergeToolDeltas s.calls (front ++ back)
      = mergeToolDeltas s.calls front >>= fun calls => mergeToolDeltas calls back :=
    List.foldlM_append
  rw [Said.step, Said.step]
  dsimp only
  rw [happend]
  cases mergeToolDeltas s.calls front with
  | error message => rfl
  | ok calls =>
      simp only [bind, Except.bind, Said.step]
      cases mergeToolDeltas calls back <;> rfl

theorem Said.step_content_append (s : Said) (front back : List Char) :
    (s.step (.content front) >>= fun s => s.step (.content back))
      = s.step (.content (front ++ back)) := by
  cases htool : s.toolSeen <;> cases hnative : s.nativeReasoningSeen <;>
    simp [Said.step, Said.show, htool, hnative, bind, Except.bind, ← List.append_assoc,
      cut_append openTag (s.held ++ front) back]

theorem Said.step_reasoning_append (s : Said) (front back : List Char) :
    (s.step (.reasoning front) >>= fun s => s.step (.reasoning back))
      = s.step (.reasoning (front ++ back)) := by
  cases htool : s.toolSeen <;> simp [Said.step, Said.show, htool, bind, Except.bind]

theorem Said.step_usage_comm (s : Said) (usage : ModelUsage) (hd : d.IsMessage) :
    (s.step (.usage usage) >>= fun s => s.step d) = s.step d >>= fun s => s.step (.usage usage) := by
  cases d with
  | usage _ | finish _ | fault _ => cases hd
  | toolCalls rawCalls =>
      simp only [bind, Except.bind, Said.step]
      cases mergeToolDeltas s.calls rawCalls <;> rfl
  | reasoning text =>
      cases htool : s.toolSeen <;> simp [Said.step, Said.show, htool, bind, Except.bind]
  | content piece =>
      cases htool : s.toolSeen <;> cases hnative : s.nativeReasoningSeen <;>
        simp [Said.step, Said.show, htool, hnative, bind, Except.bind]

theorem Said.step_finish_comm (s : Said) (reason : String) (hd : d.IsMessage) :
    (s.step (.finish reason) >>= fun s => s.step d)
      = s.step d >>= fun s => s.step (.finish reason) := by
  cases d with
  | usage _ | finish _ | fault _ => cases hd
  | toolCalls rawCalls =>
      simp only [bind, Except.bind, Said.step]
      cases mergeToolDeltas s.calls rawCalls <;> rfl
  | reasoning text =>
      cases htool : s.toolSeen <;> simp [Said.step, Said.show, htool, bind, Except.bind]
  | content piece =>
      cases htool : s.toolSeen <;> cases hnative : s.nativeReasoningSeen <;>
        simp [Said.step, Said.show, htool, hnative, bind, Except.bind]

theorem Splits.run {xs ys : List Delta} (h : Splits xs ys) (s : Said) :
    ys.foldlM Said.step s = xs.foldlM Said.step s := by
  have htwo (d e : Delta) : [d, e].foldlM Said.step s = s.step d >>= fun s => s.step e := by
    simp only [List.foldlM_cons, List.foldlM_nil, bind_pure]
  have hone (d : Delta) : [d].foldlM Said.step s = s.step d := by
    simp only [List.foldlM_cons, List.foldlM_nil, bind_pure]
  cases h with
  | content => rw [htwo, hone, Said.step_content_append]
  | reasoning => rw [htwo, hone, Said.step_reasoning_append]
  | toolCalls => rw [htwo, hone, Said.step_toolCalls_append]
  | @fragment raw first second index slot added hraw hfirst hsecond =>
      have hmerge : mergeToolDeltas s.calls [first, second] = mergeToolDeltas s.calls [raw] := by
        simp only [mergeToolDeltas, List.foldlM_cons, List.foldlM_nil, bind_pure]
        exact mergeToolDelta_cut hraw hfirst hsecond s.calls
      rw [htwo, hone, Said.step_toolCalls_append, Said.step, Said.step]
      dsimp only
      rw [List.singleton_append, hmerge]
  | usage hd => rw [htwo, htwo, Said.step_usage_comm s _ hd]
  | finish hd => rw [htwo, htwo, Said.step_finish_comm s _ hd]
  | finishUsage => rfl

/-- **Streams that differ in the cuts say the same.** -/
theorem Recut.run {ds' : List Delta} (h : Recut ds ds') (s : Said) :
    ds'.foldlM Said.step s = ds.foldlM Said.step s := by
  induction h with
  | rel ds ds' hcut =>
      obtain ⟨front, xs, ys, back, hsplits, rfl, rfl⟩ := hcut
      simp only [List.foldlM_append, bind_assoc]
      refine congrArg _ (funext fun s => ?_)
      rw [hsplits.run]
  | refl ds => rfl
  | symm ds ds' _ ih => exact ih.symm
  | trans ds ds' ds'' _ _ ih ih' => exact ih'.trans ih

/-! ### What was shown -/

/-- The content of a stream. -/
def contentText (ds : List Delta) : List Char :=
  ds.flatMap fun
    | .content piece => piece
    | _ => []

/-- The reasoning of a stream. -/
def reasoningText (ds : List Delta) : List Char :=
  ds.flatMap fun
    | .reasoning text => text
    | _ => []

/-- What has been shown, until a tool call is seen: everything once the provider has reasoned, and
before that the content up to where the opening tag may begin. -/
structure Said.Shown (s : Said) : Prop where
  native : s.toolSeen = false → s.nativeReasoningSeen = true →
    s.shownContent = s.content ∧ s.shownThinking = s.thinking
  held : s.nativeReasoningSeen = true → s.held = []
  legacy : s.toolSeen = false → s.nativeReasoningSeen = false →
    s.shownThinking = [] ∧ cut openTag s.content = (s.shownContent, s.held)
  thinking : s.nativeReasoningSeen = false → s.thinking = []

theorem Said.Shown.all (h : s.Shown) (htool : s.toolSeen = false) :
    s.shownContent ++ s.held = s.content ∧ s.shownThinking = s.thinking := by
  cases hnative : s.nativeReasoningSeen with
  | true =>
      obtain ⟨hcontent, hthinking⟩ := h.native htool hnative
      rw [h.held hnative, List.append_nil]
      exact ⟨hcontent, hthinking⟩
  | false =>
      obtain ⟨hthinking, hcut⟩ := h.legacy htool hnative
      refine ⟨?_, hthinking.trans (h.thinking hnative).symm⟩
      have happend := cut_append_cut openTag s.content
      rwa [hcut] at happend

variable {s' : Said}

theorem Said.Shown.step (h : s.Shown) (hstep : s.step d = .ok s') : s'.Shown := by
  cases d with
  | usage usage =>
      obtain rfl := Except.ok.inj hstep
      exact ⟨h.native, h.held, h.legacy, h.thinking⟩
  | finish reason =>
      obtain rfl := Except.ok.inj hstep
      exact ⟨h.native, h.held, h.legacy, h.thinking⟩
  | fault message => cases hstep
  | toolCalls rawCalls =>
      rw [Said.step] at hstep
      dsimp only at hstep
      cases hmerge : mergeToolDeltas s.calls rawCalls with
      | error message => rw [hmerge] at hstep; cases hstep
      | ok calls =>
          rw [hmerge] at hstep
          obtain rfl := Except.ok.inj hstep
          exact ⟨fun hno => absurd hno (by simp), h.held, fun hno => absurd hno (by simp), h.thinking⟩
  | reasoning text =>
      obtain rfl := Except.ok.inj hstep
      refine ⟨fun htool _ => ?_, fun _ => rfl, fun _ hno => absurd hno (by simp),
        fun hno => absurd hno (by simp)⟩
      cases hseen : s.toolSeen with
      | true => simp [Said.show, hseen] at htool
      | false =>
          obtain ⟨hcontent, hthinking⟩ := h.all hseen
          simp [Said.show, hcontent, hthinking]
  | content piece =>
      rw [Said.step] at hstep
      dsimp only at hstep
      cases htool : s.toolSeen <;> cases hnative : s.nativeReasoningSeen <;>
        simp only [hnative, htool, Said.show, if_true, Bool.false_eq_true, if_false,
          Except.ok.injEq] at hstep <;> subst hstep
      -- A tool call that was seen leaves the held back text only.
      case true.true =>
        exact ⟨fun hno => absurd hno (by simp), fun _ => h.held hnative,
          fun hno => absurd hno (by simp), fun hno => absurd hno (by simp)⟩
      case true.false =>
        exact ⟨fun hno => absurd hno (by simp), fun hyes => absurd hyes (by simp),
          fun hno => absurd hno (by simp), fun _ => h.thinking hnative⟩
      case false.true =>
        obtain ⟨hcontent, hthinking⟩ := h.native htool hnative
        exact ⟨fun _ _ => ⟨by simp [hcontent], by simp [hthinking]⟩, fun _ => h.held hnative,
          fun _ hno => absurd hno (by simp), fun hno => absurd hno (by simp)⟩
      case false.false =>
        obtain ⟨hthinking, hcut⟩ := h.legacy htool hnative
        refine ⟨fun _ hyes => absurd hyes (by simp), fun hyes => absurd hyes (by simp),
          fun _ _ => ⟨by simp [hthinking], ?_⟩, fun _ => h.thinking hnative⟩
        dsimp only
        rw [cut_append, hcut]

/-- **What has been shown of a run.** -/
theorem Said.Shown.run (h : s.Shown) (hrun : ds.foldlM Said.step s = .ok s') : s'.Shown := by
  induction ds generalizing s with
  | nil => exact Except.ok.inj hrun ▸ h
  | cons d ds ih =>
      rw [List.foldlM_cons] at hrun
      obtain ⟨next, hnext, hrest⟩ := Exceptions.bind_eq_ok.mp hrun
      exact ih (h.step hnext) hrest

theorem Said.shown_start : Said.start.Shown :=
  ⟨fun _ => nofun, fun _ => rfl, fun _ _ => ⟨rfl, rfl⟩, fun _ => rfl⟩

/-- What has been said of a stream whose deltas are these. -/
structure Said.Of (ds : List Delta) (s : Said) : Prop where
  content : s.content = contentText ds
  thinking : s.thinking = reasoningText ds
  toolSeen : s.toolSeen = true ↔ ∃ rawCalls, Delta.toolCalls rawCalls ∈ ds
  native : s.nativeReasoningSeen = true ↔ ∃ text, Delta.reasoning text ∈ ds
  calls : s.toolSeen = false → s.calls = .empty

theorem Said.Of.step (h : s.Of ds) (hstep : s.step d = .ok s') : s'.Of (ds ++ [d]) := by
  cases d with
  | usage usage =>
      obtain rfl := Except.ok.inj hstep
      exact ⟨by simp [contentText, h.content], by simp [reasoningText, h.thinking],
        by simp [h.toolSeen], by simp [h.native], h.calls⟩
  | finish reason =>
      obtain rfl := Except.ok.inj hstep
      exact ⟨by simp [contentText, h.content], by simp [reasoningText, h.thinking],
        by simp [h.toolSeen], by simp [h.native], h.calls⟩
  | fault message => cases hstep
  | toolCalls rawCalls =>
      rw [Said.step] at hstep
      dsimp only at hstep
      cases hmerge : mergeToolDeltas s.calls rawCalls with
      | error message => rw [hmerge] at hstep; cases hstep
      | ok calls =>
          rw [hmerge] at hstep
          obtain rfl := Except.ok.inj hstep
          exact ⟨by simp [contentText, h.content], by simp [reasoningText, h.thinking],
            by simp, by simp [h.native], fun hno => absurd hno (by simp)⟩
  | reasoning text =>
      obtain rfl := Except.ok.inj hstep
      obtain ⟨hcontent, hthinking, hcalls, htool, -⟩ := Said.show_said
        { s with responseDeltaSeen := true, thinking := s.thinking ++ text } s.held text
      refine ⟨hcontent.trans ?_, hthinking.trans ?_, ?_, by simp, fun hno => ?_⟩
      · simp [contentText, h.content]
      · simp [reasoningText, h.thinking]
      · rw [htool]
        simp [h.toolSeen]
      · exact hcalls.trans (h.calls (htool.symm.trans hno))
  | content piece =>
      -- The flags do not depend on what is shown and held back.
      have hsaid : s'.content = s.content ++ piece ∧ s'.thinking = s.thinking ∧
          s'.calls = s.calls ∧ s'.toolSeen = s.toolSeen ∧
          s'.nativeReasoningSeen = s.nativeReasoningSeen := by
        rw [Said.step] at hstep
        dsimp only at hstep
        split_ifs at hstep <;> obtain rfl := Except.ok.inj hstep <;> exact Said.show_said _ _ _
      obtain ⟨hcontent, hthinking, hcalls, htool, hnative⟩ := hsaid
      refine ⟨hcontent.trans ?_, hthinking.trans ?_, ?_, ?_, fun hno => ?_⟩
      · simp [contentText, h.content]
      · simp [reasoningText, h.thinking]
      · rw [htool]
        simp [h.toolSeen]
      · rw [hnative]
        simp [h.native]
      · exact hcalls.trans (h.calls (htool.symm.trans hno))

theorem Said.Of.run {front : List Delta} (h : s.Of front) (hrun : ds.foldlM Said.step s = .ok s') :
    s'.Of (front ++ ds) := by
  induction ds generalizing front s with
  | nil =>
      rw [List.append_nil, ← Except.ok.inj hrun]
      exact h
  | cons d ds ih =>
      rw [List.foldlM_cons] at hrun
      obtain ⟨next, hnext, hrest⟩ := Exceptions.bind_eq_ok.mp hrun
      rw [List.append_cons]
      exact ih (h.step hnext) hrest

theorem Said.of_start : Said.start.Of [] :=
  ⟨rfl, rfl, by simp [Said.start, State.said], by simp [Said.start, State.said], fun _ => rfl⟩

theorem exists_run (hfault : ∀ message, Delta.fault message ∉ ds)
    (htool : ∀ rawCalls, Delta.toolCalls rawCalls ∉ ds) (s : Said) :
    ∃ s', ds.foldlM Said.step s = .ok s' := by
  induction ds generalizing s with
  | nil => exact ⟨s, rfl⟩
  | cons d ds ih =>
      have hrest := ih (fun message hmem => hfault message (List.mem_cons_of_mem d hmem))
        (fun rawCalls hmem => htool rawCalls (List.mem_cons_of_mem d hmem))
      rw [List.foldlM_cons]
      cases d with
      | usage usage => exact hrest _
      | finish reason => exact hrest _
      | toolCalls rawCalls => exact absurd List.mem_cons_self (htool rawCalls)
      | fault message => exact absurd List.mem_cons_self (hfault message)
      | reasoning text => exact hrest _
      | content piece =>
          rw [Said.step]
          dsimp only
          split_ifs
          · exact hrest _
          · exact hrest _

/-! ### Previews and the response -/

theorem searchThink_held {text : List Char} (hmeets : Meets openTag text)
    (hopen : ¬openTag <+: text) : searchThink text = none := by
  cases hm : searchThink text with
  | none => rfl
  | some m =>
      have hshort := (hmeets.resolve_left hopen).length_le
      have hlong := searchThink_rest hm
      rw [openTag, List.length_cons, List.length_cons, List.length_cons, List.length_cons,
        List.length_cons, List.length_cons, List.length_cons, List.length_nil] at hshort
      omega

/-- **What is shown of a legacy stream** is what its content is read as. -/
theorem Said.Shown.close_legacy (h : s.Shown) (htool : s.toolSeen = false)
    (hnative : s.nativeReasoningSeen = false) :
    let parsed := splitTaggedThinking (orNone (trim s.content)) (orNone (trim s.thinking))
    SameBlocks s.close.shownContent (parsed.1.getD []) ∧
      SameBlocks s.close.shownThinking (parsed.2.getD []) := by
  obtain ⟨hnone, hcut⟩ := h.legacy htool hnative
  have happend := (h.all htool).1
  have hsearch := searchThink_cut s.content
  have hremove := removeThink_cut s.content
  have hmeets := meets_cut openTag s.content
  rw [hcut] at hsearch hremove hmeets
  dsimp only at hsearch hremove hmeets ⊢
  have hshow (content thinking : List Char) :
      (s.show content thinking).shownContent = s.shownContent ++ content ∧
        (s.show content thinking).shownThinking = thinking := by
    rw [Said.show, htool, if_neg Bool.false_ne_true]
    exact ⟨rfl, by rw [hnone, List.nil_append]⟩
  rw [split_trim, h.thinking hnative, trim_nil, if_pos rfl, Said.close, hnative,
    if_neg Bool.false_ne_true, hsearch]
  by_cases hopen : openTag <+: s.held
  · have hne : s.held ≠ [] := by
      intro hnil
      rw [hnil] at hopen
      exact absurd hopen (by decide)
    rw [if_pos hopen, split_content hne]
    dsimp only
    rw [(hshow _ _).1, (hshow _ _).2]
    cases hm : searchThink s.held with
    | none =>
        simp only [Option.map_none, Option.elim_none, Option.getD_some, Option.getD_none,
          getD_orNone]
        rw [happend]
        exact ⟨sameBlocks_trim s.content, sameBlocks_trim []⟩
    | some m =>
        simp only [Option.map_some, Option.elim_some, getD_orNone]
        exact ⟨⟨s.shownContent, removeThink s.held, rfl, by rw [hremove]⟩, [], m.body, rfl, rfl⟩
  · rw [if_neg hopen, searchThink_held hmeets hopen, (hshow _ _).1, (hshow _ _).2, happend]
    simp only [Option.map_none, Option.elim_none, Option.getD_none, getD_orNone]
    exact ⟨sameBlocks_trim s.content, sameBlocks_trim []⟩

/-- **What is shown of a stream with reasoning of the provider** is the response exactly when its
tags are not read after all. -/
theorem Said.Shown.close_native (h : s.Shown) (htool : s.toolSeen = false)
    (hnative : s.nativeReasoningSeen = true) :
    let parsed := splitTaggedThinking (orNone (trim s.content)) (orNone (trim s.thinking))
    (SameBlocks s.close.shownContent (parsed.1.getD []) ∧
      SameBlocks s.close.shownThinking (parsed.2.getD [])) ↔
      trim s.thinking ≠ [] ∨ searchThink s.content = none := by
  obtain ⟨hcontent, hthinking⟩ := h.native htool hnative
  dsimp only
  rw [split_trim, Said.close, if_pos hnative, hcontent, hthinking]
  by_cases hblank : trim s.thinking = []
  · rw [if_pos hblank]
    cases hm : searchThink s.content with
    | none =>
        simp only [Option.elim_none, Option.getD_none, getD_orNone, or_true, iff_true]
        exact ⟨sameBlocks_trim s.content, hblank ▸ sameBlocks_trim s.thinking⟩
    | some m =>
        simp only [Option.elim_some, getD_orNone, hblank, ne_eq, not_true_eq_false, reduceCtorEq,
          or_self, iff_false]
        intro hsame
        have hsolid := hsame.1.solid_eq
        have hlt := solid_removeThink_lt hm
        rw [solid_trim] at hsolid
        omega
  · rw [if_neg hblank]
    simp only [Option.getD_some, getD_orNone, ne_eq, hblank, not_false_eq_true, true_or, iff_true]
    exact ⟨sameBlocks_trim s.content, sameBlocks_trim s.thinking⟩

theorem toolCalls_empty (loads : String → Option Json) : toolCalls loads .empty = .ok [] := by
  rw [toolCalls, Dict.empty, List.mergeSort_nil]
  rfl

/-- The lines of a chat completion: they have the terminal marker, and no chunk is at fault. -/
structure EventStream (loads : String → Option Json) (str : Json → String) (lines : List String) :
    Prop where
  completed : (streamDeltas loads str lines).2 = true
  clean : ∀ message, Delta.fault message ∉ (streamDeltas loads str lines).1

/-- **Streams that differ in the cuts come to the same.** -/
theorem told_recut {loads : String → Option Json} {str : Json → String} {lines lines' : List String}
    (h : EventStream loads str lines) (h' : EventStream loads str lines')
    (hrecut : Recut (streamDeltas loads str lines).1 (streamDeltas loads str lines').1) :
    (consumeStream loads str lines').told = (consumeStream loads str lines).told := by
  rw [told_consumeStream, told_consumeStream, hrecut.run, h'.completed, h.completed]

/-- What is shown of a stream is its response. -/
def ShowsResponse (loads : String → Option Json) (str : Json → String) (lines : List String) :
    Prop :=
  ∃ response, (consumeStream loads str lines).result = .ok response ∧
    SameBlocks (contentPreview (consumeStream loads str lines).previews)
      (response.content.getD []) ∧
    SameBlocks (thinkingPreview (consumeStream loads str lines).previews)
      (response.thinking.getD [])

/-- **When a stream without tool calls shows its response.** -/
theorem showsResponse_iff {loads : String → Option Json} {str : Json → String}
    {lines : List String} (h : EventStream loads str lines)
    (htools : ∀ rawCalls, Delta.toolCalls rawCalls ∉ (streamDeltas loads str lines).1) :
    ShowsResponse loads str lines ↔
      (∀ text, Delta.reasoning text ∉ (streamDeltas loads str lines).1) ∨
        trim (reasoningText (streamDeltas loads str lines).1) ≠ [] ∨
        searchThink (contentText (streamDeltas loads str lines).1) = none := by
  obtain ⟨s, hrun⟩ := exists_run h.clean htools .start
  have hshown := Said.shown_start.run hrun
  have hof := Said.of_start.run hrun
  rw [List.nil_append] at hof
  have htool : s.toolSeen = false := by
    rw [← Bool.not_eq_true, hof.toolSeen, not_exists]
    exact htools
  have htold := told_consumeStream loads str lines
  rw [hrun, h.completed] at htold
  have hresult : (consumeStream loads str lines).result = s.response loads :=
    congrArg Told.result htold
  have hcontent : contentPreview (consumeStream loads str lines).previews
      = s.close.shownContent := congrArg Told.content htold
  have hthinking : thinkingPreview (consumeStream loads str lines).previews
      = s.close.shownThinking := congrArg Told.thinking htold
  let parsed := splitTaggedThinking (orNone (trim s.content)) (orNone (trim s.thinking))
  have hresponse : s.response loads =
      .ok ⟨parsed.1, parsed.2, [], s.finishReason, s.usage⟩ := by
    rw [Said.response, hof.calls htool, toolCalls_empty]
  rw [ShowsResponse, hcontent, hthinking, hresult, hresponse, ← hof.content, ← hof.thinking]
  cases hnative : s.nativeReasoningSeen with
  | false =>
      have hreasoning : ∀ text, Delta.reasoning text ∉ (streamDeltas loads str lines).1 := by
        rw [← not_exists, ← hof.native, hnative]
        exact Bool.false_ne_true
      exact iff_of_true ⟨_, rfl, hshown.close_legacy htool hnative⟩ (.inl hreasoning)
  | true =>
      have hreasoning : ¬∀ text, Delta.reasoning text ∉ (streamDeltas loads str lines).1 := by
        rw [← not_exists, not_not]
        exact hof.native.mp hnative
      rw [or_iff_right hreasoning]
      refine Iff.trans ?_ (hshown.close_native htool hnative)
      constructor
      · rintro ⟨response, heq, hsame⟩
        obtain rfl := Except.ok.inj heq
        exact hsame
      · exact fun hsame => ⟨_, rfl, hsame⟩

/-- **When the previews are the response.** Streams that differ in the cuts come to the same, and
what is shown of a stream without tool calls is its response up to blanks, unless the provider's
reasoning is blank and the content has a thinking section. -/
theorem previews_hold (loads : String → Option Json) (str : Json → String) (lines : List String)
    (h : EventStream loads str lines) :
    ((∀ lines', EventStream loads str lines' →
        Recut (streamDeltas loads str lines).1 (streamDeltas loads str lines').1 →
        (consumeStream loads str lines').told = (consumeStream loads str lines).told) ∧
      ((∀ rawCalls, Delta.toolCalls rawCalls ∉ (streamDeltas loads str lines).1) →
        ShowsResponse loads str lines)) ↔
      ((∃ rawCalls, Delta.toolCalls rawCalls ∈ (streamDeltas loads str lines).1) ∨
        (∀ text, Delta.reasoning text ∉ (streamDeltas loads str lines).1) ∨
        trim (reasoningText (streamDeltas loads str lines).1) ≠ [] ∨
        searchThink (contentText (streamDeltas loads str lines).1) = none) := by
  rw [and_iff_right fun lines' h' hrecut => told_recut h h' hrecut]
  by_cases htools : ∃ rawCalls, Delta.toolCalls rawCalls ∈ (streamDeltas loads str lines).1
  · refine iff_of_true (fun hno => ?_) (.inl htools)
    obtain ⟨rawCalls, hmem⟩ := htools
    exact absurd hmem (hno rawCalls)
  · rw [or_iff_right htools]
    rw [not_exists] at htools
    rw [← showsResponse_iff h htools]
    exact ⟨fun hshows => hshows htools, fun hshows _ => hshows⟩

/-- A content with a thinking section that is cut in its opening tag. -/
def taggedLines : List String :=
  ["data: \x7b\"choices\":[\x7b\"delta\":\x7b\"content\":\"so <th\"\x7d\x7d]\x7d", "",
    "data: \x7b\"choices\":[\x7b\"delta\":\x7b\"content\":\"ink>a</think> b\"\x7d\x7d]\x7d", "data: [DONE]"]

theorem previews_hold_tagged : ShowsResponse Json.loads (fun _ => "") taggedLines := by
  have hdeltas : streamDeltas Json.loads (fun _ => "") taggedLines =
      ([.content "so <th".toList, .content "ink>a</think> b".toList], true) := by decide +kernel
  refine ((previews_hold Json.loads (fun _ => "") taggedLines ?_).mpr (.inr (.inl ?_))).2 ?_
  · exact ⟨by rw [hdeltas], by simp [hdeltas]⟩
  · simp [hdeltas]
  · simp [hdeltas]

/-- A blank reasoning, and a content with a thinking section. -/
def blankLines : List String :=
  ["data: \x7b\"choices\":[\x7b\"delta\":\x7b\"reasoning_content\":\"\\n\"\x7d\x7d]\x7d", "",
    "data: \x7b\"choices\":[\x7b\"delta\":\x7b\"content\":\"<think>a</think>b\"\x7d\x7d]\x7d", "data: [DONE]"]

/-- What is shown of it is not its response. -/
theorem previews_differ : EventStream Json.loads (fun _ => "") blankLines ∧
    (∀ rawCalls, Delta.toolCalls rawCalls ∉ (streamDeltas Json.loads (fun _ => "") blankLines).1) ∧
    contentPreview (consumeStream Json.loads (fun _ => "") blankLines).previews
      = "<think>a</think>b".toList ∧
    ¬ShowsResponse Json.loads (fun _ => "") blankLines := by
  have hdeltas : streamDeltas Json.loads (fun _ => "") blankLines =
      ([.reasoning ['\n'], .content "<think>a</think>b".toList], true) := by decide +kernel
  have hstream : EventStream Json.loads (fun _ => "") blankLines :=
    ⟨by rw [hdeltas], by simp [hdeltas]⟩
  have htools : ∀ rawCalls,
      Delta.toolCalls rawCalls ∉ (streamDeltas Json.loads (fun _ => "") blankLines).1 := by
    simp [hdeltas]
  refine ⟨hstream, htools, by decide +kernel, ?_⟩
  rw [showsResponse_iff hstream htools, hdeltas]
  rintro (hno | hno | hno)
  · exact hno ['\n'] List.mem_cons_self
  · exact hno (by decide)
  · exact absurd hno (by decide +kernel)

end Kirakira.Stream
