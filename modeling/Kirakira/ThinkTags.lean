import Kirakira.Lib.Marker
import Kirakira.Lines

/-!
# Think Tags

A provider without a reasoning field writes its reasoning into the content, between `<think>`
and `</think>`. `plugins/step_plan/transport.py` reads the tags of a whole content with
`_THINK_RE`, and while the content streams in it holds back what may be the beginning of a tag.

* A text is the list of its characters.
* `searchThink` is `_THINK_RE.search` and `removeThink` is `_THINK_RE.sub("", …)`: a match begins
  at the first opening tag that a closing tag follows, and ends with the first such closing tag.

## Main results

* `hold_eq_cut` — what is held back is cut off where the opening tag may begin.
* `searchThink_cut`, `removeThink_cut` — the tags of a text are those of what is held back of it.
* `searchThink_pad`, `removeThink_pad` — blanks around a text leave its tags alone.
-/

namespace Kirakira.Stream

open Marker Lines

/-! ### The source -/

/-- `"<think>"`. -/
def openTag : List Char :=
  ['<', 't', 'h', 'i', 'n', 'k', '>']

/-- `"</think>"`. -/
def closeTag : List Char :=
  ['<', '/', 't', 'h', 'i', 'n', 'k', '>']

/-- A match of `_THINK_RE`, with what stands before and after it. -/
structure Match where
  before : List Char
  body : List Char
  rest : List Char
  deriving DecidableEq

/-- A match with more before it. -/
def Match.prepend (front : List Char) (m : Match) : Match :=
  { m with before := front ++ m.before }

/-- A match with more after it. -/
def Match.append (back : List Char) (m : Match) : Match :=
  { m with rest := m.rest ++ back }

/-- `_THINK_RE.match`. -/
def matchThink (text : List Char) : Option Match :=
  if openTag <+: text then
    let inside := text.drop openTag.length
    (find closeTag inside).map fun i =>
      ⟨[], inside.take i, inside.drop (i + closeTag.length)⟩
  else none

/-- `_THINK_RE.search`. -/
def searchThink : List Char → Option Match
  | [] => none
  | c :: cs => (matchThink (c :: cs)).or ((searchThink cs).map (Match.prepend [c]))

/-- `text or None`. -/
def orNone (text : List Char) : Option (List Char) :=
  if text = [] then none else some text

/-- `_hold_legacy_thinking_candidate`. -/
def holdLegacyThinkingCandidate (buffer : List Char) :
    List Char × List Char × Option (List Char) :=
  match find openTag buffer with
  | some marker => (buffer.take marker, [], some (buffer.drop marker))
  | none =>
      let pendingSize := Nat.findGreatest (fun size => openTag.take size <:+ buffer)
        (min buffer.length (openTag.length - 1))
      if pendingSize = 0 then (buffer, [], none)
      else (buffer.take (buffer.length - pendingSize), buffer.drop (buffer.length - pendingSize),
        none)

/-! ### Matches -/

variable {m : Match} {text front back : List Char}

theorem matchThink_text (h : matchThink text = some m) :
    m.before = [] ∧ text = openTag ++ m.body ++ closeTag ++ m.rest := by
  rw [matchThink] at h
  split_ifs at h with hopen
  obtain ⟨i, hi, rfl⟩ := Option.map_eq_some_iff.mp h
  obtain ⟨⟨rest, hclose⟩, -⟩ := find_eq_some hi
  refine ⟨rfl, ?_⟩
  obtain ⟨inside, rfl⟩ := hopen
  rw [List.drop_left] at hclose ⊢
  rw [← List.drop_drop, ← hclose, List.drop_left, List.append_assoc, List.append_assoc, hclose,
    List.take_append_drop]

/-- **The text around a match.** -/
theorem searchThink_text (h : searchThink text = some m) :
    text = m.before ++ openTag ++ m.body ++ closeTag ++ m.rest := by
  induction text generalizing m with
  | nil => cases h
  | cons c cs ih =>
      rw [searchThink, Option.or_eq_some_iff] at h
      rcases h with h | ⟨-, h⟩
      · obtain ⟨hbefore, htext⟩ := matchThink_text h
        rw [hbefore, List.nil_append]
        exact htext
      · obtain ⟨m, hm, rfl⟩ := Option.map_eq_some_iff.mp h
        exact congrArg (c :: ·) (ih hm)

theorem searchThink_rest (h : searchThink text = some m) : m.rest.length + 15 ≤ text.length := by
  rw [searchThink_text h]
  simp only [List.length_append, openTag, closeTag, List.length_cons, List.length_nil]
  omega

/-- `_THINK_RE.sub("", text)`. -/
def removeThink (text : List Char) : List Char :=
  match _h : searchThink text with
  | none => text
  | some m => m.before ++ removeThink m.rest
termination_by text.length
decreasing_by
  have := searchThink_rest _h
  omega

theorem removeThink_of_none (h : searchThink text = none) : removeThink text = text := by
  rw [removeThink]
  split
  · rfl
  · next hm => rw [h] at hm; cases hm

theorem removeThink_of_some (h : searchThink text = some m) :
    removeThink text = m.before ++ removeThink m.rest := by
  rw [removeThink]
  split
  · next hnone => rw [h] at hnone; cases hnone
  · next hm =>
      rw [h] at hm
      rw [Option.some.inj hm]

/-- `_split_tagged_thinking`. -/
def splitTaggedThinking (content thinking : Option (List Char)) :
    Option (List Char) × Option (List Char) :=
  match thinking, content with
  | some _, _ | none, none | none, some [] => (content, thinking)
  | none, some text =>
      match searchThink text with
      | none => (content, none)
      | some m => (orNone (trim (removeThink text)), orNone (trim m.body))

/-! ### Holding back -/

/-- **What is held back is cut off where the opening tag may begin.** -/
theorem hold_eq_cut (buffer : List Char) :
    holdLegacyThinkingCandidate buffer =
      if openTag <+: (cut openTag buffer).2 then
        ((cut openTag buffer).1, [], some (cut openTag buffer).2)
      else ((cut openTag buffer).1, (cut openTag buffer).2, none) := by
  rw [holdLegacyThinkingCandidate]
  cases hfind : find openTag buffer with
  | some marker =>
      rw [cut_of_find hfind, if_pos (find_eq_some hfind).1]
  | none =>
      obtain ⟨hheld, hne, hlongest⟩ := cut_of_find_none hfind
      have happend := cut_append_cut openTag buffer
      have hopen : ¬openTag <+: (cut openTag buffer).2 := fun hp =>
        hne (hheld.eq_of_length_le hp.length_le)
      generalize cut openTag buffer = parts at *
      obtain ⟨ready, held⟩ := parts
      dsimp only at *
      subst happend
      have hlt : held.length < openTag.length :=
        lt_of_le_of_ne hheld.length_le fun heq => hne (hheld.eq_of_length heq)
      have hsize : Nat.findGreatest (fun size => openTag.take size <:+ ready ++ held)
          (min (ready ++ held).length (openTag.length - 1)) = held.length := by
        refine Nat.findGreatest_eq_iff.mpr ⟨?_, fun _ => ?_, fun n hlong hle hn => ?_⟩
        · rw [List.length_append]
          omega
        · rw [← List.prefix_iff_eq_take.mp hheld]
          exact List.suffix_append _ _
        · have := hlongest n hn (by omega)
          omega
      rw [if_neg hopen, hsize]
      split_ifs with hzero
      · rw [List.length_eq_zero_iff.mp hzero, List.append_nil]
      · rw [List.length_append, Nat.add_sub_cancel, List.take_left, List.drop_left]

theorem hold_ready (buffer : List Char) :
    (holdLegacyThinkingCandidate buffer).1 = (cut openTag buffer).1 := by
  rw [hold_eq_cut]
  split_ifs <;> rfl

theorem hold_held (buffer : List Char) :
    (holdLegacyThinkingCandidate buffer).2.2.getD (holdLegacyThinkingCandidate buffer).2.1
      = (cut openTag buffer).2 := by
  rw [hold_eq_cut]
  split_ifs <;> rfl

theorem hold_candidate {buffer : List Char}
    (h : (holdLegacyThinkingCandidate buffer).2.2 = some text) : openTag <+: text := by
  rw [hold_eq_cut] at h
  split_ifs at h with hopen
  exact Option.some.inj h ▸ hopen

theorem hold_pending {buffer : List Char} (h : (holdLegacyThinkingCandidate buffer).2.2 = none) :
    ¬openTag <+: (holdLegacyThinkingCandidate buffer).2.1 := by
  rw [hold_eq_cut] at h ⊢
  by_cases hopen : openTag <+: (cut openTag buffer).2
  · rw [if_pos hopen] at h
    cases h
  · rw [if_neg hopen]
    exact hopen

/-! ### Where no tag begins or ends -/

theorem searchThink_cons {c : Char} {cs : List Char} (h : ¬openTag <+: c :: cs) :
    searchThink (c :: cs) = (searchThink cs).map (Match.prepend [c]) := by
  rw [searchThink, matchThink, if_neg h]
  rfl

@[simp] theorem map_prepend_nil (found : Option Match) : found.map (Match.prepend []) = found := by
  cases found <;> rfl

@[simp] theorem map_prepend_prepend (front back : List Char) (found : Option Match) :
    (found.map (Match.prepend back)).map (Match.prepend front)
      = found.map (Match.prepend (front ++ back)) := by
  cases found <;> simp [Match.prepend]

/-- **The tags of a text are those of what is held back of it.** -/
theorem searchThink_cut (text : List Char) :
    searchThink text =
      (searchThink (cut openTag text).2).map (Match.prepend (cut openTag text).1) := by
  induction text with
  | nil => rfl
  | cons c cs ih =>
      rw [cut]
      split_ifs with hmeets
      · rw [map_prepend_nil]
      · rw [searchThink_cons fun hp => hmeets (.inl hp), ih, map_prepend_prepend]
        rfl

theorem searchThink_append_left (h : '<' ∉ front) :
    searchThink (front ++ text) = (searchThink text).map (Match.prepend front) := by
  induction front with
  | nil => rw [List.nil_append, map_prepend_nil]
  | cons c cs ih =>
      rw [List.mem_cons, not_or] at h
      have hopen : ¬openTag <+: c :: (cs ++ text) := fun hp =>
        h.1 (List.cons_prefix_cons.mp hp).1
      rw [List.cons_append, searchThink_cons hopen, ih h.2, map_prepend_prepend]
      rfl

theorem matchThink_append_right (h : '>' ∉ back) :
    matchThink (text ++ back) = (matchThink text).map (Match.append back) := by
  have hopen : openTag <+: text ++ back ↔ openTag <+: text :=
    prefix_append_iff ['<', 't', 'h', 'i', 'n', 'k'] h
  rw [matchThink, matchThink]
  simp only [hopen]
  split_ifs with hp
  · obtain ⟨inside, rfl⟩ := hp
    have hfind : find closeTag (inside ++ back) = find closeTag inside :=
      find_append_right ['<', '/', 't', 'h', 'i', 'n', 'k'] h
    rw [List.append_assoc, List.drop_left, List.drop_left, hfind]
    cases hi : find closeTag inside with
    | none => rfl
    | some i =>
        have hle := (find_eq_some hi).2
        simp only [Option.map_some, Match.append]
        rw [List.take_append_of_le_length (by omega), List.drop_append_of_le_length hle]
  · rfl

theorem searchThink_append_right (h : '>' ∉ back) :
    searchThink (text ++ back) = (searchThink text).map (Match.append back) := by
  have hnone : ∀ back : List Char, '>' ∉ back → searchThink back = none := by
    intro back hback
    cases hm : searchThink back with
    | none => rfl
    | some m =>
        refine absurd ?_ hback
        rw [searchThink_text hm]
        simp [openTag]
  induction text with
  | nil =>
      rw [List.nil_append, hnone back h]
      rfl
  | cons c cs ih =>
      rw [List.cons_append, searchThink, searchThink, ← List.cons_append,
        matchThink_append_right h, ih]
      cases matchThink (c :: cs) with
      | some m => rfl
      | none => cases searchThink cs <;> rfl

theorem removeThink_prepend
    (h : searchThink (front ++ text) = (searchThink text).map (Match.prepend front)) :
    removeThink (front ++ text) = front ++ removeThink text := by
  cases hm : searchThink text with
  | none =>
      rw [hm] at h
      rw [removeThink_of_none h, removeThink_of_none hm]
  | some m =>
      rw [hm] at h
      rw [removeThink_of_some h, removeThink_of_some hm, ← List.append_assoc]
      rfl

theorem removeThink_append_right (h : '>' ∉ back) :
    removeThink (text ++ back) = removeThink text ++ back := by
  induction hn : text.length using Nat.strong_induction_on generalizing text with
  | _ n ih =>
      have hsearch := @searchThink_append_right text back h
      cases hm : searchThink text with
      | none =>
          rw [hm] at hsearch
          rw [removeThink_of_none hsearch, removeThink_of_none hm]
      | some m =>
          rw [hm] at hsearch
          have hrest := searchThink_rest hm
          rw [removeThink_of_some hsearch, removeThink_of_some hm]
          change m.before ++ removeThink (m.rest ++ back) = _
          rw [ih m.rest.length (by omega) rfl, List.append_assoc]

theorem removeThink_cut (text : List Char) :
    removeThink text = (cut openTag text).1 ++ removeThink (cut openTag text).2 := by
  have happend := cut_append_cut openTag text
  have hsearch := searchThink_cut text
  rw [← happend] at hsearch
  nth_rewrite 1 [← happend]
  refine removeThink_prepend ?_
  rw [hsearch, happend]

/-! ### Blanks -/

theorem exists_trim (text : List Char) :
    ∃ front back, text = front ++ trim text ++ back ∧ (∀ c ∈ front, isSpace c = true) ∧
      ∀ c ∈ back, isSpace c = true := by
  obtain ⟨front, hfront, hblank⟩ := exists_lstrip text
  obtain ⟨back, hback, hblank'⟩ := exists_rstrip (lstrip text)
  refine ⟨front, back, ?_, hblank, hblank'⟩
  rw [trim, List.append_assoc, ← hback]
  exact hfront

theorem trim_pad (hfront : ∀ c ∈ front, isSpace c = true) (hback : ∀ c ∈ back, isSpace c = true) :
    trim (front ++ text ++ back) = trim text := by
  rw [trim_append hback, trim, lstrip_append hfront]
  rfl

theorem searchThink_pad (hfront : ∀ c ∈ front, isSpace c = true)
    (hback : ∀ c ∈ back, isSpace c = true) :
    searchThink (front ++ text ++ back)
      = ((searchThink text).map (Match.prepend front)).map (Match.append back) := by
  have hopen : '<' ∉ front := fun hmem => absurd (hfront _ hmem) (by decide)
  have hclose : '>' ∉ back := fun hmem => absurd (hback _ hmem) (by decide)
  rw [searchThink_append_right hclose, searchThink_append_left hopen]

theorem removeThink_pad (hfront : ∀ c ∈ front, isSpace c = true)
    (hback : ∀ c ∈ back, isSpace c = true) :
    removeThink (front ++ text ++ back) = front ++ removeThink text ++ back := by
  have hopen : '<' ∉ front := fun hmem => absurd (hfront _ hmem) (by decide)
  have hclose : '>' ∉ back := fun hmem => absurd (hback _ hmem) (by decide)
  rw [removeThink_append_right hclose, removeThink_prepend (searchThink_append_left hopen)]

@[simp] theorem getD_orNone (text : List Char) : (orNone text).getD [] = text := by
  rw [orNone]
  split_ifs with h
  · exact h.symm
  · rfl

theorem split_content (hne : text ≠ []) :
    splitTaggedThinking (some text) none =
      (searchThink text).elim (some text, none) fun m =>
        (orNone (trim (removeThink text)), orNone (trim m.body)) := by
  obtain ⟨c, cs, rfl⟩ := List.exists_cons_of_ne_nil hne
  cases hm : searchThink (c :: cs) <;> simp only [splitTaggedThinking, hm, Option.elim]

/-- **How a content and a reasoning that were put together from pieces are read**: the tags are
those of the content, blanks included. -/
theorem split_trim (content thinking : List Char) :
    splitTaggedThinking (orNone (trim content)) (orNone (trim thinking)) =
      if trim thinking = [] then
        (searchThink content).elim (orNone (trim content), none) fun m =>
          (orNone (trim (removeThink content)), orNone (trim m.body))
      else (orNone (trim content), some (trim thinking)) := by
  by_cases hthinking : trim thinking = []
  · rw [if_pos hthinking, hthinking, show orNone [] = none from rfl]
    obtain ⟨front, back, hcontent, hfront, hback⟩ := exists_trim content
    generalize trim content = text at hcontent
    subst hcontent
    rw [searchThink_pad hfront hback, removeThink_pad hfront hback, trim_pad hfront hback]
    cases text with
    | nil => rfl
    | cons c cs =>
        rw [orNone, if_neg (List.cons_ne_nil c cs), split_content (List.cons_ne_nil c cs)]
        cases searchThink (c :: cs) <;> rfl
  · rw [if_neg hthinking, orNone.eq_def (trim thinking), if_neg hthinking]
    rfl

/-! ### Texts up to blanks -/

/-- Two texts are the same up to the blanks around them and around a break between two blocks. -/
def SameBlocks (preview text : List Char) : Prop :=
  ∃ before after, preview = before ++ trim after ∧ text = trim (before ++ after)

/-- The characters of a text that are no blanks. -/
def solid (text : List Char) : ℕ :=
  text.countP fun c => !isSpace c

theorem sameBlocks_trim (text : List Char) : SameBlocks text (trim text) :=
  ⟨text, [], by rw [trim_nil, List.append_nil], by rw [List.append_nil]⟩

theorem solid_append (front back : List Char) : solid (front ++ back) = solid front + solid back :=
  List.countP_append

theorem solid_of_blank (h : ∀ c ∈ text, isSpace c = true) : solid text = 0 := by
  refine List.countP_eq_zero.mpr fun c hc => ?_
  rw [h c hc]
  decide

theorem solid_trim (text : List Char) : solid (trim text) = solid text := by
  obtain ⟨front, back, htext, hfront, hback⟩ := exists_trim text
  nth_rewrite 2 [htext]
  rw [solid_append, solid_append, solid_of_blank hfront, solid_of_blank hback]
  omega

theorem SameBlocks.solid_eq {preview : List Char} (h : SameBlocks preview text) :
    solid preview = solid text := by
  obtain ⟨before, after, rfl, rfl⟩ := h
  rw [solid_append, solid_trim, solid_trim, solid_append]

theorem solid_removeThink_le (text : List Char) : solid (removeThink text) ≤ solid text := by
  induction hn : text.length using Nat.strong_induction_on generalizing text with
  | _ n ih =>
      cases hm : searchThink text with
      | none => rw [removeThink_of_none hm]
      | some m =>
          have hrest := searchThink_rest hm
          have hle := ih m.rest.length (by omega) m.rest rfl
          have htext := congrArg solid (searchThink_text hm)
          rw [removeThink_of_some hm]
          simp only [solid_append] at htext ⊢
          omega

theorem solid_removeThink_lt (h : searchThink text = some m) :
    solid (removeThink text) < solid text := by
  have hle := solid_removeThink_le m.rest
  have htag : solid openTag = 7 := by decide
  have htext := congrArg solid (searchThink_text h)
  rw [removeThink_of_some h]
  simp only [solid_append] at htext ⊢
  omega

end Kirakira.Stream
