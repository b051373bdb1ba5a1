import Mathlib.Data.List.Forall2
import Mathlib.Order.Interval.Set.Basic
import Mathlib.Order.Interval.Set.UnorderedInterval
import Kirakira.Lib.Rounding
import Kirakira.Lines

/-!
# Clipped Summaries

`clip_summary` of `plugins/compaction/message_summary.py`: a summary is cut to a part of what
stands under each of its headings. The ratio is a number between zero and one; its product with
the length of a section is rounded as a floating-point number is.

A section that is cut to nothing has the marker of the cut glued to its heading, which then is
none: what followed it goes to the section before. This is what happens to every section with a
text at ratio zero, and to a text of one character at every ratio below one. Nothing else goes
wrong (`clipContract_iff`).

## Main results

* `contents_clipSummary` — what the sections of a clipped summary hold, where none is lost.
* `headingLines_clipSummary` — the headings that are left.
* `clipContract_iff` — the headings are kept exactly when no section is cut to nothing.
-/

namespace Kirakira.Compaction

open Lines Rounding

/-! ### Definitions -/

/-- `HEADINGS`. -/
def headings : List (List Char) :=
  ["## Goal", "## Constraints & Preferences", "## Progress", "### Done", "### In Progress",
    "### Blocked", "## Key Decisions", "## Next Steps", "## Critical Context"].map String.toList

/-- What marks a cut. -/
def clipMarker : List Char :=
  "…（篇幅所限已截断）".toList

/-- The loop of `clip_summary` over the lines: `index` is that of the section being read. -/
def readBodies : ℕ → List (List (List Char)) → List (List Char) → List (List (List Char))
  | _, bodies, [] => bodies
  | index, bodies, line :: lines =>
      if trim line ∈ headings then readBodies (headings.idxOf (trim line)) bodies lines
      else readBodies index (bodies.modify index (· ++ [line])) lines

/-- What stands under each heading. -/
def contents (text : List Char) : List (List Char) :=
  (readBodies 0 (headings.map fun _ => []) (splitLines text)).map fun body => trim (joinLines body)

/-- `int(len(content) * ratio)`. -/
def keepLength (length : ℕ) (ratio : Set.Icc (0 : ℚ) 1) : ℕ :=
  ⌊roundBinary 53 (roundBinary 53 (length : ℚ) * ratio)⌋.toNat

/-- The part of a section that is kept. -/
def keep (ratio : Set.Icc (0 : ℚ) 1) (content : List Char) : List Char :=
  rstrip (content.take (keepLength content.length ratio))

/-- A section of the clipped summary. -/
def clipSection (ratio : Set.Icc (0 : ℚ) 1) (heading content : List Char) : List Char :=
  heading ++ (if keep ratio content ≠ [] then '\n' :: keep ratio content else []) ++
    (if keep ratio content ≠ content then clipMarker else [])

/-- `clip_summary`. -/
def clipSummary (text : List Char) (ratio : Set.Icc (0 : ℚ) 1) : List Char :=
  joinLines (List.zipWith (clipSection ratio) headings (contents text))

/-- The headings that `_summarize` reads off a response. -/
def checkedHeadings (content : List Char) : List (List Char) :=
  ((splitLines (trim content)).filter fun line => (lstrip line).head? = some '#').map trim

/-- The heading check of `_summarize`. -/
def FollowsHeadings (content : List Char) : Prop :=
  checkedHeadings content = headings

/-- The lines of a text that are headings once stripped. -/
def headingLines (text : List Char) : List (List Char) :=
  ((splitLines text).map trim).filter (· ∈ headings)

/-- A part of the content of a section, with the marker or without. -/
def ClippedFrom (clipped content : List Char) : Prop :=
  ∃ kept, kept <+: content ∧ (clipped = kept ∨ clipped = kept ++ clipMarker)

/-- What clipping is to keep. -/
structure ClipContract (text : List Char) (ratio : Set.Icc (0 : ℚ) 1) : Prop where
  /-- The headings are there, in order. -/
  headings : headingLines (clipSummary text ratio) = headings
  /-- Read again, each section holds a part of its own content. -/
  contents : List.Forall₂ ClippedFrom (contents (clipSummary text ratio)) (contents text)
  /-- A summary that follows the headings still does. -/
  follows : FollowsHeadings text → FollowsHeadings (clipSummary text ratio)

/-- No section with a text is cut to nothing. -/
def SectionsKept (text : List Char) (ratio : Set.Icc (0 : ℚ) 1) : Prop :=
  ∀ content ∈ contents text, content ≠ [] → 1 ≤ keepLength content.length ratio

/-- No line within the length that is kept of a section begins as headings do. -/
def NoOtherHeading (text : List Char) (ratio : Set.Icc (0 : ℚ) 1) : Prop :=
  ∀ content ∈ contents text, ∀ line ∈ splitLines (content.take (keepLength content.length ratio)),
    (lstrip line).head? ≠ some '#'

/-! ### Lengths -/

@[simp] theorem keepLength_zero (length : ℕ) :
    keepLength length ⟨0, Set.left_mem_Icc.mpr zero_le_one⟩ = 0 := by
  rw [keepLength, mul_zero, roundBinary_zero, Int.floor_zero, Int.toNat_zero]

theorem one_le_roundBinary {x : ℚ} (hx : 1 ≤ x) : 1 ≤ roundBinary 53 x := by
  have hlog : 0 ≤ Int.log 2 x := by
    rw [← Int.zpow_le_iff_le_log one_lt_two (by linarith)]
    simpa using hx
  calc (1 : ℚ) ≤ 2 ^ Int.log 2 x := one_le_zpow₀ one_le_two hlog
    _ ≤ roundBinary 53 x := zpow_log_le_roundBinary (by norm_num) (by linarith)

theorem one_le_keepLength {length : ℕ} (h : 1 ≤ length) :
    1 ≤ keepLength length ⟨1, Set.right_mem_Icc.mpr zero_le_one⟩ := by
  have hlength : (1 : ℚ) ≤ roundBinary 53 (length : ℚ) := one_le_roundBinary (by exact_mod_cast h)
  have hproduct : (1 : ℚ) ≤ roundBinary 53 (roundBinary 53 (length : ℚ) * 1) :=
    one_le_roundBinary (by rwa [mul_one])
  have hfloor : (1 : ℤ) ≤ ⌊roundBinary 53 (roundBinary 53 (length : ℚ) * 1)⌋ :=
    Int.le_floor.mpr (by exact_mod_cast hproduct)
  change 1 ≤ ⌊roundBinary 53 (roundBinary 53 (length : ℚ) * 1)⌋.toNat
  omega

/-! ### Headings -/

theorem headings_spec : headings.Nodup ∧
    ∀ heading ∈ headings, trim heading = heading ∧ heading.head? = some '#' ∧
      (∀ c ∈ heading, isBreak c = false) ∧ heading.getLast? ≠ some '）' := by
  have h : ∀ heading ∈ headings, trim heading = heading ∧ heading.head? = some '#' ∧
      (heading.all fun c => !isBreak c) = true ∧ heading.getLast? ≠ some '）' := by decide
  refine ⟨by decide, fun heading hheading => ?_⟩
  obtain ⟨htrim, hhead, hbreaks, hlast⟩ := h heading hheading
  exact ⟨htrim, hhead, fun c hc => by simpa using List.all_eq_true.mp hbreaks c hc, hlast⟩

theorem clipMarker_spec : (∀ c ∈ clipMarker, isSpace c = false) ∧
    clipMarker.getLast? = some '）' := by
  have h : (clipMarker.all fun c => !isSpace c) = true := by decide
  exact ⟨fun c hc => by simpa using List.all_eq_true.mp h c hc, by decide⟩

theorem trim_glued : ∀ heading ∈ headings, trim (heading ++ clipMarker) = heading ++ clipMarker := by
  decide

variable {heading : List Char}

theorem heading_ne_nil (h : heading ∈ headings) : heading ≠ [] := by
  rintro rfl
  have := (headings_spec.2 [] h).2.1
  cases this

theorem glued_not_mem (cs : List Char) : cs ++ clipMarker ∉ headings := by
  intro h
  refine (headings_spec.2 _ h).2.2.2 ?_
  rw [List.getLast?_append, clipMarker_spec.2]
  rfl

theorem headingLines_eq (text : List Char) :
    headingLines text = (nonblank text).filter (· ∈ headings) := by
  rw [← trimmed_splitLines, trimmed, List.filter_filter, headingLines]
  refine List.filter_congr fun line _ => ?_
  by_cases hmem : line ∈ headings
  · simp [hmem, heading_ne_nil hmem]
  · simp [hmem]

theorem head_trim {line : List Char} {c : Char} (hc : isSpace c = false) :
    (lstrip line).head? = some c ↔ (trim line).head? = some c := by
  constructor
  · intro h
    cases hline : lstrip line with
    | nil => rw [hline] at h; cases h
    | cons d ds =>
        rw [hline] at h
        obtain rfl : d = c := Option.some.inj h
        have hkeep := List.rdropWhile_prefix isSpace (d :: ds)
        rw [trim, hline, rstrip]
        cases hstrip : List.rdropWhile isSpace (d :: ds) with
        | nil =>
            have := List.rdropWhile_eq_nil_iff.mp hstrip d List.mem_cons_self
            rw [hc] at this
            cases this
        | cons e es =>
            rw [hstrip] at hkeep
            rw [(List.cons_prefix_cons.mp hkeep).1]
            rfl
  · exact fun h => head?_of_isPrefix (List.rdropWhile_prefix isSpace _) c h

theorem head_splitLines (text : List Char) :
    (∀ line ∈ nonblank text, line.head? ≠ some '#') ↔
      ∀ line ∈ splitLines text, (lstrip line).head? ≠ some '#' := by
  rw [← trimmed_splitLines, trimmed]
  constructor
  · intro h line hline hhead
    have htrim := (@head_trim line '#' (by decide)).mp hhead
    refine h (trim line) ?_ htrim
    rw [List.mem_filter, decide_eq_true_iff]
    refine ⟨List.mem_map_of_mem hline, fun hnil => ?_⟩
    rw [hnil] at htrim
    cases htrim
  · intro h l hl hhead
    obtain ⟨line, hline, rfl⟩ := List.mem_map.mp (List.mem_filter.mp hl).1
    exact h line hline ((@head_trim line '#' (by decide)).mpr hhead)

theorem checkedHeadings_eq (text : List Char) :
    checkedHeadings text = (nonblank text).filter (·.head? = some '#') := by
  rw [← nonblank_trim, ← trimmed_splitLines, trimmed, checkedHeadings, List.filter_filter,
    List.filter_map]
  refine congrArg (List.map trim) (List.filter_congr fun line _ => ?_)
  have hiff := @head_trim line '#' (by decide)
  by_cases hhead : (trim line).head? = some '#'
  · have hne : trim line ≠ [] := by
      intro hnil
      rw [hnil] at hhead
      cases hhead
    simp [hiff.mpr hhead, hhead, hne]
  · simp [mt hiff.mp hhead, hhead]

/-! ### Reading sections -/

theorem readBodies_body {body : List (List Char)} (h : ∀ line ∈ body, trim line ∉ headings)
    (index : ℕ) (bodies : List (List (List Char))) (rest : List (List Char)) :
    readBodies index bodies (body ++ rest) =
      readBodies index (bodies.modify index (· ++ body)) rest := by
  induction body generalizing bodies with
  | nil =>
      have hid : (fun body : List (List Char) => body ++ []) = id := funext List.append_nil
      rw [hid, List.modify_id, List.nil_append]
  | cons line body ih =>
      have hcomp : (fun body' : List (List Char) => body' ++ body) ∘ (· ++ [line]) =
          fun body' => body' ++ line :: body := by
        funext body'
        rw [Function.comp, List.append_assoc, List.singleton_append]
      rw [List.cons_append, readBodies, if_neg (h line List.mem_cons_self),
        ih (fun l hl => h l (List.mem_cons_of_mem _ hl)), List.modify_modify_eq, hcomp]

theorem readBodies_heading {front rest : List (List Char)} (h : headings = front ++ heading :: rest)
    (index : ℕ) (bodies : List (List (List Char))) (lines : List (List Char)) :
    readBodies index bodies (heading :: lines) = readBodies front.length bodies lines := by
  have hmem : heading ∈ headings := h ▸ List.mem_append_right _ List.mem_cons_self
  have hnot : heading ∉ front := by
    intro hfront
    have hnodup := headings_spec.1
    rw [h] at hnodup
    exact List.disjoint_of_nodup_append hnodup hfront List.mem_cons_self
  rw [readBodies, (headings_spec.2 heading hmem).1, if_pos hmem]
  conv_lhs => rw [h, List.idxOf_append_of_notMem hnot, List.idxOf_cons_self, Nat.add_zero]

/-- **Sections under their headings are read back.** -/
theorem readBodies_sections {front rest : List (List Char)} {filled bodies : List (List (List Char))}
    (hheadings : headings = front ++ rest) (hfilled : filled.length = front.length)
    (hlength : bodies.length = rest.length)
    (hbodies : ∀ body ∈ bodies, ∀ line ∈ body, trim line ∉ headings) (index : ℕ) :
    readBodies index (filled ++ rest.map fun _ => []) (List.zipWith (· :: ·) rest bodies).flatten =
      filled ++ bodies := by
  induction rest generalizing front filled bodies index with
  | nil =>
      rw [List.eq_nil_of_length_eq_zero hlength]
      rfl
  | cons heading rest ih =>
      cases bodies with
      | nil => cases hlength
      | cons body bodies =>
          have hmodify : (filled ++ (heading :: rest).map fun _ => []).modify front.length
              (· ++ body) = (filled ++ [body]) ++ rest.map fun _ => [] := by
            rw [← hfilled, List.modify_eq_take_cons_drop (by simp), List.take_left]
            simp
          have hnext := @ih (front ++ [heading]) (filled ++ [body]) bodies
            (by rw [hheadings, List.append_assoc, List.singleton_append]) (by simp [hfilled])
            (Nat.succ.inj hlength) fun b hb => hbodies b (List.mem_cons_of_mem _ hb)
          rw [List.zipWith_cons_cons, List.flatten_cons, List.cons_append,
            readBodies_heading hheadings,
            readBodies_body (hbodies body List.mem_cons_self), hmodify, hnext,
            List.append_assoc, List.singleton_append]

theorem mem_readBodies {P : List Char → Prop} {index : ℕ} {bodies : List (List (List Char))}
    {lines : List (List Char)} (hbodies : ∀ body ∈ bodies, ∀ line ∈ body, P line)
    (hlines : ∀ line ∈ lines, trim line ∉ headings → P line) :
    ∀ body ∈ readBodies index bodies lines, ∀ line ∈ body, P line := by
  induction lines generalizing index bodies with
  | nil => exact hbodies
  | cons line lines ih =>
      have hrest : ∀ l ∈ lines, trim l ∉ headings → P l :=
        fun l hl => hlines l (List.mem_cons_of_mem _ hl)
      rw [readBodies]
      split_ifs with hmem
      · exact ih hbodies hrest
      · refine ih (fun body hbody => ?_) hrest
        obtain ⟨i, hi⟩ := List.mem_iff_getElem?.mp hbody
        rw [List.getElem?_modify] at hi
        cases hold : bodies[i]? with
        | none => rw [hold] at hi; cases hi
        | some old =>
            have hmemold := hbodies old (List.mem_of_getElem? hold)
            rw [hold, Option.map_eq_map, Option.map_some] at hi
            split_ifs at hi
            · obtain rfl := Option.some.inj hi
              intro l hl
              rcases List.mem_append.mp hl with hl | hl
              · exact hmemold l hl
              · rw [List.mem_singleton.mp hl]
                exact hlines line List.mem_cons_self hmem
            · obtain rfl := Option.some.inj hi
              exact hmemold

@[simp] theorem length_readBodies (index : ℕ) (bodies : List (List (List Char)))
    (lines : List (List Char)) : (readBodies index bodies lines).length = bodies.length := by
  induction lines generalizing index bodies with
  | nil => rfl
  | cons line lines ih =>
      rw [readBodies]
      split_ifs
      · rw [ih]
      · rw [ih, List.length_modify]

@[simp] theorem length_contents (text : List Char) : (contents text).length = headings.length := by
  rw [contents, List.length_map, length_readBodies, List.length_map]

/-! ### Sections -/

/-- What is known of the content of a section. -/
structure IsContent (content : List Char) : Prop where
  tight : Tight content
  newlines : ∀ c ∈ content, isBreak c = true → c = '\n'
  noHeading : ∀ line ∈ nonblank content, line ∉ headings

theorem newline_of_mem_joinLines {lines : List (List Char)}
    (h : ∀ line ∈ lines, ∀ c ∈ line, isBreak c = false) :
    ∀ c ∈ joinLines lines, isBreak c = true → c = '\n' := by
  induction lines with
  | nil => intro c hc; cases hc
  | cons line lines ih =>
      have hrest := ih fun l hl => h l (List.mem_cons_of_mem _ hl)
      have hline : ∀ c ∈ line, isBreak c = true → c = '\n' := by
        intro c hc hbreak
        rw [h line List.mem_cons_self c hc] at hbreak
        cases hbreak
      by_cases hne : lines = []
      · rwa [hne, joinLines_singleton]
      · rw [joinLines_cons line hne]
        intro c hc
        rcases List.mem_append.mp hc with hc | hc
        · exact hline c hc
        · rcases List.mem_cons.mp hc with rfl | hc
          · exact fun _ => rfl
          · exact hrest c hc

variable {text : List Char}

/-- **What each section holds.** -/
theorem isContent_of_mem {content : List Char} (h : content ∈ contents text) :
    IsContent content ∧
      ∀ line ∈ nonblank content, line ∈ nonblank text := by
  obtain ⟨body, hbody, rfl⟩ := List.mem_map.mp h
  have hlines : ∀ line ∈ body, (∀ c ∈ line, isBreak c = false) ∧ trim line ∉ headings ∧
      line ∈ splitLines text := by
    refine mem_readBodies (P := fun line => (∀ c ∈ line, isBreak c = false) ∧
      trim line ∉ headings ∧ line ∈ splitLines text) ?_ ?_ body hbody
    · intro b hb line hline
      obtain ⟨-, -, rfl⟩ := List.mem_map.mp hb
      cases hline
    · exact fun line hline hnot => ⟨isBreak_of_mem_splitLines line hline, hnot, hline⟩
  have hnonblank : nonblank (trim (joinLines body)) = trimmed body := by
    rw [nonblank_trim, nonblank_joinLines fun line hline => (hlines line hline).1]
  refine ⟨⟨tight_trim _, fun c hc => ?_, fun line hline => ?_⟩, fun line hline => ?_⟩
  · refine newline_of_mem_joinLines (fun line hline => (hlines line hline).1) c ?_
    exact (List.dropWhile_suffix isSpace).subset ((List.rdropWhile_prefix isSpace _).subset hc)
  · rw [hnonblank, trimmed, List.mem_filter] at hline
    obtain ⟨l, hl, rfl⟩ := List.mem_map.mp hline.1
    exact (hlines l hl).2.1
  · rw [hnonblank, trimmed, List.mem_filter] at hline
    obtain ⟨l, hl, rfl⟩ := List.mem_map.mp hline.1
    rw [← trimmed_splitLines, trimmed, List.mem_filter]
    exact ⟨List.mem_map_of_mem (hlines l hl).2.2, hline.2⟩

variable {ratio : Set.Icc (0 : ℚ) 1} {content : List Char}

/-- What is left of a section. -/
def clipped (ratio : Set.Icc (0 : ℚ) 1) (content : List Char) : List Char :=
  keep ratio content ++ if keep ratio content ≠ content then clipMarker else []

/-- Whether a section with a text is cut to nothing. -/
def Lost (ratio : Set.Icc (0 : ℚ) 1) (content : List Char) : Prop :=
  content ≠ [] ∧ keep ratio content = []

instance : Decidable (Lost ratio content) :=
  inferInstanceAs (Decidable (_ ∧ _))

theorem keep_isPrefix (ratio : Set.Icc (0 : ℚ) 1) (content : List Char) :
    keep ratio content <+: content :=
  (List.rdropWhile_prefix isSpace _).trans (List.take_prefix _ _)

theorem lost_iff (h : Tight content) :
    Lost ratio content ↔ content ≠ [] ∧ ¬1 ≤ keepLength content.length ratio := by
  refine and_congr_right fun hne => ⟨fun hkeep hlength => ?_, fun hlength => ?_⟩
  · obtain ⟨c, cs, rfl⟩ := List.exists_cons_of_ne_nil hne
    have hspace := List.rdropWhile_eq_nil_iff.mp hkeep c (by
      obtain ⟨n, hn⟩ := Nat.exists_eq_add_of_le' hlength
      rw [hn, List.take_succ_cons]
      exact List.mem_cons_self)
    rw [h.head c rfl] at hspace
    cases hspace
  · rw [keep, Nat.eq_zero_of_not_pos hlength, List.take_zero]
    rfl

theorem isContent_clipMarker : IsContent clipMarker where
  tight := by
    constructor
    · exact fun c hc => clipMarker_spec.1 c (List.mem_of_mem_head? hc)
    · exact fun c hc => clipMarker_spec.1 c (List.mem_of_mem_getLast? hc)
  newlines c hc hbreak := by
    rw [isBreak_of_not_isSpace (clipMarker_spec.1 c hc)] at hbreak
    cases hbreak
  noHeading := by decide

/-- **The last line of a cut section**, and the marker after it. -/
theorem exists_clipped (hcut : keep ratio content ≠ content)
    (hkeep : keep ratio content ≠ []) :
    ∃ front line, line ≠ [] ∧ (∀ l ∈ front, l ∈ nonblank content) ∧
      nonblank (keep ratio content) = front ++ [line] ∧
      nonblank (clipped ratio content) = front ++ [line ++ clipMarker] := by
  obtain ⟨front, line, hno, hline, hlast, hparts⟩ := exists_last_line hkeep (last_rstrip _)
  have hmarker : ∀ c ∈ clipMarker, isBreak c = false :=
    fun c hc => isBreak_of_not_isSpace (clipMarker_spec.1 c hc)
  have hend : ∀ c ∈ (line ++ clipMarker).getLast?, isSpace c = false := by
    intro c hc
    rw [List.getLast?_append, clipMarker_spec.2] at hc
    obtain rfl : '）' = c := Option.some.inj hc
    decide
  have hglued := @nonblank_glue line clipMarker
    (fun c hc => (List.mem_append.mp hc).elim (hno c) (hmarker c)) hline hend
  have halone := @nonblank_glue line [] (by rwa [List.append_nil]) hline
    (by rwa [List.append_nil])
  obtain ⟨rest, hrest⟩ := keep_isPrefix ratio content
  refine ⟨front, lstrip line, hline, fun l hl => ?_, ?_, ?_⟩
  · rw [← hrest, hparts]
    exact List.mem_append_left _ hl
  · rw [← List.append_nil (keep ratio content), hparts, halone, List.append_nil]
  · rw [clipped, if_pos hcut, hparts, hglued]

/-- **What is left of a section is the content of one.** -/
theorem IsContent.clipped (h : IsContent content) : IsContent (clipped ratio content) := by
  by_cases hcut : keep ratio content = content
  · rwa [Compaction.clipped, if_neg (not_not.mpr hcut), List.append_nil, hcut]
  by_cases hkeep : keep ratio content = []
  · rw [Compaction.clipped, if_pos hcut, hkeep]
    exact isContent_clipMarker
  obtain ⟨front, line, -, hfront, -, hclipped⟩ := exists_clipped hcut hkeep
  refine ⟨⟨fun c hc => ?_, fun c hc => ?_⟩, fun c hc => ?_, fun l hl => ?_⟩
  · rw [Compaction.clipped, List.head?_append_of_ne_nil _ hkeep] at hc
    exact (h.tight.rstrip (List.take_prefix _ _)).head c hc
  · rw [Compaction.clipped, if_pos hcut, List.getLast?_append, clipMarker_spec.2] at hc
    obtain rfl : '）' = c := Option.some.inj hc
    decide
  · rw [Compaction.clipped, if_pos hcut] at hc
    rcases List.mem_append.mp hc with hc | hc
    · exact h.newlines c ((keep_isPrefix ratio content).subset hc)
    · exact isContent_clipMarker.newlines c hc
  · rw [hclipped, List.mem_append, List.mem_singleton] at hl
    rcases hl with hl | rfl
    · exact h.noHeading l (hfront l hl)
    · exact glued_not_mem line

theorem clippedFrom_clipped (ratio : Set.Icc (0 : ℚ) 1) (content : List Char) :
    ClippedFrom (clipped ratio content) content := by
  refine ⟨keep ratio content, keep_isPrefix ratio content, ?_⟩
  rw [clipped]
  split_ifs
  · exact .inr rfl
  · exact .inl (List.append_nil _)

theorem head_clipped (h : IsContent content) (hlost : ¬Lost ratio content) :
    (∀ line ∈ nonblank (clipped ratio content), line.head? ≠ some '#') ↔
      ∀ line ∈ nonblank (keep ratio content), line.head? ≠ some '#' := by
  by_cases hcut : keep ratio content = content
  · rw [clipped, if_neg (not_not.mpr hcut), List.append_nil]
  have hkeep : keep ratio content ≠ [] := by
    intro hkeep
    refine hlost ⟨?_, hkeep⟩
    rintro rfl
    exact hcut hkeep
  obtain ⟨front, line, hline, -, hkept, hclipped⟩ := exists_clipped hcut hkeep
  obtain ⟨c, cs, rfl⟩ := List.exists_cons_of_ne_nil hline
  rw [hkept, hclipped]
  simp only [List.mem_append, List.mem_singleton, or_imp, forall_and, forall_eq, List.cons_append,
    List.head?_cons]

theorem splitLines_clipSection (hheading : heading ∈ headings) (h : IsContent content) :
    EndsPlain (clipSection ratio heading content) ∧
      splitLines (clipSection ratio heading content) =
        if Lost ratio content then [heading ++ clipMarker]
        else heading :: splitLines (clipped ratio content) := by
  have hne := heading_ne_nil hheading
  have hplain := (headings_spec.2 heading hheading).2.2.1
  have hmarker : ∀ c ∈ clipMarker, isBreak c = false :=
    fun c hc => isBreak_of_not_isSpace (clipMarker_spec.1 c hc)
  have hends : ∀ cs : List Char, (∀ c ∈ cs.getLast?, isBreak c = false) → cs ≠ [] →
      EndsPlain cs := by
    intro cs hlast hne
    exact ⟨cs.dropLast, cs.getLast hne, (List.dropLast_append_getLast hne).symm,
      hlast _ (List.getLast?_eq_getLast_of_ne_nil hne)⟩
  have hheadingEnds : EndsPlain heading :=
    hends heading (fun c hc => hplain c (List.mem_of_mem_getLast? hc)) hne
  by_cases hkeep : keep ratio content = []
  · by_cases hcontent : content = []
    · have hlost : ¬Lost ratio content := fun hlost => hlost.1 hcontent
      have hclipped : clipped ratio content = [] := by
        rw [clipped, hkeep, hcontent]
        rfl
      have hsection : clipSection ratio heading content = heading := by
        rw [clipSection, hkeep, hcontent]
        simp
      rw [hsection, if_neg hlost, hclipped, splitLines_of_no_break hplain hne]
      exact ⟨hheadingEnds, rfl⟩
    · have hsection : clipSection ratio heading content = heading ++ clipMarker := by
        rw [clipSection, hkeep, if_neg (not_not.mpr rfl), if_pos (Ne.symm hcontent),
          List.append_nil]
      have hno : ∀ c ∈ heading ++ clipMarker, isBreak c = false :=
        fun c hc => (List.mem_append.mp hc).elim (hplain c) (hmarker c)
      have hglued : heading ++ clipMarker ≠ [] := List.append_ne_nil_of_left_ne_nil hne _
      rw [hsection, if_pos ⟨hcontent, hkeep⟩, splitLines_of_no_break hno hglued]
      exact ⟨hends _ (fun c hc => hno c (List.mem_of_mem_getLast? hc)) hglued, rfl⟩
  · have hlost : ¬Lost ratio content := fun hlost => hkeep hlost.2
    have hsection : clipSection ratio heading content =
        heading ++ '\n' :: clipped ratio content := by
      rw [clipSection, if_pos hkeep, clipped, List.append_assoc, List.cons_append]
    have hclipped : clipped ratio content ≠ [] := List.append_ne_nil_of_left_ne_nil hkeep _
    rw [hsection, if_neg hlost, splitLines_append hheadingEnds, splitLines_of_no_break hplain hne]
    refine ⟨hends _ (fun c hc => ?_) (List.append_ne_nil_of_left_ne_nil hne _), rfl⟩
    have hcontent : IsContent (clipped ratio content) := h.clipped
    refine isBreak_of_not_isSpace (hcontent.tight.last c ?_)
    obtain ⟨d, hd⟩ := Option.ne_none_iff_exists'.mp (mt List.getLast?_eq_none_iff.mp hclipped)
    rw [List.getLast?_append, List.getLast?_cons, hd] at hc
    rw [hd]
    exact hc

/-! ### The clipped summary -/

/-- The headings with what stands under them. -/
def sections (text : List Char) : List (List Char × List Char) :=
  headings.zip (contents text)

theorem map_fst_sections (text : List Char) : (sections text).map Prod.fst = headings :=
  List.map_fst_zip (length_contents text).ge

theorem map_snd_sections (text : List Char) : (sections text).map Prod.snd = contents text :=
  List.map_snd_zip (length_contents text).le

theorem isContent_of_mem_sections {p : List Char × List Char} (h : p ∈ sections text) :
    p.1 ∈ headings ∧ p.2 ∈ contents text ∧ IsContent p.2 :=
  have hzip := List.of_mem_zip h
  ⟨hzip.1, hzip.2, (isContent_of_mem hzip.2).1⟩

/-- **The lines of a clipped summary.** -/
theorem splitLines_clipSummary (text : List Char) (ratio : Set.Icc (0 : ℚ) 1) :
    splitLines (clipSummary text ratio) = (sections text).flatMap fun p =>
      if Lost ratio p.2 then [p.1 ++ clipMarker] else p.1 :: splitLines (clipped ratio p.2) := by
  have hzip : List.zipWith (clipSection ratio) headings (contents text) =
      (sections text).map fun p => clipSection ratio p.1 p.2 := by
    rw [sections, List.zip, List.map_zipWith]
  rw [clipSummary, hzip, splitLines_joinLines, List.flatMap_map]
  · refine List.flatMap_congr fun p hp => ?_
    obtain ⟨hheading, -, hcontent⟩ := isContent_of_mem_sections hp
    exact (splitLines_clipSection hheading hcontent).2
  · intro cs hcs
    obtain ⟨p, hp, rfl⟩ := List.mem_map.mp hcs
    obtain ⟨hheading, -, hcontent⟩ := isContent_of_mem_sections hp
    exact (splitLines_clipSection hheading hcontent).1

theorem sectionsKept_iff : SectionsKept text ratio ↔ ∀ p ∈ sections text, ¬Lost ratio p.2 := by
  have hall : SectionsKept text ratio ↔ ∀ content ∈ contents text, ¬Lost ratio content := by
    refine forall₂_congr fun content hcontent => ?_
    rw [lost_iff (isContent_of_mem hcontent).1.tight, not_and, not_not]
  rw [hall, ← map_snd_sections, List.forall_mem_map]

/-- **Read again, a clipped summary** has what is left of each section, where none is lost. -/
theorem contents_clipSummary (h : SectionsKept text ratio) :
    contents (clipSummary text ratio) = (contents text).map (clipped ratio) := by
  have hlines : splitLines (clipSummary text ratio) =
      (List.zipWith (· :: ·) headings
        ((contents text).map fun content => splitLines (clipped ratio content))).flatten := by
    have hzip : List.zipWith (fun heading content => heading :: splitLines (clipped ratio content))
        headings (contents text) =
        (sections text).map fun p => p.1 :: splitLines (clipped ratio p.2) := by
      rw [sections, List.zip, List.map_zipWith]
    rw [splitLines_clipSummary, List.zipWith_map_right, hzip, List.flatMap]
    refine congrArg List.flatten (List.map_congr_left fun p hp => ?_)
    rw [if_neg (sectionsKept_iff.mp h p hp)]
  have hread := @readBodies_sections [] headings []
    ((contents text).map fun content => splitLines (clipped ratio content)) rfl rfl (by simp)
    (by
      intro body hbody line hline hmem
      obtain ⟨content, hcontent, rfl⟩ := List.mem_map.mp hbody
      have hclipped : IsContent (clipped ratio content) := (isContent_of_mem hcontent).1.clipped
      refine hclipped.noHeading (trim line) ?_ hmem
      rw [← trimmed_splitLines, trimmed, List.mem_filter]
      exact ⟨List.mem_map_of_mem hline, decide_eq_true (heading_ne_nil hmem)⟩) 0
  rw [List.nil_append, List.nil_append] at hread
  rw [contents, hlines, hread, List.map_map]
  refine List.map_congr_left fun content hcontent => ?_
  have hclipped : IsContent (clipped ratio content) := (isContent_of_mem hcontent).1.clipped
  rw [Function.comp, joinLines_splitLines hclipped.newlines
    fun c hc => isBreak_of_not_isSpace (hclipped.tight.last c hc), hclipped.tight.trim]

theorem nonblank_clipSummary (text : List Char) (ratio : Set.Icc (0 : ℚ) 1) :
    nonblank (clipSummary text ratio) = (sections text).flatMap fun p =>
      if Lost ratio p.2 then [p.1 ++ clipMarker] else p.1 :: nonblank (clipped ratio p.2) := by
  rw [← trimmed_splitLines, splitLines_clipSummary, trimmed, List.map_flatMap, List.filter_flatMap]
  refine List.flatMap_congr fun p hp => ?_
  obtain ⟨hheading, -, -⟩ := isContent_of_mem_sections hp
  have htrim := (headings_spec.2 p.1 hheading).1
  have hne := heading_ne_nil hheading
  split_ifs
  · simp [trim_glued p.1 hheading, hne]
  · rw [← trimmed_splitLines, trimmed, List.map_cons, htrim, List.filter_cons_of_pos (by simpa)]

/-- **The headings that are left**: those of the sections that are not lost. -/
theorem headingLines_clipSummary (text : List Char) (ratio : Set.Icc (0 : ℚ) 1) :
    headingLines (clipSummary text ratio) =
      ((sections text).filter fun p => ¬Lost ratio p.2).map Prod.fst := by
  have hsections : ∀ p ∈ sections text,
      (if Lost ratio p.2 then [p.1 ++ clipMarker] else p.1 :: nonblank (clipped ratio p.2)).filter
        (· ∈ headings) = if Lost ratio p.2 then [] else [p.1] := by
    intro p hp
    obtain ⟨hheading, -, hcontent⟩ := isContent_of_mem_sections hp
    have hclipped : IsContent (clipped ratio p.2) := hcontent.clipped
    split_ifs
    · rw [List.filter_cons_of_neg (by simpa using glued_not_mem p.1), List.filter_nil]
    · rw [List.filter_cons_of_pos (by exact decide_eq_true hheading), List.filter_eq_nil_iff.mpr]
      intro line hline
      simpa using hclipped.noHeading line hline
  rw [headingLines_eq, nonblank_clipSummary, List.filter_flatMap, List.flatMap_congr hsections]
  induction sections text with
  | nil => rfl
  | cons p rest ih =>
      rw [List.flatMap_cons, ih]
      by_cases hlost : Lost ratio p.2
      · rw [if_pos hlost, List.filter_cons_of_neg (by simpa using hlost), List.nil_append]
      · rw [if_neg hlost, List.filter_cons_of_pos (by simpa using hlost)]
        rfl

theorem headingLines_eq_headings :
    headingLines (clipSummary text ratio) = headings ↔ SectionsKept text ratio := by
  rw [headingLines_clipSummary, sectionsKept_iff]
  conv_lhs => rhs; rw [← map_fst_sections text]
  constructor
  · intro heq p hp
    have hlength := congrArg List.length heq
    rw [List.length_map, List.length_map] at hlength
    have hall := List.length_filter_eq_length_iff.mp hlength p hp
    simpa using hall
  · intro hkept
    rw [List.filter_eq_self.mpr fun p hp => by simpa using hkept p hp]

theorem flatMap_cons_eq_map {α β : Type} {first f : α → β} {others : α → List β} {l : List α} :
    l.flatMap (fun x => first x :: others x) = l.map f ↔
      ∀ x ∈ l, first x = f x ∧ others x = [] := by
  have hle : ∀ l : List α, l.length ≤ (l.flatMap fun x => first x :: others x).length := by
    intro l
    induction l with
    | nil => exact Nat.le_refl _
    | cons x l ih =>
        rw [List.flatMap_cons, List.length_append, List.length_cons, List.length_cons]
        omega
  induction l with
  | nil => simp
  | cons x l ih =>
      rw [List.flatMap_cons, List.map_cons, List.cons_append, List.cons.injEq, List.forall_mem_cons,
        and_assoc]
      refine and_congr_right fun _ =>
        Iff.trans ⟨fun heq => ?_, fun h => ?_⟩ (and_congr_right fun _ => ih)
      · have hlength := congrArg List.length heq
        rw [List.length_append, List.length_map] at hlength
        have hnil : others x = [] := List.eq_nil_of_length_eq_zero (by have := hle l; omega)
        rw [hnil, List.nil_append] at heq
        exact ⟨hnil, heq⟩
      · rw [h.1, List.nil_append, h.2]

/-- **A clipped summary follows the headings** when no section is lost and no other line that is
kept begins as a heading. -/
theorem followsHeadings_clipSummary :
    FollowsHeadings (clipSummary text ratio) ↔
      SectionsKept text ratio ∧ NoOtherHeading text ratio := by
  have hsections : ∀ p ∈ sections text,
      (if Lost ratio p.2 then [p.1 ++ clipMarker] else p.1 :: nonblank (clipped ratio p.2)).filter
        (·.head? = some '#') =
      (if Lost ratio p.2 then p.1 ++ clipMarker else p.1) ::
        if Lost ratio p.2 then [] else
          (nonblank (clipped ratio p.2)).filter (·.head? = some '#') := by
    intro p hp
    obtain ⟨hheading, -, -⟩ := isContent_of_mem_sections hp
    have hhead := (headings_spec.2 p.1 hheading).2.1
    have hglued : (p.1 ++ clipMarker).head? = some '#' := by
      rw [List.head?_append, hhead]
      rfl
    split_ifs
    · rw [List.filter_cons_of_pos (by exact decide_eq_true hglued), List.filter_nil]
    · rw [List.filter_cons_of_pos (by exact decide_eq_true hhead)]
  have hkept : ∀ p ∈ sections text, (((if Lost ratio p.2 then p.1 ++ clipMarker else p.1) = p.1 ∧
      (if Lost ratio p.2 then [] else
        (nonblank (clipped ratio p.2)).filter (·.head? = some '#')) = []) ↔
      ¬Lost ratio p.2 ∧ ∀ line ∈ splitLines (p.2.take (keepLength p.2.length ratio)),
        (lstrip line).head? ≠ some '#') := by
    intro p hp
    obtain ⟨hheading, -, hcontent⟩ := isContent_of_mem_sections hp
    by_cases hlost : Lost ratio p.2
    · rw [if_pos hlost, if_pos hlost]
      refine iff_of_false (fun h => ?_) fun h => h.1 hlost
      have := congrArg List.length h.1
      rw [List.length_append] at this
      have hpos : 0 < clipMarker.length := by decide
      omega
    · rw [if_neg hlost, if_neg hlost]
      refine and_congr (iff_of_true rfl hlost) ?_
      have hkeep : rstrip (p.2.take (keepLength p.2.length ratio)) = keep ratio p.2 := rfl
      rw [List.filter_eq_nil_iff, ← head_splitLines, ← nonblank_rstrip (p.2.take _), hkeep,
        ← head_clipped hcontent hlost]
      exact forall₂_congr fun line _ => by rw [decide_eq_true_iff]
  rw [FollowsHeadings, checkedHeadings_eq, nonblank_clipSummary, List.filter_flatMap,
    List.flatMap_congr hsections]
  conv_lhs => rhs; rw [← map_fst_sections text]
  rw [flatMap_cons_eq_map, forall₂_congr hkept, sectionsKept_iff, NoOtherHeading,
    ← map_snd_sections, List.forall_mem_map, ← forall₂_and]

theorem noOtherHeading_of_followsHeadings (h : FollowsHeadings text) :
    NoOtherHeading text ratio := by
  intro content hcontent
  obtain ⟨hsection, hlines⟩ := isContent_of_mem hcontent
  have hwhole : ∀ line ∈ nonblank content, line.head? ≠ some '#' := by
    intro line hline hhead
    rw [FollowsHeadings, checkedHeadings_eq] at h
    refine hsection.noHeading line hline ?_
    rw [← h, List.mem_filter, decide_eq_true_iff]
    exact ⟨hlines line hline, hhead⟩
  obtain ⟨rest, hrest⟩ := List.take_prefix (keepLength content.length ratio) content
  rw [← head_splitLines]
  refine @head_of_nonblank_append _ (· ≠ some '#') rest ?_
  rwa [hrest]

/-- **Clipping keeps the contract of the headings exactly when no section with a text is cut to
nothing.** The result follows the headings exactly when, beside, no other line that is kept
begins as one. At ratio one no section is cut to nothing. -/
theorem clipContract_iff (text : List Char) (ratio : Set.Icc (0 : ℚ) 1) :
    (ClipContract text ratio ↔ SectionsKept text ratio) ∧
      (FollowsHeadings (clipSummary text ratio) ↔
        SectionsKept text ratio ∧ NoOtherHeading text ratio) ∧
      SectionsKept text ⟨1, Set.right_mem_Icc.mpr zero_le_one⟩ := by
  refine ⟨⟨fun h => headingLines_eq_headings.mp h.headings, fun h => ?_⟩,
    followsHeadings_clipSummary, fun content _ hne => ?_⟩
  · refine ⟨headingLines_eq_headings.mpr h, ?_, fun hfollows => ?_⟩
    · rw [contents_clipSummary h, List.forall₂_map_left_iff, List.forall₂_same]
      exact fun content _ => clippedFrom_clipped ratio content
    · exact followsHeadings_clipSummary.mpr ⟨h, noOtherHeading_of_followsHeadings hfollows⟩
  · exact one_le_keepLength (List.length_pos_of_ne_nil hne)

/-- A summary that says one thing loses the heading of it at ratio zero. -/
theorem goalOnly_losesHeading :
    ¬ClipContract "## Goal\n无".toList ⟨0, Set.left_mem_Icc.mpr zero_le_one⟩ := by
  intro h
  have hkept := headingLines_eq_headings.mp h.headings
  have hmem : ['无'] ∈ contents "## Goal\n无".toList := by decide
  have hpos := hkept ['无'] hmem (List.cons_ne_nil _ _)
  rw [keepLength_zero] at hpos
  exact absurd hpos (by decide)

end Kirakira.Compaction
