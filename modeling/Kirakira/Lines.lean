import Mathlib.Data.List.DropRight
import Mathlib.Data.List.Induction
import Kirakira.Text

/-!
# Lines

The methods of `str` on lines: `splitlines`, `"\n".join` and the three kinds of `strip`, on lists
of characters. A line break is a blank, so what the nonblank lines of a text are does not depend
on the blanks around it (`nonblank_trim`).

* `joinLines_splitLines` — a text whose breaks are newlines is put together from its lines.
* `splitLines_joinLines` — the lines of joined texts are the lines of each.
* `nonblank_append_cons`, `nonblank_splitLines` — the nonblank lines, cut at every break.
* `exists_last_line` — what a text that is glued to the end of another one does to its lines.
-/

namespace Kirakira.Lines

/-! ### Definitions -/

/-- A line break. -/
def isBreak (c : Char) : Bool :=
  [0x0A, 0x0B, 0x0C, 0x0D, 0x1C, 0x1D, 0x1E, 0x85, 0x2028, 0x2029].contains c.toNat

/-- A character before the first of some lines. -/
def consLine (c : Char) : List (List Char) → List (List Char)
  | [] => [[c]]
  | line :: lines => (c :: line) :: lines

/-- `str.splitlines`. -/
def splitLines : List Char → List (List Char)
  | [] => []
  | c :: cs =>
      -- a carriage return before a newline is one break with it
      if c = '\r' ∧ cs.head? = some '\n' then splitLines cs
      else if isBreak c then [] :: splitLines cs
      else consLine c (splitLines cs)

/-- `"\n".join`. -/
def joinLines (lines : List (List Char)) : List Char :=
  List.intercalate ['\n'] lines

/-- `str.lstrip`. -/
def lstrip (cs : List Char) : List Char :=
  cs.dropWhile isSpace

/-- `str.rstrip`. -/
def rstrip (cs : List Char) : List Char :=
  cs.rdropWhile isSpace

/-- `str.strip`. -/
def trim (cs : List Char) : List Char :=
  rstrip (lstrip cs)

/-- The lines of a text that are not blank, without the blanks around them. -/
def nonblank (cs : List Char) : List (List Char) :=
  ((cs.splitOnP isBreak).map trim).filter (· ≠ [])

/-- A text that neither begins nor ends with a blank. -/
structure Tight (cs : List Char) : Prop where
  head : ∀ c ∈ cs.head?, isSpace c = false
  last : ∀ c ∈ cs.getLast?, isSpace c = false

/-- A text that ends with something other than a break. -/
def EndsPlain (cs : List Char) : Prop :=
  ∃ front c, cs = front ++ [c] ∧ isBreak c = false

/-! ### Blanks -/

variable {c : Char} {front : List Char}

theorem isSpace_of_isBreak (h : isBreak c = true) : isSpace c = true := by
  rw [isBreak, List.contains_iff_mem] at h
  simp only [List.mem_cons, List.not_mem_nil, or_false] at h
  rw [isSpace]
  rcases h with h | h | h | h | h | h | h | h | h | h <;> rw [h] <;> decide

theorem isBreak_of_not_isSpace (h : isSpace c = false) : isBreak c = false := by
  rw [Bool.eq_false_iff] at h ⊢
  exact fun hbreak => h (isSpace_of_isBreak hbreak)

@[simp] theorem trim_nil : trim [] = [] :=
  rfl

variable {cs w : List Char}

theorem lstrip_append (hw : ∀ c ∈ w, isSpace c = true) : lstrip (w ++ cs) = lstrip cs := by
  rw [lstrip, List.dropWhile_append, List.dropWhile_eq_nil_iff.mpr hw]
  rfl

theorem rstrip_append (hw : ∀ c ∈ w, isSpace c = true) : rstrip (cs ++ w) = rstrip cs := by
  rw [rstrip, List.rdropWhile, List.reverse_append, List.dropWhile_append,
    List.dropWhile_eq_nil_iff.mpr fun c hc => hw c (List.mem_reverse.mp hc)]
  rfl

theorem trim_append (hw : ∀ c ∈ w, isSpace c = true) : trim (cs ++ w) = trim cs := by
  rw [trim, trim, lstrip, List.dropWhile_append]
  split_ifs with hblank
  · rw [List.dropWhile_eq_nil_iff.mpr hw, lstrip, List.isEmpty_iff.mp hblank]
  · rw [rstrip_append hw, lstrip]

theorem exists_lstrip (cs : List Char) :
    ∃ w, cs = w ++ lstrip cs ∧ ∀ c ∈ w, isSpace c = true :=
  ⟨cs.takeWhile isSpace, List.takeWhile_append_dropWhile.symm, fun _ hc => List.mem_takeWhile_imp hc⟩

theorem exists_rstrip (cs : List Char) :
    ∃ w, cs = rstrip cs ++ w ∧ ∀ c ∈ w, isSpace c = true := by
  refine ⟨cs.rtakeWhile isSpace, ?_, fun _ hc => List.mem_rtakeWhile_imp hc⟩
  rw [rstrip, List.rdropWhile_append_rtakeWhile]

/-- A text that begins with no blank is all that `lstrip` leaves. -/
theorem lstrip_of_head (h : ∀ c ∈ cs.head?, isSpace c = false) : lstrip cs = cs := by
  cases cs with
  | nil => rfl
  | cons c cs => rw [lstrip, List.dropWhile_cons, h c rfl]; rfl

/-- A text that ends with no blank is all that `rstrip` leaves. -/
theorem rstrip_of_last (h : ∀ c ∈ cs.getLast?, isSpace c = false) : rstrip cs = cs := by
  refine List.rdropWhile_eq_self_iff.mpr fun hne => ?_
  rw [h _ (List.getLast?_eq_getLast_of_ne_nil hne)]
  exact Bool.false_ne_true

theorem head_lstrip (cs : List Char) : ∀ c ∈ (lstrip cs).head?, isSpace c = false := by
  intro c hc
  have hnot := List.head?_dropWhile_not isSpace cs
  rw [← lstrip, Option.mem_def.mp hc] at hnot
  exact hnot

theorem last_rstrip (cs : List Char) : ∀ c ∈ (rstrip cs).getLast?, isSpace c = false := by
  intro c hc
  obtain ⟨hne, hlast⟩ := List.mem_getLast?_eq_getLast hc
  rw [hlast, Bool.eq_false_iff]
  exact List.rdropWhile_last_not isSpace cs hne

theorem Tight.trim (h : Tight cs) : trim cs = cs := by
  rw [Lines.trim, lstrip_of_head h.head, rstrip_of_last h.last]

theorem head?_of_isPrefix (h : front <+: cs) : ∀ c ∈ front.head?, c ∈ cs.head? :=
  fun _ hc => List.singleton_prefix_iff_head?_eq_some.mp
    ((List.singleton_prefix_iff_head?_eq_some.mpr hc).trans h)

theorem Tight.rstrip (h : Tight cs) (hfront : front <+: cs) :
    Tight (rstrip front) where
  head c hc := h.head c (head?_of_isPrefix ((List.rdropWhile_prefix isSpace front).trans hfront) c hc)
  last := last_rstrip front

theorem tight_trim (cs : List Char) : Tight (trim cs) where
  head c hc := head_lstrip cs c (head?_of_isPrefix (List.rdropWhile_prefix isSpace _) c hc)
  last := last_rstrip _

/-! ### Lines -/

theorem splitLines_ne_nil (h : cs ≠ []) : splitLines cs ≠ [] := by
  induction cs with
  | nil => exact absurd rfl h
  | cons c cs ih =>
      rw [splitLines]
      split_ifs with hreturn hbreak
      · refine ih ?_
        rintro rfl
        cases hreturn.2
      · exact List.cons_ne_nil _ _
      · cases splitLines cs <;> exact List.cons_ne_nil _ _

theorem splitLines_cons (cs : List Char) (hc : isBreak c = false) :
    splitLines (c :: cs) = consLine c (splitLines cs) := by
  have hreturn : ¬(c = '\r' ∧ cs.head? = some '\n') := by
    rintro ⟨rfl, -⟩
    exact absurd hc (by decide)
  rw [splitLines, if_neg hreturn, hc]
  rfl

theorem splitLines_newline (cs : List Char) : splitLines ('\n' :: cs) = [] :: splitLines cs := by
  rw [splitLines, if_neg fun h => absurd h.1 (by decide)]
  rfl

theorem isBreak_of_mem_splitLines : ∀ line ∈ splitLines cs, ∀ c ∈ line, isBreak c = false := by
  induction cs with
  | nil => intro line h; cases h
  | cons c cs ih =>
      rw [splitLines]
      split_ifs with hreturn hbreak
      · exact ih
      · intro line h
        rcases List.mem_cons.mp h with rfl | h
        · intro d hd
          cases hd
        · exact ih line h
      · rw [Bool.not_eq_true] at hbreak
        cases hlines : splitLines cs with
        | nil =>
            intro line h d hd
            rw [List.mem_singleton.mp h] at hd
            rwa [List.mem_singleton.mp hd]
        | cons first rest =>
            rw [hlines] at ih
            intro line h d hd
            rcases List.mem_cons.mp h with rfl | h
            · rcases List.mem_cons.mp hd with rfl | hd
              · exact hbreak
              · exact ih first List.mem_cons_self d hd
            · exact ih line (List.mem_cons_of_mem _ h) d hd

theorem splitLines_of_no_break (h : ∀ c ∈ cs, isBreak c = false) (hne : cs ≠ []) :
    splitLines cs = [cs] := by
  induction cs with
  | nil => exact absurd rfl hne
  | cons c cs ih =>
      rw [splitLines_cons cs (h c List.mem_cons_self)]
      cases cs with
      | nil => rfl
      | cons d ds =>
          rw [ih (fun e he => h e (List.mem_cons_of_mem _ he)) (List.cons_ne_nil _ _)]
          rfl

/-- **A newline parts two texts**, the first of which ends with no break. -/
theorem splitLines_append (h : EndsPlain front) :
    splitLines (front ++ '\n' :: cs) = splitLines front ++ splitLines cs := by
  obtain ⟨front, d, rfl, hd⟩ := h
  induction front with
  | nil =>
      rw [List.nil_append, List.singleton_append, splitLines_cons _ hd, splitLines_newline,
        splitLines_cons _ hd]
      rfl
  | cons c front ih =>
      have hhead : (front ++ [d] ++ '\n' :: cs).head? = (front ++ [d]).head? := by
        cases front <;> rfl
      rw [List.cons_append, List.cons_append, splitLines, hhead, ih, splitLines]
      split_ifs with hreturn hbreak
      · rfl
      · rfl
      · have hne : splitLines (front ++ [d]) ≠ [] :=
          splitLines_ne_nil fun h => by simp at h
        obtain ⟨line, lines, hlines⟩ := List.exists_cons_of_ne_nil hne
        rw [hlines]
        rfl

@[simp] theorem joinLines_nil : joinLines [] = [] :=
  rfl

@[simp] theorem joinLines_singleton (line : List Char) : joinLines [line] = line := by
  simp [joinLines, List.intercalate]

theorem joinLines_cons (line : List Char) {lines : List (List Char)} (h : lines ≠ []) :
    joinLines (line :: lines) = line ++ '\n' :: joinLines lines := by
  obtain ⟨second, rest, rfl⟩ := List.exists_cons_of_ne_nil h
  simp [joinLines, List.intercalate]

/-- **The lines of joined texts** are the lines of each. -/
theorem splitLines_joinLines {texts : List (List Char)} (h : ∀ cs ∈ texts, EndsPlain cs) :
    splitLines (joinLines texts) = texts.flatMap splitLines := by
  induction texts with
  | nil => rfl
  | cons cs texts ih =>
      have ih := ih fun ds hds => h ds (List.mem_cons_of_mem _ hds)
      cases texts with
      | nil => rw [joinLines_singleton, List.flatMap_cons, List.flatMap_nil, List.append_nil]
      | cons ds texts =>
          rw [joinLines_cons cs (List.cons_ne_nil _ _), splitLines_append (h cs List.mem_cons_self),
            ih]
          rfl

/-- **A text is put together from its lines**, where its breaks are newlines and it ends with
none. -/
theorem joinLines_splitLines (hbreak : ∀ c ∈ cs, isBreak c = true → c = '\n')
    (hlast : ∀ c ∈ cs.getLast?, isBreak c = false) : joinLines (splitLines cs) = cs := by
  induction cs with
  | nil => rfl
  | cons c cs ih =>
      have ih := ih (fun d hd => hbreak d (List.mem_cons_of_mem _ hd))
        fun d hd => hlast d (List.mem_getLast?_cons hd)
      by_cases hc : isBreak c = true
      · rw [hbreak c List.mem_cons_self hc] at hlast ⊢
        have hne : cs ≠ [] := by
          rintro rfl
          exact absurd (hlast '\n' rfl) (by decide)
        rw [splitLines_newline, joinLines_cons _ (splitLines_ne_nil hne), ih, List.nil_append]
      · rw [Bool.not_eq_true] at hc
        rw [splitLines_cons cs hc]
        cases hlines : splitLines cs with
        | nil =>
            rw [Classical.byContradiction fun hne => splitLines_ne_nil hne hlines]
            exact joinLines_singleton [c]
        | cons line lines =>
            rw [hlines] at ih
            rw [consLine]
            cases lines with
            | nil =>
                rw [joinLines_singleton] at ih ⊢
                rw [ih]
            | cons second rest =>
                rw [joinLines_cons _ (List.cons_ne_nil _ _)] at ih ⊢
                rw [List.cons_append, ih]

/-! ### Lines that are not blank -/

/-- The nonblank ones of some lines, without the blanks around them. -/
def trimmed (lines : List (List Char)) : List (List Char) :=
  (lines.map trim).filter (· ≠ [])

theorem trimmed_append (front rest : List (List Char)) :
    trimmed (front ++ rest) = trimmed front ++ trimmed rest := by
  rw [trimmed, List.map_append, List.filter_append]
  rfl

@[simp] theorem trimmed_nil_cons (lines : List (List Char)) :
    trimmed ([] :: lines) = trimmed lines := by
  rw [trimmed, List.map_cons, trim_nil, List.filter_cons_of_neg (by simp)]
  rfl

/-- The lines are the pieces between the breaks, but for empty ones. -/
theorem splitLines_splitOnP (cs : List Char) :
    (cs = [] ∧ splitLines cs = []) ∨
      ∃ line lines pieces, splitLines cs = line :: lines ∧
        cs.splitOnP isBreak = line :: pieces ∧ trimmed lines = trimmed pieces := by
  induction cs with
  | nil => exact .inl ⟨rfl, rfl⟩
  | cons c cs ih =>
      refine .inr ?_
      rw [splitLines, List.splitOnP_cons_eq_if_modifyHead]
      split_ifs with hreturn hbreak hbreak
      · rcases ih with ⟨rfl, -⟩ | ⟨line, lines, pieces, hlines, hpieces, heq⟩
        · cases hreturn.2
        · obtain ⟨ds, rfl⟩ : ∃ ds, cs = '\n' :: ds := by
            cases cs with
            | nil => cases hreturn.2
            | cons d ds => exact ⟨ds, by rw [Option.some.inj hreturn.2]⟩
          have hline : line = [] := by
            rw [splitLines_newline] at hlines
            exact (List.cons.inj hlines).1.symm
          refine ⟨line, lines, line :: pieces, hlines, ?_, ?_⟩
          · rw [hpieces, hline]
          · rw [hline, trimmed_nil_cons, heq]
      · exact absurd (by rw [hreturn.1]; decide) hbreak
      · refine ⟨[], splitLines cs, _, rfl, rfl, ?_⟩
        rcases ih with ⟨rfl, -⟩ | ⟨line, lines, pieces, hlines, hpieces, heq⟩
        · rfl
        · rw [hlines, hpieces, ← List.singleton_append, trimmed_append, heq, ← trimmed_append]
          rfl
      · rcases ih with ⟨rfl, -⟩ | ⟨line, lines, pieces, hlines, hpieces, heq⟩
        · exact ⟨[c], [], [], rfl, rfl, rfl⟩
        · rw [hlines, hpieces]
          exact ⟨c :: line, lines, pieces, rfl, rfl, heq⟩

/-- **The nonblank lines** are those of `splitlines`. -/
theorem trimmed_splitLines (cs : List Char) : trimmed (splitLines cs) = nonblank cs := by
  rcases splitLines_splitOnP cs with ⟨rfl, -⟩ | ⟨line, lines, pieces, hlines, hpieces, heq⟩
  · rfl
  · rw [nonblank, ← trimmed, hlines, hpieces, ← List.singleton_append, trimmed_append, heq,
      ← trimmed_append]
    rfl

@[simp] theorem nonblank_nil : nonblank [] = [] :=
  rfl

/-- **Every break parts two texts.** -/
theorem nonblank_append_cons (hc : isBreak c = true) (front cs : List Char) :
    nonblank (front ++ c :: cs) = nonblank front ++ nonblank cs := by
  rw [nonblank, List.splitOnP_append_cons front cs hc, ← trimmed, trimmed_append]
  rfl

theorem nonblank_of_no_break (h : ∀ c ∈ cs, isBreak c = false) :
    nonblank cs = if trim cs = [] then [] else [trim cs] := by
  rw [nonblank, List.splitOnP_eq_singleton h, List.map_singleton, List.filter_singleton]
  split_ifs with hblank
  · simp [hblank]
  · simp [hblank]

theorem exists_last_break (cs : List Char) :
    ∃ line, (∀ c ∈ line, isBreak c = false) ∧
      (cs = line ∨ ∃ front c, isBreak c = true ∧ cs = front ++ c :: line) := by
  refine ⟨cs.rtakeWhile (!isBreak ·), fun c hc => ?_, ?_⟩
  · simpa using List.mem_rtakeWhile_imp hc
  · have hparts : cs.rdropWhile (!isBreak ·) ++ cs.rtakeWhile (!isBreak ·) = cs :=
      List.rdropWhile_append_rtakeWhile
    rcases List.eq_nil_or_concat (cs.rdropWhile (!isBreak ·)) with hnil | ⟨front, c, hfront⟩
    · rw [hnil, List.nil_append] at hparts
      exact .inl hparts.symm
    · refine .inr ⟨front, c, ?_, ?_⟩
      · have hnot := List.rdropWhile_last_not (!isBreak ·) cs (by rw [hfront]; simp)
        simp only [hfront, List.concat_eq_append, List.getLast_append_singleton] at hnot
        simpa using hnot
      · rw [hfront, List.concat_eq_append, List.append_assoc, List.singleton_append] at hparts
        exact hparts.symm

theorem nonblank_cons (hc : isSpace c = true) (cs : List Char) :
    nonblank (c :: cs) = nonblank cs := by
  by_cases hbreak : isBreak c = true
  · exact nonblank_append_cons hbreak [] cs
  · obtain ⟨line, lines, hlines⟩ :=
      List.exists_cons_of_ne_nil (List.splitOnP_ne_nil isBreak cs)
    have htrim : trim (c :: line) = trim line := by
      rw [trim, lstrip, List.dropWhile_cons_of_pos hc]
      rfl
    rw [nonblank, nonblank, List.splitOnP_cons_eq_if_modifyHead, if_neg hbreak, hlines,
      List.modifyHead_cons, List.map_cons, htrim, List.map_cons]

theorem nonblank_append_left (hw : ∀ c ∈ w, isSpace c = true) (cs : List Char) :
    nonblank (w ++ cs) = nonblank cs := by
  induction w with
  | nil => rfl
  | cons c w ih =>
      rw [List.cons_append, nonblank_cons (hw c List.mem_cons_self),
        ih fun d hd => hw d (List.mem_cons_of_mem _ hd)]

theorem nonblank_append_right (hw : ∀ c ∈ w, isSpace c = true) (cs : List Char) :
    nonblank (cs ++ w) = nonblank cs := by
  have hline : ∀ line : List Char, (∀ c ∈ line, isBreak c = false) →
      nonblank (line ++ w) = nonblank line := by
    induction w with
    | nil => intro line _; rw [List.append_nil]
    | cons c w ih =>
        intro line hline
        have hrest : ∀ d ∈ w, isSpace d = true := fun d hd => hw d (List.mem_cons_of_mem _ hd)
        have hblank : nonblank w = [] := by
          have := nonblank_append_left hrest []
          rwa [List.append_nil, nonblank_nil] at this
        by_cases hbreak : isBreak c = true
        · rw [nonblank_append_cons hbreak, hblank, List.append_nil]
        · have hnext : ∀ d ∈ line ++ [c], isBreak d = false := by
            intro d hd
            rcases List.mem_append.mp hd with hd | hd
            · exact hline d hd
            · rw [List.mem_singleton.mp hd, Bool.eq_false_iff]
              exact hbreak
          have hspace : ∀ d ∈ [c], isSpace d = true := fun d hd => by
            rw [List.mem_singleton.mp hd]
            exact hw c List.mem_cons_self
          rw [← List.singleton_append, ← List.append_assoc, ih hrest _ hnext,
            nonblank_of_no_break hnext, trim_append hspace, nonblank_of_no_break hline]
  obtain ⟨line, hno, rfl | ⟨front, c, hc, rfl⟩⟩ := exists_last_break cs
  · exact hline cs hno
  · rw [List.append_assoc, List.cons_append, nonblank_append_cons hc, nonblank_append_cons hc,
      hline line hno]

/-- **Stripping keeps the nonblank lines.** -/
theorem nonblank_rstrip (cs : List Char) : nonblank (rstrip cs) = nonblank cs := by
  obtain ⟨w, hcs, hw⟩ := exists_rstrip cs
  conv_rhs => rw [hcs]
  rw [nonblank_append_right hw]

/-- **Stripping keeps the nonblank lines.** -/
theorem nonblank_trim (cs : List Char) : nonblank (trim cs) = nonblank cs := by
  obtain ⟨w, hcs, hw⟩ := exists_lstrip cs
  conv_rhs => rw [hcs]
  rw [trim, nonblank_rstrip, nonblank_append_left hw]

theorem nonblank_joinLines {lines : List (List Char)}
    (h : ∀ line ∈ lines, ∀ c ∈ line, isBreak c = false) :
    nonblank (joinLines lines) = trimmed lines := by
  have hone : ∀ line : List Char, (∀ c ∈ line, isBreak c = false) →
      nonblank line = trimmed [line] := by
    intro line hline
    rw [nonblank, List.splitOnP_eq_singleton hline, trimmed]
  induction lines with
  | nil => rfl
  | cons line lines ih =>
      have hline := hone line (h line List.mem_cons_self)
      by_cases hne : lines = []
      · rw [hne, joinLines_singleton, hline]
      · rw [joinLines_cons line hne, nonblank_append_cons (by decide), hline,
          ih fun l hl => h l (List.mem_cons_of_mem _ hl), ← trimmed_append, List.singleton_append]

/-! ### The last line -/

/-- **The last line of a text** that ends with no blank is what anything after it is glued to. -/
theorem exists_last_line (hne : cs ≠ []) (hlast : ∀ c ∈ cs.getLast?, isSpace c = false) :
    ∃ front line, (∀ c ∈ line, isBreak c = false) ∧ lstrip line ≠ [] ∧
      (∀ c ∈ line.getLast?, isSpace c = false) ∧
      ∀ rest, nonblank (cs ++ rest) = front ++ nonblank (line ++ rest) := by
  have hfull : ∀ line : List Char, line ≠ [] → (∀ c ∈ line.getLast?, isSpace c = false) →
      lstrip line ≠ [] := by
    intro line hne hlast hblank
    have hspace := List.dropWhile_eq_nil_iff.mp hblank _ (List.getLast_mem hne)
    rw [hlast _ (List.getLast?_eq_getLast_of_ne_nil hne)] at hspace
    cases hspace
  obtain ⟨line, hno, rfl | ⟨front, c, hc, rfl⟩⟩ := exists_last_break cs
  · exact ⟨[], cs, hno, hfull cs hne hlast, hlast, fun _ => rfl⟩
  · have hend : line ≠ [] := by
      rintro rfl
      have := hlast c (by simp)
      rw [isSpace_of_isBreak hc] at this
      cases this
    have hlast : ∀ d ∈ line.getLast?, isSpace d = false := by
      intro d hd
      refine hlast d ?_
      rw [List.getLast?_append, List.getLast?_cons, Option.mem_def.mp hd]
      rfl
    refine ⟨nonblank front, line, hno, hfull line hend hlast, hlast, fun rest => ?_⟩
    rw [List.append_assoc, List.cons_append, nonblank_append_cons hc]

theorem nonblank_glue {line glue : List Char} (hno : ∀ c ∈ line ++ glue, isBreak c = false)
    (hline : lstrip line ≠ []) (hlast : ∀ c ∈ (line ++ glue).getLast?, isSpace c = false) :
    nonblank (line ++ glue) = [lstrip line ++ glue] := by
  have htrim : trim (line ++ glue) = lstrip line ++ glue := by
    have hl : lstrip (line ++ glue) = lstrip line ++ glue := by
      rw [lstrip, List.dropWhile_append, if_neg]
      · rfl
      · rwa [List.isEmpty_iff]
    obtain ⟨w, hw, -⟩ := exists_lstrip line
    have hend : (lstrip line ++ glue).getLast? = (line ++ glue).getLast? := by
      conv_rhs => rw [hw]
      obtain ⟨c, hc⟩ := Option.ne_none_iff_exists'.mp
        (mt List.getLast?_eq_none_iff.mp (List.append_ne_nil_of_left_ne_nil hline glue))
      rw [hc, List.append_assoc, List.getLast?_append, hc]
      rfl
    rw [trim, hl, rstrip_of_last]
    rwa [hend]
  rw [nonblank_of_no_break hno, htrim, if_neg]
  exact List.append_ne_nil_of_left_ne_nil hline glue

theorem nonblank_line_append {line : List Char} (hno : ∀ c ∈ line, isBreak c = false)
    (hline : lstrip line ≠ []) (hlast : ∀ c ∈ line.getLast?, isSpace c = false)
    (rest : List Char) :
    ∃ tail others, nonblank (line ++ rest) = (lstrip line ++ tail) :: others := by
  have hplain : ∀ plain : List Char, (∀ c ∈ plain, isBreak c = false) →
      nonblank (line ++ plain) = [lstrip line ++ rstrip plain] := by
    intro plain hplain
    obtain ⟨w, hw, hspace⟩ := exists_rstrip plain
    have hglue : ∀ c ∈ (line ++ rstrip plain).getLast?, isSpace c = false := by
      intro c hc
      rw [List.getLast?_append, Option.mem_def, Option.or_eq_some_iff] at hc
      rcases hc with hc | ⟨-, hc⟩
      · exact last_rstrip plain c hc
      · exact hlast c hc
    have hnone : ∀ c ∈ line ++ rstrip plain, isBreak c = false := by
      intro c hc
      rcases List.mem_append.mp hc with hc | hc
      · exact hno c hc
      · exact hplain c ((List.rdropWhile_prefix isSpace plain).subset hc)
    conv_lhs => rw [hw]
    rw [← List.append_assoc, nonblank_append_right hspace, nonblank_glue hnone hline hglue]
  have hparts : rest.takeWhile (!isBreak ·) ++ rest.dropWhile (!isBreak ·) = rest :=
    List.takeWhile_append_dropWhile
  have htake := hplain (rest.takeWhile (!isBreak ·)) fun c hc => by
    simpa using List.mem_takeWhile_imp hc
  cases hdrop : rest.dropWhile (!isBreak ·) with
  | nil =>
      rw [hdrop, List.append_nil] at hparts
      rw [hparts] at htake
      exact ⟨_, [], htake⟩
  | cons c more =>
      have hc : isBreak c = true := by
        have := List.head?_dropWhile_not (!isBreak ·) rest
        rw [hdrop] at this
        simpa using this
      rw [← hparts, hdrop, ← List.append_assoc, nonblank_append_cons hc, htake]
      exact ⟨_, nonblank more, rfl⟩

/-- **The lines of a text begin** as those of every longer one do. -/
theorem head_of_nonblank_append {p : Option Char → Prop} {rest : List Char}
    (h : ∀ line ∈ nonblank (cs ++ rest), p line.head?) : ∀ line ∈ nonblank cs, p line.head? := by
  rw [← nonblank_rstrip]
  by_cases hne : rstrip cs = []
  · rw [hne]
    intro line hline
    cases hline
  obtain ⟨w, hw, -⟩ := exists_rstrip cs
  obtain ⟨front, line, hno, hline, hlast, hparts⟩ := exists_last_line hne (last_rstrip cs)
  have hcs : nonblank (rstrip cs) = front ++ [lstrip line] := by
    have hend := @nonblank_glue line [] (by rwa [List.append_nil]) hline
      (by rwa [List.append_nil])
    rw [← List.append_nil (rstrip cs), hparts, hend, List.append_nil]
  obtain ⟨tail, others, hmore⟩ := nonblank_line_append hno hline hlast (w ++ rest)
  rw [hw, List.append_assoc, hparts, hmore] at h
  intro l hl
  rw [hcs, List.mem_append, List.mem_singleton] at hl
  rcases hl with hl | rfl
  · exact h l (List.mem_append_left _ hl)
  · obtain ⟨c, cs, hlstrip⟩ := List.exists_cons_of_ne_nil hline
    have := h _ (List.mem_append_right _ List.mem_cons_self)
    rwa [hlstrip] at this ⊢

end Kirakira.Lines
