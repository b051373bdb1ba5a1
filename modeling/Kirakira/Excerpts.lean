import Mathlib.Data.Finset.Sort
import Kirakira.Contract
import Kirakira.Lib.WaterFilling

/-!
# Excerpts

`render` of `plugins/akasha/excerpts.py`: passages are shown in windows that share one budget of
characters. The first pass accepts a passage where its header and forty-eight characters of it
still fit; what the headers leave is handed out in rounds of equal shares.

Where a window is placed depends on the terms of the query: the tokenizer and the search that
ignores case are parameters (`Search`), of which nothing is asked. Weights are floating-point
numbers, and only decide between places.

## Main results

* `accept_spec` — what the first pass keeps: the headers and the smallest windows fit.
* `allocate_spec` — the windows are as large as the smallest ones, level, and use up the budget.
* `window_spec` — a window lies in the text and has the size it is to have.
* `render_fair` — **the call succeeds, and its material keeps to the budget and shares it.**
-/

namespace Kirakira.Akasha

open WaterFilling

/-! ### Windows -/

/-- What the choice of a window uses of other code: the terms of a query, and the spans where a
term stands in a text when case is ignored. -/
structure Search where
  tokenize : String → List String
  findAll : String → List Char → List (ℕ × ℕ)

/-- `sum` of floating-point numbers, which compensates for what each addition rounds away. -/
def floatSum (total error : Float) : List Float → Float
  | [] => total + error
  | x :: xs =>
      let next := total + x
      if x.abs ≤ total.abs then floatSum next (error + ((total - next) + x)) xs
      else floatSum next (error + ((x - next) + total)) xs

/-- Whether a term stands before another one: the longer first, and then in order. -/
def termLe (a b : String) : Bool :=
  decide (b.length < a.length) || (decide (a.length = b.length) && decide (a ≤ b))

/-- The terms that are searched for. -/
def searchTerms (search : Search) (query : String) : List String :=
  (((search.tokenize query).filter fun term =>
    decide (2 < term.length) ||
      (decide (1 < term.length) && !term.toList.all (·.toNat < 128))).mergeSort termLe).take 32

/-- Where the terms stand, and the weight of each place. -/
def termMatches (search : Search) (text : List Char) (query : String) :
    List (ℕ × ℕ × Float) :=
  (searchTerms search query).flatMap fun term =>
    let positions := (search.findAll term text).take 64
    positions.map fun span => (span.1, span.2, 1.0 / Float.ofNat positions.length)

/-- The first of the best of some places. -/
def firstBest (key : ℕ → Float) (best : ℕ) : List ℕ → ℕ
  | [] => best
  | offset :: offsets =>
      if key best < key offset then firstBest key offset offsets else firstBest key best offsets

/-- `window`. -/
def window (search : Search) (text : List Char) (query : String) (size : ℕ) : ℕ × ℕ :=
  if text.length ≤ size then (0, text.length)
  else
    let found := termMatches search text query
    let starts := insert 0
      (found.map fun m => min (text.length - size) (m.1 - size / 4)).toFinset
    let weight offset := floatSum 0 0 ((found.filter fun m =>
      decide (offset ≤ m.1) && decide (m.2.1 ≤ offset + size)).map fun m => m.2.2)
    let start := match starts.sort (· ≤ ·) with
      | [] => 0
      | first :: rest => firstBest weight first rest
    (start, start + size)

/-! ### Rendering -/

/-- `Passage`; `lead` is its `prefix`. -/
structure Passage where
  messageId : String
  text : List Char
  lead : List Char
  deriving DecidableEq

/-- A reference of the material. -/
structure Reference where
  ref : String
  resolvedRef : String
  retrievalRef : String
  start : ℕ
  stop : ℕ
  sourceChars : ℕ
  deriving DecidableEq

/-- A reminder. -/
structure Reminder where
  name : String
  text : List Char
  priority : ℕ
  deriving DecidableEq

/-- What is rendered. -/
structure Rendered where
  reminders : List Reminder
  references : List Reference
  deriving DecidableEq

/-- The header line of a window. -/
def offsetHeader (start stop length : ℕ) : List Char :=
  ("片段：[" ++ toString start ++ ":" ++ toString stop ++ "] / " ++ toString length ++
    " 字符\n\n").toList

/-- `reserve`: the longest header a passage may get. -/
def reserve (passage : Passage) : ℕ :=
  passage.lead.length +
    (offsetHeader passage.text.length passage.text.length passage.text.length).length

/-- `min(48, len(passage.text))`. -/
def smallest (passage : Passage) : ℕ :=
  min 48 passage.text.length

/-- What the first pass has: what it accepted, and the two sums. -/
structure Accepted where
  selected : List Passage
  overhead : ℕ
  minimum : ℕ

/-- One passage of the first pass. -/
def acceptOne (maxChars : ℤ) (acc : Accepted) (passage : Passage) : Accepted :=
  if maxChars < (acc.overhead + reserve passage + (if acc.selected = [] then 0 else 2) +
      acc.minimum + smallest passage : ℕ) then acc
  else
    let selected := acc.selected ++ [passage]
    ⟨selected, acc.overhead + (reserve passage + if 1 < selected.length then 2 else 0),
      acc.minimum + smallest passage⟩

/-- The first pass. -/
def accept (passages : List Passage) (header : List Char) (maxChars : ℤ) : Accepted :=
  passages.foldl (acceptOne maxChars) ⟨[], header.length, 0⟩

/-- The second loop: the size of each window. -/
def allocate (selected : List Passage) (remaining : ℕ) : List ℕ :=
  (fill remaining (selected.map fun passage => ⟨passage.text.length, 0, true⟩)).1.map (·.given)

/-- A row of the material. -/
def row (passage : Passage) (start stop : ℕ) : List Char :=
  passage.lead ++ offsetHeader start stop passage.text.length ++
    (passage.text.take stop).drop start

/-- The reference of a row. -/
def reference (identity : String) (passage : Passage) (start stop : ℕ) : Reference :=
  ⟨passage.messageId, passage.messageId, identity, start, stop, passage.text.length⟩

/-- A window, by its passage, its start and its end. -/
abbrev Window := Passage × ℕ × ℕ

/-- The windows that are shown. -/
def shown (search : Search) (query : String) (selected : List Passage) (sizes : List ℕ) :
    List Window :=
  ((selected.zip sizes).filter fun pair => pair.2 ≠ 0).map fun pair =>
    (pair.1, window search pair.1.text query pair.2)

/-- `header + "\n\n".join(rows)`. -/
def material (header : List Char) (windows : List Window) : List Char :=
  header ++ List.intercalate "\n\n".toList (windows.map fun w => row w.1 w.2.1 w.2.2)

/-- `render`. -/
def render (search : Search) (passages : List Passage) (query : String) (header : List Char)
    (maxChars : ℤ) (identity : String) : Except PyError Rendered :=
  let accepted := accept passages header maxChars
  if accepted.selected = [] then .ok ⟨[], []⟩
  else
    let sizes := allocate accepted.selected (maxChars - accepted.overhead).toNat
    let windows := shown search query accepted.selected sizes
    if maxChars < (material header windows).length then
      valueError "extractive material exceeded its declared budget"
    else .ok ⟨[⟨"recall", material header windows, 300⟩],
      windows.map fun w => reference identity w.1 w.2.1 w.2.2⟩

/-! ### The first pass -/

/-- The sums that the first pass keeps. -/
structure Accepted.Sums (acc : Accepted) (header : List Char) (maxChars : ℤ) : Prop where
  overhead : acc.overhead + 2 = header.length + (acc.selected.map fun p => reserve p + 2).sum +
    if acc.selected = [] then 2 else 0
  minimum : acc.minimum = (acc.selected.map smallest).sum
  fits : acc.selected ≠ [] → (acc.overhead + acc.minimum : ℕ) ≤ maxChars

theorem Accepted.Sums.acceptOne {acc : Accepted} {header : List Char} {maxChars : ℤ}
    (h : acc.Sums header maxChars) (passage : Passage) :
    (acceptOne maxChars acc passage).Sums header maxChars := by
  by_cases hlarge : maxChars < (acc.overhead + reserve passage +
      (if acc.selected = [] then 0 else 2) + acc.minimum + smallest passage : ℕ)
  · rw [Akasha.acceptOne, if_pos hlarge]
    exact h
  · have hselected : acc.selected ++ [passage] ≠ [] := by simp
    have hoverhead := h.overhead
    have hminimum := h.minimum
    have hlength : 1 < (acc.selected ++ [passage]).length ↔ acc.selected ≠ [] := by
      rw [List.length_append, List.length_singleton, ← List.length_pos_iff]
      omega
    rw [Akasha.acceptOne, if_neg hlarge]
    rw [not_lt] at hlarge
    by_cases hnil : acc.selected = []
    · rw [if_pos hnil] at hoverhead hlarge
      have hone : ¬1 < (acc.selected ++ [passage]).length := fun h => hlength.mp h hnil
      constructor
      · simp only [if_neg hone, List.map_append, List.sum_append, List.map_singleton,
          List.sum_singleton, if_neg hselected]
        omega
      · simp only [List.map_append, List.sum_append, List.map_singleton, List.sum_singleton]
        omega
      · intro _
        simp only [if_neg hone]
        omega
    · rw [if_neg hnil] at hoverhead hlarge
      have hone : 1 < (acc.selected ++ [passage]).length := hlength.mpr hnil
      constructor
      · simp only [if_pos hone, List.map_append, List.sum_append, List.map_singleton,
          List.sum_singleton, if_neg hselected]
        omega
      · simp only [List.map_append, List.sum_append, List.map_singleton, List.sum_singleton]
        omega
      · intro _
        simp only [if_pos hone]
        omega

/-- **What the first pass keeps**: the headers and the smallest windows fit. -/
theorem accept_spec (passages : List Passage) (header : List Char) (maxChars : ℤ) :
    (accept passages header maxChars).Sums header maxChars := by
  have hfold : ∀ acc : Accepted, acc.Sums header maxChars →
      (passages.foldl (acceptOne maxChars) acc).Sums header maxChars := by
    induction passages with
    | nil => exact fun acc h => h
    | cons passage passages ih => exact fun acc h => ih _ (h.acceptOne passage)
  exact hfold _ ⟨rfl, rfl, fun h => absurd rfl h⟩

/-! ### Sizes -/

theorem exists_of_mem_zip_map {α β γ : Type} {f : α → γ} {g : β → γ} {h : β → ℕ} {as : List α}
    {bs : List β} (heq : bs.map g = as.map f) {p : α × ℕ} (hp : p ∈ as.zip (bs.map h)) :
    ∃ b ∈ bs, g b = f p.1 ∧ h b = p.2 := by
  induction as generalizing bs with
  | nil => cases hp
  | cons a as ih =>
      cases bs with
      | nil => cases heq
      | cons b bs =>
          obtain ⟨hhead, htail⟩ := List.cons.inj heq
          rcases List.mem_cons.mp hp with rfl | hp
          · exact ⟨b, List.mem_cons_self, hhead, rfl⟩
          · obtain ⟨c, hc, hrest⟩ := ih htail hp
            exact ⟨c, List.mem_cons_of_mem _ hc, hrest⟩

/-- What is to hold of the sizes of the windows, each with its passage. -/
structure SharesOut (selected : List Passage) (budget : ℕ) (sizes : List (Passage × ℕ)) :
    Prop where
  passages : sizes.map Prod.fst = selected
  le : ∀ p ∈ sizes, p.2 ≤ p.1.text.length
  sum_le : (sizes.map Prod.snd).sum ≤ budget
  level : ∀ p ∈ sizes, ∀ q ∈ sizes, p.2 < p.1.text.length → q.2 < q.1.text.length →
    p.2 ≤ q.2 + 1
  used : (∀ p ∈ sizes, p.2 = p.1.text.length) ∨ (sizes.map Prod.snd).sum = budget
  smallest : (selected.map Akasha.smallest).sum ≤ budget → ∀ p ∈ sizes, Akasha.smallest p.1 ≤ p.2

/-- **The windows are as large as the smallest ones, level, and use up the budget.** -/
theorem allocate_spec (selected : List Passage) (budget : ℕ) :
    SharesOut selected budget (selected.zip (allocate selected budget)) := by
  generalize hcells : (selected.map fun p => (⟨p.text.length, 0, true⟩ : Cell)) = cells
  have hcapacity : (fill budget cells).1.map (·.capacity) = selected.map (·.text.length) := by
    rw [capacity_fill, ← hcells, List.map_map]
    rfl
  have hlength : (allocate selected budget).length = selected.length := by
    have := congrArg List.length hcapacity
    rw [List.length_map, List.length_map] at this
    rw [allocate, hcells, List.length_map, this]
  have hsizes : ∀ p ∈ selected.zip (allocate selected budget), ∃ cell ∈ (fill budget cells).1,
      cell.capacity = p.1.text.length ∧ cell.given = p.2 := by
    intro p hp
    rw [allocate, hcells] at hp
    exact exists_of_mem_zip_map hcapacity hp
  have hsecond : (selected.zip (allocate selected budget)).map Prod.snd =
      (fill budget cells).1.map (·.given) := by
    rw [List.map_snd_zip hlength.le, allocate, hcells]
  have hsum : sumGiven (fill budget cells).1 + (fill budget cells).2 = budget := by
    have hzero : sumGiven cells = 0 := by
      rw [sumGiven, ← hcells, List.map_map]
      exact List.sum_eq_zero fun n hn => by
        obtain ⟨p, -, rfl⟩ := List.mem_map.mp hn
        rfl
    rw [sum_given_fill, hzero, Nat.zero_add]
  have hlevel := @fill_spec 0 budget cells (by
    intro cell hcell
    rw [← hcells] at hcell
    obtain ⟨p, -, rfl⟩ := List.mem_map.mp hcell
    exact ⟨Nat.zero_le _, fun _ => rfl, fun h => by cases h⟩)
  have hsmallest : (fill budget cells).1.map (fun cell => min 48 cell.capacity) =
      selected.map smallest := by
    have := congrArg (List.map (min 48)) hcapacity
    rwa [List.map_map, List.map_map] at this
  refine ⟨List.map_fst_zip hlength.ge, fun p hp => ?_, ?_, fun p hp q hq hpcut hqcut => ?_, ?_,
    fun hbudget p hp => ?_⟩
  · obtain ⟨cell, hcell, hp1, hp2⟩ := hsizes p hp
    rw [← hp1, ← hp2]
    rcases hlevel with hfull | ⟨-, level, hlevel⟩
    · exact (hfull cell hcell).le
    · exact (hlevel cell hcell).le
  · rw [hsecond]
    rw [sumGiven] at hsum
    omega
  · obtain ⟨cell, hcell, hp1, hp2⟩ := hsizes p hp
    obtain ⟨other, hother, hq1, hq2⟩ := hsizes q hq
    rw [← hq1, ← hq2] at hqcut
    rw [← hp2, ← hq2]
    rcases hlevel with hfull | ⟨-, level, hlevel⟩
    · exact absurd (hfull other hother) hqcut.ne
    · exact (hlevel cell hcell).le_add_one (hlevel other hother) hqcut
  · rcases hlevel with hfull | ⟨hzero, -⟩
    · refine .inl fun p hp => ?_
      obtain ⟨cell, hcell, hp1, hp2⟩ := hsizes p hp
      rw [← hp1, ← hp2]
      exact hfull cell hcell
    · rw [hzero, Nat.add_zero] at hsum
      exact .inr (hsecond ▸ hsum)
  · obtain ⟨cell, hcell, hp1, hp2⟩ := hsizes p hp
    rw [smallest, ← hp1, ← hp2]
    rcases hlevel with hfull | ⟨hzero, level, hlevel⟩
    · rw [hfull cell hcell]
      exact min_le_right _ _
    · rw [hzero, Nat.add_zero] at hsum
      refine min_le_given hlevel ?_ cell hcell
      rw [hsmallest, hsum]
      exact hbudget

/-! ### Windows -/

theorem firstBest_mem (key : ℕ → Float) (best : ℕ) (offsets : List ℕ) :
    firstBest key best offsets ∈ best :: offsets := by
  induction offsets generalizing best with
  | nil => exact List.mem_cons_self
  | cons offset offsets ih =>
      rw [firstBest]
      split_ifs
      · exact List.mem_cons_of_mem _ (ih offset)
      · rcases List.mem_cons.mp (ih best) with h | h
        · rw [h]
          exact List.mem_cons_self
        · exact List.mem_cons_of_mem _ (List.mem_cons_of_mem _ h)

/-- **A window lies in the text** and has the size it is to have. -/
theorem window_spec (search : Search) {text : List Char} (query : String) {size : ℕ}
    (h : size ≤ text.length) :
    (window search text query size).2 = (window search text query size).1 + size ∧
      (window search text query size).2 ≤ text.length := by
  rw [window]
  split_ifs with hwhole
  · exact ⟨by omega, le_rfl⟩
  · have hstarts : ∀ start ∈ (insert 0 ((termMatches search text query).map fun m =>
        min (text.length - size) (m.1 - size / 4)).toFinset).sort (· ≤ ·),
        start ≤ text.length - size := by
      intro start hstart
      rw [Finset.mem_sort, Finset.mem_insert, List.mem_toFinset, List.mem_map] at hstart
      rcases hstart with rfl | ⟨m, -, rfl⟩
      · exact Nat.zero_le _
      · exact min_le_left _ _
    dsimp only
    split
    · rename_i hnil
      refine ⟨rfl, ?_⟩
      omega
    · rename_i first rest hsort
      rw [hsort] at hstarts
      have hstart : ∀ key, firstBest key first rest ≤ text.length - size :=
        fun key => hstarts _ (firstBest_mem key first rest)
      refine ⟨rfl, le_trans (Nat.add_le_add_right (hstart _) size) ?_⟩
      omega

/-! ### The material -/

theorem length_toString_le {m n : ℕ} (h : m ≤ n) : (toString m).length ≤ (toString n).length := by
  have hpos : 0 < (Nat.repr n).length := Nat.length_repr_pos
  exact (Nat.length_repr_le_iff hpos).mpr (lt_of_le_of_lt h ((Nat.length_repr_le_iff hpos).mp le_rfl))

theorem length_offsetHeader_le {start stop length : ℕ} (hstart : start ≤ length)
    (hstop : stop ≤ length) :
    (offsetHeader start stop length).length ≤ (offsetHeader length length length).length := by
  have h₁ := length_toString_le hstart
  have h₂ := length_toString_le hstop
  simp only [offsetHeader, String.length_toList, String.length_append]
  omega

theorem length_row_le {passage : Passage} {start size : ℕ}
    (h : start + size ≤ passage.text.length) :
    (row passage start (start + size)).length ≤ reserve passage + size := by
  have hheader := @length_offsetHeader_le start (start + size) passage.text.length (by omega) h
  rw [row, List.length_append, List.length_append, List.length_drop, List.length_take, reserve]
  omega

theorem length_intercalate_add_two (rows : List (List Char)) :
    (List.intercalate "\n\n".toList rows).length + (if rows = [] then 0 else 2) =
      (rows.map fun r => r.length + 2).sum := by
  induction rows with
  | nil => rfl
  | cons r rows ih =>
      cases rows with
      | nil => simp [List.intercalate]
      | cons s rows =>
          have hcons : List.intercalate "\n\n".toList (r :: s :: rows) =
              r ++ ("\n\n".toList ++ List.intercalate "\n\n".toList (s :: rows)) := by
            simp [List.intercalate]
          rw [if_neg (List.cons_ne_nil _ _)] at ih
          rw [if_neg (List.cons_ne_nil _ _), hcons, List.map_cons, List.sum_cons, ← ih,
            List.length_append, List.length_append]
          change r.length + (2 + _) + 2 = _
          omega

/-- The size of a window. -/
def Window.size (w : Window) : ℕ :=
  w.2.2 - w.2.1

/-- **The material keeps to the budget** where the headers and the windows do. -/
theorem length_material_le {header : List Char} {windows : List Window} {budget : ℕ}
    (hwindows : ∀ w ∈ windows, w.2.1 ≤ w.2.2 ∧ w.2.2 ≤ w.1.text.length)
    (hbudget : header.length + (windows.map fun w => reserve w.1 + 2 + w.size).sum ≤
      budget + 2) (hheader : header.length ≤ budget) :
    (material header windows).length ≤ budget := by
  have hrows : ((windows.map fun w => row w.1 w.2.1 w.2.2).map fun r => r.length + 2).sum ≤
      (windows.map fun w => reserve w.1 + 2 + w.size).sum := by
    rw [List.map_map]
    refine List.sum_le_sum fun w hw => ?_
    obtain ⟨hstart, hstop⟩ := hwindows w hw
    have hrow := @length_row_le w.1 w.2.1 (w.2.2 - w.2.1) (by omega)
    rw [Nat.add_sub_cancel' hstart] at hrow
    rw [Function.comp, Window.size]
    omega
  have hjoin := length_intercalate_add_two (windows.map fun w => row w.1 w.2.1 w.2.2)
  rw [material, List.length_append]
  split_ifs at hjoin with hnil
  · rw [hnil] at hjoin ⊢
    exact hheader
  · omega

theorem sum_map_filter_le {α : Type} (f : α → ℕ) (q : α → Bool) (l : List α) :
    ((l.filter q).map f).sum ≤ (l.map f).sum := by
  induction l with
  | nil => exact le_rfl
  | cons a l ih =>
      rw [List.map_cons, List.sum_cons]
      by_cases ha : q a = true
      · rw [List.filter_cons_of_pos ha, List.map_cons, List.sum_cons]
        omega
      · rw [List.filter_cons_of_neg ha]
        omega

/-! ### The shares -/

/-- What is to hold of the windows of the accepted passages. -/
structure Fair (accepted : Accepted) (maxChars : ℤ) (windows : List Window) : Prop where
  /-- There is one for each accepted passage, in order. -/
  passages : windows.map Prod.fst = accepted.selected
  /-- Of a passage with a text, it is a slice that is not empty, and not smaller than it may
  be. -/
  slice : ∀ w ∈ windows, w.1.text ≠ [] →
    w.2.1 < w.2.2 ∧ w.2.2 ≤ w.1.text.length ∧ min 48 w.1.text.length ≤ w.size
  /-- Two that are cut differ by one at most. -/
  level : ∀ w ∈ windows, ∀ v ∈ windows, w.size < w.1.text.length → v.size < v.1.text.length →
    w.size ≤ v.size + 1
  /-- All are whole, or the whole budget that the headers leave is handed out. -/
  used : (∀ w ∈ windows, w.size = w.1.text.length) ∨
    ((windows.map Window.size).sum : ℤ) = maxChars - accepted.overhead

/-- **Excerpts share one budget fairly.** The call succeeds; where nothing is accepted, nothing is
shown, and else each accepted passage with a text is shown in a window, which its header states,
and the material keeps to the budget. -/
theorem render_fair (search : Search) (passages : List Passage) (query : String)
    (header : List Char) (maxChars : ℤ) (identity : String) :
    ((accept passages header maxChars).selected = [] ∧
      render search passages query header maxChars identity = .ok ⟨[], []⟩) ∨
    ((accept passages header maxChars).selected ≠ [] ∧
      ∃ windows : List Window, Fair (accept passages header maxChars) maxChars windows ∧
        ((material header (windows.filter (·.1.text ≠ []))).length : ℤ) ≤ maxChars ∧
        render search passages query header maxChars identity =
          .ok ⟨[⟨"recall", material header (windows.filter (·.1.text ≠ [])), 300⟩],
            (windows.filter (·.1.text ≠ [])).map fun w => reference identity w.1 w.2.1 w.2.2⟩) := by
  have hsums := accept_spec passages header maxChars
  generalize haccepted : accept passages header maxChars = accepted at hsums ⊢
  by_cases hnil : accepted.selected = []
  · refine .inl ⟨hnil, ?_⟩
    rw [render, haccepted, if_pos hnil]
  refine .inr ⟨hnil, ?_⟩
  have hfits := hsums.fits hnil
  have hminimum := hsums.minimum
  have hoverhead := hsums.overhead
  rw [if_neg hnil, Nat.add_zero] at hoverhead
  obtain ⟨budget, hbudget⟩ : ∃ budget : ℕ, maxChars = accepted.overhead + budget :=
    ⟨(maxChars - accepted.overhead).toNat, by omega⟩
  have hleft : (maxChars - accepted.overhead).toNat = budget := by omega
  obtain ⟨hpassages, hle, hsum, hlevel, hused, hsmallest⟩ := allocate_spec accepted.selected budget
  generalize hsizes : accepted.selected.zip (allocate accepted.selected budget) = sizes at *
  have hsmallest := hsmallest (by omega)
  have hwindow : ∀ p ∈ sizes, (window search p.1.text query p.2).2 =
      (window search p.1.text query p.2).1 + p.2 ∧
        (window search p.1.text query p.2).2 ≤ p.1.text.length :=
    fun p hp => window_spec search query (hle p hp)
  have hempty : ∀ p ∈ sizes, (p.1.text ≠ [] ↔ p.2 ≠ 0) := by
    intro p hp
    have hsmall := hsmallest p hp
    have hpos := hle p hp
    rw [smallest] at hsmall
    rw [← List.length_pos_iff]
    omega
  let windows : List Window := sizes.map fun p => (p.1, window search p.1.text query p.2)
  have hsize : ∀ p ∈ sizes,
      Window.size (p.1, window search p.1.text query p.2) = p.2 := by
    intro p hp
    have hstop := (hwindow p hp).1
    rw [Window.size]
    dsimp only
    omega
  have hsizesum : (windows.map Window.size).sum = (sizes.map Prod.snd).sum := by
    rw [List.map_map]
    exact congrArg List.sum (List.map_congr_left hsize)
  have hshown : shown search query accepted.selected (allocate accepted.selected budget) =
      windows.filter (·.1.text ≠ []) := by
    rw [shown, hsizes, List.filter_map]
    refine congrArg (List.map _) (List.filter_congr fun p hp => ?_)
    exact decide_eq_decide.mpr (hempty p hp).symm
  have hall : (windows.map fun w => reserve w.1 + 2 + w.size).sum =
      (accepted.selected.map fun p => reserve p + 2).sum + (sizes.map Prod.snd).sum := by
    rw [List.sum_map_add, hsizesum, ← hpassages, List.map_map, List.map_map]
    rfl
  have hreserve : 2 ≤ (accepted.selected.map fun p => reserve p + 2).sum := by
    obtain ⟨p, rest, hselected⟩ := List.exists_cons_of_ne_nil hnil
    rw [hselected, List.map_cons, List.sum_cons]
    omega
  have hmaterial : (material header (windows.filter (·.1.text ≠ []))).length ≤
      accepted.overhead + budget := by
    refine length_material_le (fun w hw => ?_) ?_ (by omega)
    · obtain ⟨p, hp, rfl⟩ := List.mem_map.mp (List.mem_filter.mp hw).1
      obtain ⟨hstop, hlength⟩ := hwindow p hp
      refine ⟨?_, hlength⟩
      dsimp only
      omega
    · have hsub := sum_map_filter_le (fun w : Window => reserve w.1 + 2 + w.size)
        (·.1.text ≠ []) windows
      omega
  refine ⟨windows, ⟨?_, fun w hw htext => ?_, fun w hw v hv hwcut hvcut => ?_, ?_⟩, by omega, ?_⟩
  · rw [← hpassages, List.map_map]
    rfl
  · obtain ⟨p, hp, rfl⟩ := List.mem_map.mp hw
    obtain ⟨hstop, hlength⟩ := hwindow p hp
    have hpos := (hempty p hp).mp htext
    refine ⟨?_, hlength, ?_⟩
    · dsimp only
      omega
    · rw [hsize p hp]
      exact hsmallest p hp
  · obtain ⟨p, hp, rfl⟩ := List.mem_map.mp hw
    obtain ⟨q, hq, rfl⟩ := List.mem_map.mp hv
    rw [hsize p hp] at hwcut ⊢
    rw [hsize q hq] at hvcut ⊢
    exact hlevel p hp q hq hwcut hvcut
  · rw [hsizesum]
    refine hused.imp (fun hused w hw => ?_) fun hused => by omega
    obtain ⟨p, hp, rfl⟩ := List.mem_map.mp hw
    rw [hsize p hp]
    exact hused p hp
  · rw [render, haccepted, if_neg hnil, hleft]
    dsimp only
    rw [hshown, if_neg (by omega)]

end Kirakira.Akasha
