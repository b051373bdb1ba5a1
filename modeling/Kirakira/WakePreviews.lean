import Kirakira.Lib.Dict
import Kirakira.Lib.JsonSpaced

/-!
# Previews for a Wake

`_preview` of `plugins/wake/messages.py` cuts the texts of the rows that a wake shows to the
model, so that the rows stay within a budget. The room for a text is what the budget leaves
beside a row without a text.

* A row is a dictionary with a text; its size is the length of its JSON text.

## Main results

* `preview_rows`, `preview_stop` — what is kept of the rows, and why the rest is left out.
* `preview_within_iff` — when the rows stay within the budget.
-/

namespace Kirakira.Previews

open Json

/-! ### The source -/

/-- A row, with its text. -/
structure Row where
  fields : Dict String Json
  text : List Char
  get_text : fields.get? "text" = some (.str (String.ofList text))

/-- `{**row, "text": text, "truncated": truncated}`. -/
def Row.shown (row : Row) (text : List Char) (truncated : Bool) : Dict String Json :=
  (row.fields.set "text" (.str (String.ofList text))).set "truncated" (.bool truncated)

/-- `len(json.dumps(value, ensure_ascii=False))`. -/
def size (value : Dict String Json) : ℕ :=
  (spaced (.obj value.entries)).length

/-- What a budget leaves for the text of a row. -/
def room (budget : ℤ) (row : Row) : ℤ :=
  budget - size (row.shown [] true)

/-- What is shown of a row for which there is room. -/
def cutRow (budget : ℤ) (row : Row) : Dict String Json :=
  row.shown (row.text.take (room budget row).toNat) (decide (room budget row < row.text.length))

/-- `_preview`. -/
def preview (budget : ℤ) : List Row → List (Dict String Json)
  | [] => []
  | row :: rows =>
      if room budget row ≤ 0 then []
      else cutRow budget row :: preview (budget - size (cutRow budget row)) rows

/-- The length of the JSON texts of some rows. -/
def totalSize (values : List (Dict String Json)) : ℕ :=
  (values.map size).sum

/-! ### Sizes -/

/-- What a row takes beside its text and the flag. -/
def Row.rest (row : Row) : ℕ :=
  (((row.fields.entries.filter fun e => e.1 ≠ "truncated").filter fun e => e.1 ≠ "text").map
    fieldSize).sum

/-- **The size of a row** whose text and flag were set. -/
theorem size_shown (row : Row) (text : List Char) (truncated : Bool) :
    size (row.shown text truncated) =
      row.rest + fieldSize ("text", .str (String.ofList text)) +
        fieldSize ("truncated", .bool truncated) := by
  have hnodup : ((row.fields.entries.filter fun e => e.1 ≠ "truncated").map Prod.fst).Nodup :=
    row.fields.nodup.sublist ((List.filter_sublist).map Prod.fst)
  have hne : (row.shown text truncated).entries ≠ [] := by
    intro hnil
    have hget := Dict.get?_set_self (row.fields.set "text" (.str (String.ofList text)))
      "truncated" (.bool truncated)
    rw [Dict.get?, show (Dict.set _ _ _).entries = [] from hnil] at hget
    cases hget
  rw [size, length_spaced_obj hne]
  change ((Dict.put "truncated" _ (Dict.put "text" _ row.fields.entries)).map fieldSize).sum = _
  rw [Dict.sum_put _ _ _ (Dict.nodup_put _ _ row.fields.nodup),
    Dict.filter_ne_put _ _ (by decide), Dict.sum_put _ _ _ hnodup, Row.rest]
  omega

theorem size_shown_eq (row : Row) (text : List Char) (truncated : Bool) :
    size (row.shown text truncated) =
      size (row.shown [] true) + escapedLength text + (if truncated then 0 else 1) := by
  have htext : (spaced (.str (String.ofList text))).length = escapedLength text + 2 := by
    rw [spaced, length_stringChars, String.toList_ofList]
  have hempty : (spaced (.str (String.ofList []))).length = 2 := rfl
  have htrue : (spaced (.bool true)).length = 4 := rfl
  have hfalse : (spaced (.bool false)).length = 5 := rfl
  rw [size_shown, size_shown]
  cases truncated <;>
    simp only [fieldSize, htext, hempty, htrue, hfalse, if_true, Bool.false_eq_true, if_false] <;>
    omega

theorem size_pos (row : Row) (text : List Char) (truncated : Bool) :
    0 < size (row.shown text truncated) := by
  rw [size_shown, fieldSize]
  omega

/-! ### What is kept -/

/-- What a row is shown as: a beginning of its text, and whether it was cut. -/
def Row.IsPreview (row : Row) (value : Dict String Json) : Prop :=
  ∃ text, text <+: row.text ∧ value = row.shown text (decide (text ≠ row.text))

theorem isPreview_cutRow (budget : ℤ) (row : Row) (hroom : 0 < room budget row) :
    row.IsPreview (cutRow budget row) := by
  refine ⟨row.text.take (room budget row).toNat, List.take_prefix _ _, ?_⟩
  rw [cutRow]
  congr 1
  refine decide_eq_decide.mpr ?_
  constructor
  · intro hlt heq
    have hlength := congrArg List.length heq
    rw [List.length_take] at hlength
    omega
  · intro hne
    by_contra hle
    exact hne (List.take_of_length_le (by omega))

/-- **The rows that are shown** are the first ones. -/
theorem preview_rows (budget : ℤ) (rows : List Row) :
    List.Forall₂ Row.IsPreview (rows.take (preview budget rows).length) (preview budget rows) := by
  induction rows generalizing budget with
  | nil => exact .nil
  | cons row rows ih =>
      rw [preview]
      split_ifs with hroom
      · exact .nil
      · rw [List.length_cons, List.take_succ_cons]
        exact .cons (isPreview_cutRow budget row (by omega)) (ih _)

/-- **The first row that is left out** has no room for a single character. -/
theorem preview_stop {budget : ℤ} {rows : List Row} {row : Row}
    (h : rows[(preview budget rows).length]? = some row) (c : Char) (truncated : Bool) :
    budget < totalSize (preview budget rows) + size (row.shown [c] truncated) := by
  induction rows generalizing budget with
  | nil => cases h
  | cons first rows ih =>
      rw [preview] at h ⊢
      split_ifs at h ⊢ with hroom
      · obtain rfl := Option.some.inj h
        have hchar := length_le_escapedLength [c]
        rw [List.length_singleton] at hchar
        rw [room] at hroom
        rw [size_shown_eq first [c]]
        change _ < ((0 : ℕ) : ℤ) + _
        omega
      · have hrest := ih h
        rw [totalSize, List.map_cons, List.sum_cons]
        rw [totalSize] at hrest
        omega

/-! ### The budget -/

/-- The rows fit: a text that is cut is kept without escapes, and a text that is whole leaves room
for its escapes and the longer flag. -/
def Fits (budget : ℤ) : List Row → Prop
  | [] => 0 ≤ budget
  | row :: rows =>
      if room budget row ≤ 0 then 0 ≤ budget
      else if room budget row < row.text.length then
        ∀ c ∈ row.text.take (room budget row).toNat, escapeChar c = [c]
      else
        escapedLength row.text + 1 ≤ room budget row ∧
          Fits (room budget row - 1 - escapedLength row.text) rows

theorem preview_of_nonpos {budget : ℤ} (h : budget ≤ 0) (rows : List Row) :
    preview budget rows = [] := by
  cases rows with
  | nil => rfl
  | cons row rows =>
      have hpos := size_pos row [] true
      rw [preview, if_pos]
      rw [room]
      omega

/-- **When the rows stay within the budget.** -/
theorem preview_within_iff (budget : ℤ) (rows : List Row) :
    (totalSize (preview budget rows) : ℤ) ≤ budget ↔ Fits budget rows := by
  induction rows generalizing budget with
  | nil => exact Iff.rfl
  | cons row rows ih =>
      rw [preview, Fits]
      split_ifs with hroom hcut
      · exact Iff.rfl
      · -- A text that is cut fills the room, and what follows is left out.
        have hsize := size_shown_eq row (row.text.take (room budget row).toNat) true
        have hle := length_le_escapedLength (row.text.take (room budget row).toNat)
        have hlength : (row.text.take (room budget row).toNat).length = (room budget row).toNat :=
          List.length_take_of_le (by omega)
        have hrow : cutRow budget row
            = row.shown (row.text.take (room budget row).toNat) true := by
          rw [cutRow, decide_eq_true hcut]
        rw [if_pos rfl] at hsize
        rw [← escapedLength_eq_iff, hrow, totalSize, List.map_cons, List.sum_cons]
        rw [preview_of_nonpos (by rw [room] at *; omega)]
        change (((size _ + 0 : ℕ)) : ℤ) ≤ _ ↔ _
        rw [room] at *
        omega
      · have hsize := size_shown_eq row row.text false
        have hrow : cutRow budget row = row.shown row.text false := by
          rw [cutRow, decide_eq_false hcut, List.take_of_length_le (by omega)]
        rw [if_neg Bool.false_ne_true] at hsize
        have hbudget : budget - size (cutRow budget row)
            = room budget row - 1 - escapedLength row.text := by
          rw [hrow, room]
          omega
        rw [hbudget, totalSize, List.map_cons, List.sum_cons, ← totalSize, ← ih]
        omega

/-- **What the previews of some rows are**, and when they stay within the budget. -/
theorem preview_holds (budget : ℤ) (rows : List Row) :
    ((totalSize (preview budget rows) : ℤ) ≤ budget ∧
      List.Forall₂ Row.IsPreview (rows.take (preview budget rows).length) (preview budget rows) ∧
      ∀ row, rows[(preview budget rows).length]? = some row → ∀ c truncated,
        budget < totalSize (preview budget rows) + size (row.shown [c] truncated)) ↔
      Fits budget rows := by
  rw [← preview_within_iff, and_iff_left]
  exact ⟨preview_rows budget rows, fun row h c truncated => preview_stop h c truncated⟩

/-- A row of quotes. -/
def quotes : Row where
  fields := Dict.empty.set "text" (.str (String.ofList (List.replicate 3000 '"')))
  text := List.replicate 3000 '"'
  get_text := rfl

/-- Every quote takes two characters of the budget. -/
theorem preview_exceeds : ¬((totalSize (preview 3000 [quotes]) : ℤ) ≤ 3000) := by
  have hroom : room 3000 quotes = 2969 := rfl
  rw [preview_within_iff, Fits, hroom, if_neg (by decide),
    if_pos (by rw [quotes, List.length_replicate]; decide)]
  intro hplain
  have hquote : '"' ∈ quotes.text.take (2969 : ℤ).toNat := by
    rw [quotes, List.take_replicate, List.mem_replicate]
    exact ⟨by decide, rfl⟩
  exact absurd (hplain '"' hquote) (by decide)

end Kirakira.Previews
