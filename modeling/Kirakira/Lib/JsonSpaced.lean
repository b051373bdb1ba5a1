import Mathlib.Algebra.Order.Ring.Nat
import Kirakira.Lib.Json

/-!
# Spaced JSON Texts

The text of a tree with a blank after every comma and colon, and its length. A string stands in
it escaped, so a text is at least as long as the string, and as long only where nothing is
escaped.

* `length_spaced_obj` — the length of an object is the sum of the sizes of its fields.
* `length_le_escaped`, `length_escaped_eq_iff` — how long an escaped string is.
-/

namespace Json

mutual

/-- The text of a tree with blanks after the separators. -/
def spaced : Json → List Char
  | .null => "null".toList
  | .bool true => "true".toList
  | .bool false => "false".toList
  | .int n => (toString n).toList
  | .float f => f.text.toList
  | .str s => stringChars s
  | .arr [] => ['[', ']']
  | .arr (j :: rest) => '[' :: (spaced j ++ spacedItems rest)
  | .obj [] => ['{', '}']
  | .obj ((k, j) :: rest) => '{' :: (stringChars k ++ ':' :: ' ' :: (spaced j ++ spacedFields rest))

/-- The remaining items of an array and its closing bracket. -/
def spacedItems : List Json → List Char
  | [] => [']']
  | j :: rest => ',' :: ' ' :: (spaced j ++ spacedItems rest)

/-- The remaining fields of an object and its closing brace. -/
def spacedFields : List (String × Json) → List Char
  | [] => ['}']
  | (k, j) :: rest =>
      ',' :: ' ' :: (stringChars k ++ ':' :: ' ' :: (spaced j ++ spacedFields rest))

end

/-- The part of a field in the length of an object, separators and braces included. -/
def fieldSize (field : String × Json) : ℕ :=
  (stringChars field.1).length + (spaced field.2).length + 4

theorem length_spacedFields (fields : List (String × Json)) :
    (spacedFields fields).length = (fields.map fieldSize).sum + 1 := by
  induction fields with
  | nil => rfl
  | cons field rest ih =>
      obtain ⟨k, j⟩ := field
      rw [spacedFields, List.map_cons, List.sum_cons, fieldSize]
      simp only [List.length_cons, List.length_append, ih]
      omega

/-- **The length of an object.** -/
theorem length_spaced_obj {fields : List (String × Json)} (hne : fields ≠ []) :
    (spaced (.obj fields)).length = (fields.map fieldSize).sum := by
  obtain ⟨⟨k, j⟩, rest, rfl⟩ := List.exists_cons_of_ne_nil hne
  rw [spaced, List.map_cons, List.sum_cons, fieldSize]
  simp only [List.length_cons, List.length_append, length_spacedFields]
  omega

/-! ### Escaped strings -/

/-- How long a string is when it is escaped. -/
def escapedLength (cs : List Char) : ℕ :=
  (cs.flatMap escapeChar).length

@[simp] theorem escapedLength_nil : escapedLength [] = 0 :=
  rfl

@[simp] theorem escapedLength_cons (c : Char) (cs : List Char) :
    escapedLength (c :: cs) = (escapeChar c).length + escapedLength cs := by
  rw [escapedLength, List.flatMap_cons, List.length_append]
  rfl

theorem length_stringTail (cs : List Char) : (stringTail cs).length = escapedLength cs + 1 := by
  induction cs with
  | nil => rfl
  | cons c cs ih =>
      rw [stringTail, List.length_append, ih, escapedLength_cons]
      omega

theorem length_stringChars (s : String) :
    (stringChars s).length = escapedLength s.toList + 2 := by
  rw [stringChars, List.length_cons, length_stringTail]

/-- A character stands for itself, or is longer when it is escaped. -/
theorem escapeChar_cases (c : Char) : escapeChar c = [c] ∨ 1 < (escapeChar c).length := by
  rw [escapeChar]
  split_ifs <;> simp

theorem length_le_escapedLength (cs : List Char) : cs.length ≤ escapedLength cs := by
  induction cs with
  | nil => exact Nat.le_refl 0
  | cons c cs ih =>
      rw [escapedLength_cons, List.length_cons]
      rcases escapeChar_cases c with hplain | hlong
      · rw [hplain, List.length_singleton]
        omega
      · omega

/-- **Escaping keeps the length** of a string exactly where nothing is escaped. -/
theorem escapedLength_eq_iff {cs : List Char} :
    escapedLength cs = cs.length ↔ ∀ c ∈ cs, escapeChar c = [c] := by
  induction cs with
  | nil => simp
  | cons c cs ih =>
      have hle := length_le_escapedLength cs
      rw [escapedLength_cons, List.length_cons, List.forall_mem_cons, ← ih]
      rcases escapeChar_cases c with hplain | hlong
      · simp only [hplain, List.length_singleton, true_and]
        omega
      · constructor
        · omega
        · rintro ⟨hplain, -⟩
          rw [hplain] at hlong
          exact absurd hlong (Nat.lt_irrefl 1)

end Json
