import Mathlib.Data.List.Basic
import Mathlib.Data.List.Infix

/-!
# Replacing a Pattern

A list is cut at the occurrences of a pattern, from the left and without overlaps. Replacing the
pattern puts the pieces together with something else.

* `intercalate_split` — the pieces are put together with the pattern again.
* `not_infix_of_mem_split` — no piece has an occurrence.
* `one_lt_length_split_iff` — there is something to replace where the pattern occurs.
-/

namespace Replacing

variable {α : Type} [DecidableEq α] {m xs : List α}

/-- The pieces between the occurrences, after some elements are skipped. -/
def splitFrom (m : List α) : ℕ → List α → List (List α)
  | _, [] => [[]]
  | skip + 1, _ :: xs => splitFrom m skip xs
  | 0, x :: xs =>
      if m <+: x :: xs then [] :: splitFrom m (m.length - 1) xs
      else (splitFrom m 0 xs).modifyHead (x :: ·)

/-- The pieces between the occurrences. -/
def split (m xs : List α) : List (List α) :=
  splitFrom m 0 xs

theorem splitFrom_eq (m : List α) (skip : ℕ) (xs : List α) :
    splitFrom m skip xs = split m (xs.drop skip) := by
  induction skip generalizing xs with
  | zero => rfl
  | succ skip ih =>
      cases xs with
      | nil => rfl
      | cons x xs => rw [splitFrom, ih, List.drop_succ_cons]

@[simp] theorem split_nil (m : List α) : split m [] = [[]] :=
  rfl

theorem split_append (hm : m ≠ []) (xs : List α) : split m (m ++ xs) = [] :: split m xs := by
  obtain ⟨a, rest, rfl⟩ := List.exists_cons_of_ne_nil hm
  rw [split, List.cons_append, splitFrom, ← List.cons_append,
    if_pos (List.prefix_append (a :: rest) xs), splitFrom_eq, List.length_cons,
    Nat.add_sub_cancel, List.drop_left]

theorem split_cons {x : α} (h : ¬m <+: x :: xs) :
    split m (x :: xs) = (split m xs).modifyHead (x :: ·) := by
  rw [split, splitFrom, if_neg h]
  rfl

theorem split_ne_nil (m xs : List α) : split m xs ≠ [] := by
  suffices h : ∀ skip, splitFrom m skip xs ≠ [] from h 0
  induction xs with
  | nil => simp [splitFrom]
  | cons x xs ih =>
      rintro (_ | skip)
      · rw [splitFrom]
        split_ifs
        · exact List.cons_ne_nil _ _
        · rw [ne_eq, List.modifyHead_eq_nil_iff]
          exact ih 0
      · exact ih skip

theorem split_induction {P : List α → Prop} (hm : m ≠ []) (nil : P [])
    (found : ∀ xs, P xs → P (m ++ xs))
    (cons : ∀ x xs, ¬m <+: x :: xs → P xs → P (x :: xs)) (xs : List α) : P xs := by
  induction hn : xs.length using Nat.strong_induction_on generalizing xs with
  | _ n ih =>
      cases xs with
      | nil => exact nil
      | cons x xs =>
          by_cases h : m <+: x :: xs
          · obtain ⟨rest, hrest⟩ := h
            have hlength := congrArg List.length hrest
            have hpos := List.length_pos_iff.mpr hm
            rw [List.length_append] at hlength
            rw [← hrest]
            exact found rest (ih rest.length (by omega) rest rfl)
          · rw [List.length_cons] at hn
            exact cons x xs h (ih xs.length (by omega) xs rfl)

/-- **Nothing is lost.** -/
theorem intercalate_split (hm : m ≠ []) (xs : List α) : List.intercalate m (split m xs) = xs := by
  induction xs using split_induction hm with
  | nil => simp
  | found xs ih =>
      rw [split_append hm, List.intercalate_cons_of_ne_nil (split_ne_nil m xs), ih]
      rfl
  | cons x xs h ih =>
      obtain ⟨piece, pieces, hpieces⟩ := List.exists_cons_of_ne_nil (split_ne_nil m xs)
      rw [split_cons h]
      rw [hpieces] at ih ⊢
      cases pieces with
      | nil =>
          rw [List.intercalate_singleton] at ih
          rw [List.modifyHead_cons, List.intercalate_singleton, ih]
      | cons next pieces =>
          rw [List.intercalate_cons_cons] at ih
          rw [List.modifyHead_cons, List.intercalate_cons_cons, List.cons_append, List.cons_append,
            ih]

/-- **No piece has an occurrence.** -/
theorem not_infix_of_mem_split (hm : m ≠ []) {piece : List α} (h : piece ∈ split m xs) :
    ¬m <:+: piece := by
  induction xs using split_induction hm generalizing piece with
  | nil =>
      rw [split_nil, List.mem_singleton] at h
      rw [h, List.infix_nil]
      exact hm
  | found xs ih =>
      rw [split_append hm] at h
      rcases List.mem_cons.mp h with rfl | h
      · rw [List.infix_nil]
        exact hm
      · exact ih h
  | cons x xs hnot ih =>
      have hxs := intercalate_split hm xs
      obtain ⟨first, pieces, hpieces⟩ := List.exists_cons_of_ne_nil (split_ne_nil m xs)
      rw [split_cons hnot, hpieces] at h
      rw [hpieces] at hxs ih
      rcases List.mem_cons.mp h with rfl | h
      · rw [List.infix_cons_iff, not_or]
        refine ⟨fun hp => hnot (hp.trans ?_), ih List.mem_cons_self⟩
        rw [List.cons_prefix_cons]
        refine ⟨rfl, ?_⟩
        rw [← hxs]
        cases pieces with
        | nil => rw [List.intercalate_singleton]
        | cons next pieces =>
            rw [List.intercalate_cons_cons, List.append_assoc]
            exact List.prefix_append _ _
      · exact ih (List.mem_cons_of_mem _ h)

theorem split_of_not_infix (h : ¬m <:+: xs) : split m xs = [xs] := by
  induction xs with
  | nil => rfl
  | cons x xs ih =>
      rw [List.infix_cons_iff, not_or] at h
      rw [split_cons h.1, ih h.2]
      rfl

/-- There is something to replace where the pattern occurs. -/
theorem one_lt_length_split_iff (hm : m ≠ []) : 1 < (split m xs).length ↔ m <:+: xs := by
  constructor
  · intro hlong
    by_contra hno
    have hone := split_of_not_infix hno
    rw [hone, List.length_singleton] at hlong
    exact Nat.lt_irrefl 1 hlong
  · intro hin
    by_contra hshort
    obtain ⟨piece, pieces, hpieces⟩ := List.exists_cons_of_ne_nil (split_ne_nil m xs)
    cases pieces with
    | cons next pieces => simp [hpieces] at hshort
    | nil =>
        have hxs := intercalate_split hm xs
        rw [hpieces, List.intercalate_singleton] at hxs
        have hmem : piece ∈ split m xs := hpieces ▸ List.mem_singleton_self piece
        exact not_infix_of_mem_split hm hmem (hxs ▸ hin)

end Replacing
