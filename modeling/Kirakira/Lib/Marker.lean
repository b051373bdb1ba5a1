import Mathlib.Data.List.Infix
import Mathlib.Data.Nat.Find

/-!
# Finding a Marker in a Stream

A marker is a list that a reader of a stream looks for while the stream comes in pieces. What
can be passed on is what stands before the first position at which the marker begins or may
still turn out to begin; the rest is held back.

* `cut_append` — **the cut does not depend on the pieces**: what is held back of one piece is
  put in front of the next.
* `cut_of_find`, `cut_of_find_none` — the cut is made at the first occurrence of the marker, or
  else holds back the longest end of the stream that the marker begins with.
* `find_append_right` — where no occurrence can end.
-/

namespace Marker

variable {α : Type} {marker xs ys : List α}

/-! ### Beginnings -/

/-- A list does not end in what follows where its last element is missing there. -/
theorem prefix_append_iff (front : List α) {a : α} (h : a ∉ ys) :
    front ++ [a] <+: xs ++ ys ↔ front ++ [a] <+: xs := by
  refine ⟨fun hp => ?_, fun hp => hp.trans (List.prefix_append _ _)⟩
  rcases List.prefix_or_prefix_of_prefix hp (List.prefix_append xs ys) with hxs | hxs
  · exact hxs
  · rcases List.prefix_concat_iff.mp hxs with rfl | ⟨more, rfl⟩
    · exact List.prefix_rfl
    · rw [List.append_assoc, List.prefix_append_right_inj] at hp
      exact absurd (hp.subset (List.mem_append_right _ List.mem_cons_self)) h

/-- The marker begins here, or may still turn out to. -/
def Meets (marker xs : List α) : Prop :=
  marker <+: xs ∨ xs <+: marker

/-- A longer text meets the marker no more than its beginning does. -/
theorem Meets.of_append (h : Meets marker (xs ++ ys)) : Meets marker xs := by
  rcases h with h | h
  · exact List.prefix_or_prefix_of_prefix h (List.prefix_append xs ys)
  · exact .inr ((List.prefix_append xs ys).trans h)

variable [DecidableEq α]

/-! ### The first occurrence -/

/-- The position of the first occurrence. -/
def find (marker : List α) : List α → Option ℕ
  | [] => if marker = [] then some 0 else none
  | x :: xs => if marker <+: x :: xs then some 0 else (find marker xs).map (· + 1)

theorem find_eq_some {i : ℕ} (h : find marker xs = some i) :
    marker <+: xs.drop i ∧ i + marker.length ≤ xs.length := by
  induction xs generalizing i with
  | nil =>
      rw [find] at h
      split_ifs at h with hnil
      obtain rfl := Option.some.inj h
      rw [hnil]
      exact ⟨List.prefix_rfl, le_rfl⟩
  | cons x xs ih =>
      rw [find] at h
      split_ifs at h with hbegins
      · obtain rfl := Option.some.inj h
        exact ⟨hbegins, by simpa using hbegins.length_le⟩
      · obtain ⟨j, hj, rfl⟩ := Option.map_eq_some_iff.mp h
        obtain ⟨hmarker, hlength⟩ := ih hj
        exact ⟨hmarker, by rw [List.length_cons]; omega⟩

/-- The marker does not end where its last element is missing. -/
theorem find_append_right (front : List α) {a : α} (h : a ∉ ys) :
    find (front ++ [a]) (xs ++ ys) = find (front ++ [a]) xs := by
  have hnone : ∀ ys, a ∉ ys → find (front ++ [a]) ys = none := by
    intro ys hys
    induction ys with
    | nil => simp [find]
    | cons y ys ih =>
        have hbegins : ¬front ++ [a] <+: y :: ys := fun hp =>
          hys (hp.subset (List.mem_append_right _ List.mem_cons_self))
        rw [find, if_neg hbegins, ih fun hmem => hys (List.mem_cons_of_mem _ hmem)]
        rfl
  induction xs with
  | nil =>
      rw [List.nil_append, hnone ys h, hnone [] List.not_mem_nil]
  | cons x xs ih =>
      rw [List.cons_append, find, find, ih, ← List.cons_append]
      simp only [prefix_append_iff front h]

/-! ### Holding back -/

instance (marker xs : List α) : Decidable (Meets marker xs) :=
  inferInstanceAs (Decidable (_ ∨ _))

/-- What can be passed on, and what is held back. -/
def cut (marker : List α) : List α → List α × List α
  | [] => ([], [])
  | x :: xs =>
      if Meets marker (x :: xs) then ([], x :: xs)
      else (x :: (cut marker xs).1, (cut marker xs).2)

theorem cut_append_cut (marker xs : List α) : (cut marker xs).1 ++ (cut marker xs).2 = xs := by
  induction xs with
  | nil => rfl
  | cons x xs ih =>
      rw [cut]
      split_ifs
      · rfl
      · exact congrArg (x :: ·) ih

theorem cut_of_meets (h : Meets marker xs) : cut marker xs = ([], xs) := by
  cases xs with
  | nil => rfl
  | cons x xs => rw [cut, if_pos h]

theorem meets_cut (marker xs : List α) : Meets marker (cut marker xs).2 := by
  induction xs with
  | nil => exact .inr (List.nil_prefix)
  | cons x xs ih =>
      rw [cut]
      split_ifs with h
      · exact h
      · exact ih

/-- **The cut does not depend on the pieces** a text comes in: what is held back of the first one
is put in front of the second. -/
theorem cut_append (marker xs ys : List α) :
    cut marker (xs ++ ys) =
      ((cut marker xs).1 ++ (cut marker ((cut marker xs).2 ++ ys)).1,
        (cut marker ((cut marker xs).2 ++ ys)).2) := by
  induction xs with
  | nil => rfl
  | cons x xs ih =>
      rw [List.cons_append, cut, cut]
      by_cases h : Meets marker (x :: xs)
      · rw [if_pos h]
        dsimp only
        rw [← cut]
        rfl
      · have hlong : ¬Meets marker (x :: (xs ++ ys)) := fun hm => h (Meets.of_append hm)
        rw [if_neg h, if_neg hlong, ih]
        rfl

/-- **The cut is made at the first occurrence.** -/
theorem cut_of_find {i : ℕ} (h : find marker xs = some i) :
    cut marker xs = (xs.take i, xs.drop i) := by
  induction xs generalizing i with
  | nil =>
      rw [List.take_nil, List.drop_nil]
      rfl
  | cons x xs ih =>
      rw [find] at h
      split_ifs at h with hbegins
      · obtain rfl := Option.some.inj h
        rw [cut, if_pos (.inl hbegins)]
        rfl
      · obtain ⟨j, hj, rfl⟩ := Option.map_eq_some_iff.mp h
        -- The marker fits into what follows, so the text is too long to be its beginning.
        have hmeets : ¬Meets marker (x :: xs) := by
          rintro (hp | hp)
          · exact hbegins hp
          · have hlength := hp.length_le
            have := (find_eq_some hj).2
            rw [List.length_cons] at hlength
            omega
        rw [cut, if_neg hmeets, ih hj]
        rfl

/-- Where the marker does not occur, a beginning of it is held back, the longest that the text
ends with. -/
theorem cut_of_find_none (h : find marker xs = none) :
    (cut marker xs).2 <+: marker ∧ (cut marker xs).2 ≠ marker ∧
      ∀ n, marker.take n <:+ xs → n < marker.length → n ≤ (cut marker xs).2.length := by
  induction xs with
  | nil =>
      rw [find] at h
      split_ifs at h with hnil
      refine ⟨List.nil_prefix, fun heq => hnil heq.symm, fun n hn hlt => ?_⟩
      have htake := List.suffix_nil.mp hn
      rw [List.take_eq_nil_iff] at htake
      rcases htake with rfl | htake
      · exact Nat.zero_le _
      · exact absurd htake hnil
  | cons x xs ih =>
      rw [find] at h
      split_ifs at h with hbegins
      have hnone : find marker xs = none := by simpa using h
      rw [cut]
      split_ifs with hmeets
      · have hp := hmeets.resolve_left hbegins
        refine ⟨hp, fun heq => hbegins (heq ▸ List.prefix_rfl), fun n hn hlt => ?_⟩
        have hlength := hn.length_le
        rwa [List.length_take, Nat.min_eq_left hlt.le] at hlength
      · obtain ⟨hp, hne, hlongest⟩ := ih hnone
        refine ⟨hp, hne, fun n hn hlt => ?_⟩
        rcases List.suffix_cons_iff.mp hn with heq | hn
        · exact absurd (.inr (heq ▸ List.take_prefix n marker)) hmeets
        · exact hlongest n hn hlt

end Marker
