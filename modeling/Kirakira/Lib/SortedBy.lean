import Mathlib.Data.List.Sort
import Mathlib.Data.List.MinMax
import Mathlib.Data.List.Perm.Subperm
import Mathlib.Tactic.Linarith

/-!
# Lists Sorted by a Key

Lists whose elements have strictly increasing natural keys, and the ranges of keys one
reads from them: everything up to a bound, and everything between two bounds. Bounds are
integers, so that `-1` can stand for "nothing yet".

* `upTo_append_between` — a range continues where the shorter one ends.
* `upTo_lastKey_of_prefix` — an initial segment is the range up to its last key.
* `upTo_append_above` — what is above a bound follows what is up to it.
* `upTo_eq_take` — a range from the start is a `take`.
* `between_lastKey_take`, `between_before` — what is left of a range after one page of it, and
  before one of its elements.
* `cons_of_next_key` — the element with the next key stands right after an initial
  segment.
-/

namespace SortedBy

variable {α : Type*} {key : α → ℕ}

/-- The keys increase strictly. -/
def Sorted (key : α → ℕ) (xs : List α) : Prop :=
  xs.Pairwise fun a b => key a < key b

/-- The elements with keys up to `k`. -/
def upTo (key : α → ℕ) (k : ℤ) (xs : List α) : List α :=
  xs.filter fun x => decide ((key x : ℤ) ≤ k)

/-- The elements with keys above `a` and up to `b`. -/
def between (key : α → ℕ) (a b : ℤ) (xs : List α) : List α :=
  xs.filter fun x => decide (a < (key x : ℤ)) && decide ((key x : ℤ) ≤ b)

/-- The key of the last element, `-1` when there is none. -/
def lastKey (key : α → ℕ) (xs : List α) : ℤ :=
  match xs.getLast? with
  | some x => key x
  | none => -1

@[simp] theorem lastKey_nil : lastKey key [] = -1 := rfl

@[simp] theorem lastKey_concat (xs : List α) (x : α) : lastKey key (xs ++ [x]) = key x := by
  rw [lastKey, List.getLast?_concat]

theorem neg_one_le_lastKey (xs : List α) : -1 ≤ lastKey key xs := by
  unfold lastKey
  split <;> omega

variable {xs ys : List α}

theorem Sorted.eq_of_perm (hxs : Sorted key xs) (hys : Sorted key ys) (h : xs.Perm ys) :
    xs = ys := by
  refine List.Perm.eq_of_pairwise ?_ hxs hys h
  intro a b _ _ hab hba
  omega

theorem Sorted.eq_of_key (h : Sorted key xs) {a b : α} (ha : a ∈ xs) (hb : b ∈ xs)
    (hkey : key a = key b) : a = b := by
  induction xs with
  | nil => cases ha
  | cons x xs ih =>
      obtain ⟨hx, hxs⟩ := List.pairwise_cons.mp h
      rcases List.mem_cons.mp ha with rfl | ha'
      · rcases List.mem_cons.mp hb with rfl | hb'
        · rfl
        · have := hx b hb'
          omega
      · rcases List.mem_cons.mp hb with rfl | hb'
        · have := hx a ha'
          omega
        · exact ih hxs ha' hb'

theorem Sorted.le_lastKey (h : Sorted key xs) : ∀ x ∈ xs, (key x : ℤ) ≤ lastKey key xs := by
  intro x hx
  rcases List.eq_nil_or_concat' xs with rfl | ⟨ys, y, rfl⟩
  · cases hx
  · rw [lastKey_concat]
    obtain ⟨-, -, hlt⟩ := List.pairwise_append.mp h
    rcases List.mem_append.mp hx with hys | hy
    · have := hlt x hys y (List.mem_singleton_self y)
      omega
    · obtain rfl := List.mem_singleton.mp hy
      exact le_refl _

/-- The largest key of a sorted list is the key of its last element. -/
theorem Sorted.max?_eq (h : Sorted key xs) : (xs.map key).max? = xs.getLast?.map key := by
  rcases List.eq_nil_or_concat' xs with rfl | ⟨ys, y, rfl⟩
  · rfl
  · rw [List.getLast?_concat, Option.map_some, List.max?_eq_some_iff]
    refine ⟨by simp, fun k hk => ?_⟩
    obtain ⟨x, hx, rfl⟩ := List.mem_map.mp hk
    have := h.le_lastKey x hx
    rw [lastKey_concat] at this
    omega

/-- What follows an initial segment has keys above its last key. -/
theorem Sorted.lastKey_lt (h : Sorted key (xs ++ ys)) : ∀ y ∈ ys, lastKey key xs < (key y : ℤ) := by
  intro y hy
  obtain ⟨-, -, hlt⟩ := List.pairwise_append.mp h
  rcases List.eq_nil_or_concat' xs with rfl | ⟨zs, z, rfl⟩
  · rw [lastKey_nil]
    omega
  · rw [lastKey_concat]
    have := hlt z (List.mem_append_right _ (List.mem_singleton_self z)) y hy
    omega

/-- The last key of an initial segment is at most that of the list. -/
theorem Sorted.lastKey_le_of_prefix (h : Sorted key ys) (hpre : xs <+: ys) :
    lastKey key xs ≤ lastKey key ys := by
  rcases List.eq_nil_or_concat' xs with rfl | ⟨zs, z, rfl⟩
  · exact neg_one_le_lastKey ys
  · rw [lastKey_concat]
    exact h.le_lastKey z (hpre.subset (List.mem_append_right _ (List.mem_singleton_self z)))

/-! ### Ranges -/

/-- An initial segment that ends at the bound is the range up to it. -/
theorem upTo_append {k : ℤ} (hxs : ∀ x ∈ xs, (key x : ℤ) ≤ k) (hys : ∀ y ∈ ys, k < (key y : ℤ)) :
    upTo key k (xs ++ ys) = xs := by
  rw [upTo, List.filter_append, List.filter_eq_self.mpr, List.filter_eq_nil_iff.mpr,
    List.append_nil]
  · intro y hy
    have := hys y hy
    simp
    omega
  · intro x hx
    simpa using hxs x hx

/-- **An initial segment is the range up to its last key.** -/
theorem upTo_lastKey_of_prefix (h : Sorted key ys) (hpre : xs <+: ys) :
    upTo key (lastKey key xs) ys = xs := by
  obtain ⟨zs, rfl⟩ := hpre
  have hxs : Sorted key xs := (List.pairwise_append.mp h).1
  exact upTo_append hxs.le_lastKey h.lastKey_lt

/-- A bound inside an initial segment selects from that segment. -/
theorem upTo_of_prefix (h : Sorted key ys) (hpre : xs <+: ys) {k : ℤ} (hk : k ≤ lastKey key xs) :
    upTo key k ys = upTo key k xs := by
  obtain ⟨zs, rfl⟩ := hpre
  have hnone : zs.filter (fun x => decide ((key x : ℤ) ≤ k)) = [] := by
    rw [List.filter_eq_nil_iff]
    intro z hz
    have := h.lastKey_lt z hz
    simp
    omega
  rw [upTo, upTo, List.filter_append, hnone, List.append_nil]

theorem upTo_isPrefix (h : Sorted key xs) (k : ℤ) : upTo key k xs <+: xs := by
  induction xs with
  | nil => exact List.prefix_refl _
  | cons x xs ih =>
      obtain ⟨hx, hxs⟩ := List.pairwise_cons.mp h
      by_cases hle : (key x : ℤ) ≤ k
      · obtain ⟨ys, hys⟩ := ih hxs
        refine ⟨ys, ?_⟩
        have hcons : upTo key k (x :: xs) = x :: upTo key k xs := by simp [upTo, hle]
        rw [hcons, List.cons_append, hys]
      · have hnone : upTo key k (x :: xs) = [] := by
          rw [upTo, List.filter_eq_nil_iff]
          intro y hy
          rcases List.mem_cons.mp hy with rfl | hmem
          · simpa using hle
          · have := hx y hmem
            simp
            omega
        rw [hnone]
        exact List.nil_prefix

/-- **A range continues where the shorter one ends.** -/
theorem upTo_append_between (h : Sorted key xs) {a b : ℤ} (hab : a ≤ b) :
    upTo key a xs ++ between key a b xs = upTo key b xs := by
  induction xs with
  | nil => rfl
  | cons x xs ih =>
      obtain ⟨hx, hxs⟩ := List.pairwise_cons.mp h
      have hrest := ih hxs
      unfold upTo between at hrest ⊢
      by_cases hle : (key x : ℤ) ≤ a
      · have hle' : (key x : ℤ) ≤ b := by omega
        have hnot : ¬ a < (key x : ℤ) := by omega
        simp [hle, hle', hnot, hrest]
      · have hnone : xs.filter (fun y => decide ((key y : ℤ) ≤ a)) = [] := by
          rw [List.filter_eq_nil_iff]
          intro y hy
          have := hx y hy
          simp
          omega
        have hlt : a < (key x : ℤ) := by omega
        rw [hnone, List.nil_append] at hrest
        by_cases hle' : (key x : ℤ) ≤ b
        · simp [hle, hle', hlt, hnone, hrest]
        · simp [hle, hle', hnone, hrest]

theorem upTo_append_above (h : Sorted key xs) (k : ℤ) :
    upTo key k xs ++ xs.filter (fun x => k < (key x : ℤ)) = xs := by
  induction xs with
  | nil => rfl
  | cons x xs ih =>
      obtain ⟨hx, hxs⟩ := List.pairwise_cons.mp h
      have hrest := ih hxs
      unfold upTo at hrest ⊢
      by_cases hle : (key x : ℤ) ≤ k
      · have hnot : ¬ k < (key x : ℤ) := by omega
        simp [hle, hnot, hrest]
      · have hnone : xs.filter (fun y => decide ((key y : ℤ) ≤ k)) = [] := by
          rw [List.filter_eq_nil_iff]
          intro y hy
          have := hx y hy
          simp
          omega
        have hlt : k < (key x : ℤ) := by omega
        rw [hnone, List.nil_append] at hrest
        simp [hle, hlt, hnone, hrest]

/-- **A range from the start is a `take`.** -/
theorem upTo_eq_take (h : Sorted key xs) (k : ℤ) :
    upTo key k xs = xs.take (xs.countP fun x => decide ((key x : ℤ) ≤ k)) := by
  induction xs with
  | nil => rfl
  | cons x xs ih =>
      obtain ⟨hx, hxs⟩ := List.pairwise_cons.mp h
      have hrest := ih hxs
      unfold upTo at hrest ⊢
      by_cases hle : (key x : ℤ) ≤ k
      · simp [hle, hrest]
      · have hnone : ∀ y ∈ xs, ¬ (key y : ℤ) ≤ k := by
          intro y hy
          have := hx y hy
          omega
        have hcount : xs.countP (fun x => decide ((key x : ℤ) ≤ k)) = 0 := by
          rw [List.countP_eq_zero]
          simpa using hnone
        have hfilter : xs.filter (fun x => decide ((key x : ℤ) ≤ k)) = [] := by
          rw [List.filter_eq_nil_iff]
          simpa using hnone
        simp [hle, hcount, hfilter]

/-- **What is left of a range after one page of it**: the range after the page's last
key. -/
theorem between_lastKey_take (h : Sorted key xs) {a b : ℤ} {n : ℕ}
    (hpage : (between key a b xs).take n ≠ []) :
    between key (lastKey key ((between key a b xs).take n)) b xs
      = (between key a b xs).drop n := by
  have hsorted : Sorted key (between key a b xs) := List.Pairwise.filter _ h
  have hsplit := List.take_append_drop n (between key a b xs)
  have hlast : a < lastKey key ((between key a b xs).take n) := by
    obtain ⟨ys, y, hy⟩ := (List.eq_nil_or_concat' _).resolve_left hpage
    have hmem : y ∈ between key a b xs := by
      refine List.mem_of_mem_take (i := n) ?_
      rw [hy]
      exact List.mem_append_right _ (List.mem_singleton_self y)
    rw [hy, lastKey_concat]
    have := (List.mem_filter.mp hmem).2
    simp only [Bool.and_eq_true, decide_eq_true_eq] at this
    exact this.1
  have hsub : between key (lastKey key ((between key a b xs).take n)) b xs
      = (between key a b xs).filter fun x =>
          decide (lastKey key ((between key a b xs).take n) < (key x : ℤ)) := by
    rw [between, between, List.filter_filter]
    refine List.filter_congr fun x _ => ?_
    by_cases hx : lastKey key ((between key a b xs).take n) < (key x : ℤ)
    · have ha : a < (key x : ℤ) := by omega
      rw [between] at hx
      simp [hx, ha]
    · rw [between] at hx
      simp [hx]
  rw [hsub]
  have hdrop : Sorted key ((between key a b xs).take n ++ (between key a b xs).drop n) := by
    rw [hsplit]
    exact hsorted
  have hle := Sorted.le_lastKey (List.pairwise_append.mp hdrop).1
  have hlt := hdrop.lastKey_lt
  generalize hk : lastKey key ((between key a b xs).take n) = k at hle hlt ⊢
  conv_lhs => rw [← hsplit]
  rw [List.filter_append, List.filter_eq_nil_iff.mpr, List.filter_eq_self.mpr, List.nil_append]
  · intro y hy
    simpa using hlt y hy
  · intro x hx
    have := hle x hx
    simp
    omega

/-- **What is left of a range before one of its elements.** -/
theorem between_before (h : Sorted key xs) {a b : ℤ} {zs : List α} {y : α}
    (hsplit : between key a b xs = ys ++ y :: zs) : between key a (key y - 1) xs = ys := by
  have hsorted : Sorted key (ys ++ y :: zs) := by
    rw [← hsplit]
    exact List.Pairwise.filter _ h
  have hy : (key y : ℤ) ≤ b := by
    have hmem : y ∈ between key a b xs := by
      rw [hsplit]
      exact List.mem_append_right _ List.mem_cons_self
    have := (List.mem_filter.mp hmem).2
    simp only [Bool.and_eq_true, decide_eq_true_eq] at this
    exact this.2
  have hsub : between key a (key y - 1) xs
      = (between key a b xs).filter fun x => decide ((key x : ℤ) ≤ key y - 1) := by
    rw [between, between, List.filter_filter]
    refine List.filter_congr fun x _ => ?_
    by_cases hx : (key x : ℤ) ≤ key y - 1
    · have hb : (key x : ℤ) ≤ b := by omega
      simp [hx, hb]
    · simp [hx]
  obtain ⟨-, hrest, hlt⟩ := List.pairwise_append.mp hsorted
  rw [hsub, hsplit, List.filter_append, List.filter_eq_self.mpr, List.filter_eq_nil_iff.mpr,
    List.append_nil]
  · intro x hx
    have hle : key y ≤ key x := by
      rcases List.mem_cons.mp hx with rfl | hmem
      · exact le_rfl
      · exact ((List.pairwise_cons.mp hrest).1 x hmem).le
    simp
    omega
  · intro x hx
    have := hlt x hx y List.mem_cons_self
    simp
    omega

/-- There are no more elements up to a bound than numbers. -/
theorem Sorted.length_upTo_le (h : Sorted key xs) (k : ℤ) :
    (upTo key k xs).length ≤ (k + 1).toNat := by
  have hsorted : Sorted key (upTo key k xs) := List.Pairwise.filter _ h
  have hnodup : ((upTo key k xs).map key).Nodup :=
    List.pairwise_map.mpr (hsorted.imp fun hlt => hlt.ne)
  have hsub : (upTo key k xs).map key ⊆ List.range (k + 1).toNat := by
    intro n hn
    obtain ⟨x, hx, rfl⟩ := List.mem_map.mp hn
    have hle := (List.mem_filter.mp hx).2
    rw [decide_eq_true_eq] at hle
    rw [List.mem_range]
    omega
  have hlength := (hnodup.subperm hsub).length_le
  rwa [List.length_map, List.length_range] at hlength

theorem between_upTo (xs : List α) {a b k : ℤ} (hb : b ≤ k) :
    between key a b (upTo key k xs) = between key a b xs := by
  rw [between, between, upTo, List.filter_filter]
  refine List.filter_congr fun x _ => ?_
  by_cases hx : (key x : ℤ) ≤ b
  · have hk : (key x : ℤ) ≤ k := by omega
    simp [hk]
  · simp [hx]

/-- **The element with the next key stands right after an initial segment.** -/
theorem cons_of_next_key (h : Sorted key (xs ++ ys)) {x : α} (hx : x ∈ xs ++ ys)
    (hkey : (key x : ℤ) = lastKey key xs + 1) : ∃ zs, ys = x :: zs := by
  have hxs : Sorted key xs := (List.pairwise_append.mp h).1
  have hys : Sorted key ys := (List.pairwise_append.mp h).2.1
  have hmem : x ∈ ys := by
    rcases List.mem_append.mp hx with hold | hnew
    · have := hxs.le_lastKey x hold
      omega
    · exact hnew
  cases ys with
  | nil => cases hmem
  | cons y ys =>
      have hlt := h.lastKey_lt y List.mem_cons_self
      rcases List.mem_cons.mp hmem with rfl | hrest
      · exact ⟨ys, rfl⟩
      · have := (List.pairwise_cons.mp hys).1 x hrest
        omega

end SortedBy
