import Mathlib.Data.List.Range

/-!
# Bisection

The search for the largest number up to a bound that has a property, by halving the numbers in
question, for a property that the smaller numbers have with a larger one.

* `bisect_isLast`, `bisect_all` — **the search finds the largest number** that has the property, or zero.
* `find?_of_isLast` — which is the first one on the way down.
-/

namespace Bisection

/-! ### Definitions -/

/-- The search between `low` and `high`, where `size` is the largest number found so far. -/
def bisect (p : ℤ → Bool) (low high size : ℤ) : ℤ :=
  if low ≤ high then
    if p ((low + high) / 2) then bisect p ((low + high) / 2 + 1) high ((low + high) / 2)
    else bisect p low ((low + high) / 2 - 1) size
  else size
termination_by (high + 1 - low).toNat
decreasing_by all_goals omega

/-- The largest number from one to a bound with a property, or zero. -/
structure IsLast (p : ℤ → Bool) (bound r : ℤ) : Prop where
  nonneg : 0 ≤ r
  le : r ≤ bound
  holds : r ≠ 0 → p r = true
  last : ∀ k, r < k → k ≤ bound → p k = false

/-- The numbers from a bound down to one. -/
def downFrom (bound : ℕ) : List ℤ :=
  (List.range bound).reverse.map fun i : ℕ => (i : ℤ) + 1

variable {p : ℤ → Bool}

/-! ### The search -/

/-- **Halving finds the largest number** with a property that passes to smaller ones: what is
above `high` does not have it, and `size`, just below `low`, does. -/
theorem bisect_isLast {low high size bound : ℤ}
    (hmono : ∀ j k, 1 ≤ j → j ≤ k → p k = true → p j = true)
    (hlow : 1 ≤ low) (hhigh : low ≤ high + 1) (hbound : high ≤ bound) (hsize : size = low - 1)
    (hholds : size ≠ 0 → p size = true) (habove : ∀ k, high < k → k ≤ bound → p k = false) :
    IsLast p bound (bisect p low high size) := by
  induction low, high, size using bisect.induct p with
  | case1 low high size hle hp ih =>
      rw [bisect, if_pos hle, if_pos hp]
      exact ih (by omega) (by omega) hbound (by omega) (fun _ => hp) habove
  | case2 low high size hle hp ih =>
      rw [bisect, if_pos hle, if_neg hp]
      refine ih hlow (by omega) (by omega) hsize hholds fun k hk hkbound => ?_
      by_cases hkhigh : high < k
      · exact habove k hkhigh hkbound
      · rw [Bool.eq_false_iff]
        exact fun hpk => hp (hmono _ k (by omega) (by omega) hpk)
  | case3 low high size hle =>
      rw [bisect, if_neg hle]
      exact ⟨by omega, by omega, hholds, fun k hk hkbound => habove k (by omega) hkbound⟩

theorem bisect_all {bound : ℕ} (hmono : ∀ j k, 1 ≤ j → j ≤ k → p k = true → p j = true) :
    IsLast p bound (bisect p 1 bound 0) := by
  refine bisect_isLast hmono (by omega) (by omega) (by omega) rfl (fun h => absurd rfl h) fun k hk hbound => ?_
  exact absurd hk (by omega)

/-- **The largest number** is the first one on the way down. -/
theorem find?_of_isLast {bound : ℕ} {r : ℤ} (h : IsLast p bound r) :
    (downFrom bound).find? p = if r = 0 then none else some r := by
  induction bound with
  | zero =>
      have hr : r = 0 := by
        have := h.nonneg
        have := h.le
        omega
      rw [if_pos hr]
      rfl
  | succ bound ih =>
      have hdown : downFrom (bound + 1) = ((bound : ℤ) + 1) :: downFrom bound := by
        rw [downFrom, List.range_succ, List.reverse_append, List.map_append]
        rfl
      rw [hdown, List.find?_cons]
      by_cases hr : r = bound + 1
      · rw [← hr, h.holds (by omega), if_neg (by omega)]
      · have hle := h.le
        rw [h.last _ (by omega) (by omega)]
        exact ih ⟨h.nonneg, by omega, h.holds, fun k hk hbound => h.last k hk (by omega)⟩

end Bisection
