import Mathlib.Algebra.BigOperators.Group.List.Basic
import Mathlib.Algebra.Order.BigOperators.Group.List
import Mathlib.Algebra.Order.Ring.Nat
import Mathlib.Data.List.Forall2

/-!
# Water Filling

A supply of units is handed out to cells in rounds of equal shares, until it is used up or every
cell is full. A cell leaves the rounds when it is full, and what it could not take goes to the
others. In the last round the supply may end before every cell had its turn.

* `sum_given_fill` — what is handed out and what remains is the supply.
* `fill_spec` — **all cells are full, or the supply is used up** and the cells stand level: what a
  cell that is not full was given differs by one at most from what the others like it were.
* `min_le_given` — a part that the supply has for every cell is what each one gets.
-/

namespace WaterFilling

/-! ### Definitions -/

/-- What a cell can take, what it was given, and whether it takes part in the next round. -/
structure Cell where
  capacity : ℕ
  given : ℕ
  active : Bool
  deriving DecidableEq

/-- The cells that take part. -/
def countActive (cells : List Cell) : ℕ :=
  cells.countP (·.active)

/-- A round: each cell that takes part gets the share, or what it can take, or what is left. -/
def handOut (share : ℕ) : ℕ → List Cell → List Cell × ℕ
  | remaining, [] => ([], remaining)
  | remaining, cell :: cells =>
      if cell.active then
        let take := min share (min remaining (cell.capacity - cell.given))
        let next := handOut share (remaining - take) cells
        (⟨cell.capacity, cell.given + take, true⟩ :: next.1, next.2)
      else
        let next := handOut share remaining cells
        (cell :: next.1, next.2)

/-- A full cell takes no further part. -/
def refresh (cell : Cell) : Cell :=
  ⟨cell.capacity, cell.given, cell.active && decide (cell.given < cell.capacity)⟩

/-- A round, and who takes part in the next one. -/
def round (remaining : ℕ) (cells : List Cell) : List Cell × ℕ :=
  let out := handOut (max 1 (remaining / countActive cells)) remaining cells
  (out.1.map refresh, out.2)

/-- A round never makes more of the supply and the cells together, and makes less of them where
there are both. -/
theorem handOut_decreases {share : ℕ} (hshare : 1 ≤ share) (remaining : ℕ) (cells : List Cell) :
    (handOut share remaining cells).2 +
        countActive ((handOut share remaining cells).1.map refresh) ≤
      remaining + countActive cells ∧
    (1 ≤ remaining → 1 ≤ countActive cells →
      (handOut share remaining cells).2 +
          countActive ((handOut share remaining cells).1.map refresh) <
        remaining + countActive cells) := by
  induction cells generalizing remaining with
  | nil =>
      refine ⟨le_rfl, fun _ hcount => ?_⟩
      exact absurd hcount (by decide)
  | cons cell cells ih =>
      rw [handOut]
      by_cases hactive : cell.active = true
      · rw [if_pos hactive]
        generalize htake : min share (min remaining (cell.capacity - cell.given)) = take
        obtain ⟨hle, -⟩ := ih (remaining - take)
        simp only [countActive, List.map_cons, List.countP_cons, refresh, hactive, Bool.true_and,
          decide_eq_true_eq, if_true] at hle ⊢
        split_ifs with hneed
        all_goals omega
      · rw [if_neg hactive]
        obtain ⟨hle, hlt⟩ := ih remaining
        rw [Bool.not_eq_true] at hactive
        simp only [countActive, List.map_cons, List.countP_cons, refresh, hactive, Bool.false_and,
          Bool.false_eq_true, if_false] at hle hlt ⊢
        exact ⟨hle, hlt⟩

/-- All rounds. -/
def fill (remaining : ℕ) (cells : List Cell) : List Cell × ℕ :=
  if remaining ≠ 0 ∧ countActive cells ≠ 0 then
    fill (round remaining cells).2 (round remaining cells).1
  else (cells, remaining)
termination_by remaining + countActive cells
decreasing_by
  rename_i h
  exact (handOut_decreases (le_max_left 1 _) remaining cells).2
    (Nat.one_le_iff_ne_zero.mpr h.1) (Nat.one_le_iff_ne_zero.mpr h.2)

/-! ### Accounting -/

/-- The sum of what cells were given. -/
def sumGiven (cells : List Cell) : ℕ :=
  (cells.map (·.given)).sum

theorem sumGiven_handOut (share remaining : ℕ) (cells : List Cell) :
    sumGiven (handOut share remaining cells).1 + (handOut share remaining cells).2 =
      sumGiven cells + remaining := by
  induction cells generalizing remaining with
  | nil => rfl
  | cons cell cells ih =>
      rw [handOut]
      split_ifs
      · have hrest :=
          ih (remaining - min share (min remaining (cell.capacity - cell.given)))
        simp only [sumGiven, List.map_cons, List.sum_cons] at hrest ⊢
        omega
      · have hrest := ih remaining
        simp only [sumGiven, List.map_cons, List.sum_cons] at hrest ⊢
        omega

theorem left_le (share remaining : ℕ) (cells : List Cell) :
    (handOut share remaining cells).2 ≤ remaining := by
  induction cells generalizing remaining with
  | nil => exact le_rfl
  | cons cell cells ih =>
      rw [handOut]
      split_ifs
      · exact (ih _).trans (Nat.sub_le _ _)
      · exact ih remaining

theorem sumGiven_refresh (cells : List Cell) : sumGiven (cells.map refresh) = sumGiven cells := by
  rw [sumGiven, List.map_map]
  rfl

/-- **What is handed out and what remains is the supply.** -/
theorem sum_given_fill (remaining : ℕ) (cells : List Cell) :
    sumGiven (fill remaining cells).1 + (fill remaining cells).2 =
      sumGiven cells + remaining := by
  induction remaining, cells using fill.induct with
  | case1 remaining cells h ih =>
      rw [fill, if_pos h, ih, round, sumGiven_refresh, sumGiven_handOut]
  | case2 remaining cells h => rw [fill, if_neg h]

theorem capacity_handOut (share remaining : ℕ) (cells : List Cell) :
    (handOut share remaining cells).1.map (·.capacity) = cells.map (·.capacity) := by
  induction cells generalizing remaining with
  | nil => rfl
  | cons cell cells ih =>
      rw [handOut]
      split_ifs
      · rw [List.map_cons, List.map_cons, ih]
      · rw [List.map_cons, List.map_cons, ih]

/-- **The rounds keep the cells.** -/
theorem capacity_fill (remaining : ℕ) (cells : List Cell) :
    (fill remaining cells).1.map (·.capacity) = cells.map (·.capacity) := by
  induction remaining, cells using fill.induct with
  | case1 remaining cells h ih =>
      rw [fill, if_pos h, ih, round, List.map_map, ← capacity_handOut]
      rfl
  | case2 remaining cells h => rw [fill, if_neg h]

/-! ### Levels -/

/-- A cell that was given `t` units of the share in a round. -/
structure Given (t : ℕ) (cell next : Cell) : Prop where
  capacity : next.capacity = cell.capacity
  active : next.active = cell.active
  given : next.given = cell.given + if cell.active then t else 0

/-- What a cell gets in a round is no more than the share and than it can take. -/
theorem given_handOut {share remaining : ℕ} {cells : List Cell} :
    ∀ next ∈ (handOut share remaining cells).1, ∃ cell ∈ cells, ∃ t,
      t ≤ min share (cell.capacity - cell.given) ∧ Given t cell next := by
  induction cells generalizing remaining with
  | nil => intro next h; cases h
  | cons cell cells ih =>
      rw [handOut]
      split_ifs with hactive
      · intro next h
        rcases List.mem_cons.mp h with rfl | h
        · refine ⟨cell, List.mem_cons_self, min share (min remaining (cell.capacity - cell.given)),
            by omega, rfl, hactive.symm, ?_⟩
          rw [if_pos hactive]
        · obtain ⟨c, hc, hgiven⟩ := ih next h
          exact ⟨c, List.mem_cons_of_mem _ hc, hgiven⟩
      · intro next h
        rcases List.mem_cons.mp h with rfl | h
        · exact ⟨next, List.mem_cons_self, 0, Nat.zero_le _, rfl, rfl, by rw [if_neg hactive]; rfl⟩
        · obtain ⟨c, hc, hgiven⟩ := ih next h
          exact ⟨c, List.mem_cons_of_mem _ hc, hgiven⟩

/-- **Where the supply has a share for every cell, or something is left of it, each cell gets the
share** or what it can take. -/
theorem given_handOut_full {share remaining : ℕ} {cells : List Cell}
    (h : share * countActive cells ≤ remaining ∨ (handOut share remaining cells).2 ≠ 0) :
    ∀ next ∈ (handOut share remaining cells).1, ∃ cell ∈ cells,
      Given (min share (cell.capacity - cell.given)) cell next := by
  induction cells generalizing remaining with
  | nil => intro next h; cases h
  | cons cell cells ih =>
      rw [handOut] at h ⊢
      split_ifs at h ⊢ with hactive
      · have hcount : countActive (cell :: cells) = countActive cells + 1 :=
          List.countP_cons_of_pos hactive
        generalize htake : min share (min remaining (cell.capacity - cell.given)) = take at h ⊢
        have hleft := left_le share (remaining - take) cells
        have hfull : take = min share (cell.capacity - cell.given) := by
          rcases h with h | h
          · rw [hcount, Nat.mul_succ] at h
            omega
          · dsimp only at h
            omega
        have hrest : share * countActive cells ≤ remaining - take ∨
            (handOut share (remaining - take) cells).2 ≠ 0 := by
          refine h.imp (fun h => ?_) id
          rw [hcount, Nat.mul_succ] at h
          omega
        intro next hnext
        rcases List.mem_cons.mp hnext with rfl | hnext
        · refine ⟨cell, List.mem_cons_self, rfl, hactive.symm, ?_⟩
          rw [if_pos hactive, ← hfull]
        · obtain ⟨c, hc, hstep⟩ := ih hrest next hnext
          exact ⟨c, List.mem_cons_of_mem _ hc, hstep⟩
      · have hcount : countActive (cell :: cells) = countActive cells :=
          List.countP_cons_of_neg hactive
        rw [hcount] at h
        intro next hnext
        rcases List.mem_cons.mp hnext with rfl | hnext
        · exact ⟨next, List.mem_cons_self, rfl, rfl, by rw [if_neg hactive]; rfl⟩
        · obtain ⟨c, hc, hstep⟩ := ih h next hnext
          exact ⟨c, List.mem_cons_of_mem _ hc, hstep⟩

/-- Before a round: who takes part stands at the level, and who does not is full below it. -/
structure AtLevel (level : ℕ) (cell : Cell) : Prop where
  le : cell.given ≤ cell.capacity
  active : cell.active = true → cell.given = level
  idle : cell.active = false → cell.given = cell.capacity ∧ cell.capacity ≤ level

/-- After the last round: a cell that is not full stands at the level or one above it, and no
full cell stands higher. -/
structure Leveled (level : ℕ) (cell : Cell) : Prop where
  le : cell.given ≤ cell.capacity
  low : cell.given < cell.capacity → level ≤ cell.given
  high : cell.given ≤ level + 1

/-- A round of full shares raises the level by the share. -/
theorem AtLevel.refresh {level share : ℕ} {cell next : Cell} (h : AtLevel level cell)
    (hgiven : Given (min share (cell.capacity - cell.given)) cell next) :
    AtLevel (level + share) (refresh next) := by
  obtain ⟨hcapacity, hactive, hnext⟩ := hgiven
  have hle := h.le
  rw [WaterFilling.refresh, hcapacity, hactive, hnext]
  cases hpart : cell.active with
  | true =>
      have hlevel := h.active hpart
      constructor
      · dsimp only
        simp only [if_true]
        omega
      · simp only [Bool.true_and, decide_eq_true_eq, if_true]
        omega
      · simp only [Bool.true_and, decide_eq_false_iff_not, if_true]
        omega
  | false =>
      obtain ⟨hfull, hbelow⟩ := h.idle hpart
      constructor
      · dsimp only
        simp only [Bool.false_eq_true, if_false]
        omega
      · simp only [Bool.false_and, Bool.false_eq_true, false_implies]
      · simp only [Bool.false_eq_true, if_false]
        omega

/-- A round that gives one unit at most leaves the cells level. -/
theorem AtLevel.leveled_refresh {level t : ℕ} {cell next : Cell} (h : AtLevel level cell)
    (ht : t ≤ min 1 (cell.capacity - cell.given)) (hgiven : Given t cell next) :
    Leveled level (WaterFilling.refresh next) := by
  obtain ⟨hcapacity, -, hnext⟩ := hgiven
  have hle := h.le
  rw [WaterFilling.refresh, hcapacity, hnext]
  cases hpart : cell.active with
  | true =>
      have hlevel := h.active hpart
      constructor <;> (simp only [if_true]; omega)
  | false =>
      obtain ⟨hfull, hbelow⟩ := h.idle hpart
      constructor <;> (simp only [Bool.false_eq_true, if_false]; omega)

theorem AtLevel.leveled {level : ℕ} {cell : Cell} (h : AtLevel level cell) :
    Leveled level cell := by
  have hle := h.le
  cases hpart : cell.active with
  | true =>
      have := h.active hpart
      constructor <;> omega
  | false =>
      have := h.idle hpart
      constructor <;> omega

/-- **All cells are full, or the supply is used up and the cells are level.** The invariant is
that the cells stand at a level; it ends with a round that uses up the supply. -/
theorem fill_spec {level remaining : ℕ} {cells : List Cell}
    (h : ∀ cell ∈ cells, AtLevel level cell) :
    (∀ cell ∈ (fill remaining cells).1, cell.given = cell.capacity) ∨
      (fill remaining cells).2 = 0 ∧
        ∃ level', ∀ cell ∈ (fill remaining cells).1, Leveled level' cell := by
  induction remaining, cells using fill.induct generalizing level with
  | case1 remaining cells hmore ih =>
      rw [fill, if_pos hmore]
      by_cases hpartial : max 1 (remaining / countActive cells) * countActive cells ≤ remaining ∨
          (handOut (max 1 (remaining / countActive cells)) remaining cells).2 ≠ 0
      · refine @ih (level + max 1 (remaining / countActive cells)) fun next hnext => ?_
        obtain ⟨out, hout, rfl⟩ := List.mem_map.mp hnext
        obtain ⟨cell, hcell, hgiven⟩ := given_handOut_full hpartial out hout
        exact (h cell hcell).refresh hgiven
      · -- the share is one, and the supply ends in this round
        rw [not_or, not_not] at hpartial
        have hshare : max 1 (remaining / countActive cells) = 1 := by
          have hdiv := Nat.div_mul_le_self remaining (countActive cells)
          rcases Nat.le_or_le 1 (remaining / countActive cells) with hone | hone
          · rw [max_eq_right hone] at hpartial
            exact absurd hdiv hpartial.1
          · exact max_eq_left hone
        have hzero : (round remaining cells).2 = 0 := hpartial.2
        rw [fill, if_neg (fun hmore => hmore.1 hzero)]
        refine .inr ⟨hzero, level, fun next hnext => ?_⟩
        obtain ⟨out, hout, rfl⟩ := List.mem_map.mp hnext
        obtain ⟨cell, hcell, t, ht, hgiven⟩ := given_handOut out hout
        rw [hshare] at ht
        exact (h cell hcell).leveled_refresh ht hgiven
  | case2 remaining cells hdone =>
      rw [fill, if_neg hdone]
      by_cases hremaining : remaining = 0
      · exact .inr ⟨hremaining, level, fun cell hcell => (h cell hcell).leveled⟩
      · refine .inl fun cell hcell => ?_
        have hcount : countActive cells = 0 := by
          by_contra hcount
          exact hdone ⟨hremaining, hcount⟩
        have hidle := List.countP_eq_zero.mp hcount cell hcell
        exact ((h cell hcell).idle (Bool.not_eq_true _ ▸ hidle)).1

/-- **A part that the supply has for every cell** is what each one gets. -/
theorem min_le_given {level part : ℕ} {cells : List Cell}
    (h : ∀ cell ∈ cells, Leveled level cell)
    (hsum : (cells.map fun cell => min part cell.capacity).sum ≤ sumGiven cells) :
    ∀ cell ∈ cells, min part cell.capacity ≤ cell.given := by
  intro cell hcell
  by_contra hlt
  rw [not_le] at hlt
  have hlow := (h cell hcell).low (by omega)
  have hall : ∀ c ∈ cells, c.given ≤ min part c.capacity := by
    intro c hc
    have hle := (h c hc).le
    have hhigh := (h c hc).high
    omega
  have hstrict := List.sum_lt_sum (fun c : Cell => c.given) _ hall ⟨cell, hcell, hlt⟩
  rw [sumGiven] at hsum
  omega

/-- **Two cells that are not full** were given the same, or one of them one more. -/
theorem Leveled.le_add_one {level : ℕ} {c d : Cell} (hc : Leveled level c) (hd : Leveled level d)
    (hcut : d.given < d.capacity) : c.given ≤ d.given + 1 := by
  have hhigh := hc.high
  have hlow := hd.low hcut
  omega

end WaterFilling
