import Mathlib.Data.Int.ConditionallyCompleteOrder
import Mathlib.Data.Int.Log
import Mathlib.Data.Rat.Floor
import Mathlib.Tactic.Linarith
import Mathlib.Tactic.Positivity

/-!
# Rounding

The nearest integer of a number, the even one of two, the nearest number with a fixed number of
decimals, and the nearest one with a fixed number of binary digits, as floating-point numbers
have them.

* `halfEven_mono`, `roundTo_mono` — rounding keeps the order.
* `halfEven_intCast`, `roundTo_of_decimal` — what needs no rounding stays as it is.
* `roundTo_mem_Icc` — between two bounds that need no rounding, a number is rounded to one
  between them.
* `zpow_log_le_roundBinary` — a number is not rounded below a power of two under it.
-/

namespace Rounding

variable {α : Type*} [Field α] [LinearOrder α] [FloorRing α]

/-! ### Definitions -/

/-- The nearest integer, and the even one where two are equally near. -/
def halfEven (x : α) : ℤ :=
  if Int.fract x * 2 < 1 then ⌊x⌋
  else if 1 < Int.fract x * 2 then ⌊x⌋ + 1
  else if ⌊x⌋ % 2 = 0 then ⌊x⌋
  else ⌊x⌋ + 1

/-- The nearest number with `d` decimals. -/
def roundTo (d : ℕ) (x : α) : α :=
  halfEven (x * 10 ^ d) / 10 ^ d

/-- A number with at most `d` decimals. -/
def Decimal (d : ℕ) (x : α) : Prop :=
  ∃ n : ℤ, x * 10 ^ d = n

/-! ### Integers -/

/-- A number is rounded to its floor or to the integer after it. -/
theorem floor_le_halfEven (x : α) : ⌊x⌋ ≤ halfEven x := by
  rw [halfEven]
  split_ifs <;> omega

/-- A number is rounded to its floor or to the integer after it. -/
theorem halfEven_le_floor_add_one (x : α) : halfEven x ≤ ⌊x⌋ + 1 := by
  rw [halfEven]
  split_ifs <;> omega

variable [IsStrictOrderedRing α]

/-- Between the same two integers, the larger number is rounded to no smaller one. -/
theorem halfEven_le_of_floor_eq {x y : α} (hfloor : ⌊x⌋ = ⌊y⌋)
    (hfract : Int.fract x ≤ Int.fract y) : halfEven x ≤ halfEven y := by
  rw [halfEven, halfEven, hfloor]
  split_ifs
  all_goals first | omega | linarith

/-- **Rounding keeps the order.** -/
theorem halfEven_mono : Monotone (halfEven : α → ℤ) := by
  intro x y h
  rcases (Int.floor_mono h).lt_or_eq with hlt | heq
  · calc halfEven x ≤ ⌊x⌋ + 1 := halfEven_le_floor_add_one x
      _ ≤ ⌊y⌋ := hlt
      _ ≤ halfEven y := floor_le_halfEven y
  · refine halfEven_le_of_floor_eq heq ?_
    rw [Int.fract, Int.fract, heq]
    linarith

@[simp] theorem halfEven_intCast (n : ℤ) : halfEven (n : α) = n := by
  rw [halfEven, Int.fract_intCast, Int.floor_intCast, if_pos (by linarith)]

/-! ### Decimals -/

/-- **Rounding to decimals keeps the order.** -/
theorem roundTo_mono (d : ℕ) : Monotone (roundTo d : α → α) := by
  intro x y h
  have hpow : (0 : α) < 10 ^ d := by positivity
  have hscaled : x * 10 ^ d ≤ y * 10 ^ d := mul_le_mul_of_nonneg_right h hpow.le
  exact div_le_div_of_nonneg_right (Int.cast_le.mpr (halfEven_mono hscaled)) hpow.le

theorem roundTo_of_decimal {d : ℕ} {x : α} (h : Decimal d x) : roundTo d x = x := by
  obtain ⟨n, hn⟩ := h
  have hpow : (10 : α) ^ d ≠ 0 := by positivity
  rw [roundTo, hn, halfEven_intCast, ← hn, mul_div_cancel_right₀ x hpow]

/-- **Rounding stays between bounds** that have the decimals. -/
theorem roundTo_mem_Icc {d : ℕ} {x a b : α} (ha : Decimal d a) (hb : Decimal d b)
    (h : x ∈ Set.Icc a b) : roundTo d x ∈ Set.Icc a b := by
  constructor
  · calc a = roundTo d a := (roundTo_of_decimal ha).symm
      _ ≤ roundTo d x := roundTo_mono d h.1
  · calc roundTo d x ≤ roundTo d b := roundTo_mono d h.2
      _ = b := roundTo_of_decimal hb

/-! ### Binary digits -/

/-- The nearest number with `p` binary digits. -/
def roundBinary (p : ℕ) (x : α) : α :=
  halfEven (x / 2 ^ (Int.log 2 x + 1 - p)) * 2 ^ (Int.log 2 x + 1 - p)

@[simp] theorem roundBinary_zero (p : ℕ) : roundBinary p (0 : α) = 0 := by
  have hzero : halfEven (0 : α) = 0 := by
    have := halfEven_intCast (α := α) 0
    rwa [Int.cast_zero] at this
  rw [roundBinary, zero_div, hzero, Int.cast_zero, zero_mul]

/-- **A power of two under a number** is under what it is rounded to. -/
theorem zpow_log_le_roundBinary {p : ℕ} (hp : 1 ≤ p) {x : α} (hx : 0 < x) :
    (2 : α) ^ Int.log 2 x ≤ roundBinary p x := by
  have hulp : (0 : α) < 2 ^ (Int.log 2 x + 1 - p) := zpow_pos two_pos _
  have hsplit : (2 : α) ^ Int.log 2 x = ((2 ^ (p - 1) : ℤ) : α) * 2 ^ (Int.log 2 x + 1 - p) := by
    rw [Int.cast_pow, Int.cast_ofNat, ← zpow_natCast, ← zpow_add₀ two_ne_zero]
    congr 1
    omega
  have hle : ((2 ^ (p - 1) : ℤ) : α) ≤ x / 2 ^ (Int.log 2 x + 1 - p) := by
    rw [le_div_iff₀ hulp, ← hsplit]
    exact_mod_cast Int.zpow_log_le_self (b := 2) (by norm_num) hx
  have hrounded := halfEven_mono hle
  rw [halfEven_intCast] at hrounded
  rw [hsplit, roundBinary]
  exact mul_le_mul_of_nonneg_right (Int.cast_le.mpr hrounded) hulp.le

end Rounding
