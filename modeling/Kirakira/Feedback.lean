import Kirakira.Lib.Dict
import Kirakira.Lib.Json
import Kirakira.Lib.Rounding
import Mathlib.Tactic.FieldSimp

/-!
# Attention from Feedback

`plugins/followups/feedback.py`: the ratings of the delivered items of a watch become a weight of
its later items. The weight is calculated in rationals and rounded to four decimals.

## Main results

* `measure_weight` — the weight is a function of the two counts, and linear in the share of the
  useful ratings from `MIN_RATINGS` on.
* `weightFor_useful`, `weightFor_irrelevant` — when one more rating moves the weight in its own
  direction.
* `feedback_guarantees` — the bounds hold for all ratings, and the monotony for all but three
  equal ones: the fourth then moves the weight against itself.
-/

namespace Kirakira.Feedback

open Rounding

/-! ### Ratings -/

/-- A stored row of feedback. -/
abbrev FeedbackRecord := Dict String Json

/-- `MIN_RATINGS`. -/
def minRatings : ℕ := 4

/-- `MIN_WEIGHT`. -/
def minWeight : ℚ := 1 / 2

/-- `MAX_WEIGHT`. -/
def maxWeight : ℚ := 3 / 2

/-- `NEUTRAL_WEIGHT`. -/
def neutralWeight : ℚ := 1

/-- `Attention`: what the ratings of a watch add up to. -/
structure Attention where
  useful : ℕ
  irrelevant : ℕ
  weight : ℚ
  adjusted : Bool
  reason : String
  deriving DecidableEq, Repr

/-- `Attention.rated`. -/
def Attention.rated (attention : Attention) : ℕ :=
  attention.useful + attention.irrelevant

/-- Whether a record has a value. -/
def FeedbackRecord.rates (record : FeedbackRecord) (value : String) : Bool :=
  record.get? "value" = some (.str value)

/-- One round of the loop of `measure`. -/
def countRecord (counts : ℕ × ℕ) (record : FeedbackRecord) : ℕ × ℕ :=
  if record.rates "useful" then (counts.1 + 1, counts.2)
  else if record.rates "irrelevant" then (counts.1, counts.2 + 1)
  else counts

/-- `_clamp`. -/
def clamp (value : ℚ) : ℚ :=
  max minWeight (min maxWeight value)

/-- The weight of a share, before it is clamped and rounded. -/
def shareWeight (share : ℚ) : ℚ :=
  if share ≥ 1 / 2 then neutralWeight + (maxWeight - neutralWeight) * (share - 1 / 2) * 2
  else neutralWeight - (neutralWeight - minWeight) * (1 / 2 - share) * 2

/-- The text of a number with at most four decimals that is not negative. -/
def decimalText (x : ℚ) : String :=
  let scaled := (halfEven (x * 10 ^ 4)).toNat
  let digits := (toString (scaled % 10000 + 10000)).toList.tail
  let kept := (digits.reverse.dropWhile fun c => c = '0').reverse
  toString (scaled / 10000) ++ "." ++ (if kept = [] then "0" else String.ofList kept)

/-- `measure`. -/
def measure (records : List FeedbackRecord) : Attention :=
  let counts := records.foldl countRecord (0, 0)
  let useful := counts.1
  let irrelevant := counts.2
  let rated := useful + irrelevant
  if rated < minRatings then
    ⟨useful, irrelevant, neutralWeight, false,
      s!"评价数 {rated} 少于 {minRatings} 条，沿用默认权重"⟩
  else
    let share : ℚ := useful / rated
    let weight := roundTo 4 (clamp (shareWeight share))
    ⟨useful, irrelevant, weight, weight ≠ neutralWeight,
      s!"{rated} 条评价中 {useful} 条有用，权重 {decimalText weight}"⟩

/-- `weight_of`: the weight alone. -/
def weightOf (records : List FeedbackRecord) : ℚ :=
  (measure records).weight

/-! ### Counts -/

/-- The number of the records with a value. -/
def ratings (value : String) (records : List FeedbackRecord) : ℕ :=
  records.countP fun record => record.rates value

@[simp] theorem ratings_nil (value : String) : ratings value [] = 0 := rfl

theorem ratings_cons (value : String) (record : FeedbackRecord) (records : List FeedbackRecord) :
    ratings value (record :: records) =
      ratings value records + if record.rates value then 1 else 0 :=
  List.countP_cons ..

theorem ratings_append (value : String) (records : List FeedbackRecord) (record : FeedbackRecord) :
    ratings value (records ++ [record]) =
      ratings value records + if record.rates value then 1 else 0 := by
  simp [ratings, List.countP_append, List.countP_singleton]

variable {record : FeedbackRecord} {irrelevant : ℕ}

theorem FeedbackRecord.rates_other {value : String} (h : record.rates value = true) (other : String)
    (hne : value ≠ other) : record.rates other = false := by
  simp only [FeedbackRecord.rates, decide_eq_true_eq] at h
  simp [FeedbackRecord.rates, h, hne]

theorem foldl_countRecord (records : List FeedbackRecord) (counts : ℕ × ℕ) :
    records.foldl countRecord counts =
      (counts.1 + ratings "useful" records, counts.2 + ratings "irrelevant" records) := by
  induction records generalizing counts with
  | nil => rfl
  | cons record records ih =>
      rw [List.foldl_cons, ih, ratings_cons, ratings_cons, countRecord]
      by_cases huseful : record.rates "useful" = true
      · have hother := FeedbackRecord.rates_other huseful "irrelevant" (by decide)
        simp only [huseful, hother, if_true, Bool.false_eq_true, if_false]
        exact Prod.ext (by simp only; omega) rfl
      · by_cases hirrelevant : record.rates "irrelevant" = true
        · simp only [huseful, hirrelevant, if_true, Bool.false_eq_true, if_false]
          exact Prod.ext rfl (by simp only; omega)
        · simp only [huseful, hirrelevant, Bool.false_eq_true, if_false]
          rfl

/-! ### The weight of two counts -/

/-- The weight of a number of useful and of irrelevant ratings. -/
def weightFor (useful irrelevant : ℕ) : ℚ :=
  if useful + irrelevant < minRatings then neutralWeight
  else roundTo 4 (minWeight + useful / (useful + irrelevant : ℕ))

theorem shareWeight_eq (share : ℚ) : shareWeight share = minWeight + share := by
  rw [shareWeight, neutralWeight, maxWeight, minWeight]
  split_ifs <;> ring

theorem share_mem_Icc (useful irrelevant : ℕ) :
    (useful / (useful + irrelevant : ℕ) : ℚ) ∈ Set.Icc 0 1 := by
  constructor
  · positivity
  · refine div_le_one_of_le₀ ?_ (by positivity)
    exact_mod_cast Nat.le_add_right useful irrelevant

theorem shareWeight_mem_Icc (useful irrelevant : ℕ) :
    minWeight + (useful / (useful + irrelevant : ℕ) : ℚ) ∈ Set.Icc minWeight maxWeight := by
  obtain ⟨hlow, hhigh⟩ := share_mem_Icc useful irrelevant
  rw [minWeight, maxWeight]
  constructor <;> linarith

theorem clamp_of_mem_Icc {value : ℚ} (h : value ∈ Set.Icc minWeight maxWeight) :
    clamp value = value := by
  rw [clamp, min_eq_right h.2, max_eq_right h.1]

/-- **The weight is a function of the counts.** -/
theorem measure_weight (records : List FeedbackRecord) :
    (measure records).weight =
      weightFor (ratings "useful" records) (ratings "irrelevant" records) := by
  have hcounts : records.foldl countRecord (0, 0) =
      (ratings "useful" records, ratings "irrelevant" records) := by
    rw [foldl_countRecord, Nat.zero_add, Nat.zero_add]
  rw [measure, weightFor, hcounts]
  simp only
  split_ifs with hfew
  · rfl
  · rw [shareWeight_eq, clamp_of_mem_Icc (shareWeight_mem_Icc _ _)]

/-! ### Bounds -/

theorem minWeight_decimal : Decimal 4 minWeight :=
  ⟨5000, by norm_num [minWeight]⟩

theorem maxWeight_decimal : Decimal 4 maxWeight :=
  ⟨15000, by norm_num [maxWeight]⟩

theorem neutralWeight_decimal : Decimal 4 neutralWeight :=
  ⟨10000, by norm_num [neutralWeight]⟩

theorem weightFor_of_few {useful irrelevant : ℕ} (h : useful + irrelevant < minRatings) :
    weightFor useful irrelevant = neutralWeight :=
  if_pos h

theorem weightFor_of_enough {useful : ℕ} (h : minRatings ≤ useful + irrelevant) :
    weightFor useful irrelevant =
      roundTo 4 (minWeight + useful / (useful + irrelevant : ℕ)) :=
  if_neg (Nat.not_lt.mpr h)

/-- **No amount of feedback leaves the bounds.** -/
theorem weightFor_mem_Icc (useful irrelevant : ℕ) :
    weightFor useful irrelevant ∈ Set.Icc minWeight maxWeight := by
  rw [weightFor]
  split_ifs
  · rw [neutralWeight, minWeight, maxWeight]
    constructor <;> norm_num
  · exact roundTo_mem_Icc minWeight_decimal maxWeight_decimal (shareWeight_mem_Icc _ _)

/-! ### One more rating -/

theorem share_le_useful (useful irrelevant : ℕ) :
    (useful / (useful + irrelevant : ℕ) : ℚ) ≤
      ((useful + 1 : ℕ) : ℚ) / (useful + 1 + irrelevant : ℕ) := by
  rcases Nat.eq_zero_or_pos (useful + irrelevant) with hzero | hpos
  · rw [hzero, Nat.cast_zero, div_zero]
    positivity
  · rw [div_le_div_iff₀ (by exact_mod_cast hpos) (by positivity)]
    push_cast
    have hnonneg : (0 : ℚ) ≤ irrelevant := irrelevant.cast_nonneg
    linarith

theorem share_irrelevant_le (useful irrelevant : ℕ) :
    (useful / (useful + (irrelevant + 1) : ℕ) : ℚ) ≤ useful / (useful + irrelevant : ℕ) := by
  rcases Nat.eq_zero_or_pos (useful + irrelevant) with hzero | hpos
  · obtain ⟨rfl, rfl⟩ := Nat.add_eq_zero_iff.mp hzero
    simp
  · refine div_le_div_of_nonneg_left useful.cast_nonneg (by exact_mod_cast hpos) ?_
    exact_mod_cast Nat.le_succ _

theorem neutral_le_four {useful : ℕ} (hfour : useful + irrelevant = 4) (h : 2 ≤ useful) :
    neutralWeight ≤ weightFor useful irrelevant := by
  rw [weightFor_of_enough hfour.ge, hfour, ← roundTo_of_decimal neutralWeight_decimal]
  refine roundTo_mono 4 ?_
  have htwo : (2 : ℚ) ≤ useful := by exact_mod_cast h
  rw [neutralWeight, minWeight]
  push_cast
  linarith

theorem four_le_neutral {useful : ℕ} (hfour : useful + irrelevant = 4) (h : useful ≤ 2) :
    weightFor useful irrelevant ≤ neutralWeight := by
  rw [weightFor_of_enough hfour.ge, hfour, ← roundTo_of_decimal neutralWeight_decimal]
  refine roundTo_mono 4 ?_
  have htwo : (useful : ℚ) ≤ 2 := by exact_mod_cast h
  rw [neutralWeight, minWeight]
  push_cast
  linarith

theorem weightFor_one_three : weightFor 1 3 = 3 / 4 := by
  rw [weightFor_of_enough (by decide)]
  have hvalue : minWeight + ((1 : ℕ) / (1 + 3 : ℕ) : ℚ) = 3 / 4 := by norm_num [minWeight]
  rw [hvalue]
  exact roundTo_of_decimal ⟨7500, by norm_num⟩

theorem weightFor_three_one : weightFor 3 1 = 5 / 4 := by
  rw [weightFor_of_enough (by decide)]
  have hvalue : minWeight + ((3 : ℕ) / (3 + 1 : ℕ) : ℚ) = 5 / 4 := by norm_num [minWeight]
  rw [hvalue]
  exact roundTo_of_decimal ⟨12500, by norm_num⟩

/-- **One more useful rating** does not lower the weight, except the first one after three
irrelevant ones. -/
theorem weightFor_useful (useful irrelevant : ℕ) :
    weightFor useful irrelevant ≤ weightFor (useful + 1) irrelevant ↔
      ¬(useful = 0 ∧ irrelevant = 3) := by
  rcases Nat.lt_trichotomy (useful + irrelevant) 3 with hfew | hthree | henough
  · rw [weightFor_of_few (by rw [minRatings]; omega), weightFor_of_few (by rw [minRatings]; omega)]
    exact iff_of_true le_rfl (by omega)
  · rw [weightFor_of_few (by rw [minRatings]; omega)]
    by_cases hzero : useful = 0
    · obtain rfl : irrelevant = 3 := by omega
      rw [hzero, Nat.zero_add, weightFor_one_three, neutralWeight]
      exact iff_of_false (by norm_num) (by omega)
    · exact iff_of_true (neutral_le_four (by omega) (by omega)) (by omega)
  · refine iff_of_true ?_ (by omega)
    rw [weightFor_of_enough (by rw [minRatings]; omega),
      weightFor_of_enough (by rw [minRatings]; omega)]
    refine roundTo_mono 4 ?_
    have hshare := share_le_useful useful irrelevant
    linarith

/-- **One more irrelevant rating** does not raise the weight, except the first one after three
useful ones. -/
theorem weightFor_irrelevant (useful irrelevant : ℕ) :
    weightFor useful (irrelevant + 1) ≤ weightFor useful irrelevant ↔
      ¬(useful = 3 ∧ irrelevant = 0) := by
  rcases Nat.lt_trichotomy (useful + irrelevant) 3 with hfew | hthree | henough
  · rw [weightFor_of_few (by rw [minRatings]; omega), weightFor_of_few (by rw [minRatings]; omega)]
    exact iff_of_true le_rfl (by omega)
  · rw [@weightFor_of_few useful irrelevant (by rw [minRatings]; omega)]
    by_cases hall : useful = 3
    · obtain rfl : irrelevant = 0 := by omega
      rw [hall, weightFor_three_one, neutralWeight]
      exact iff_of_false (by norm_num) (by omega)
    · exact iff_of_true (four_le_neutral (by omega) (by omega)) (by omega)
  · refine iff_of_true ?_ (by omega)
    rw [weightFor_of_enough (by rw [minRatings]; omega),
      weightFor_of_enough (by rw [minRatings]; omega)]
    refine roundTo_mono 4 ?_
    have hshare := share_irrelevant_le useful irrelevant
    linarith

/-! ### The guarantees -/

/-- What the ratings of a watch promise of its weight, and of the weight after one more. -/
structure FeedbackGuarantees (records : List FeedbackRecord) : Prop where
  /-- The weight lies in the bounds. -/
  bounded : (measure records).weight ∈ Set.Icc minWeight maxWeight
  /-- With too few ratings it is neutral. -/
  neutral : ratings "useful" records + ratings "irrelevant" records < minRatings →
    (measure records).weight = neutralWeight
  /-- One more irrelevant rating does not raise it. -/
  irrelevant : ∀ record : FeedbackRecord, record.get? "value" = some (.str "irrelevant") →
    (measure (records ++ [record])).weight ≤ (measure records).weight
  /-- One more useful rating does not lower it. -/
  useful : ∀ record : FeedbackRecord, record.get? "value" = some (.str "useful") →
    (measure records).weight ≤ (measure (records ++ [record])).weight

/-- All the ratings of a watch are three equal ones. -/
def ThreeEqual (records : List FeedbackRecord) : Prop :=
  (ratings "useful" records = 0 ∧ ratings "irrelevant" records = 3) ∨
    (ratings "useful" records = 3 ∧ ratings "irrelevant" records = 0)

/-- A record with a value. -/
def ratingRecord (value : String) : FeedbackRecord :=
  Dict.empty.set "value" (.str value)

theorem measure_useful (records : List FeedbackRecord)
    (h : record.get? "value" = some (.str "useful")) :
    (measure records).weight ≤ (measure (records ++ [record])).weight ↔
      ¬(ratings "useful" records = 0 ∧ ratings "irrelevant" records = 3) := by
  have huseful : record.rates "useful" = true := decide_eq_true h
  have hother := FeedbackRecord.rates_other huseful "irrelevant" (by decide)
  rw [measure_weight, measure_weight, ratings_append, ratings_append, huseful, hother]
  exact weightFor_useful _ _

theorem measure_irrelevant (records : List FeedbackRecord)
    (h : record.get? "value" = some (.str "irrelevant")) :
    (measure (records ++ [record])).weight ≤ (measure records).weight ↔
      ¬(ratings "useful" records = 3 ∧ ratings "irrelevant" records = 0) := by
  have hirrelevant : record.rates "irrelevant" = true := decide_eq_true h
  have hother := FeedbackRecord.rates_other hirrelevant "useful" (by decide)
  rw [measure_weight, measure_weight, ratings_append, ratings_append, hirrelevant, hother]
  exact weightFor_irrelevant _ _

/-- **The guarantees hold for all ratings but three equal ones.** -/
theorem feedback_guarantees (records : List FeedbackRecord) :
    FeedbackGuarantees records ↔ ¬ThreeEqual records := by
  rw [ThreeEqual, not_or]
  constructor
  · intro h
    exact ⟨(measure_useful records rfl).mp (h.useful (ratingRecord "useful") rfl),
      (measure_irrelevant records rfl).mp (h.irrelevant (ratingRecord "irrelevant") rfl)⟩
  · rintro ⟨huseful, hirrelevant⟩
    refine ⟨?_, ?_, fun record h => (measure_irrelevant records h).mpr hirrelevant,
      fun record h => (measure_useful records h).mpr huseful⟩
    · rw [measure_weight]
      exact weightFor_mem_Icc _ _
    · intro hfew
      rw [measure_weight]
      exact weightFor_of_few hfew

/-- Three irrelevant ratings and nothing else. -/
def threeIrrelevant : List FeedbackRecord :=
  List.replicate 3 (ratingRecord "irrelevant")

/-- After three irrelevant ratings the weight is neutral, and a useful one lowers it. -/
theorem useful_lowers :
    (measure threeIrrelevant).weight = 1 ∧
      (measure (threeIrrelevant ++ [ratingRecord "useful"])).weight = 3 / 4 ∧
      ¬FeedbackGuarantees threeIrrelevant := by
  have huseful : ratings "useful" threeIrrelevant = 0 := rfl
  have hirrelevant : ratings "irrelevant" threeIrrelevant = 3 := rfl
  refine ⟨?_, ?_, fun h => ?_⟩
  · rw [measure_weight, huseful, hirrelevant]
    exact weightFor_of_few (by decide)
  · rw [measure_weight]
    exact weightFor_one_three
  · exact (measure_useful threeIrrelevant rfl).mp (h.useful (ratingRecord "useful") rfl)
      ⟨huseful, hirrelevant⟩

end Kirakira.Feedback
