import Kirakira.StoreArguments

/-!
# The Order of Times

Stores compare times as the texts of `datetime.isoformat`. For aware datetimes in UTC this is
the order of the instants: every field has a fixed width, and a fraction, which starts with a
full stop, comes after a text without one, which goes on with a plus sign.

## Main results

* `dateOf_spec` — the calendar date of a day number is a date, and has that number.
* `dateOf_lt` — a later day has a later date, year by year, month by month, day by day.
* `awareUtc_le` — **the texts of two aware times are in the order of their instants**.
-/

namespace Kirakira

/-! ### Fields of a fixed width -/

/-- The last digits of a number. -/
def lastDigits : ℕ → ℕ → List Char
  | 0, _ => []
  | width + 1, n => lastDigits width (n / 10) ++ [(n % 10).digitChar]

theorem length_lastDigits (width n : ℕ) : (lastDigits width n).length = width := by
  induction width generalizing n with
  | zero => rfl
  | succ width ih => rw [lastDigits, List.length_append, ih, List.length_singleton]

theorem lastDigits_zero (width : ℕ) : lastDigits width 0 = List.replicate width '0' := by
  induction width with
  | zero => rfl
  | succ width ih =>
      rw [lastDigits, Nat.zero_div, ih, List.replicate_succ']
      rfl

variable {n width : ℕ}

theorem fill_toDigits (hwidth : 0 < width) (hn : n < 10 ^ width) :
    List.replicate (width - (Nat.toDigits 10 n).length) '0' ++ Nat.toDigits 10 n
      = lastDigits width n := by
  induction width generalizing n with
  | zero => cases hwidth
  | succ width ih =>
      rw [lastDigits]
      rcases Nat.lt_or_ge n 10 with hsmall | hlarge
      · rw [Nat.toDigits_of_lt_base hsmall, Nat.div_eq_of_lt hsmall, Nat.mod_eq_of_lt hsmall,
          lastDigits_zero]
        rfl
      · have hrest : n / 10 < 10 ^ width :=
          Nat.div_lt_of_lt_mul (by rwa [pow_succ, mul_comm] at hn)
        have hpos : 0 < width := by
          rcases Nat.eq_zero_or_pos width with rfl | hpos
          · rw [pow_zero] at hrest
            omega
          · exact hpos
        rw [Nat.toDigits_of_base_le (by decide) hlarge, List.length_append, List.length_singleton,
          Nat.add_sub_add_right, ← List.append_assoc, ih hpos hrest]

theorem toList_padded (hwidth : 0 < width) (hn : n < 10 ^ width) :
    (padded width n).toList = lastDigits width n := by
  have htext : (toString n).toList = Nat.toDigits 10 n := Nat.toList_repr
  rw [padded, String.toList_append, String.toList_ofList, htext, ← String.length_toList, htext]
  exact fill_toDigits hwidth hn

variable {x y : List Char} {date : ℕ × ℕ × ℕ}

theorem append_lt_append {a b : List Char} (hlength : a.length = b.length) (h : a < b) :
    a ++ x < b ++ y := by
  induction a generalizing b with
  | nil =>
      cases b with
      | nil => cases h
      | cons c b => cases hlength
  | cons c a ih =>
      cases b with
      | nil => cases hlength
      | cons d b =>
          rw [List.cons_append, List.cons_append, List.cons_lt_cons_iff]
          rw [List.cons_lt_cons_iff] at h
          rcases h with hlt | ⟨rfl, hlt⟩
          · exact .inl hlt
          · exact .inr ⟨rfl, ih (Nat.succ.inj hlength) hlt⟩

theorem digitChar_lt {m : ℕ} (h : m < n) (hn : n < 10) : m.digitChar < n.digitChar := by
  have hall : ∀ b < 10, ∀ a < b, a.digitChar < b.digitChar := by decide
  exact hall n hn m h

theorem lastDigits_lt {m : ℕ} (h : m < n) (hn : n < 10 ^ width) :
    lastDigits width m < lastDigits width n := by
  induction width generalizing m n with
  | zero =>
      rw [pow_zero] at hn
      omega
  | succ width ih =>
      rw [lastDigits, lastDigits]
      have hrest : n / 10 < 10 ^ width := Nat.div_lt_of_lt_mul (by rwa [pow_succ, mul_comm] at hn)
      rcases Nat.lt_or_ge (m / 10) (n / 10) with hlt | hge
      · exact append_lt_append (by rw [length_lastDigits, length_lastDigits]) (ih hlt hrest)
      · have heq : m / 10 = n / 10 := by omega
        rw [heq]
        refine List.append_left_lt ?_
        rw [List.cons_lt_cons_iff]
        exact .inl (digitChar_lt (by omega) (by omega))

/-! ### The calendar -/

/-- The days of a year before its months. -/
def monthStart (year : ℕ) : ℕ → ℕ
  | 0 => 0
  | month + 1 => monthStart year month + daysInMonth year (month + 1)

/-- The days before a year. -/
def yearStart (year : ℕ) : ℕ :=
  (year - 1) * 365 + (year - 1) / 4 - (year - 1) / 100 + (year - 1) / 400

/-- A date of the calendar. -/
def IsDate (date : ℕ × ℕ × ℕ) : Prop :=
  1 ≤ date.1 ∧ 1 ≤ date.2.1 ∧ date.2.1 ≤ 12 ∧ 1 ≤ date.2.2 ∧
    date.2.2 ≤ daysInMonth date.1 date.2.1

/-- The number of a date. -/
def dayCount (date : ℕ × ℕ × ℕ) : ℕ :=
  yearStart date.1 + monthStart date.1 (date.2.1 - 1) + (date.2.2 - 1)

theorem monthStart_add_le (year : ℕ) {month month' : ℕ} (h : month < month') :
    monthStart year month + daysInMonth year (month + 1) ≤ monthStart year month' := by
  induction month' with
  | zero => cases h
  | succ n ih =>
      rw [monthStart]
      rcases Nat.lt_succ_iff_lt_or_eq.mp h with hlt | rfl
      · exact (ih hlt).trans (Nat.le_add_right _ _)
      · exact le_rfl

theorem monthStart_year (year : ℕ) :
    monthStart year 12
      = if year % 4 = 0 ∧ (year % 100 ≠ 0 ∨ year % 400 = 0) then 366 else 365 := by
  have hmonths : monthStart year 12 = 31 + daysInMonth year 2 + 306 := rfl
  have hfebruary : daysInMonth year 2
      = if year % 4 = 0 ∧ (year % 100 ≠ 0 ∨ year % 400 = 0) then 29 else 28 := rfl
  rw [hmonths, hfebruary]
  split_ifs <;> rfl

theorem yearStart_succ {year : ℕ} (h : 1 ≤ year) :
    yearStart (year + 1) = yearStart year + monthStart year 12 := by
  obtain ⟨past, rfl⟩ : ∃ past, year = past + 1 := ⟨year - 1, by omega⟩
  have hfour : (past + 1) / 4 = past / 4 + if (past + 1) % 4 = 0 then 1 else 0 := by
    split_ifs <;> omega
  have hcentury : (past + 1) / 100 = past / 100 + if (past + 1) % 100 = 0 then 1 else 0 := by
    split_ifs <;> omega
  have hcycle : (past + 1) / 400 = past / 400 + if (past + 1) % 400 = 0 then 1 else 0 := by
    split_ifs <;> omega
  have hless : past / 100 ≤ past / 4 := Nat.div_le_div_left (by decide) (by decide)
  have hdvd : (past + 1) % 100 = 0 → (past + 1) % 4 = 0 := by omega
  have hdvd' : (past + 1) % 400 = 0 → (past + 1) % 100 = 0 := by omega
  simp only [monthStart_year, yearStart, Nat.add_sub_cancel, hfour, hcentury, hcycle]
  by_cases h400 : (past + 1) % 400 = 0
  · simp only [h400, hdvd' h400, hdvd (hdvd' h400), if_true, or_true, and_true]
    omega
  · by_cases h100 : (past + 1) % 100 = 0
    · simp only [h400, h100, hdvd h100, if_true, if_false, ne_eq, not_true, or_false, and_false]
      omega
    · by_cases h4 : (past + 1) % 4 = 0
      · simp only [h400, h100, h4, if_true, if_false, ne_eq, not_false_eq_true, or_false, and_true]
        omega
      · simp only [h400, h100, h4, if_false, false_and]
        omega

theorem yearStart_add_le {year year' : ℕ} (hyear : 1 ≤ year) (h : year < year') :
    yearStart year + monthStart year 12 ≤ yearStart year' := by
  induction year' with
  | zero => cases h
  | succ n ih =>
      rcases Nat.lt_succ_iff_lt_or_eq.mp h with hlt | rfl
      · rw [yearStart_succ (by omega)]
        exact (ih hlt).trans (Nat.le_add_right _ _)
      · rw [yearStart_succ hyear]

theorem IsDate.le_year (h : IsDate date) :
    monthStart date.1 (date.2.1 - 1) + (date.2.2 - 1) < monthStart date.1 12 := by
  obtain ⟨-, hmonth, hmonth', hday, hday'⟩ := h
  have hle := monthStart_add_le date.1 (show date.2.1 - 1 < 12 by omega)
  rw [Nat.sub_add_cancel hmonth] at hle
  omega

/-- Whether a date is before another. -/
def Earlier (date date' : ℕ × ℕ × ℕ) : Prop :=
  date.1 < date'.1 ∨ date.1 = date'.1 ∧
    (date.2.1 < date'.2.1 ∨ date.2.1 = date'.2.1 ∧ date.2.2 < date'.2.2)

theorem dayCount_lt {date' : ℕ × ℕ × ℕ} (h : IsDate date) (h' : IsDate date')
    (hlt : Earlier date date') : dayCount date < dayCount date' := by
  have hle := h.le_year
  obtain ⟨year, month, day⟩ := date
  obtain ⟨year', month', day'⟩ := date'
  obtain ⟨hyear, hmonth, hmonth', hday, hday'⟩ := h
  obtain ⟨-, hmonth₁, -, hday₁, -⟩ := h'
  simp only [dayCount, Earlier] at hle hlt hyear hmonth hmonth' hday hday' hmonth₁ hday₁ ⊢
  rcases hlt with hlt | ⟨rfl, hlt | ⟨rfl, hlt⟩⟩
  · have hyears := yearStart_add_le hyear hlt
    omega
  · have hmonths := monthStart_add_le year (show month - 1 < month' - 1 by omega)
    rw [Nat.sub_add_cancel hmonth] at hmonths
    omega
  · omega

theorem earlier_total (date date' : ℕ × ℕ × ℕ) :
    Earlier date date' ∨ date = date' ∨ Earlier date' date := by
  obtain ⟨year, month, day⟩ := date
  obtain ⟨year', month', day'⟩ := date'
  simp only [Earlier, Prod.mk.injEq]
  omega

theorem foldl_months (year n k : ℕ) :
    ∃ month day, (List.range k).foldl (fun (y, m, d) _ =>
        if daysInMonth y m < d then (y, m + 1, d - daysInMonth y m) else (y, m, d))
        (year, 1, n + 1) = (year, month, day) ∧
      1 ≤ month ∧ month ≤ k + 1 ∧ 1 ≤ day ∧ monthStart year (month - 1) + (day - 1) = n ∧
      (day ≤ daysInMonth year month ∨ month = k + 1) := by
  induction k with
  | zero => exact ⟨1, n + 1, rfl, le_rfl, le_rfl, by omega, by simp [monthStart], .inr rfl⟩
  | succ k ih =>
      obtain ⟨month, day, hfold, hmonth, hmonth', hday, hcount, hlast⟩ := ih
      rw [List.range_succ, List.foldl_append, hfold, List.foldl_cons, List.foldl_nil]
      simp only
      split_ifs with hover
      · refine ⟨month + 1, day - daysInMonth year month, rfl, by omega, by omega, by omega, ?_, ?_⟩
        · obtain ⟨m, rfl⟩ : ∃ m, month = m + 1 := ⟨month - 1, by omega⟩
          rw [Nat.add_sub_cancel] at hcount
          rw [Nat.add_sub_cancel, monthStart]
          omega
        · rcases hlast with hle | rfl
          · omega
          · exact .inr rfl
      · exact ⟨month, day, rfl, hmonth, by omega, hday, hcount, .inl (by omega)⟩

theorem yearStart_cycles {a c f y : ℕ} (hc : c ≤ 3) (hf : f ≤ 24) (hy : y ≤ 3) :
    yearStart (400 * a + 1 + c * 100 + f * 4 + y)
      = a * 146097 + c * 36524 + f * 1461 + y * 365 := by
  have hpast : 400 * a + 1 + c * 100 + f * 4 + y - 1 = 400 * a + c * 100 + f * 4 + y := by omega
  have hfour : (400 * a + c * 100 + f * 4 + y) / 4 = 100 * a + 25 * c + f := by omega
  have hcentury : (400 * a + c * 100 + f * 4 + y) / 100 = 4 * a + c := by omega
  have hcycle : (400 * a + c * 100 + f * 4 + y) / 400 = a := by omega
  rw [yearStart, hpast, hfour, hcentury, hcycle]
  omega

theorem monthStart_cycles {a c f y : ℕ} (hc : c ≤ 3) (hf : f ≤ 24) (hy : y ≤ 3) :
    monthStart (400 * a + 1 + c * 100 + f * 4 + y) 12
      = if y = 3 ∧ (f ≠ 24 ∨ c = 3) then 366 else 365 := by
  have hfour : (400 * a + 1 + c * 100 + f * 4 + y) % 4 = 0 ↔ y = 3 := by omega
  have hcentury : (400 * a + 1 + c * 100 + f * 4 + y) % 100 = 0 ↔ y = 3 ∧ f = 24 := by omega
  have hcycle : (400 * a + 1 + c * 100 + f * 4 + y) % 400 = 0 ↔ y = 3 ∧ f = 24 ∧ c = 3 := by omega
  rw [monthStart_year]
  refine if_congr ?_ rfl rfl
  rw [hfour, ne_eq, hcentury, hcycle]
  omega

/-- The date of a day number is a date of the calendar, with that number. -/
theorem dateOf_spec (days : ℕ) : IsDate (dateOf days) ∧ dayCount (dateOf days) = days := by
  -- the cycles of 400, 100 and 4 years, the years and the days that are left
  obtain ⟨a, n₀, ha, hn₀, hdays⟩ : ∃ a n₀, days / 146097 = a ∧ days % 146097 = n₀ ∧
      a * 146097 + n₀ = days ∧ n₀ < 146097 := ⟨_, _, rfl, rfl, by omega, by omega⟩
  obtain ⟨c, n₁, hc, hn₁, hcount₁⟩ : ∃ c n₁, min 3 (n₀ / 36524) = c ∧ n₀ - c * 36524 = n₁ ∧
      c ≤ 3 ∧ c * 36524 + n₁ = n₀ ∧ n₁ ≤ 36524 ∧ (c ≠ 3 → n₁ < 36524) :=
    ⟨_, _, rfl, rfl, by omega, by omega, by omega, by omega⟩
  obtain ⟨f, n₂, hf, hn₂, hcount₂⟩ : ∃ f n₂, n₁ / 1461 = f ∧ n₁ % 1461 = n₂ ∧
      f * 1461 + n₂ = n₁ ∧ n₂ < 1461 := ⟨_, _, rfl, rfl, by omega, by omega⟩
  obtain ⟨y, r, hy, hr, hcount₃⟩ : ∃ y r, min 3 (n₂ / 365) = y ∧ n₂ - y * 365 = r ∧
      y ≤ 3 ∧ y * 365 + r = n₂ ∧ r ≤ 365 ∧ (y ≠ 3 → r < 365) :=
    ⟨_, _, rfl, rfl, by omega, by omega, by omega, by omega⟩
  obtain ⟨month, day, hfold, hmonth, hmonth', hday, hcount, hlast⟩ :=
    foldl_months (400 * a + 1 + c * 100 + f * 4 + y) r 11
  have hdate : dateOf days = (400 * a + 1 + c * 100 + f * 4 + y, month, day) := by
    rw [dateOf]
    simp only [ha, hn₀, hc, hn₁, hf, hn₂, hy, hr]
    exact hfold
  have hf' : f ≤ 24 := by omega
  have hyear := monthStart_cycles (a := a) hcount₁.1 hf' hcount₃.1
  have hstart := yearStart_cycles (a := a) hcount₁.1 hf' hcount₃.1
  rw [hdate]
  refine ⟨⟨by simp only; omega, hmonth, hmonth', hday, ?_⟩, ?_⟩
  · rcases hlast with hle | rfl
    · exact hle
    · have hdecember : monthStart (400 * a + 1 + c * 100 + f * 4 + y) 12
          = monthStart (400 * a + 1 + c * 100 + f * 4 + y) 11
            + daysInMonth (400 * a + 1 + c * 100 + f * 4 + y) (11 + 1) := rfl
      have hlength : r < monthStart (400 * a + 1 + c * 100 + f * 4 + y) 12 := by
        rw [hyear]
        split_ifs <;> omega
      simp only [Nat.add_sub_cancel] at hcount ⊢
      omega
  · simp only [dayCount, hstart]
    omega

/-- **A later day has a later date.** -/
theorem dateOf_lt {days days' : ℕ} (h : days < days') : Earlier (dateOf days) (dateOf days') := by
  obtain ⟨hdate, hcount⟩ := dateOf_spec days
  obtain ⟨hdate', hcount'⟩ := dateOf_spec days'
  rcases earlier_total (dateOf days) (dateOf days') with hlt | heq | hgt
  · exact hlt
  · rw [heq] at hcount
    omega
  · have hback := dayCount_lt hdate' hdate hgt
    omega

theorem dateOf_year_lt {days : ℕ} (h : days < 3652059) : (dateOf days).1 < 10 ^ 4 := by
  obtain ⟨hdate, hcount⟩ := dateOf_spec days
  by_contra hlarge
  have hyear := yearStart_add_le (show 1 ≤ 9999 by decide) (show 9999 < (dateOf days).1 by omega)
  have hlast : yearStart 9999 + monthStart 9999 12 = 3652059 := by decide
  rw [dayCount] at hcount
  omega

/-! ### Texts -/

theorem field_lt {m : ℕ} (hwidth : 0 < width) (hm : m < 10 ^ width) (hn : n < 10 ^ width)
    (h : m < n ∨ m = n ∧ x < y) : (padded width m).toList ++ x < (padded width n).toList ++ y := by
  rw [toList_padded hwidth hm, toList_padded hwidth hn]
  rcases h with hlt | ⟨rfl, hlt⟩
  · exact append_lt_append (by rw [length_lastDigits, length_lastDigits]) (lastDigits_lt hlt hn)
  · exact List.append_left_lt hlt

theorem cons_lt {c : Char} (h : x < y) : c :: x < c :: y :=
  List.cons_lt_cons_iff.mpr (.inr ⟨rfl, h⟩)

theorem toList_fractionText {us : ℕ} (h : us ≠ 0) :
    (fractionText us).toList = '.' :: (padded 6 us).toList := by
  rw [fractionText, if_neg h, String.toList_append]
  rfl

theorem fractionText_lt {us us' : ℕ} (h : us < us') (hus' : us' < 1000000) (rest : List Char) :
    (fractionText us).toList ++ '+' :: rest < (fractionText us').toList ++ '+' :: rest := by
  rw [toList_fractionText (by omega : us' ≠ 0)]
  rcases Nat.eq_zero_or_pos us with rfl | hpos
  · exact List.cons_lt_cons_iff.mpr (.inl (by decide))
  · rw [toList_fractionText hpos.ne']
    exact cons_lt (field_lt (by decide) (by omega) (by omega) (.inl h))

/-- The text of a time of day, in microseconds. -/
def clockChars (micros : ℕ) (rest : List Char) : List Char :=
  (padded 2 (micros / 1000000 / 3600)).toList ++ ':' ::
    ((padded 2 (micros / 1000000 / 60 % 60)).toList ++ ':' ::
      ((padded 2 (micros / 1000000 % 60)).toList ++
        ((fractionText (micros % 1000000)).toList ++ '+' :: rest)))

/-- The text of a time of day to the second, before the rest of a text. -/
def secondsChars (micros : ℕ) (rest : List Char) : List Char :=
  (padded 2 (micros / 1000000 / 3600)).toList ++ ':' ::
    ((padded 2 (micros / 1000000 / 60 % 60)).toList ++ ':' ::
      ((padded 2 (micros / 1000000 % 60)).toList ++ rest))

theorem secondsChars_lt {m : ℕ} {x y : List Char} (h : m < n) (hn : n < dayMicros)
    (hrest : m / 1000000 = n / 1000000 → x < y) : secondsChars m x < secondsChars n y := by
  rw [dayMicros] at hn
  rw [secondsChars, secondsChars]
  refine field_lt (by decide) (by omega) (by omega) ?_
  rcases Nat.lt_or_ge (m / 1000000 / 3600) (n / 1000000 / 3600) with hlt | hge
  · exact .inl hlt
  · refine .inr ⟨by omega, cons_lt (field_lt (by decide) (by omega) (by omega) ?_)⟩
    rcases Nat.lt_or_ge (m / 1000000 / 60 % 60) (n / 1000000 / 60 % 60) with hlt | hge'
    · exact .inl hlt
    · refine .inr ⟨by omega, cons_lt (field_lt (by decide) (by omega) (by omega) ?_)⟩
      rcases Nat.lt_or_ge (m / 1000000 % 60) (n / 1000000 % 60) with hlt | hge''
      · exact .inl hlt
      · exact .inr ⟨by omega, hrest (by omega)⟩

theorem clockChars_lt {m : ℕ} (h : m < n) (hn : n < dayMicros) (rest : List Char) :
    clockChars m rest < clockChars n rest :=
  secondsChars_lt h hn fun _ => fractionText_lt (by omega) (by omega) rest

/-- The text of a date before the rest of a text. -/
def dateChars (date : ℕ × ℕ × ℕ) (rest : List Char) : List Char :=
  (padded 4 date.1).toList ++ '-' :: ((padded 2 date.2.1).toList ++ '-' ::
    ((padded 2 date.2.2).toList ++ 'T' :: rest))

theorem IsDate.le_31 (h : IsDate date) : date.2.2 ≤ 31 := by
  refine h.2.2.2.2.trans ?_
  rw [daysInMonth]
  split_ifs <;> omega

theorem dateChars_lt {date' : ℕ × ℕ × ℕ} (h : IsDate date) (h' : IsDate date')
    (hyear : date.1 < 10 ^ 4) (hyear' : date'.1 < 10 ^ 4)
    (hlt : Earlier date date' ∨ date = date' ∧ x < y) : dateChars date x < dateChars date' y := by
  have hday := h.le_31
  have hday' := h'.le_31
  obtain ⟨-, -, hmonth, -⟩ := h
  obtain ⟨-, -, hmonth', -⟩ := h'
  rw [dateChars, dateChars]
  refine field_lt (by decide) hyear hyear' ?_
  rcases hlt with (hlt | ⟨heq, hlt | ⟨heq', hlt⟩⟩) | ⟨rfl, hlt⟩
  · exact .inl hlt
  · exact .inr ⟨heq, cons_lt (field_lt (by decide) (by omega) (by omega) (.inl hlt))⟩
  · exact .inr ⟨heq, cons_lt (field_lt (by decide) (by omega) (by omega)
      (.inr ⟨heq', cons_lt (field_lt (by decide) (by omega) (by omega) (.inl hlt))⟩))⟩
  · exact .inr ⟨rfl, cons_lt (List.append_left_lt (cons_lt (List.append_left_lt (cons_lt hlt))))⟩

theorem toList_isoformat (micros : ℕ) :
    (Datetime.mk micros (some 0)).isoformat.toList
      = dateChars (dateOf (micros / dayMicros))
          (clockChars (micros % dayMicros) ['0', '0', ':', '0', '0']) := by
  have hmicros : ((micros : ℤ) + 0).toNat = micros := by omega
  have hrest : micros % dayMicros % 1000000 = micros % 1000000 := by
    rw [dayMicros]
    omega
  have hoffset : offsetText 0 = "+00:00" := by decide
  have hdash : "-".toList = ['-'] := rfl
  have hcolon : ":".toList = [':'] := rfl
  have htime : "T".toList = ['T'] := rfl
  have hutc : "+00:00".toList = ['+', '0', '0', ':', '0', '0'] := rfl
  simp only [Datetime.isoformat, hmicros, hoffset, wallText, dateChars, clockChars, hrest,
    String.toList_append, List.append_assoc, hdash, hcolon, htime, hutc, List.cons_append,
    List.nil_append]

theorem dateChars_div_lt {m n : ℕ} {x y : List Char} (h : m < n) (hn : (n : ℤ) < maxMicros)
    (hclock : m / dayMicros = n / dayMicros → m % dayMicros < n % dayMicros → x < y) :
    dateChars (dateOf (m / dayMicros)) x < dateChars (dateOf (n / dayMicros)) y := by
  rw [maxMicros] at hn
  have hdays : m / dayMicros ≤ n / dayMicros := Nat.div_le_div_right h.le
  have hlast : n / dayMicros < 3652059 := by
    rw [dayMicros]
    omega
  refine dateChars_lt (dateOf_spec _).1 (dateOf_spec _).1 (dateOf_year_lt (by omega))
    (dateOf_year_lt hlast) ?_
  rcases hdays.lt_or_eq with hlt | heq
  · exact .inl (dateOf_lt hlt)
  · refine .inr ⟨by rw [heq], hclock heq ?_⟩
    have hm := Nat.div_add_mod m dayMicros
    have hn := Nat.div_add_mod n dayMicros
    rw [heq] at hm
    omega

/-- **A later time of UTC has a later text.** -/
theorem isoformat_lt {u v : ℤ} (hu : 0 ≤ u) (h : u < v) (hv : v < maxMicros) :
    (Datetime.mk u (some 0)).isoformat < (Datetime.mk v (some 0)).isoformat := by
  obtain ⟨m, rfl⟩ := Int.eq_ofNat_of_zero_le hu
  obtain ⟨n, rfl⟩ := Int.eq_ofNat_of_zero_le (hu.trans h.le)
  rw [String.lt_iff_toList_lt, toList_isoformat, toList_isoformat]
  exact dateChars_div_lt (by omega) hv fun _ hlt =>
    clockChars_lt hlt (Nat.mod_lt _ (by decide)) _

/-- **The texts of two aware times are in the order of their instants.** -/
theorem awareUtc_le {naive naive' x y : String} {d d' : Datetime}
    (hx : awareUtc naive d = .ok x) (hy : awareUtc naive' d' = .ok y) :
    x ≤ y ↔ d.utc ≤ d'.utc := by
  have htext : ∀ {naive text : String} {d : Datetime}, awareUtc naive d = .ok text →
      0 ≤ d.utc ∧ d.utc < maxMicros ∧ text = (Datetime.mk d.utc (some 0)).isoformat := by
    intro naive text d h
    rw [awareUtc] at h
    split at h
    · cases h
    · obtain ⟨utc, hutc, h⟩ := Exceptions.bind_eq_ok.mp h
      rw [utcTime] at hutc
      split_ifs at hutc with hrange
      · obtain rfl := Except.ok.inj hutc
        exact ⟨hrange.1, hrange.2, (Except.ok.inj h).symm⟩
      · cases hutc
  obtain ⟨hd, hd', rfl⟩ := htext hx
  obtain ⟨he, he', rfl⟩ := htext hy
  constructor
  · intro hle
    by_contra hlt
    exact absurd hle (not_le.mpr (isoformat_lt he (not_le.mp hlt) hd'))
  · intro hle
    rcases hle.lt_or_eq with hlt | heq
    · exact (isoformat_lt hd hlt he').le
    · rw [heq]

end Kirakira
