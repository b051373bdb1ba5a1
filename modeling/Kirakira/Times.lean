import Kirakira.Contract

/-!
# Times

Two models of `datetime`. An `Instant` is the `isoformat()` text of an aware datetime, as
the messages and the goal records carry it; `Instant.micros` reads such a text, and other
spellings of ISO 8601, which the encoders never write, are not read. A `Datetime` is the
value itself, for code that calculates with times.

Both count microseconds from the first day of the proleptic Gregorian calendar.
-/

namespace Kirakira

/-! ### Texts -/

/-- The number that decimal digits spell. -/
def digits (cs : List Char) : Option ℕ :=
  if cs.all Char.isDigit then some (cs.foldl (fun n c => 10 * n + (c.toNat - '0'.toNat)) 0)
  else none

/-- An optional fraction of six digits, and the rest of the text. -/
def fraction : List Char → Option (ℕ × List Char)
  | '.' :: a :: b :: c :: d :: e :: f :: rest => (digits [a, b, c, d, e, f]).map (·, rest)
  | rest => some (0, rest)

/-- A time of day and the rest of the text, in microseconds. -/
def clockTime : List Char → Option (ℕ × List Char)
  | h₁ :: h₂ :: ':' :: m₁ :: m₂ :: ':' :: s₁ :: s₂ :: rest => do
      let h ← digits [h₁, h₂]
      let m ← digits [m₁, m₂]
      let s ← digits [s₁, s₂]
      let (us, rest) ← fraction rest
      if h < 24 ∧ m < 60 ∧ s < 60 then some (((h * 60 + m) * 60 + s) * 1000000 + us, rest)
      else none
  | h₁ :: h₂ :: ':' :: m₁ :: m₂ :: rest => do
      let h ← digits [h₁, h₂]
      let m ← digits [m₁, m₂]
      if h < 24 ∧ m < 60 then some ((h * 60 + m) * 60 * 1000000, rest) else none
  | _ => none

/-- The days of a month. -/
def daysInMonth (year month : ℕ) : ℕ :=
  if month = 2 then if year % 4 = 0 ∧ (year % 100 ≠ 0 ∨ year % 400 = 0) then 29 else 28
  else if month = 4 ∨ month = 6 ∨ month = 9 ∨ month = 11 then 30
  else 31

/-- The days before a date. -/
def dayNumber (year month day : ℕ) : ℕ :=
  let past := year - 1
  (List.range (month - 1)).foldl (fun days m => days + daysInMonth year (m + 1))
    (past * 365 + past / 4 - past / 100 + past / 400 + (day - 1))

/-- `datetime.fromisoformat` of an aware datetime in the form `isoformat` writes, in
microseconds. -/
def Instant.micros (instant : Instant) : Option ℤ :=
  match instant.iso.toList with
  | y₁ :: y₂ :: y₃ :: y₄ :: '-' :: m₁ :: m₂ :: '-' :: d₁ :: d₂ :: 'T' :: rest => do
      let year ← digits [y₁, y₂, y₃, y₄]
      let month ← digits [m₁, m₂]
      let day ← digits [d₁, d₂]
      let (time, rest) ← clockTime rest
      if 1 ≤ year ∧ 1 ≤ month ∧ month ≤ 12 ∧ 1 ≤ day ∧ day ≤ daysInMonth year month then
        let local_ : ℤ := dayNumber year month day * 86400000000 + time
        match rest with
        | '+' :: rest => do
            let (offset, rest) ← clockTime rest
            if rest = [] then some (local_ - offset) else none
        | '-' :: rest => do
            let (offset, rest) ← clockTime rest
            if rest = [] then some (local_ + offset) else none
        | _ => none
      else none
  | _ => none

/-! ### Values -/

/-- A datetime: the instant, which is that of the wall clock in UTC when it is naive, and
the offset from UTC when it is aware. -/
structure Datetime where
  utc : ℤ
  offset : Option ℤ
  deriving DecidableEq

/-- The microseconds of a day. -/
def dayMicros : ℕ := 86400000000

/-- The end of the year 9999. -/
def maxMicros : ℤ := 3652059 * 86400000000

/-- `raise OverflowError(text)`. -/
def overflowError {α : Type} (text : String) : Except PyError α :=
  .error ⟨.overflowError, text⟩

/-- An aware datetime of UTC, which has to lie in the range of the type. -/
def utcTime (utc : ℤ) : Except PyError ℤ :=
  if 0 ≤ utc ∧ utc < maxMicros then .ok utc else overflowError "date value out of range"

/-- The date of a day number. -/
def dateOf (days : ℕ) : ℕ × ℕ × ℕ :=
  let year := 400 * (days / 146097) + 1
  let n := days % 146097
  let centuries := min 3 (n / 36524)
  let n := n - centuries * 36524
  let fours := n / 1461
  let n := n % 1461
  let years := min 3 (n / 365)
  let n := n - years * 365
  let year := year + centuries * 100 + fours * 4 + years
  (List.range 11).foldl (fun (y, m, d) _ =>
    if daysInMonth y m < d then (y, m + 1, d - daysInMonth y m) else (y, m, d)) (year, 1, n + 1)

/-- A number in decimal, filled up with zeros. -/
def padded (width n : ℕ) : String :=
  let digits := toString n
  String.ofList (List.replicate (width - digits.length) '0') ++ digits

/-- A fraction of a second, if there is one. -/
def fractionText (micros : ℕ) : String :=
  if micros = 0 then "" else "." ++ padded 6 micros

/-- `datetime.isoformat` of a wall clock. -/
def wallText (micros : ℕ) : String :=
  let (year, month, day) := dateOf (micros / dayMicros)
  let seconds := micros % dayMicros / 1000000
  padded 4 year ++ "-" ++ padded 2 month ++ "-" ++ padded 2 day ++ "T" ++
    padded 2 (seconds / 3600) ++ ":" ++ padded 2 (seconds / 60 % 60) ++ ":" ++
    padded 2 (seconds % 60) ++ fractionText (micros % 1000000)

/-- `isoformat` of an offset. -/
def offsetText (offset : ℤ) : String :=
  let micros := offset.natAbs
  let seconds := micros / 1000000
  (if offset < 0 then "-" else "+") ++ padded 2 (seconds / 3600) ++ ":" ++
    padded 2 (seconds / 60 % 60) ++
    if micros % 60000000 = 0 then ""
    else ":" ++ padded 2 (seconds % 60) ++ fractionText (micros % 1000000)

/-- `datetime.isoformat`. -/
def Datetime.isoformat (d : Datetime) : String :=
  match d.offset with
  | none => wallText d.utc.toNat
  | some offset => wallText (d.utc + offset).toNat ++ offsetText offset

/-- `parse_iso` of an `isoformat` text: a naive time comes back as UTC. -/
def Datetime.parsed (d : Datetime) : Datetime :=
  ⟨d.utc, some (d.offset.getD 0)⟩

end Kirakira
