import HtmlHighlight.Text.Basic

/-!
# Points in time

The text of a point in time, from the microseconds since the beginning of 1970 in universal time. Days are
counted in years that begin in March, so that a leap day is the last day of its year.
-/

namespace HtmlHighlight.Clock

/-- A number with zeros before it up to `width` digits. -/
def padded (width n : Nat) : Text :=
  let digits := Text.ofNat n
  List.replicate (width - digits.length) '0' ++ digits

/-- Year, month and day of a date, from the days since the first of January 1970. -/
def dateOfDays (days : Nat) : Nat × Nat × Nat :=
  let days := days + 719468
  let dayOfEra := days % 146097
  let yearOfEra := (dayOfEra - dayOfEra / 1460 + dayOfEra / 36524 - dayOfEra / 146096) / 365
  let dayOfYear := dayOfEra - (365 * yearOfEra + yearOfEra / 4 - yearOfEra / 100)
  let monthFromMarch := (5 * dayOfYear + 2) / 153
  let day := dayOfYear - (153 * monthFromMarch + 2) / 5 + 1
  let year := yearOfEra + days / 146097 * 400
  if monthFromMarch < 10 then (year, monthFromMarch + 3, day) else (year + 1, monthFromMarch - 9, day)

example : dateOfDays 0 = (1970, 1, 1) := by decide
example : dateOfDays 11016 = (2000, 2, 29) := by decide
example : dateOfDays 11017 = (2000, 3, 1) := by decide
example : dateOfDays 19722 = (2023, 12, 31) := by decide

/-- A point in time as the log shows it. -/
def timeText (microseconds : Nat) : Text :=
  let seconds := microseconds / 1000000
  let (year, month, day) := dateOfDays (seconds / 86400)
  padded 4 year ++ '-' :: padded 2 month ++ '-' :: padded 2 day ++ 'T' :: padded 2 (seconds / 3600 % 24) ++
    ':' :: padded 2 (seconds / 60 % 60) ++ ':' :: padded 2 (seconds % 60) ++
    '.' :: padded 6 (microseconds % 1000000) ++ ['Z']

end HtmlHighlight.Clock
