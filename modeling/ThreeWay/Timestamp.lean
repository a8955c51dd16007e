/-!
# Timestamps

A moment as the number of seconds since the start of 1970, and its calendar date in universal time. There are
no moments before 1970.

The years of the calendar repeat after four hundred years. Inside such an era years are counted from the
first of March, so that a leap day is the last day of its year. The calendar ends with the year 262142, and a
later moment is told as the start of 1970.

## Main definitions

* `Timestamp`: A moment.
* `Timestamp.date`: Year, month and day.
* `Timestamp.orStart`: A moment that the calendar has.
* `Timestamp.render`: A moment written as date and time.
-/

namespace ThreeWay

/-- A moment: the seconds since the start of 1970 in universal time. -/
structure Timestamp where
  seconds : Nat
deriving DecidableEq, Inhabited

namespace Timestamp

/-- The days of four hundred years. -/
def daysOfEra : Nat := 146097

/-- The days from the first of March of year zero to the start of 1970. -/
def daysBefore1970 : Nat := 719468

/-- Year, month and day. -/
def date (t : Timestamp) : Nat × Nat × Nat :=
  -- The years start in March, so a leap day is the last day of its year.
  let days := t.seconds / 86400 + daysBefore1970
  let day := days % daysOfEra
  -- Leap days are taken off: one in four years, none in a hundred, one in four hundred.
  let year := (day - day / 1460 + day / 36524 - day / 146096) / 365
  let day := day - (365 * year + year / 4 - year / 100)
  let month := (5 * day + 2) / 153
  let year := year + days / daysOfEra * 400
  let dayOfMonth := day - (153 * month + 2) / 5 + 1
  if month < 10 then (year, month + 3, dayOfMonth) else (year + 1, month - 9, dayOfMonth)

/-- The last year of the calendar. -/
def lastYear : Nat := 262142

/-- A moment, or the start of 1970 in the place of one that the calendar does not reach. -/
def orStart (t : Timestamp) : Timestamp :=
  if t.date.1 ≤ lastYear then t else ⟨0⟩

/-- A number with zeros in front of it, at least `width` digits long. -/
def padded (width n : Nat) : String :=
  let digits := Nat.toDigits 10 n
  String.ofList (List.replicate (width - digits.length) '0' ++ digits)

/-- A moment written as date and time, with a letter for universal time at the end. A year of more than four digits
    has a sign. -/
def render (t : Timestamp) : String :=
  let (year, month, day) := t.date
  let sign := if year ≤ 9999 then "" else "+"
  let second := t.seconds % 86400
  let time := [second / 3600, second / 60 % 60, second % 60].map (padded 2)
  sign ++ "-".intercalate [padded 4 year, padded 2 month, padded 2 day] ++ "T" ++ ":".intercalate time ++ "Z"

end Timestamp

end ThreeWay
