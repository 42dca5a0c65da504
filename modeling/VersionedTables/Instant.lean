/-!
# Instants

A point of time in universal time, exact to the nanosecond, and the calendar that names the days.
A leap second has no second number of its own: it is the second before it with a thousand million
nanoseconds or more.
-/

namespace VersionedTables

/-- A point of time. -/
structure Instant where
  /-- Whole seconds since the start of 1970. -/
  seconds : Int
  /-- Nanoseconds since then; more than a second's worth within a leap second. -/
  nanos : Nat
  deriving DecidableEq, Repr

/-- Instants are ordered by time. -/
instance : Ord Instant where
  compare a b := (compare a.seconds b.seconds).then (compare a.nanos b.nanos)

/-- A day of the calendar. -/
structure Date where
  /-- The year; the year before the first is zero. -/
  year : Int
  /-- The month, from 1 to 12. -/
  month : Nat
  /-- The day of the month, from 1. -/
  day : Nat
  deriving DecidableEq, Repr

namespace Date

/-- Every fourth year is a leap year, every hundredth is not, every four-hundredth is. -/
def isLeapYear (year : Int) : Bool :=
  year % 4 == 0 && (year % 100 != 0 || year % 400 == 0)

/-- The number of days of a month. -/
def monthLength (year : Int) (month : Nat) : Nat :=
  if month == 2 then (if isLeapYear year then 29 else 28)
  else if month == 4 || month == 6 || month == 9 || month == 11 then 30
  else 31

/-- The years that dates are kept for. -/
def inRange (year : Int) : Bool :=
  -262143 ≤ year && year ≤ 262142

/-- Whether there is such a day. -/
def isValid (d : Date) : Bool :=
  inRange d.year && 1 ≤ d.month && d.month ≤ 12 && 1 ≤ d.day && d.day ≤ monthLength d.year d.month

/-- The days from the start of 1970 to a day. Years are counted from March, so that the leap day
is the last of its year, and the months then follow a rhythm of 153 days in five months. -/
def dayNumber (d : Date) : Int :=
  let year := if d.month ≤ 2 then d.year - 1 else d.year
  let month := (d.month + 9) % 12
  let era := year.fdiv 400
  let yearOfEra := year - era * 400
  let dayOfYear : Int := (153 * month + 2) / 5 + d.day - 1
  era * 146097 + yearOfEra * 365 + yearOfEra.fdiv 4 - yearOfEra.fdiv 100 + dayOfYear - 719468

/-- The day that lies so many days after the start of 1970. -/
def ofDayNumber (number : Int) : Date :=
  let shifted := number + 719468
  let era := shifted.fdiv 146097
  let dayOfEra := shifted - era * 146097
  let yearOfEra :=
    (dayOfEra - dayOfEra.fdiv 1460 + dayOfEra.fdiv 36524 - dayOfEra.fdiv 146096).fdiv 365
  let dayOfYear :=
    dayOfEra - (365 * yearOfEra + yearOfEra.fdiv 4 - yearOfEra.fdiv 100)
  let month := (5 * dayOfYear + 2).fdiv 153
  let day := dayOfYear - (153 * month + 2).fdiv 5 + 1
  let month := if month < 10 then month + 3 else month - 9
  ⟨yearOfEra + era * 400 + (if month ≤ 2 then 1 else 0), month.toNat, day.toNat⟩

end Date

end VersionedTables
