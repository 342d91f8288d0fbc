/-!
# The calendar

Dates of the Gregorian calendar, extended to all years, and their number counted in days from
1970-01-01. Years are cut into eras of 400 years, which all have the same number of days, and begin
in March, so that the leap day is the last day of its year.
-/

namespace RecordStore.Time

def isLeapYear (year : Int) : Bool := year % 4 == 0 && (year % 100 != 0 || year % 400 == 0)

def daysInMonth (year : Int) (month : Nat) : Nat :=
  if month = 2 then (if isLeapYear year then 29 else 28)
  else if month = 4 ∨ month = 6 ∨ month = 9 ∨ month = 11 then 30
  else 31

/-- A day of the calendar; months and days count from one. -/
structure Date where
  year : Int
  month : Nat
  day : Nat
deriving DecidableEq

namespace Date

/-- Whether the date is a day of the calendar. -/
def isValid (d : Date) : Bool :=
  1 ≤ d.month && d.month ≤ 12 && 1 ≤ d.day && d.day ≤ daysInMonth d.year d.month

/-- The days of an era of 400 years. -/
def daysPerEra : Int := 146097

/-- The days from the beginning of an era to 1970-01-01, a date in an era that began earlier. -/
def daysToEpoch : Int := 719468

/-- The number of a date in days from 1970-01-01. -/
def dayNumber (d : Date) : Int :=
  let year := if d.month ≤ 2 then d.year - 1 else d.year
  let era := year / 400
  let yearOfEra := year % 400
  let month : Int := (d.month + 9) % 12
  let dayOfYear := (153 * month + 2) / 5 + d.day - 1
  let dayOfEra := yearOfEra * 365 + yearOfEra / 4 - yearOfEra / 100 + dayOfYear
  era * daysPerEra + dayOfEra - daysToEpoch

/-- The date with the given number. -/
def ofDayNumber (n : Int) : Date :=
  let shifted := n + daysToEpoch
  let era := shifted / daysPerEra
  let dayOfEra := shifted % daysPerEra
  let yearOfEra :=
    (dayOfEra - dayOfEra / 1460 + dayOfEra / 36524 - dayOfEra / 146096) / 365
  let dayOfYear := dayOfEra - (365 * yearOfEra + yearOfEra / 4 - yearOfEra / 100)
  let monthFromMarch := (5 * dayOfYear + 2) / 153
  let day := dayOfYear - (153 * monthFromMarch + 2) / 5 + 1
  let month := if monthFromMarch < 10 then monthFromMarch + 3 else monthFromMarch - 9
  let year := era * 400 + yearOfEra
  ⟨if month ≤ 2 then year + 1 else year, month.toNat, day.toNat⟩

/-- The day of the year, counted from one. -/
def ordinal (d : Date) : Nat := (d.dayNumber - dayNumber ⟨d.year, 1, 1⟩).toNat + 1

/-- The day of the week, counted from zero for Sunday. -/
def daysFromSunday (d : Date) : Nat := ((d.dayNumber + 4) % 7).toNat

/-- The day of the week, counted from zero for Monday. -/
def daysFromMonday (d : Date) : Nat := ((d.dayNumber + 3) % 7).toNat

/-- The Thursday of the date's week. Weeks begin on Monday and belong to the year of their
Thursday. -/
def thursdayOfWeek (d : Date) : Date := ofDayNumber (d.dayNumber - d.daysFromMonday + 3)

def weekYear (d : Date) : Int := d.thursdayOfWeek.year

def weekOfYear (d : Date) : Nat := (d.thursdayOfWeek.ordinal - 1) / 7 + 1

/-- The number of Sundays in the year up to the date. -/
def sundaysSoFar (d : Date) : Nat := (d.ordinal + 6 - d.daysFromSunday) / 7

/-- The number of Mondays in the year up to the date. -/
def mondaysSoFar (d : Date) : Nat := (d.ordinal + 6 - d.daysFromMonday) / 7

end Date

end RecordStore.Time
