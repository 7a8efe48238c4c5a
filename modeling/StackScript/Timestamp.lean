import StackScript.Decimal.Fixed
/-!
# Points in time

A timestamp counts seconds since the start of 1970 in UTC.  Its nanoseconds run past one second
during a leap second.  The text is a date and a time of day with three places of a second.
-/

namespace StackScript

/-- A point in time. -/
structure Timestamp where
  seconds : Int
  nanoseconds : Nat
deriving Repr, DecidableEq

namespace Timestamp

/-- The number of nanoseconds since the start of 1970. -/
def toNanoseconds (t : Timestamp) : Int :=
  t.seconds * 1000000000 + t.nanoseconds

def advance (t : Timestamp) (nanoseconds : Nat) : Timestamp :=
  let total := t.nanoseconds + nanoseconds
  { seconds := t.seconds + (total / 1000000000 : Nat), nanoseconds := total % 1000000000 }

def latest (t u : Timestamp) : Timestamp :=
  if t.toNanoseconds < u.toNanoseconds then u else t

/-- A day of the calendar. -/
structure Date where
  year : Int
  month : Nat
  day : Nat
deriving Repr, DecidableEq

/-- The date of a number of days since the start of 1970.  Years are counted from March, so that
the leap day is the last day of a year, and in eras of 400 years. -/
def Date.ofDays (days : Int) : Date :=
  let shifted := days + 719468
  let era := shifted / 146097
  let dayOfEra := (shifted % 146097).toNat
  let yearOfEra := (dayOfEra - dayOfEra / 1460 + dayOfEra / 36524 - dayOfEra / 146096) / 365
  let dayOfYear := dayOfEra - (365 * yearOfEra + yearOfEra / 4 - yearOfEra / 100)
  let monthFromMarch := (5 * dayOfYear + 2) / 153
  let month := if monthFromMarch < 10 then monthFromMarch + 3 else monthFromMarch - 9
  { year := era * 400 + yearOfEra + (if month ≤ 2 then 1 else 0)
    month := month
    day := dayOfYear - (153 * monthFromMarch + 2) / 5 + 1 }

/-- A year in four digits; outside of 0 to 9999 with a sign and as many digits as it needs. -/
def yearText (year : Int) : List Char :=
  let digits := Decimal.padded 4 year.natAbs
  if year < 0 then '-' :: digits
  else if 9999 < year then '+' :: digits
  else digits

/-- The text of a point in time, cut off after the milliseconds. -/
def text (t : Timestamp) : String :=
  let date := Date.ofDays (t.seconds / 86400)
  let secondOfDay := (t.seconds % 86400).toNat
  let isLeap := 1000000000 ≤ t.nanoseconds
  let second := secondOfDay % 60 + (if isLeap then 1 else 0)
  let milliseconds := t.nanoseconds % 1000000000 / 1000000
  let two := Decimal.padded 2
  String.ofList
    (yearText date.year ++ '-' :: two date.month ++ '-' :: two date.day ++
      'T' :: two (secondOfDay / 3600) ++ ':' :: two (secondOfDay / 60 % 60) ++ ':' :: two second ++
      '.' :: Decimal.padded 3 milliseconds ++ ['Z'])

end Timestamp

end StackScript
