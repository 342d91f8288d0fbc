import RecordStore.Text.Integer
import RecordStore.Time.Calendar

/-!
# Points in time

A `Timestamp` is a date and a time of day with the offset of its place from UTC; an `Instant` is the
point in time, whatever the place. Timestamps are compared by their instants.

The 61st second of a minute is written `:60`. It is kept as the second before it with a thousand
million nanoseconds more, so it comes after that second and before the next.

Timestamps are read in the notation of RFC 3339: four-digit years, a `T`, `t` or blank before the
time, seconds with any number of decimals, of which nine count, and `Z`, `z` or an offset of hours
and minutes. Instants are written in UTC with no decimals, or with three, six or nine as they need.
-/

namespace RecordStore.Time

open Text

def nanosPerSecond : Nat := 1000000000

def secondsPerDay : Int := 86400

/-- A point in time. -/
structure Instant where
  /-- seconds from 1970-01-01T00:00:00 UTC -/
  seconds : Int
  nanos : Nat
deriving DecidableEq

/-- Earlier instants are less. -/
instance : Ord Instant where
  compare a b := (compare a.seconds b.seconds).then (compare a.nanos b.nanos)

/-- A date and a time of day, with the offset of the place from UTC in seconds to the east. -/
structure Timestamp where
  date : Date
  hour : Nat
  minute : Nat
  second : Nat
  nanos : Nat
  offset : Int
deriving DecidableEq

namespace Timestamp

/-- The point in time of a timestamp. -/
def instant (t : Timestamp) : Instant :=
  ⟨t.date.dayNumber * secondsPerDay + (t.hour * 3600 + t.minute * 60 + t.second : Nat) - t.offset,
    t.nanos⟩

/-- The second as it is written, and the nanoseconds after it. -/
def writtenSecond (t : Timestamp) : Nat := t.second + t.nanos / nanosPerSecond

def writtenNanos (t : Timestamp) : Nat := t.nanos % nanosPerSecond

/-! ## Reading -/

/-- Exactly the given number of digits. -/
def digits? (count : Nat) (cs : List Char) : Option (Nat × List Char) :=
  let ds := cs.take count
  if ds.length = count ∧ ds.all isDigit = true then some (digitsValue ds, cs.drop count) else none

/-- One of the given characters. -/
def oneOf? (expected : List Char) : List Char → Option (List Char)
  | [] => none
  | c :: rest => if expected.contains c then some rest else none

/-- The decimals of the seconds, if there are any, as nanoseconds. -/
def decimals? : List Char → Option (Nat × List Char)
  | '.' :: rest =>
    let ds := rest.takeWhile isDigit
    let counted := ds.take 9
    if ds.isEmpty then none
    else some (digitsValue counted * Nat.pow 10 (9 - counted.length), rest.dropWhile isDigit)
  | rest => some (0, rest)

/-- An offset of hours and minutes after its sign, which may also be written as a minus of the
mathematical operators. -/
def offset? : List Char → Option (Int × List Char)
  | 'Z' :: rest => some (0, rest)
  | 'z' :: rest => some (0, rest)
  | sign :: rest => do
    let negative ← if sign == '+' then some false
      else if sign == '-' || sign == '\u2212' then some true
      else none
    let (hours, rest) ← digits? 2 rest
    let rest ← oneOf? [':'] rest
    let (minutes, rest) ← digits? 2 rest
    if 23 < hours ∨ 59 < minutes then none
    else
      let seconds : Int := (hours * 3600 + minutes * 60 : Nat)
      return (if negative then -seconds else seconds, rest)
  | [] => none

/-- The timestamp that the characters write. -/
def read (cs : List Char) : Option Timestamp := do
  let (year, cs) ← digits? 4 cs
  let cs ← oneOf? ['-'] cs
  let (month, cs) ← digits? 2 cs
  let cs ← oneOf? ['-'] cs
  let (day, cs) ← digits? 2 cs
  let cs ← oneOf? ['T', 't', ' '] cs
  let (hour, cs) ← digits? 2 cs
  let cs ← oneOf? [':'] cs
  let (minute, cs) ← digits? 2 cs
  let cs ← oneOf? [':'] cs
  let (second, cs) ← digits? 2 cs
  let (nanos, cs) ← decimals? cs
  let (offset, cs) ← offset? cs
  let date : Date := ⟨year, month, day⟩
  if !cs.isEmpty || !date.isValid || 23 < hour || 59 < minute || 60 < second then none
  else if second = 60 then return ⟨date, hour, minute, 59, nanos + nanosPerSecond, offset⟩
  else return ⟨date, hour, minute, second, nanos, offset⟩

/-- The timestamp that a text writes. -/
def ofText? (s : String) : Option Timestamp := read s.toList

/-! ## Writing -/

/-- Four digits, and outside the years that have four a sign and at least four digits. -/
def yearText (year : Int) : List Char :=
  if 0 ≤ year ∧ year ≤ 9999 then padded 4 year.natAbs
  else (if year < 0 then '-' else '+') :: padded 4 year.natAbs

/-- No decimals, or three, six or nine, as the nanoseconds need. -/
def decimalsText (nanos : Nat) : List Char :=
  if nanos = 0 then []
  else if nanos % 1000000 = 0 then '.' :: padded 3 (nanos / 1000000)
  else if nanos % 1000 = 0 then '.' :: padded 6 (nanos / 1000)
  else '.' :: padded 9 nanos

/-- The sign of an offset, its hours, and its minutes after the given separator. -/
def offsetText (separator : List Char) (offset : Int) : List Char :=
  let minutes := offset.natAbs / 60
  (if offset < 0 then '-' else '+')
    :: (padded 2 (minutes / 60) ++ separator ++ padded 2 (minutes % 60))

/-- The timestamp in the notation in which it is read. -/
def textChars (t : Timestamp) : List Char :=
  yearText t.date.year ++ '-' :: padded 2 t.date.month ++ '-' :: padded 2 t.date.day
    ++ 'T' :: padded 2 t.hour ++ ':' :: padded 2 t.minute ++ ':' :: padded 2 t.writtenSecond
    ++ decimalsText t.writtenNanos ++ offsetText [':'] t.offset

def text (t : Timestamp) : String := String.ofList t.textChars

end Timestamp

namespace Instant

/-- The instant as a timestamp at the offset zero. -/
def toUtc (i : Instant) : Timestamp :=
  let secondOfDay := (i.seconds % secondsPerDay).toNat
  ⟨Date.ofDayNumber (i.seconds / secondsPerDay), secondOfDay / 3600, secondOfDay / 60 % 60,
    secondOfDay % 60, i.nanos, 0⟩

def text (i : Instant) : String := i.toUtc.text

end Instant

end RecordStore.Time
