import RecordStore.Time.Timestamp

/-!
# Date formats

A date format is a text in which a percent sign and a letter stand for a part of a timestamp, as it
is shown at the timestamp's own offset. Numbers are padded with zeros or blanks to a width of their
own; `%-`, `%0` and `%_` choose no padding, zeros or blanks for a single number.

* `Format.read` cuts a format into pieces; a format with a directive that is unknown, unfinished or
  cannot be written has none.
* `Format.apply` writes the pieces for a timestamp.
-/

namespace RecordStore.Time

open Text

/-- The parts of a timestamp that are numbers. -/
inductive NumberField where
  | year
  | century
  | yearOfCentury
  | weekYear
  | weekYearOfCentury
  | quarter
  | month
  | day
  | sundayWeek
  | mondayWeek
  | weekOfYear
  | daysFromSunday
  | weekdayFromMonday
  | ordinal
  | hour
  | hourOfHalfDay
  | minute
  | second
  | nanos
  | epochSeconds

/-- The parts of a timestamp that are not padded. -/
inductive TextField where
  | shortWeekday
  | longWeekday
  | shortMonth
  | longMonth
  | lowerHalfOfDay
  | upperHalfOfDay
  | decimals
  | fixedDecimals (count : Nat) (point : Bool)
  | offset
  | offsetWithColon
  | offsetWithSeconds
  | offsetHours
  | standard

inductive Padding where
  | none
  | zero
  | space

/-- A piece of a date format. -/
inductive FormatPiece where
  | char (c : Char)
  | number (field : NumberField) (padding : Padding)
  | text (field : TextField)

namespace FormatPiece

open Padding

/-- The time of day to the second. -/
def timeOfDay : List FormatPiece :=
  [.number .hour zero, .char ':', .number .minute zero, .char ':', .number .second zero]

/-- The date as month, day and year of the century. -/
def shortDate : List FormatPiece :=
  [.number .month zero, .char '/', .number .day zero, .char '/', .number .yearOfCentury zero]

/-- The pieces that a single letter stands for. -/
def directive? : Char → Option (List FormatPiece)
  | 'A' => some [.text .longWeekday]
  | 'B' => some [.text .longMonth]
  | 'C' => some [.number .century zero]
  | 'D' => some shortDate
  | 'F' => some [.number .year zero, .char '-', .number .month zero, .char '-', .number .day zero]
  | 'G' => some [.number .weekYear zero]
  | 'H' => some [.number .hour zero]
  | 'I' => some [.number .hourOfHalfDay zero]
  | 'M' => some [.number .minute zero]
  | 'P' => some [.text .lowerHalfOfDay]
  | 'R' => some [.number .hour zero, .char ':', .number .minute zero]
  | 'S' => some [.number .second zero]
  | 'T' => some timeOfDay
  | 'U' => some [.number .sundayWeek zero]
  | 'V' => some [.number .weekOfYear zero]
  | 'W' => some [.number .mondayWeek zero]
  | 'X' => some timeOfDay
  | 'Y' => some [.number .year zero]
  | 'Z' => some [.text .offsetWithColon]
  | 'a' => some [.text .shortWeekday]
  | 'b' => some [.text .shortMonth]
  | 'c' => some ([.text .shortWeekday, .char ' ', .text .shortMonth, .char ' ', .number .day space,
      .char ' '] ++ timeOfDay ++ [.char ' ', .number .year zero])
  | 'd' => some [.number .day zero]
  | 'e' => some [.number .day space]
  | 'f' => some [.number .nanos zero]
  | 'g' => some [.number .weekYearOfCentury zero]
  | 'h' => some [.text .shortMonth]
  | 'j' => some [.number .ordinal zero]
  | 'k' => some [.number .hour space]
  | 'l' => some [.number .hourOfHalfDay space]
  | 'm' => some [.number .month zero]
  | 'n' => some [.char '\n']
  | 'p' => some [.text .upperHalfOfDay]
  | 'q' => some [.number .quarter none]
  | 'r' => some [.number .hourOfHalfDay zero, .char ':', .number .minute zero, .char ':',
      .number .second zero, .char ' ', .text .upperHalfOfDay]
  | 's' => some [.number .epochSeconds none]
  | 't' => some [.char '\t']
  | 'u' => some [.number .weekdayFromMonday none]
  | 'v' => some [.number .day space, .char '-', .text .shortMonth, .char '-', .number .year zero]
  | 'w' => some [.number .daysFromSunday none]
  | 'x' => some shortDate
  | 'y' => some [.number .yearOfCentury zero]
  | 'z' => some [.text .offset]
  | '+' => some [.text .standard]
  | '%' => some [.char '%']
  | _ => Option.none

/-- The single number that a letter stands for, with another padding. -/
def padded? (padding : Padding) (letter : Char) : Option (List FormatPiece) :=
  match directive? letter with
  | some [.number field _] => some [.number field padding]
  | _ => Option.none

/-- The pieces of a format. -/
def read : List Char → Option (List FormatPiece)
  | [] => some []
  | '%' :: '-' :: c :: rest => (padded? none c).bind fun ps => (read rest).map (ps ++ ·)
  | '%' :: '0' :: c :: rest => (padded? zero c).bind fun ps => (read rest).map (ps ++ ·)
  | '%' :: '_' :: c :: rest => (padded? space c).bind fun ps => (read rest).map (ps ++ ·)
  | '%' :: ':' :: 'z' :: rest => (read rest).map (.text .offsetWithColon :: ·)
  | '%' :: ':' :: ':' :: 'z' :: rest => (read rest).map (.text .offsetWithSeconds :: ·)
  | '%' :: ':' :: ':' :: ':' :: 'z' :: rest => (read rest).map (.text .offsetHours :: ·)
  | '%' :: '.' :: 'f' :: rest => (read rest).map (.text .decimals :: ·)
  | '%' :: '.' :: '3' :: 'f' :: rest => (read rest).map (.text (.fixedDecimals 3 true) :: ·)
  | '%' :: '.' :: '6' :: 'f' :: rest => (read rest).map (.text (.fixedDecimals 6 true) :: ·)
  | '%' :: '.' :: '9' :: 'f' :: rest => (read rest).map (.text (.fixedDecimals 9 true) :: ·)
  | '%' :: '3' :: 'f' :: rest => (read rest).map (.text (.fixedDecimals 3 false) :: ·)
  | '%' :: '6' :: 'f' :: rest => (read rest).map (.text (.fixedDecimals 6 false) :: ·)
  | '%' :: '9' :: 'f' :: rest => (read rest).map (.text (.fixedDecimals 9 false) :: ·)
  | '%' :: c :: rest => (directive? c).bind fun ps => (read rest).map (ps ++ ·)
  | ['%'] => Option.none
  | c :: rest => (read rest).map (.char c :: ·)

end FormatPiece

namespace NumberField

/-- The number of digits to which a number is padded. -/
def width : NumberField → Nat
  | .year | .weekYear => 4
  | .ordinal => 3
  | .nanos | .epochSeconds => 9
  | .quarter | .daysFromSunday | .weekdayFromMonday => 1
  | _ => 2

/-- Years outside those of four digits are written with their sign. -/
def isSigned (field : NumberField) (n : Int) : Bool :=
  match field with
  | .year | .weekYear => n < 0 || 9999 < n
  | _ => false

/-- The number of a timestamp. -/
def value (t : Timestamp) : NumberField → Int
  | .year => t.date.year
  | .century => t.date.year / 100
  | .yearOfCentury => t.date.year % 100
  | .weekYear => t.date.weekYear
  | .weekYearOfCentury => t.date.weekYear % 100
  | .quarter => (t.date.month - 1) / 3 + 1
  | .month => t.date.month
  | .day => t.date.day
  | .sundayWeek => t.date.sundaysSoFar
  | .mondayWeek => t.date.mondaysSoFar
  | .weekOfYear => t.date.weekOfYear
  | .daysFromSunday => t.date.daysFromSunday
  | .weekdayFromMonday => t.date.daysFromMonday + 1
  | .ordinal => t.date.ordinal
  | .hour => t.hour
  | .hourOfHalfDay => if t.hour % 12 = 0 then 12 else t.hour % 12
  | .minute => t.minute
  | .second => t.writtenSecond
  | .nanos => t.writtenNanos
  | .epochSeconds => t.instant.seconds

/-- A number with its sign, if it is written with one, and padded to a width that the sign of an
unsigned field is part of. -/
def write (field : NumberField) (padding : Padding) (n : Int) : List Char :=
  let signed := field.isSigned n
  let sign := if n < 0 then ['-'] else if signed then ['+'] else []
  let digits := digitsOf n.natAbs
  let width := if signed then field.width + 1 else field.width
  let missing := width - (sign.length + digits.length)
  match padding with
  | .none => sign ++ digits
  | .zero => sign ++ List.replicate missing '0' ++ digits
  | .space => List.replicate missing ' ' ++ sign ++ digits

end NumberField

namespace TextField

def weekdayNames : List String :=
  ["Sunday", "Monday", "Tuesday", "Wednesday", "Thursday", "Friday", "Saturday"]

def monthNames : List String :=
  ["January", "February", "March", "April", "May", "June", "July", "August", "September",
    "October", "November", "December"]

def weekdayName (d : Date) : List Char := (weekdayNames.getD d.daysFromSunday "").toList

def monthName (d : Date) : List Char := (monthNames.getD (d.month - 1) "").toList

/-- The text of a timestamp's part. -/
def write (t : Timestamp) : TextField → List Char
  | .shortWeekday => (weekdayName t.date).take 3
  | .longWeekday => weekdayName t.date
  | .shortMonth => (monthName t.date).take 3
  | .longMonth => monthName t.date
  | .lowerHalfOfDay => if t.hour < 12 then ['a', 'm'] else ['p', 'm']
  | .upperHalfOfDay => if t.hour < 12 then ['A', 'M'] else ['P', 'M']
  | .decimals => Timestamp.decimalsText t.writtenNanos
  | .fixedDecimals count point =>
    (if point then ['.'] else []) ++ (padded 9 t.writtenNanos).take count
  | .offset => Timestamp.offsetText [] t.offset
  | .offsetWithColon => Timestamp.offsetText [':'] t.offset
  | .offsetWithSeconds =>
    Timestamp.offsetText [':'] t.offset ++ ':' :: padded 2 (t.offset.natAbs % 60)
  | .offsetHours => (if t.offset < 0 then '-' else '+') :: padded 2 (t.offset.natAbs / 3600)
  | .standard => t.textChars

end TextField

/-- The text of one piece. -/
def FormatPiece.write (t : Timestamp) : FormatPiece → List Char
  | .char c => [c]
  | .number field padding => field.write padding (field.value t)
  | .text field => field.write t

/-- A timestamp in a date format, unless the format cannot be read. -/
def formatted? (format : String) (t : Timestamp) : Option String :=
  (FormatPiece.read format.toList).map fun pieces => String.ofList (pieces.flatMap (·.write t))

end RecordStore.Time
