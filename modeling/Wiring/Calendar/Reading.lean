import Wiring.Calendar.DateTime
import Wiring.Text.Blank

/-!
# Reading dates and date-times

A pattern is a list of items read one after the other. A number may have
blanks in front of it and stops at its greatest width or at the first
character that is no digit; only a year may carry a sign, and then has any
width. A gap is any run of blanks, also none. Month, day and time of day are
checked when they are read; whether the day exists is checked last, after
anything left over.

A date-time is read with an offset from UTC, which is taken away, or by one of
four patterns, or as a date at midnight.
-/

namespace Wiring.Calendar

open Wiring.Number Wiring.Text

/-- Why a text does not fit a pattern. -/
inductive ReadFault
  | tooShort
  | invalid
  | outOfRange
  | tooLong
deriving DecidableEq, Repr

def ReadFault.message : ReadFault → String
  | .tooShort => "premature end of input"
  | .invalid => "input contains invalid characters"
  | .outOfRange => "input is out of range"
  | .tooLong => "trailing input"

/-- The first at most `width` characters that are digits, and the rest. -/
def spanDigits : Nat → List Char → List Char × List Char
  | 0, s => ([], s)
  | _, [] => ([], [])
  | width + 1, c :: rest =>
    if isDigit c then
      let (ds, rest) := spanDigits width rest
      (c :: ds, rest)
    else ([], c :: rest)

/-- Reads at least one digit and at most `width`. -/
def readNumber (width : Nat) (s : List Char) : Except ReadFault (Nat × List Char) :=
  match s with
  | [] => .error .tooShort
  | c :: _ =>
    if isDigit c then
      let (ds, rest) := spanDigits width s
      .ok (digitsValue 0 ds, rest)
    else .error .invalid

/-- The parts read so far; what no item mentions keeps its start. -/
structure Fields where
  year : Int
  month : Nat
  day : Nat
  hour : Nat
  minute : Nat
  second : Nat
  nano : Nat
deriving DecidableEq, Repr

def Fields.start : Fields := ⟨0, 1, 1, 0, 0, 0, 0⟩

/-- One item of a pattern. -/
inductive Item
  | year
  | month
  | day
  | hour
  | minute
  | second
  | fraction
  | literal (c : Char)
  | gap
deriving DecidableEq, Repr

/-- Years are read in the signed 32-bit range. -/
def readYear (s : List Char) : Except ReadFault (Int × List Char) := do
  let (year, rest) ← match s with
    | '-' :: more => (readNumber more.length more).map fun (n, rest) => (-(n : Int), rest)
    | '+' :: more => (readNumber more.length more).map fun (n, rest) => ((n : Int), rest)
    | more => (readNumber 4 more).map fun (n, rest) => ((n : Int), rest)
  if -2147483648 ≤ year && year ≤ 2147483647 then .ok (year, rest) else .error .outOfRange

/-- Reads a number of at most two digits between two bounds. -/
def readBetween (low high : Nat) (s : List Char) : Except ReadFault (Nat × List Char) := do
  let (n, rest) ← readNumber 2 (trimStart s)
  if low ≤ n && n ≤ high then .ok (n, rest) else .error .outOfRange

/-- Reads the digits behind a point as nanoseconds; digits past the ninth are dropped. -/
def readFraction (s : List Char) : Except ReadFault (Nat × List Char) :=
  match s with
  | [] => .error .tooShort
  | c :: _ =>
    if isDigit c then
      let ds := (spanDigits 9 s).1
      .ok (digitsValue 0 ds * Nat.pow 10 (9 - ds.length), s.dropWhile isDigit)
    else .error .invalid

def readItem (fields : Fields) (s : List Char) : Item → Except ReadFault (Fields × List Char)
  | .year => (readYear (trimStart s)).map fun (n, rest) => ({ fields with year := n }, rest)
  | .month => (readBetween 1 12 s).map fun (n, rest) => ({ fields with month := n }, rest)
  | .day => (readBetween 1 31 s).map fun (n, rest) => ({ fields with day := n }, rest)
  | .hour => (readBetween 0 23 s).map fun (n, rest) => ({ fields with hour := n }, rest)
  | .minute => (readBetween 0 59 s).map fun (n, rest) => ({ fields with minute := n }, rest)
  | .second => (readBetween 0 60 s).map fun (n, rest) => ({ fields with second := n }, rest)
  | .fraction =>
    match s with
    | '.' :: more => (readFraction more).map fun (n, rest) => ({ fields with nano := n }, rest)
    | more => .ok (fields, more)
  | .literal c =>
    match s with
    | [] => .error .tooShort
    | a :: rest => if a = c then .ok (fields, rest) else .error .invalid
  | .gap => .ok (fields, trimStart s)

def readItems (fields : Fields) (s : List Char) : List Item → Except ReadFault (Fields × List Char)
  | [] => .ok (fields, s)
  | item :: items => do
    let (fields, rest) ← readItem fields s item
    readItems fields rest items

/-- Reads a whole text by a pattern. -/
def readPattern (pattern : List Item) (s : List Char) : Except ReadFault Fields := do
  let (fields, rest) ← readItems Fields.start s pattern
  if rest.isEmpty then .ok fields else .error .tooLong

def Fields.date? (f : Fields) : Option Date :=
  Date.of? f.year f.month f.day

/-- Second 60 is the leap second after 59. -/
def Fields.dateTime? (f : Fields) : Option DateTime := do
  let date ← f.date?
  let time ←
    if f.second == 60 then Time.of? f.hour f.minute 59 (nanosPerSecond + f.nano)
    else Time.of? f.hour f.minute f.second f.nano
  return ⟨date, time⟩

def datePattern : List Item :=
  [.year, .literal '-', .month, .literal '-', .day]

/-- Between date and time stands the letter T or a gap; seconds may be left out. -/
def dateTimePatterns : List (List Item) :=
  let minutes := [.hour, .literal ':', .minute]
  let seconds := minutes ++ [.literal ':', .second, .fraction]
  [datePattern ++ .literal 'T' :: seconds, datePattern ++ .gap :: seconds,
    datePattern ++ .literal 'T' :: minutes, datePattern ++ .gap :: minutes]

def readDate (s : List Char) : Except ReadFault Date := do
  let fields ← readPattern datePattern s
  match fields.date? with
  | some date => .ok date
  | none => .error .outOfRange

def readDateTimeBy (pattern : List Item) (s : List Char) : Option DateTime :=
  (readPattern pattern s).toOption.bind Fields.dateTime?

/-- Reads exactly so many digits. -/
def readExactly (width : Nat) (s : List Char) : Option (Nat × List Char) :=
  let (ds, rest) := spanDigits width s
  if ds.length = width then some (digitsValue 0 ds, rest) else none

def readChar (c : Char) (s : List Char) : Option (List Char) :=
  match s with
  | [] => none
  | a :: rest => if a = c then some rest else none

/-- Reads an offset from UTC in minutes, as the letter Z or a sign, hours and
minutes. -/
def readOffset (s : List Char) : Option (Int × List Char) :=
  match s with
  | [] => none
  | c :: rest =>
    if c = 'Z' || c = 'z' then some (0, rest)
    else if c = '+' || c = '-' || c = '−' then do
      let (hours, rest) ← readExactly 2 rest
      let rest ← readChar ':' rest
      let (minutes, rest) ← readExactly 2 rest
      let total : Int := hours * 60 + minutes
      if hours ≤ 23 && minutes ≤ 59 then
        some (if c = '+' then total else -total, rest)
      else none
    else none

/-- Reads a number of exactly two digits between two bounds. -/
def readTwo (low high : Nat) (s : List Char) : Option (Nat × List Char) := do
  let (n, rest) ← readExactly 2 s
  if low ≤ n && n ≤ high then some (n, rest) else none

/-- Reads a date-time with an offset, in fields of fixed width, as the
date-time of UTC. -/
def readZoned (s : List Char) : Option DateTime := do
  let (year, s) ← readExactly 4 s
  let s ← readChar '-' s
  let (month, s) ← readTwo 1 12 s
  let s ← readChar '-' s
  let (day, s) ← readTwo 1 31 s
  let s ← match s with
    | c :: rest => if c = 'T' || c = 't' || c = ' ' then some rest else none
    | [] => none
  let (hour, s) ← readTwo 0 23 s
  let s ← readChar ':' s
  let (minute, s) ← readTwo 0 59 s
  let s ← readChar ':' s
  let (second, s) ← readTwo 0 60 s
  let (nano, s) ← match s with
    | '.' :: rest => (readFraction rest).toOption
    | rest => some (0, rest)
  let (offset, s) ← readOffset s
  if s.isEmpty then do
    let moment ← Fields.dateTime? ⟨year, month, day, hour, minute, second, nano⟩
    moment.earlierBy? offset
  else none

def readMidnight (s : List Char) : Option DateTime :=
  (readDate s).toOption.bind fun d => d.at? 0 0 0

/-- The ways in which a date-time may be written, in the order in which they
are tried. -/
def dateTimeReadings : List (List Char → Option DateTime) :=
  readZoned :: dateTimePatterns.map readDateTimeBy ++ [readMidnight]

def readDateTime (s : List Char) : Option DateTime :=
  dateTimeReadings.findSome? fun read => read s

end Wiring.Calendar
