import Wiring.Calendar.Reading

/-!
# TOML date-times

A stamp is a date, a time, or both, and then perhaps an offset from UTC. The
fraction of a second keeps nine digits and is written without trailing zeros.
-/

namespace Wiring.Toml

open Wiring.Number Wiring.Calendar

structure StampDate where
  year : Nat
  month : Nat
  day : Nat
deriving DecidableEq, Repr

structure StampTime where
  hour : Nat
  minute : Nat
  second : Nat
  nano : Nat
deriving DecidableEq, Repr

inductive Offset
  | zulu
  | minutes (m : Int)
deriving DecidableEq, Repr

inductive Stamp
  | date (d : StampDate)
  | time (t : StampTime)
  | dateTime (d : StampDate) (t : StampTime)
  | zoned (d : StampDate) (t : StampTime) (offset : Offset)
deriving DecidableEq, Repr

def StampDate.text (d : StampDate) : List Char :=
  writePadded 4 d.year ++ ['-'] ++ writePadded 2 d.month ++ ['-'] ++ writePadded 2 d.day

def StampTime.text (t : StampTime) : List Char :=
  writePadded 2 t.hour ++ [':'] ++ writePadded 2 t.minute ++ [':'] ++ writePadded 2 t.second ++
    if t.nano == 0 then []
    else '.' :: ((writePadded 9 t.nano).reverse.dropWhile (· == '0')).reverse

def Offset.text : Offset → List Char
  | .zulu => ['Z']
  | .minutes m =>
    (if m < 0 then '-' else '+') :: writePadded 2 (m.natAbs / 60) ++ [':'] ++
      writePadded 2 (m.natAbs % 60)

def Stamp.text : Stamp → List Char
  | .date d => d.text
  | .time t => t.text
  | .dateTime d t => d.text ++ ['T'] ++ t.text
  | .zoned d t offset => d.text ++ ['T'] ++ t.text ++ offset.text

/-- Reads a date whose day exists. -/
def readStampDate (s : List Char) : Option (StampDate × List Char) := do
  let (year, s) ← readExactly 4 s
  let s ← readChar '-' s
  let (month, s) ← readTwo 1 12 s
  let s ← readChar '-' s
  let (day, s) ← readTwo 1 (daysIn year month) s
  some (⟨year, month, day⟩, s)

/-- Reads a time of day; seconds are required and go up to 60. -/
def readStampTime (s : List Char) : Option (StampTime × List Char) := do
  let (hour, s) ← readTwo 0 23 s
  let s ← readChar ':' s
  let (minute, s) ← readTwo 0 59 s
  let s ← readChar ':' s
  let (second, s) ← readTwo 0 60 s
  match s with
  | '.' :: more =>
    match readFraction more with
    | .ok (nano, s) => some (⟨hour, minute, second, nano⟩, s)
    | .error _ => some (⟨hour, minute, second, 0⟩, s)
  | s => some (⟨hour, minute, second, 0⟩, s)

/-- Reads an offset of less than a day. -/
def readStampOffset (s : List Char) : Option (Offset × List Char) :=
  match s with
  | [] => none
  | c :: rest =>
    if c = 'Z' || c = 'z' then some (.zulu, rest)
    else if c = '+' || c = '-' then do
      let (hours, rest) ← readTwo 0 23 rest
      let rest ← readChar ':' rest
      let (minutes, rest) ← readTwo 0 59 rest
      let total : Int := hours * 60 + minutes
      some (.minutes (if c = '-' then -total else total), rest)
    else none

/-- Reads a stamp from the front of a text. A date stands alone when no time
follows it behind a letter T or a space. -/
def readStamp (s : List Char) : Option (Stamp × List Char) :=
  match readStampDate s with
  | none => (readStampTime s).map fun (t, rest) => (.time t, rest)
  | some (d, rest) =>
    let time? := match rest with
      | c :: more => if c = 'T' || c = 't' || c = ' ' then readStampTime more else none
      | [] => none
    match time? with
    | none => some (.date d, rest)
    | some (t, rest) =>
      match readStampOffset rest with
      | some (offset, rest) => some (.zoned d t offset, rest)
      | none => some (.dateTime d t, rest)

/-- Reads a text that is a stamp as a whole. -/
def Stamp.ofText? (s : List Char) : Option Stamp :=
  match readStamp s with
  | some (stamp, []) => some stamp
  | _ => none

/-- A table with this as its first key stands for the stamp whose text is its
value. -/
def stampKey : String := "$__toml_private_datetime"

end Wiring.Toml
