import Wiring.Number.Numeral

/-!
# Dates

Dates of the proleptic Gregorian calendar, between the years -262143 and
262142. Years outside 0 to 9999 are written with a sign.
-/

namespace Wiring.Calendar

open Wiring.Number

def minYear : Int := -262143

def maxYear : Int := 262142

def isLeap (year : Int) : Bool :=
  year % 4 == 0 && (year % 100 != 0 || year % 400 == 0)

def daysIn (year : Int) (month : Nat) : Nat :=
  match month with
  | 2 => if isLeap year then 29 else 28
  | 4 | 6 | 9 | 11 => 30
  | _ => 31

/-- Whether a day exists. -/
def isDay (year : Int) (month day : Nat) : Bool :=
  minYear ≤ year && year ≤ maxYear && 1 ≤ month && month ≤ 12 &&
    1 ≤ day && day ≤ daysIn year month

structure Date where
  year : Int
  month : Nat
  day : Nat
  valid : isDay year month day = true
deriving DecidableEq

namespace Date

def of? (year : Int) (month day : Nat) : Option Date :=
  if h : isDay year month day = true then some ⟨year, month, day, h⟩ else none

/-- The first day of 1970. -/
def epoch : Date := ⟨1970, 1, 1, rfl⟩

/-- The day before, except before the first. -/
def previous? (d : Date) : Option Date :=
  if d.day ≠ 1 then of? d.year d.month (d.day - 1)
  else if d.month ≠ 1 then of? d.year (d.month - 1) (daysIn d.year (d.month - 1))
  else of? (d.year - 1) 12 31

/-- The day after, except after the last. -/
def next? (d : Date) : Option Date :=
  if d.day ≠ daysIn d.year d.month then of? d.year d.month (d.day + 1)
  else if d.month ≠ 12 then of? d.year (d.month + 1) 1
  else of? (d.year + 1) 1 1

end Date

/-- Four digits, or a sign and at least four. -/
def yearText (year : Int) : List Char :=
  if 0 ≤ year && year ≤ 9999 then writePadded 4 year.natAbs
  else (if year < 0 then '-' else '+') :: writePadded 4 year.natAbs

def Date.text (d : Date) : List Char :=
  yearText d.year ++ ['-'] ++ writePadded 2 d.month ++ ['-'] ++ writePadded 2 d.day

end Wiring.Calendar
