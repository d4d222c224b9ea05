import Wiring.Calendar.Date

/-!
# Times and date-times

A time of day counts nanoseconds from the start of its second, and may count
on to the end of the second after it. What lies in that second is written as
the second after with a billion nanoseconds fewer; after second 59 that is the
leap second, second 60. A fraction is written with 3, 6 or 9 digits, the fewest
that lose nothing.
-/

namespace Wiring.Calendar

open Wiring.Number

def nanosPerSecond : Nat := 1000000000

/-- Whether a time of day exists. The nanoseconds may run over by a second, whichever
second it is. -/
def isTime (hour minute second nano : Nat) : Bool :=
  hour < 24 && minute < 60 && second < 60 && nano < 2 * nanosPerSecond

structure Time where
  hour : Nat
  minute : Nat
  second : Nat
  nano : Nat
  valid : isTime hour minute second nano = true
deriving DecidableEq

def Time.of? (hour minute second nano : Nat) : Option Time :=
  if h : isTime hour minute second nano = true then some ⟨hour, minute, second, nano, h⟩
  else none

structure DateTime where
  date : Date
  time : Time
deriving DecidableEq

/-- The date at a time of day, if there is such a time. -/
def Date.at? (d : Date) (hour minute second : Nat) : Option DateTime :=
  (Time.of? hour minute second 0).map (DateTime.mk d)

/-- The first moment of 1970. -/
def DateTime.epoch : DateTime := ⟨Date.epoch, ⟨0, 0, 0, 0, rfl⟩⟩

/-- Nothing, or a point and 3, 6 or 9 digits. -/
def fractionText (nano : Nat) : List Char :=
  if nano == 0 then []
  else if nano % 1000000 == 0 then '.' :: writePadded 3 (nano / 1000000)
  else if nano % 1000 == 0 then '.' :: writePadded 6 (nano / 1000)
  else '.' :: writePadded 9 nano

def Time.text (t : Time) : List Char :=
  writePadded 2 t.hour ++ [':'] ++ writePadded 2 t.minute ++ [':'] ++
    writePadded 2 (t.second + t.nano / nanosPerSecond) ++
    fractionText (t.nano % nanosPerSecond)

def DateTime.text (t : DateTime) : List Char :=
  t.date.text ++ ['T'] ++ t.time.text

def minutesPerDay : Int := 1440

/-- The date-time so many minutes earlier, for less than a day either way.
Seconds and what is counted within them stay as they are. -/
def DateTime.earlierBy? (t : DateTime) (minutes : Int) : Option DateTime :=
  let total : Int := t.time.hour * 60 + t.time.minute - minutes
  let within := (total % minutesPerDay).toNat
  let date? :=
    if total < 0 then t.date.previous?
    else if total ≥ minutesPerDay then t.date.next?
    else some t.date
  match date?, Time.of? (within / 60) (within % 60) t.time.second t.time.nano with
  | some date, some time => some ⟨date, time⟩
  | _, _ => none

end Wiring.Calendar
