import Wiring.Number.Numeral

/-!
# Durations

Lengths of time in nanoseconds. There is a longest one, and multiplying stops
there.
-/

namespace Wiring

open Wiring.Number

structure Duration where
  nanos : Nat
deriving DecidableEq, Repr

namespace Duration

def perSecond : Nat := 1000000000

def ofMillis (n : Nat) : Duration :=
  ⟨n * 1000000⟩

/-- One nanosecond below 2 ^ 64 seconds. -/
def longest : Duration :=
  ⟨Nat.pow 2 64 * perSecond - 1⟩

def times (d : Duration) (n : Nat) : Duration :=
  ⟨min (d.nanos * n) longest.nanos⟩

/-- The whole seconds. -/
def seconds (d : Duration) : Nat :=
  d.nanos / perSecond

/-- The nanoseconds beyond the whole seconds. -/
def subsecond (d : Duration) : Nat :=
  d.nanos % perSecond

/-- A count of smaller units as a fraction of a larger one: as many digits as
it takes, and no point when there are none. -/
def fractionText (width n : Nat) : List Char :=
  if n = 0 then []
  else '.' :: ((writePadded width n).reverse.dropWhile (· = '0')).reverse

/-- The duration in the largest unit of which there is at least one. -/
def text (d : Duration) : String :=
  let chars :=
    if perSecond ≤ d.nanos then
      writeNat (d.nanos / perSecond) ++ fractionText 9 (d.nanos % perSecond) ++ ['s']
    else if 1000000 ≤ d.nanos then
      writeNat (d.nanos / 1000000) ++ fractionText 6 (d.nanos % 1000000) ++ ['m', 's']
    else if 1000 ≤ d.nanos then
      writeNat (d.nanos / 1000) ++ fractionText 3 (d.nanos % 1000) ++ ['µ', 's']
    else writeNat d.nanos ++ ['n', 's']
  String.ofList chars

end Duration

end Wiring
