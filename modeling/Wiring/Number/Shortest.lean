import Wiring.Number.Binary
import Wiring.Number.Literal

/-!
# Shortest decimals

Among the decimals that are read back as a given double, those with the fewest
digits are wanted, and of these the nearest; of two equally near ones the
larger. The decimals that are read back form an interval around the number,
its ends half-way to the neighbours and included when the magnitude is even.
On the grid of decimals with a given last place it is enough to look at the
two neighbours of the number.
-/

namespace Wiring.Number

/-- The interval of a positive finite magnitude, twice its units, and whether
the ends belong to it. -/
structure Rounding where
  value : Nat
  low : Nat
  high : Nat
  closed : Bool

def Rounding.ofMagnitude (n : Nat) : Rounding :=
  let u := Format.double.units
  ⟨2 * u n, u (n - 1) + u n, u n + u (n + 1), n % 2 == 0⟩

def Rounding.holds (r : Rounding) (x : Nat) : Bool :=
  (r.low < x && x < r.high) || (r.closed && (x == r.low || x == r.high))

/-- The same interval counted in a unit that is `k` times smaller. -/
def Rounding.scale (r : Rounding) (k : Nat) : Rounding :=
  ⟨r.value * k, r.low * k, r.high * k, r.closed⟩

/-- Twice the number of units in one. -/
def doubledUnits : Nat := Nat.pow 2 1075

/-- The multiple of `10 ^ place` that is read back as the number, if any. -/
def Rounding.onGrid (r : Rounding) (place : Int) : Option Nat :=
  let r := if place < 0 then r.scale (Nat.pow 10 place.natAbs) else r
  let step := if place < 0 then doubledUnits else doubledUnits * Nat.pow 10 place.natAbs
  let below := r.value / step
  let down := r.holds (below * step)
  let up := r.holds ((below + 1) * step)
  if down && up then
    some (if 2 * (r.value - below * step) < step then below else below + 1)
  else if down then some below
  else if up then some (below + 1)
  else none

/-- Whether the number is at least `10 ^ k`. -/
def Rounding.reaches (r : Rounding) (k : Int) : Bool :=
  if k < 0 then doubledUnits ≤ r.value * Nat.pow 10 k.natAbs
  else doubledUnits * Nat.pow 10 k.natAbs ≤ r.value

/-- Counts `k` up while the next power of ten is still reached. -/
def Rounding.climb (r : Rounding) : Nat → Int → Int
  | 0, k => k
  | fuel + 1, k => if r.reaches (k + 1) then r.climb fuel (k + 1) else k

/-- The power of ten of the first digit. -/
def Rounding.order (r : Rounding) : Int :=
  let log2 : Int := (Nat.log2 r.value : Int) - 1075
  r.climb 4 (Int.fdiv (log2 * 30103) 100000 - 2)

/-- Tries one digit, then two, and so on. -/
def Rounding.search (r : Rounding) (order : Int) : Nat → Nat → Decimal
  | 0, digits => ⟨0, order - digits⟩
  | fuel + 1, digits =>
    match r.onGrid (order - digits) with
    | some c => ⟨c, order - digits⟩
    | none => r.search order fuel (digits + 1)

/-- The shortest decimal of a positive finite magnitude; seventeen digits are
always enough. -/
def shortest (n : Nat) : Decimal :=
  let r := Rounding.ofMagnitude n
  r.search r.order 17 0

end Wiring.Number
