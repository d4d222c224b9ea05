/-!
# Binary floating-point numbers

The finite magnitudes of a format are numbered from zero upwards, so that the
number of a magnitude is its bit pattern without the sign. Magnitudes are
counted in units of the smallest one: `units n` is the value of magnitude `n`.
Rounding takes a ratio to the nearest magnitude, ties to the even number, and
everything past the last magnitude to infinity, which has the next number.
-/

namespace Wiring.Number

/-- A binary format: bits of the significand, the power of one half that is
the unit, and the number of exponents of finite magnitudes. -/
structure Format where
  precision : Nat
  unitPower : Nat
  exponents : Nat

/-- Double precision. -/
def Format.double : Format := ⟨53, 1074, 2047⟩

/-- Single precision. -/
def Format.single : Format := ⟨24, 149, 255⟩

/-- The number behind the last finite magnitude. -/
def Format.infinity (f : Format) : Nat :=
  f.exponents * Nat.pow 2 (f.precision - 1)

/-- The value of a magnitude, in units. -/
def Format.units (f : Format) (n : Nat) : Nat :=
  let e := n / Nat.pow 2 (f.precision - 1)
  let m := n % Nat.pow 2 (f.precision - 1)
  if e = 0 then m else (Nat.pow 2 (f.precision - 1) + m) * Nat.pow 2 (e - 1)

/-- The quotient rounded to the nearest integer, ties to even. -/
def divNearestEven (num den : Nat) : Nat :=
  let q := num / den
  let r := num % den
  if 2 * r > den || (2 * r == den && q % 2 == 1) then q + 1 else q

/-- The magnitude nearest to `num / den`, infinity past the last one. -/
def Format.round (f : Format) (num den : Nat) : Nat :=
  let scaled := num * Nat.pow 2 f.unitPower
  let shift := Nat.log2 (scaled / den) + 1 - f.precision
  let m := divNearestEven scaled (den * Nat.pow 2 shift)
  min (shift * Nat.pow 2 (f.precision - 1) + m) f.infinity

/-- A double-precision number by its bits. -/
structure Binary64 where
  bits : UInt64
deriving DecidableEq, Repr

namespace Binary64

def ofMagnitude (negative : Bool) (n : Nat) : Binary64 :=
  ⟨UInt64.ofNat ((if negative then Nat.pow 2 63 else 0) + n)⟩

def negative (x : Binary64) : Bool :=
  Nat.pow 2 63 ≤ x.bits.toNat

def magnitude (x : Binary64) : Nat :=
  x.bits.toNat % Nat.pow 2 63

def isNaN (x : Binary64) : Bool :=
  Format.double.infinity < x.magnitude

def isInfinite (x : Binary64) : Bool :=
  x.magnitude == Format.double.infinity

def isFinite (x : Binary64) : Bool :=
  x.magnitude < Format.double.infinity

def zero : Binary64 := ⟨0⟩

def nan : Binary64 := ofMagnitude false (Format.double.infinity + Nat.pow 2 51)

def infinite (negative : Bool) : Binary64 :=
  ofMagnitude negative Format.double.infinity

/-- The number nearest to a ratio. -/
def ofRatio (negative : Bool) (num den : Nat) : Binary64 :=
  ofMagnitude negative (Format.double.round num den)

/-- The number nearest to an integer. -/
def ofInt (i : Int) : Binary64 :=
  ofRatio (i < 0) i.natAbs 1

/-- Numeric equality: no NaN equals anything, and the two zeros are equal. -/
def equals (x y : Binary64) : Bool :=
  !x.isNaN && !y.isNaN && (x == y || (x.magnitude == 0 && y.magnitude == 0))

/-- The magnitude in units, of a finite number. -/
def units (x : Binary64) : Nat :=
  Format.double.units x.magnitude

/-- The integer that a number is equal to, if there is one. -/
def whole? (x : Binary64) : Option Int :=
  if x.isFinite && x.units % Nat.pow 2 1074 == 0 then
    let n : Int := x.units / Nat.pow 2 1074
    some (if x.negative then -n else n)
  else none

/-- The double that is equal to the single-precision number of magnitude `n`. -/
def ofSingle (negative : Bool) (n : Nat) : Binary64 :=
  if n < Format.single.infinity then
    ofRatio negative (Format.single.units n) (Nat.pow 2 149)
  else infinite negative

/-- The number rounded to single precision; NaN and the infinities stay. -/
def narrow (x : Binary64) : Binary64 :=
  if x.isFinite then ofSingle x.negative (Format.single.round x.units (Nat.pow 2 1074))
  else x

/-- The single-precision number nearest to an integer, as a double. -/
def ofIntSingle (i : Int) : Binary64 :=
  ofSingle (i < 0) (Format.single.round i.natAbs 1)

end Binary64

end Wiring.Number
