import Wiring.Number.Shortest

/-!
# Texts of floats

The plain text writes the shortest decimal positionally, whatever its size.
The exact text keeps a fraction of at least one digit and goes over to an
exponent for very small and very large numbers.
-/

namespace Wiring.Number

/-- Digits without trailing zeros, and the number of them before the point. -/
structure Placed where
  digits : List Char
  point : Int

def Decimal.placed (d : Decimal) : Placed :=
  let ds := writeNat d.significand
  ⟨(ds.reverse.dropWhile (· == '0')).reverse, ds.length + d.exponent⟩

def zeros (n : Nat) : List Char :=
  List.replicate n '0'

/-- Positional notation; a whole number has no point. -/
def Placed.positional (p : Placed) : List Char :=
  if p.point ≤ 0 then ['0', '.'] ++ zeros p.point.natAbs ++ p.digits
  else
    let before := p.point.toNat
    if p.digits.length ≤ before then p.digits ++ zeros (before - p.digits.length)
    else p.digits.take before ++ ['.'] ++ p.digits.drop before

/-- One digit before the point and an exponent. -/
def Placed.exponential (p : Placed) : List Char :=
  let rest := p.digits.drop 1
  p.digits.take 1 ++ (if rest.isEmpty then [] else '.' :: rest) ++
    ['e'] ++ writeInteger (p.point - 1)

/-- The numbers whose exact text has no exponent: zero, and from `10 ^ -4` up
to below `10 ^ 16`. -/
def Placed.isModerate (p : Placed) : Bool :=
  -3 ≤ p.point && p.point ≤ 16

def signText (negative : Bool) : List Char :=
  if negative then ['-'] else []

namespace Binary64

/-- The plain text. -/
def text (x : Binary64) : List Char :=
  if x.isNaN then ['N', 'a', 'N']
  else signText x.negative ++
    if x.isInfinite then ['i', 'n', 'f']
    else if x.magnitude == 0 then ['0']
    else (shortest x.magnitude).placed.positional

/-- The exact text. -/
def exactText (x : Binary64) : List Char :=
  if x.isNaN then ['N', 'a', 'N']
  else signText x.negative ++
    if x.isInfinite then ['i', 'n', 'f']
    else if x.magnitude == 0 then ['0', '.', '0']
    else
      let p := (shortest x.magnitude).placed
      if p.isModerate then
        let plain := p.positional
        if plain.contains '.' then plain else plain ++ ['.', '0']
      else p.exponential

end Binary64

end Wiring.Number
