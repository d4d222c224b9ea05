import Wiring.Number.Binary
import Wiring.Number.Numeral
import Wiring.Text.Ascii

/-!
# Float literals

A literal is a decimal number with an optional fraction and exponent, or one
of the names of infinity and NaN in any ASCII case; both take a sign. A point
needs a digit on one of its sides. The value is the double nearest to the
decimal number, however many digits and however large an exponent it has.
-/

namespace Wiring.Number

open Wiring.Text

/-- Why a text is no float literal. -/
inductive LiteralFault
  | empty
  | invalid
deriving DecidableEq, Repr

def LiteralFault.message : LiteralFault → String
  | .empty => "cannot parse float from empty string"
  | .invalid => "invalid float literal"

/-- The number `significand * 10 ^ exponent`. -/
structure Decimal where
  significand : Nat
  exponent : Int
deriving DecidableEq, Repr

/-- A decimal of this order of magnitude is past the last double, and one of
the negated order is below half of the smallest. -/
def extremeOrder : Int := 400

/-- The double nearest to a decimal number. -/
def Decimal.nearest (negative : Bool) (d : Decimal) : Binary64 :=
  let order := (writeNat d.significand).length + d.exponent
  if d.significand == 0 || order < -extremeOrder then Binary64.ofMagnitude negative 0
  else if order > extremeOrder then Binary64.infinite negative
  else if d.exponent < 0 then
    Binary64.ofRatio negative d.significand (Nat.pow 10 d.exponent.natAbs)
  else Binary64.ofRatio negative (d.significand * Nat.pow 10 d.exponent.natAbs) 1

/-- What is left behind an exponent, and its value; no exponent counts as zero. -/
def readExponent (s : List Char) : Option (Int × List Char) :=
  match s with
  | c :: rest =>
    if c == 'e' || c == 'E' then
      let (negative, rest) := match rest with
        | '-' :: more => (true, more)
        | '+' :: more => (false, more)
        | more => (false, more)
      let ds := rest.takeWhile isDigit
      if ds.isEmpty then none
      else
        let n : Int := digitsValue 0 ds
        some (if negative then -n else n, rest.dropWhile isDigit)
    else some (0, s)
  | [] => some (0, [])

/-- Reads an unsigned decimal number that takes up the whole text. -/
def readDecimal (s : List Char) : Option Decimal :=
  let whole := s.takeWhile isDigit
  let rest := s.dropWhile isDigit
  let (fraction, rest) := match rest with
    | '.' :: more => (more.takeWhile isDigit, more.dropWhile isDigit)
    | more => ([], more)
  if whole.isEmpty && fraction.isEmpty then none
  else match readExponent rest with
    | some (e, []) => some ⟨digitsValue 0 (whole ++ fraction), e - fraction.length⟩
    | _ => none

def readUnsignedFloat (negative : Bool) (s : List Char) : Option Binary64 :=
  if isWord "inf" s || isWord "infinity" s then
    some (Binary64.infinite negative)
  else if isWord "nan" s then some Binary64.nan
  else (readDecimal s).map (·.nearest negative)

/-- Reads a float literal that takes up the whole text. -/
def readFloat (s : List Char) : Except LiteralFault Binary64 :=
  match s with
  | [] => .error .empty
  | '-' :: rest => (readUnsignedFloat true rest).elim (.error .invalid) .ok
  | '+' :: rest => (readUnsignedFloat false rest).elim (.error .invalid) .ok
  | rest => (readUnsignedFloat false rest).elim (.error .invalid) .ok

end Wiring.Number
