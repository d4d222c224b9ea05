/-!
# Decimal numerals

A numeral is an optional sign and one or more ASCII digits. It is read from the
left, and the first thing wrong is the one reported: a character that is no
digit, or a value that leaves the 64-bit range.
-/

namespace Wiring.Number

/-- Why a text is no 64-bit numeral. -/
inductive NumeralFault
  | empty
  | invalidDigit
  | tooLarge
  | tooSmall
deriving DecidableEq, Repr

def NumeralFault.message : NumeralFault → String
  | .empty => "cannot parse integer from empty string"
  | .invalidDigit => "invalid digit found in string"
  | .tooLarge => "number too large to fit in target type"
  | .tooSmall => "number too small to fit in target type"

def isDigit (c : Char) : Bool :=
  48 ≤ c.toNat && c.toNat ≤ 57

def digitValue (c : Char) : Nat :=
  c.toNat - 48

/-- The value of a list of digits that follows the value `acc`. -/
def digitsValue (acc : Nat) (ds : List Char) : Nat :=
  ds.foldl (fun n c => n * 10 + digitValue c) acc

/-- Reads digits up to a limit; `fault` is reported above it. -/
def readMagnitude (limit : Nat) (fault : NumeralFault) (acc : Nat) :
    List Char → Except NumeralFault Nat
  | [] => .ok acc
  | c :: rest =>
    if !isDigit c then .error .invalidDigit
    else if acc * 10 + digitValue c ≤ limit then
      readMagnitude limit fault (acc * 10 + digitValue c) rest
    else .error fault

/-- Reads a numeral of the 64-bit range. -/
def readInteger (s : List Char) : Except NumeralFault Int :=
  match s with
  | [] => .error .empty
  | '+' :: ds =>
    if ds.isEmpty then .error .invalidDigit
    else (readMagnitude 9223372036854775807 .tooLarge 0 ds).map fun n => (n : Int)
  | '-' :: ds =>
    if ds.isEmpty then .error .invalidDigit
    else (readMagnitude 9223372036854775808 .tooSmall 0 ds).map fun n => -(n : Int)
  | ds => (readMagnitude 9223372036854775807 .tooLarge 0 ds).map fun n => (n : Int)

def writeNat (n : Nat) : List Char :=
  Nat.toDigits 10 n

def writeInteger (i : Int) : List Char :=
  if i < 0 then '-' :: writeNat i.natAbs else writeNat i.natAbs

def natText (n : Nat) : String :=
  String.ofList (writeNat n)

def integerText (i : Int) : String :=
  String.ofList (writeInteger i)

/-- Decimal digits of `n`, filled with zeros on the left to a width. -/
def writePadded (width n : Nat) : List Char :=
  let ds := writeNat n
  List.replicate (width - ds.length) '0' ++ ds

end Wiring.Number
