import Wiring.Number.Literal
import Wiring.Toml.Basic

/-!
# TOML lexemes

Each reader takes one piece from the front of a text and gives it with what is
left, or fails. Strings come in four forms, numbers with underscores between
digits, and keys bare or quoted.
-/

namespace Wiring.Toml

open Wiring.Number Wiring.Text

def skipSpaces (s : List Char) : List Char :=
  s.dropWhile fun c => c == ' ' || c == '\t'

/-- The end of a line, as a line feed with or without a carriage return. -/
def readNewline (s : List Char) : Option (List Char) :=
  match s with
  | '\n' :: rest => some rest
  | '\r' :: '\n' :: rest => some rest
  | _ => none

/-- Characters that are not control characters, and the tab. -/
def isLineChar (c : Char) : Bool :=
  c == '\t' || (32 ≤ c.toNat && c.toNat ≤ 126) || 128 ≤ c.toNat

/-- Everything from a number sign to the end of the line. -/
def skipComment (s : List Char) : List Char :=
  match s with
  | '#' :: rest => rest.dropWhile isLineChar
  | s => s

/-- Spaces, a comment and the end of the line or of the text. -/
def readLineEnd (s : List Char) : Option (List Char) :=
  match skipComment (skipSpaces s) with
  | [] => some []
  | rest => readNewline rest

/-- Drops spaces and line ends; `fuel` bounds the number of line ends. -/
def skipSpacesAndLines : Nat → List Char → List Char
  | 0, s => s
  | fuel + 1, s =>
    let s := skipSpaces s
    match readNewline s with
    | some rest => skipSpacesAndLines fuel rest
    | none => s

/-- Drops spaces, line ends and comments; `fuel` bounds their number. -/
def skipFiller : Nat → List Char → List Char
  | 0, s => s
  | fuel + 1, s =>
    match skipSpaces s with
    | '#' :: rest => skipFiller fuel (skipComment ('#' :: rest))
    | s =>
      match readNewline s with
      | some rest => skipFiller fuel rest
      | none => s

/-! ## Strings -/

def isHexDigit (c : Char) : Bool :=
  isDigit c || (65 ≤ c.toNat && c.toNat ≤ 70) || (97 ≤ c.toNat && c.toNat ≤ 102)

def hexValue (c : Char) : Nat :=
  if isDigit c then digitValue c
  else if c.toNat ≤ 70 then c.toNat - 55
  else c.toNat - 87

def hexNumber (ds : List Char) : Nat :=
  ds.foldl (fun n c => n * 16 + hexValue c) 0

/-- Reads the code point of so many digits; it must be a character. -/
def readCodePoint (width : Nat) (s : List Char) : Option (Char × List Char) :=
  let ds := s.take width
  let n := hexNumber ds
  if ds.length = width && ds.all isHexDigit && (n < 0xD800 || (0xDFFF < n && n < 0x110000)) then
    some (Char.ofNat n, s.drop width)
  else none

/-- Reads what follows a backslash. -/
def readEscape (s : List Char) : Option (Char × List Char) :=
  match s with
  | 'b' :: rest => some ('\x08', rest)
  | 'f' :: rest => some ('\x0c', rest)
  | 'n' :: rest => some ('\n', rest)
  | 'r' :: rest => some ('\r', rest)
  | 't' :: rest => some ('\t', rest)
  | '\\' :: rest => some ('\\', rest)
  | '"' :: rest => some ('"', rest)
  | 'u' :: rest => readCodePoint 4 rest
  | 'U' :: rest => readCodePoint 8 rest
  | _ => none

/-- Adds a character to the front of what a reader has read. -/
def consTo (c : Char) (read : Option (List Char × List Char)) : Option (List Char × List Char) :=
  read.map fun (s, rest) => (c :: s, rest)

/-- The rest of a basic string on one line, up to its closing quote. -/
def readBasic : Nat → List Char → Option (List Char × List Char)
  | 0, _ => none
  | fuel + 1, s =>
    match s with
    | [] => none
    | '"' :: rest => some ([], rest)
    | '\\' :: rest => (readEscape rest).bind fun (c, rest) => consTo c (readBasic fuel rest)
    | c :: rest => if isLineChar c then consTo c (readBasic fuel rest) else none

/-- The rest of a literal string on one line. -/
def readLiteral : List Char → Option (List Char × List Char)
  | [] => none
  | c :: rest =>
    if c = '\'' then some ([], rest)
    else if isLineChar c then consTo c (readLiteral rest)
    else none

/-- Up to two quotes may stand before the three that close a string. -/
def closeLong (quote : Char) (s : List Char) : Option (List Char × List Char) :=
  let run := (s.take 5).takeWhile (· = quote)
  if 3 ≤ run.length then some (run.drop 3, s.drop run.length) else none

/-- The rest of a basic string of several lines. A backslash at the end of a
line joins it with the next text. -/
def readLongBasic : Nat → List Char → Option (List Char × List Char)
  | 0, _ => none
  | fuel + 1, s =>
    match closeLong '"' s with
    | some closed => some closed
    | none =>
      match s with
      | [] => none
      | '\\' :: rest =>
        match readNewline (skipSpaces rest) with
        | some rest => readLongBasic fuel (skipSpacesAndLines rest.length rest)
        | none => (readEscape rest).bind fun (c, rest) => consTo c (readLongBasic fuel rest)
      | c :: rest =>
        match readNewline (c :: rest) with
        | some rest => consTo '\n' (readLongBasic fuel rest)
        | none => if isLineChar c then consTo c (readLongBasic fuel rest) else none

/-- The rest of a literal string of several lines. -/
def readLongLiteral : Nat → List Char → Option (List Char × List Char)
  | 0, _ => none
  | fuel + 1, s =>
    match closeLong '\'' s with
    | some closed => some closed
    | none =>
      match s with
      | [] => none
      | c :: rest =>
        match readNewline (c :: rest) with
        | some rest => consTo '\n' (readLongLiteral fuel rest)
        | none => if isLineChar c then consTo c (readLongLiteral fuel rest) else none

/-- The end of a line right behind the opening of a long string is dropped. -/
def dropFirstNewline (s : List Char) : List Char :=
  (readNewline s).getD s

/-- Reads a string of any form. -/
def readString (s : List Char) : Option (List Char × List Char) :=
  match s with
  | '"' :: '"' :: '"' :: rest =>
    let body := dropFirstNewline rest
    readLongBasic (body.length + 1) body
  | '\'' :: '\'' :: '\'' :: rest =>
    let body := dropFirstNewline rest
    readLongLiteral (body.length + 1) body
  | '"' :: rest => readBasic (rest.length + 1) rest
  | '\'' :: rest => readLiteral rest
  | _ => none

/-! ## Keys -/

def isBareKeyChar (c : Char) : Bool :=
  isDigit c || (65 ≤ c.toNat && c.toNat ≤ 90) || (97 ≤ c.toNat && c.toNat ≤ 122) ||
    c == '-' || c == '_'

def readSimpleKey (s : List Char) : Option (String × List Char) :=
  let key := match s with
    | '"' :: rest => readBasic (rest.length + 1) rest
    | '\'' :: rest => readLiteral rest
    | s =>
      let name := s.takeWhile isBareKeyChar
      if name.isEmpty then none else some (name, s.dropWhile isBareKeyChar)
  key.map fun (name, rest) => (String.ofList name, rest)

/-- Reads keys with dots between them; `fuel` bounds their number. -/
def readKeySteps : Nat → List Char → Option (List String × List Char)
  | 0, _ => none
  | fuel + 1, s =>
    match readSimpleKey (skipSpaces s) with
    | none => none
    | some (name, rest) =>
      match skipSpaces rest with
      | '.' :: rest => (readKeySteps fuel rest).map fun (more, rest) => (name :: more, rest)
      | rest => some ([name], rest)

/-- The number of keys with dots between them, and of nested arrays and inline
tables, stays below this. -/
def nestingLimit : Nat := 80

/-- Reads a dotted key as the path to its table and its last step. -/
def readKey (s : List Char) : Option (List String × String × List Char) :=
  match readKeySteps (nestingLimit - 1) s with
  | some (steps, rest) => steps.getLast?.map fun last => (steps.dropLast, last, rest)
  | none => none

/-! ## Numbers -/

/-- The digits behind a first one, with an underscore allowed before each. -/
def readMoreDigits (isDig : Char → Bool) : List Char → List Char × List Char
  | '_' :: c :: rest =>
    if isDig c then
      let (ds, rest) := readMoreDigits isDig rest
      (c :: ds, rest)
    else ([], '_' :: c :: rest)
  | c :: rest =>
    if isDig c then
      let (ds, rest) := readMoreDigits isDig rest
      (c :: ds, rest)
    else ([], c :: rest)
  | [] => ([], [])

/-- At least one digit, without the underscores. -/
def readDigits (isDig : Char → Bool) (s : List Char) : Option (List Char × List Char) :=
  match s with
  | [] => none
  | c :: rest =>
    if isDig c then
      let (ds, rest) := readMoreDigits isDig rest
      some (c :: ds, rest)
    else none

def readSign (s : List Char) : List Char × List Char :=
  match s with
  | '+' :: rest => (['+'], rest)
  | '-' :: rest => (['-'], rest)
  | s => ([], s)

/-- A sign and digits, of which the first is no zero unless it is alone. -/
def readWhole (s : List Char) : Option (List Char × List Char) :=
  let (sign, rest) := readSign s
  match rest with
  | '0' :: rest => some (sign ++ ['0'], rest)
  | rest => (readDigits isDigit rest).map fun (ds, rest) => (sign ++ ds, rest)

/-- A point and digits. -/
def readPointPart (s : List Char) : Option (List Char × List Char) :=
  match s with
  | '.' :: rest => (readDigits isDigit rest).map fun (ds, rest) => ('.' :: ds, rest)
  | _ => none

/-- An exponent with its sign. -/
def readExponentPart (s : List Char) : Option (List Char × List Char) :=
  match s with
  | c :: rest =>
    if c = 'e' || c = 'E' then
      let (sign, rest) := readSign rest
      (readDigits isDigit rest).map fun (ds, rest) => ('e' :: sign ++ ds, rest)
    else none
  | [] => none

/-- The literal of a float: a whole part with a fraction, an exponent or both. -/
def readFloatLiteral (s : List Char) : Option (List Char × List Char) :=
  match readWhole s with
  | none => none
  | some (whole, rest) =>
    match readPointPart rest with
    | some (fraction, rest) =>
      match readExponentPart rest with
      | some (exponent, rest) => some (whole ++ fraction ++ exponent, rest)
      | none => some (whole ++ fraction, rest)
    | none =>
      (readExponentPart rest).map fun (exponent, rest) => (whole ++ exponent, rest)

/-- Reads a named float behind an optional sign. -/
def readNamedFloat (s : List Char) : Option (Binary64 × List Char) :=
  let (sign, rest) := readSign s
  match rest with
  | 'i' :: 'n' :: 'f' :: rest => some (Binary64.infinite (sign == ['-']), rest)
  | 'n' :: 'a' :: 'n' :: rest => some (Binary64.nan, rest)
  | _ => none

/-- Reads a float. A literal above the last float is refused; one below the
first is negative infinity. -/
def readTomlFloat (s : List Char) : Option (Binary64 × List Char) :=
  match readFloatLiteral s with
  | some (literal, rest) =>
    match readFloat literal with
    | .ok x => if x == Binary64.infinite false then none else some (x, rest)
    | .error _ => none
  | none => readNamedFloat s

/-- The value of digits in a base, within the signed 64-bit range. -/
def basedInteger (base : Nat) (ds : List Char) : Option Int64 :=
  let n := ds.foldl (fun n c => n * base + hexValue c) 0
  if n < Nat.pow 2 63 then some (Int64.ofNat n) else none

def readBased (base : Nat) (isDig : Char → Bool) (s : List Char) : Option (Int64 × List Char) :=
  match readDigits isDig s with
  | some (ds, rest) => (basedInteger base ds).map fun i => (i, rest)
  | none => none

/-- Reads an integer, in decimal or behind the mark of another base. -/
def readTomlInteger (s : List Char) : Option (Int64 × List Char) :=
  match s with
  | '0' :: 'x' :: rest => readBased 16 isHexDigit rest
  | '0' :: 'o' :: rest => readBased 8 (fun c => 48 ≤ c.toNat && c.toNat ≤ 55) rest
  | '0' :: 'b' :: rest => readBased 2 (fun c => c == '0' || c == '1') rest
  | s =>
    match readWhole s with
    | some (ds, rest) =>
      match readInteger ds with
      | .ok i => some (Int64.ofInt i, rest)
      | .error _ => none
    | none => none

end Wiring.Toml
