import Wiring.Calendar.Reading
import Wiring.Number.Literal
import Wiring.Text.Ascii
import Wiring.Text.Blank
import Wiring.Value.Basic

/-!
# Coercion

A value is converted to a kind it does not have by a fixed table: text is
read, integers and whole floats turn into each other, dates and date-times
too, bytes are decoded, and every other value can be written as text. Null is
left alone. What is refused is refused with the value, the kind that was
wanted and the cause.
-/

namespace Wiring

open Wiring.Number Wiring.Text Wiring.Calendar

/-- Why a value cannot have a kind. -/
inductive Refusal
  | notBool
  | numeral (fault : NumeralFault)
  | literal (fault : LiteralFault)
  | uuid (fault : Uuid.Fault)
  | date (fault : ReadFault)
  | notDateTime
  | notWhole
  | notUtf8 (index : Nat) (defect : Utf8.Defect)
  | noMidnight
  | noConversion
  | notNullable
  | unexpectedKind
  | outOfRange (type : String)
deriving DecidableEq, Repr

def Refusal.reason : Refusal → String
  | .notBool => "expected \x60true\x60 or \x60false\x60"
  | .numeral f => f.message
  | .literal f => f.message
  | .uuid f => f.message
  | .date f => f.message
  | .notDateTime => "unrecognized date-time format"
  | .notWhole => "not a whole number"
  | .notUtf8 i (.invalid n) =>
    "invalid utf-8 sequence of " ++ natText n ++ " bytes from index " ++ natText i
  | .notUtf8 i .incomplete => "incomplete utf-8 byte sequence from index " ++ natText i
  | .noMidnight => "no midnight"
  | .noConversion => "no conversion available"
  | .notNullable => "field is not nullable"
  | .unexpectedKind => "unexpected kind after coercion"
  | .outOfRange type => "out of range for " ++ type

structure CoercionError where
  value : Value
  expected : Kind
  cause : Refusal
deriving DecidableEq

namespace CoercionError

/-- How the refused value is shown: by its plain text where its kind is clear
from the cause, else by its exact text. -/
def valueText (e : CoercionError) : String :=
  match e.value, e.cause with
  | .null, .notNullable => "null"
  | .bytes _, .notUtf8 _ _ => "<bytes>"
  | .float x, .notWhole => String.ofList x.text
  | .integer i, .outOfRange _ => integerText i.toInt
  | .date d, .noMidnight => String.ofList d.text
  | v, .unexpectedKind => v.exactText
  | .text s, _ => quoted s
  | v, _ => v.exactText

def message (e : CoercionError) : String :=
  "cannot convert " ++ e.valueText ++ " to " ++ e.expected.name ++ ": " ++ e.cause.reason

end CoercionError

namespace Value

/-- Reads a value of a kind; text and bytes take the text as it is. -/
def readTrimmed (s : List Char) : Kind → Except Refusal Value
  | .text => .ok (text (String.ofList s))
  | .bytes => .ok (bytes (Utf8.encode s))
  | .bool =>
    if isWord "true" s then .ok (bool true)
    else if isWord "false" s then .ok (bool false)
    else .error .notBool
  | .integer =>
    match readInteger s with
    | .ok i => .ok (integer (Int64.ofInt i))
    | .error f => .error (.numeral f)
  | .float =>
    match readFloat s with
    | .ok x => .ok (float x)
    | .error f => .error (.literal f)
  | .uuid =>
    match Uuid.read s with
    | .ok id => .ok (uuid id)
    | .error f => .error (.uuid f)
  | .date =>
    match readDate s with
    | .ok d => .ok (date d)
    | .error f => .error (.date f)
  | .dateTime =>
    match readDateTime s with
    | some t => .ok (dateTime t)
    | none => .error .notDateTime

/-- Whether blanks around a text belong to the value. -/
def keepsBlanks : Kind → Bool
  | .text | .bytes => true
  | _ => false

/-- Reads a value of a kind from text. -/
def parse (s : String) (kind : Kind) : Except CoercionError Value :=
  let read := if keepsBlanks kind then s.toList else trim s.toList
  match readTrimmed read kind with
  | .ok v => .ok v
  | .error cause => .error ⟨text s, kind, cause⟩

/-- The integer that a float stands for: it must be whole and not outside the
signed 64-bit range, whose upper end is `2 ^ 63` here and is lowered by one. -/
def integerOfFloat? (x : Binary64) : Option Int64 :=
  match x.whole? with
  | some n =>
    if -9223372036854775808 ≤ n && n ≤ 9223372036854775808 then
      some (Int64.ofInt (min n 9223372036854775807))
    else none
  | none => none

/-- Converts a value that has another kind. -/
def convert (v : Value) (kind : Kind) : Except CoercionError Value :=
  match v, kind with
  | text s, kind => parse s kind
  | integer i, .float => .ok (float (Binary64.ofInt i.toInt))
  | float x, .integer =>
    match integerOfFloat? x with
    | some i => .ok (integer i)
    | none => .error ⟨float x, .integer, .notWhole⟩
  | date d, .dateTime =>
    match d.at? 0 0 0 with
    | some t => .ok (dateTime t)
    | none => .error ⟨date d, .dateTime, .noMidnight⟩
  | dateTime t, .date => .ok (date t.date)
  | bytes bs, .text =>
    match Utf8.decode bs with
    | .ok s => .ok (text (String.ofList s))
    | .error (index, defect) => .error ⟨bytes bs, .text, .notUtf8 index defect⟩
  | v, .text => .ok (text v.toText)
  | v, kind => .error ⟨v, kind, .noConversion⟩

/-- Converts a value to a kind; null passes. -/
def coerce (v : Value) (kind : Kind) : Except CoercionError Value :=
  match v.kind? with
  | none => .ok v
  | some own => if own = kind then .ok v else v.convert kind

/-- Converts a value that must not be null. -/
def require (v : Value) (kind : Kind) : Except CoercionError Value :=
  if v.isNull then .error ⟨v, kind, .notNullable⟩ else v.coerce kind

end Value

end Wiring
