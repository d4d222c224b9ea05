import Wiring.Calendar.DateTime
import Wiring.Number.FloatText
import Wiring.Text.Quoted
import Wiring.Text.Utf8
import Wiring.Uuid

/-!
# Values

The value of a field: one of eight kinds, or null. The text of a value is what
it is converted to when text is wanted; its exact text also names the kind.
-/

namespace Wiring

open Wiring.Number Wiring.Text Wiring.Calendar

/-- The kinds of values that are not null. -/
inductive Kind
  | bool
  | integer
  | float
  | text
  | uuid
  | date
  | dateTime
  | bytes
deriving DecidableEq, Repr

def Kind.name : Kind → String
  | .bool => "bool"
  | .integer => "integer"
  | .float => "float"
  | .text => "text"
  | .uuid => "uuid"
  | .date => "date"
  | .dateTime => "date-time"
  | .bytes => "bytes"

inductive Value
  | null
  | bool (b : Bool)
  | integer (i : Int64)
  | float (x : Binary64)
  | text (s : String)
  | uuid (id : Uuid)
  | date (d : Date)
  | dateTime (t : DateTime)
  | bytes (bs : List UInt8)
deriving DecidableEq

namespace Value

def kind? : Value → Option Kind
  | null => none
  | bool _ => some .bool
  | integer _ => some .integer
  | float _ => some .float
  | text _ => some .text
  | uuid _ => some .uuid
  | date _ => some .date
  | dateTime _ => some .dateTime
  | bytes _ => some .bytes

def isNull (v : Value) : Bool :=
  v.kind?.isNone

def text? : Value → Option String
  | text s => some s
  | _ => none

def integer? : Value → Option Int64
  | integer i => some i
  | _ => none

def boolText (b : Bool) : List Char :=
  if b then "true".toList else "false".toList

/-- Null has the empty text; bytes are decoded leniently. -/
def chars : Value → List Char
  | null => []
  | bool b => boolText b
  | integer i => writeInteger i.toInt
  | float x => x.text
  | text s => s.toList
  | uuid id => id.text
  | date d => d.text
  | dateTime t => t.text
  | bytes bs => Utf8.decodeLenient bs

def toText (v : Value) : String :=
  String.ofList v.chars

/-- The kind's name and the exact content in parentheses. -/
def tagged (name : String) (content : List Char) : String :=
  name ++ "(" ++ String.ofList content ++ ")"

def exactText : Value → String
  | null => "Null"
  | bool b => tagged "Bool" (boolText b)
  | integer i => tagged "Int" (writeInteger i.toInt)
  | float x => tagged "Float" x.exactText
  | text s => tagged "Text" (quote s.toList)
  | uuid id => tagged "Uuid" id.text
  | date d => tagged "Date" d.text
  | dateTime t => tagged "DateTime" t.text
  | bytes bs =>
    tagged "Bytes" (['['] ++ join [',', ' '] (bs.map fun b => writeNat b.toNat) ++ [']'])

/-- Equality of content within one kind; floats are compared as numbers. -/
def equals : Value → Value → Bool
  | float x, float y => x.equals y
  | a, b => a == b

end Value

end Wiring
