import Wiring.Value.Coercion

/-!
# Field types

A field holds an integer of some width, a float of one of two precisions, a
value of another kind, or any of these or null. Storing a value in a field
coerces it to the kind of the type and then fits it into the type: integers
must be in range, single-precision floats are rounded.
-/

namespace Wiring

open Wiring.Number

inductive Width
  | i8
  | i16
  | i32
  | i64
  | u8
  | u16
  | u32
deriving DecidableEq, Repr

namespace Width

def name : Width → String
  | i8 => "i8"
  | i16 => "i16"
  | i32 => "i32"
  | i64 => "i64"
  | u8 => "u8"
  | u16 => "u16"
  | u32 => "u32"

def low : Width → Int
  | i8 => -128
  | i16 => -32768
  | i32 => -2147483648
  | i64 => -9223372036854775808
  | u8 | u16 | u32 => 0

def high : Width → Int
  | i8 => 127
  | i16 => 32767
  | i32 => 2147483647
  | i64 => 9223372036854775807
  | u8 => 255
  | u16 => 65535
  | u32 => 4294967295

def holds (w : Width) (i : Int) : Bool :=
  w.low ≤ i && i ≤ w.high

end Width

inductive FieldType
  | int (width : Width)
  | single
  | double
  | bool
  | text
  | uuid
  | date
  | dateTime
  | bytes
  | option (type : FieldType)
deriving DecidableEq, Repr

namespace FieldType

def kind : FieldType → Kind
  | int _ => .integer
  | single | double => .float
  | bool => .bool
  | text => .text
  | uuid => .uuid
  | date => .date
  | dateTime => .dateTime
  | bytes => .bytes
  | option t => t.kind

def nullable : FieldType → Bool
  | option _ => true
  | _ => false

/-- The full name of the type. -/
def name : FieldType → String
  | int w => w.name
  | single => "f32"
  | double => "f64"
  | bool => "bool"
  | text => "alloc::string::String"
  | uuid => "uuid::Uuid"
  | date => "chrono::naive::date::NaiveDate"
  | dateTime => "chrono::naive::datetime::NaiveDateTime"
  | bytes => "alloc::vec::Vec<u8>"
  | option t => "core::option::Option<" ++ t.name ++ ">"

/-- Converts a value to the kind of the type; null only where it is allowed. -/
def coerce (t : FieldType) (v : Value) : Except CoercionError Value :=
  if t.nullable then v.coerce t.kind else v.require t.kind

/-- Fits a value of the right kind into a type that is not nullable. -/
def fit (t : FieldType) (v : Value) : Except CoercionError Value :=
  match t, v with
  | int w, .integer i =>
    if w.holds i.toInt then .ok v else .error ⟨v, .integer, .outOfRange w.name⟩
  | single, .float x => .ok (.float x.narrow)
  | double, .float _ => .ok v
  | bool, .bool _ => .ok v
  | text, .text _ => .ok v
  | uuid, .uuid _ => .ok v
  | date, .date _ => .ok v
  | dateTime, .dateTime _ => .ok v
  | bytes, .bytes _ => .ok v
  | t, v => .error ⟨v, t.kind, .unexpectedKind⟩

/-- What a field of the type holds after a value is written to it. -/
def store (t : FieldType) (v : Value) : Except CoercionError Value :=
  match t with
  | option inner => if v.isNull then .ok .null else inner.store v
  | t => (v.require t.kind).bind t.fit

/-- What a new field holds. -/
def initial : FieldType → Value
  | int _ => .integer 0
  | single | double => .float Binary64.zero
  | bool => .bool false
  | text => .text ""
  | uuid => .uuid Uuid.nil
  | date => .date Calendar.Date.epoch
  | dateTime => .dateTime Calendar.DateTime.epoch
  | bytes => .bytes []
  | option _ => .null

end FieldType

end Wiring
