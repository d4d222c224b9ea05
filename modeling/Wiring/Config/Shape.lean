import Wiring.Toml.Basic

/-!
# Shapes

A shape says what a value should look like to be used: an integer in a range,
a list of strings, a record with named fields. Reading a value in a shape
gives the value as the shape holds it, or fails. Integers serve as floats and
date-times as strings; nothing else is converted. A record is read from a
table, or from an array with its fields in order.
-/

namespace Wiring.Config

open Wiring.Number Wiring.Toml

/-- What a record does without one of its fields. -/
inductive Absence
  | refused
  | omitted
  | filled (v : Value)

inductive Shape
  | integer (low high : Int)
  | single
  | double
  | bool
  | string
  | char
  | list (item : Shape)
  | map (item : Shape)
  | tuple (items : List Shape)
  | any
  /-- A strict record refuses keys that it does not know. -/
  | record (strict : Bool) (fields : List (String × Shape × Absence))

namespace Shape

def i8 : Shape := integer (-128) 127
def u8 : Shape := integer 0 255
def i16 : Shape := integer (-32768) 32767
def u16 : Shape := integer 0 65535
def i32 : Shape := integer (-2147483648) 2147483647
def u32 : Shape := integer 0 4294967295
def i64 : Shape := integer (-9223372036854775808) 9223372036854775807
def u64 : Shape := integer 0 18446744073709551615

/-- The string that a scalar serves as. -/
def stringOf? : Value → Option (List Char)
  | .string s => some s.toList
  | .stamp t => some t.text
  | _ => none

/-- What a table is taken as when no shape is asked for. With the stamp key in
front it must hold the text of a stamp, and nothing else. -/
def plainTable? (table : Option Table) : Table → Option Value
  | [(key, v)] =>
    if key = stampKey then
      ((stringOf? v).bind Stamp.ofText?).map fun t =>
        .table [(stampKey, .string (String.ofList t.text))]
    else table.map .table
  | (key, _) :: _ :: _ => if key = stampKey then none else table.map .table
  | [] => table.map .table

mutual

/-- A value without stamps: a stamp is taken as its text, wherever it is. -/
def plainValue? : Value → Option Value
  | .stamp t => some (.string (String.ofList t.text))
  | .array items => (plainItems? items).map .array
  | .table entries => plainTable? (plainEntries? entries) entries
  | v => some v

def plainItems? : List Value → Option (List Value)
  | [] => some []
  | v :: rest =>
    match plainValue? v with
    | some w => (plainItems? rest).map (w :: ·)
    | none => none

def plainEntries? : List (String × Value) → Option (List (String × Value))
  | [] => some []
  | (key, v) :: rest =>
    match plainValue? v with
    | some w => (plainEntries? rest).map ((key, w) :: ·)
    | none => none

end

/-- Reads every value of a list. -/
def readEach (read : Value → Option Value) : List Value → Option (List Value)
  | [] => some []
  | v :: rest =>
    match read v with
    | some w => (readEach read rest).map (w :: ·)
    | none => none

/-- Reads every value of a table. -/
def readEntries (read : Value → Option Value) : List (String × Value) → Option Table
  | [] => some []
  | (key, v) :: rest =>
    match read v with
    | some w => (readEntries read rest).map ((key, w) :: ·)
    | none => none

/-- What an absent field contributes to a record. -/
def putAbsent (name : String) (t : Table) : Absence → Option Table
  | .refused => none
  | .omitted => some t
  | .filled v => some (t.put name v)

mutual

def read : Shape → Value → Option Value
  | integer low high, .integer i =>
    if low ≤ i.toInt && i.toInt ≤ high then some (.integer i) else none
  | single, .float x => some (.float x.narrow)
  | single, .integer i => some (.float (Binary64.ofIntSingle i.toInt))
  | double, .float x => some (.float x)
  | double, .integer i => some (.float (Binary64.ofInt i.toInt))
  | bool, .bool b => some (.bool b)
  | string, v => (stringOf? v).map fun s => .string (String.ofList s)
  | char, v =>
    match stringOf? v with
    | some [c] => some (.string (String.singleton c))
    | _ => none
  | list item, .array items => (readEach (read item) items).map .array
  | map item, .table entries => (readEntries (read item) entries).map .table
  | tuple shapes, .array items => (readTuple shapes items).map .array
  | any, v => plainValue? v
  | record strict fields, .table entries =>
    if strict && entries.any fun e => !fields.any fun f => f.1 == e.1 then none
    else (readFields entries fields).map .table
  | record _ fields, .array items => (readInOrder items fields).map .table
  | _, _ => none

/-- Reads a list of exactly as many values as shapes. -/
def readTuple : List Shape → List Value → Option (List Value)
  | [], [] => some []
  | shape :: shapes, v :: rest =>
    match read shape v with
    | some w => (readTuple shapes rest).map (w :: ·)
    | none => none
  | _, _ => none

/-- Reads the fields of a record by name. -/
def readFields (entries : Table) : List (String × Shape × Absence) → Option Table
  | [] => some []
  | (name, shape, absence) :: rest =>
    match readFields entries rest with
    | none => none
    | some t =>
      match entries.get? name with
      | some v => (read shape v).map fun w => t.put name w
      | none => putAbsent name t absence

/-- Reads the fields of a record from the front of a list; nothing may be left. -/
def readInOrder : List Value → List (String × Shape × Absence) → Option Table
  | [], [] => some []
  | _ :: _, [] => none
  | items, (name, shape, absence) :: rest =>
    match readInOrder (items.drop 1) rest with
    | none => none
    | some t =>
      match items with
      | v :: _ => (read shape v).map fun w => t.put name w
      | [] => putAbsent name t absence

end

end Shape

end Wiring.Config
