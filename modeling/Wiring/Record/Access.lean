import Wiring.Record.Lineage

/-!
# Access by name

A record type as seen by name: a description of its fields and functions that
read and write a field. Access goes through the descriptor first, so a name
that is not described cannot be reached even if the type knows it.
-/

namespace Wiring

/-- A record type with instances in `σ`. The functions answer `none` for names
that they do not know; a write gives the new instance. -/
structure Record (σ : Type) where
  type : TypeName
  fields : List Field
  get : σ → String → Option Value
  set : σ → String → Value → Option (Except CoercionError σ)

def Record.describe {σ : Type} (r : Record σ) : Descriptor :=
  Descriptor.build r.type r.fields

/-- The record type that a lineage declares. -/
def Lineage.record (l : Lineage) : Record Instance where
  type := l.own.type
  fields := l.describe
  get x name := x.get name
  set x name v := x.set name v

inductive AccessError
  | fieldNotFound (type : TypeName) (field : String)
  | coercion (type : TypeName) (field : String) (source : CoercionError)
  | nullKey (type : TypeName) (field : String)
deriving DecidableEq

def AccessError.message : AccessError → String
  | .fieldNotFound t f => "type '" ++ t.text ++ "' has no field '" ++ f ++ "'"
  | .coercion t f e =>
    "cannot assign field '" ++ f ++ "' of '" ++ t.text ++ "': " ++ e.message
  | .nullKey t f => "key field '" ++ f ++ "' of '" ++ t.text ++ "' is null"

namespace Record

variable {σ : Type} (r : Record σ) (d : Descriptor)

def getValue (x : σ) (name : String) : Except AccessError Value :=
  if d.contains name then
    match r.get x name with
    | some v => .ok v
    | none => .error (.fieldNotFound r.type name)
  else .error (.fieldNotFound r.type name)

/-- Reads a field as if its value were stored in a field of another type. -/
def getValueAs (t : FieldType) (x : σ) (name : String) : Except AccessError Value := do
  let v ← r.getValue d x name
  match t.store v with
  | .ok w => .ok w
  | .error e => .error (.coercion r.type name e)

def setValue (x : σ) (name : String) (v : Value) : Except AccessError σ :=
  if d.contains name then
    match r.set x name v with
    | some (.ok y) => .ok y
    | some (.error e) => .error (.coercion r.type name e)
    | none => .error (.fieldNotFound r.type name)
  else .error (.fieldNotFound r.type name)

/-- Writes the pairs whose names are described, up to the first that fails, and
counts them. What was written before a failure stays. -/
def setValues (x : σ) : List (String × Value) → Except AccessError Nat × σ
  | [] => (.ok 0, x)
  | (name, v) :: rest =>
    if d.contains name then
      match r.setValue d x name v with
      | .ok y =>
        let (result, z) := setValues y rest
        (result.map (· + 1), z)
      | .error e => (.error e, x)
    else setValues x rest

end Record

end Wiring
