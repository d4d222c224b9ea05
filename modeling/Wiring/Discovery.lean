import Wiring.Container.Basic
import Wiring.Text.Quoted

/-!
# Discovery

A program lists types that can be discovered, each with the scope it is
declared in. A scan looks for those within a scope that a container does not
hold yet. It is evaluated anew on every pass.
-/

namespace Wiring

open Wiring.Text

/-- A type that can be discovered, known by a short name within a scope. -/
structure Discoverable where
  scope : String
  name : String
  type : TypeName
deriving DecidableEq, Repr

namespace Discoverable

def path (d : Discoverable) : String :=
  d.scope ++ "::" ++ d.name

/-- Whether a type is declared in a scope or one nested in it. The empty scope
holds everything. -/
def isWithin (d : Discoverable) (scope : String) : Bool :=
  scope.isEmpty ||
    match dropLeading scope.toList d.scope.toList with
    | some rest => rest.isEmpty || (dropLeading pathSeparator.chars rest).isSome
    | none => false

end Discoverable

structure Scan (α ω : Type) where
  scope : String
  container : Container α ω

namespace Scan

variable {α ω : Type}

/-- One pass over what is known, in order. -/
def pass (scan : Scan α ω) : List Discoverable → ω → List Discoverable × ω
  | [], s => ([], s)
  | d :: rest, s =>
    if d.isWithin scan.scope then
      match scan.container.contains d.type s with
      | (true, s) => pass scan rest s
      | (false, s) =>
        match pass scan rest s with
        | (found, s) => (d :: found, s)
    else pass scan rest s

/-- A scan of the scope that declares a type. -/
def near (type : TypeName) (container : Container α ω) : Scan α ω :=
  ⟨type.scope, container⟩

def text (scan : Scan α ω) : String :=
  "ClassScan \x7b namespace: " ++ quoted scan.scope ++ ", .. \x7d"

end Scan

end Wiring
