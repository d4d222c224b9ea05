import Wiring.Config.Shape
import Wiring.Config.Source

/-!
# Environments

An environment is a table with all placeholders expanded, seen as named
properties.
-/

namespace Wiring

open Wiring.Config Wiring.Toml

structure Environment where
  table : Table

namespace Environment

def empty : Environment := ⟨[]⟩

def load (sources : List Source) : Except ConfigError Environment :=
  (loadSources sources).map Environment.mk

def ofToml (contents : String) : Except ConfigError Environment :=
  match parse contents with
  | some t => (resolve t).map Environment.mk
  | none => .error .malformedText

def property? (env : Environment) (name : String) : Option Toml.Value :=
  Config.property? env.table name

def contains (env : Environment) (name : String) : Bool :=
  (env.property? name).isSome

/-- The text of a scalar property. -/
def propertyText? (env : Environment) (name : String) : Option String :=
  ((env.property? name).bind (·.scalarText?)).map String.ofList

/-- Reads a property in a shape, if it is there. -/
def get (env : Environment) (name : String) (shape : Shape) :
    Except ConfigError (Option Toml.Value) :=
  match env.property? name with
  | none => .ok none
  | some v =>
    match shape.read v with
    | some w => .ok (some w)
    | none => .error (.propertyShape name)

/-- Reads the whole table in a shape. -/
def read (env : Environment) (shape : Shape) : Except ConfigError Toml.Value :=
  match shape.read (.table env.table) with
  | some v => .ok v
  | none => .error .shape

end Environment

end Wiring
