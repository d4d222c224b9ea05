import Wiring.Config.Environment
import Wiring.Container.Basic

/-!
# Contexts

A context is a container with an environment. It holds each bean under one
name. When a name or a type is taken already, the new bean displaces what was
there, or it is refused.
-/

namespace Wiring

open Wiring.Text

/-- Sets the value of a key, in its place if it has one. -/
def insertAt {κ β : Type} [DecidableEq κ] (key : κ) (v : β) : List (κ × β) → List (κ × β)
  | [] => [(key, v)]
  | (k, w) :: rest => if k = key then (key, v) :: rest else (k, w) :: insertAt key v rest

/-- Removes a key. -/
def eraseAt {κ β : Type} [DecidableEq κ] (key : κ) (entries : List (κ × β)) : List (κ × β) :=
  entries.filter fun e => e.1 ≠ key

/-- What happens to a bean whose name or type is taken. -/
inductive OverridePolicy
  | replace
  | reject
deriving DecidableEq, Repr

def OverridePolicy.text : OverridePolicy → String
  | .replace => "Replace"
  | .reject => "Reject"

structure Context (α : Type) where
  environment : Environment
  policy : OverridePolicy
  /-- By type. -/
  singletons : List (TypeName × Registration α) := []
  /-- The type that goes by a name. -/
  names : List (String × TypeName) := []

namespace Context

variable {α : Type}

def lookup (c : Context α) (type : TypeName) : Option (Bean α) :=
  (c.singletons.lookup type).map (·.bean)

def contains (c : Context α) (type : TypeName) : Bool :=
  (c.singletons.lookup type).isSome

/-- The bean that goes by a name. -/
def lookupNamed (c : Context α) (name : String) : Option (Bean α) :=
  (c.names.lookup name).bind c.lookup

/-- Whether the name or the type of a registration is taken. -/
def conflicts (c : Context α) (r : Registration α) : Bool :=
  (c.names.lookup r.name).isSome || c.contains r.bean.type

/-- Forgets the name that a type has, unless it is the given one. -/
def dropOldName (c : Context α) (r : Registration α) : List (String × TypeName) :=
  match c.singletons.lookup r.bean.type with
  | some previous => if previous.name = r.name then c.names else eraseAt previous.name c.names
  | none => c.names

/-- Forgets the bean that goes by the name of a registration, unless it is of the same type. -/
def dropDisplaced (names : List (String × TypeName)) (r : Registration α)
    (singletons : List (TypeName × Registration α)) : List (TypeName × Registration α) :=
  match names.lookup r.name with
  | some displaced => if displaced = r.bean.type then singletons else eraseAt displaced singletons
  | none => singletons

/-- Holds a bean; the one of its type and the one of its name go. -/
def insert (c : Context α) (r : Registration α) : Context α :=
  let names := c.dropOldName r
  { c with
    singletons := dropDisplaced names r (insertAt r.bean.type r c.singletons)
    names := insertAt r.name r.bean.type names }

def register (c : Context α) (r : Registration α) : Except ContextError (Context α) :=
  match c.policy with
  | .reject => if c.conflicts r then .error (.duplicateBean r.name) else .ok (c.insert r)
  | .replace => .ok (c.insert r)

/-- The names in use, in order. -/
def beanNames (c : Context α) : List String :=
  (c.names.map (·.1)).mergeSort fun a b => !precedes b.toList a.toList

/-- A context as a container. -/
def container : Container α (Context α) where
  lookup type c := (c.lookup type, c)
  register r c :=
    match c.register r with
    | .ok c => (.ok (), c)
    | .error e => (.error e, c)
  contains type c := (c.contains type, c)
  property name c := (c.environment.property? name, c)

end Context

end Wiring
