import Wiring.Toml.Basic
import Wiring.TypeName

/-!
# Containers

A container holds beans, each the only one of its type, and serves properties.
It lives in a state that every operation may change, so any program can stand
behind it.
-/

namespace Wiring

/-- A shared instance with its type. -/
structure Bean (α : Type) where
  type : TypeName
  content : α
deriving DecidableEq

/-- A bean handed to a container under a name. -/
structure Registration (α : Type) where
  name : String
  bean : Bean α
deriving DecidableEq

/-- A registration under the name that the type suggests. -/
def Registration.of {α : Type} (b : Bean α) : Registration α :=
  ⟨b.type.beanName, b⟩

def Registration.named {α : Type} (r : Registration α) (name : String) : Registration α :=
  { r with name := name }

inductive ContextError
  | duplicateBean (name : String)
deriving DecidableEq, Repr

def ContextError.message : ContextError → String
  | .duplicateBean name => "a bean named '" ++ name ++ "' or of the same type is already registered"

/-- Whether a lookup of a type finds anything. -/
def containsByLookup {α ω : Type} (lookup : TypeName → ω → Option (Bean α) × ω)
    (type : TypeName) (s : ω) : Bool × ω :=
  match lookup type s with
  | (found, s) => (found.isSome, s)

/-- The operations of a container that lives in a state `ω`. A container that does not say
otherwise contains what it finds. -/
structure Container (α ω : Type) where
  lookup : TypeName → ω → Option (Bean α) × ω
  register : Registration α → ω → Except ContextError Unit × ω
  contains : TypeName → ω → Bool × ω := containsByLookup lookup
  property : String → ω → Option Toml.Value × ω

/-- A container seen in a larger state. -/
def Container.within {α γ ω : Type} (c : Container α γ) (view : ω → γ) (update : γ → ω → ω) :
    Container α ω where
  lookup type s :=
    match c.lookup type (view s) with
    | (found, g) => (found, update g s)
  register r s :=
    match c.register r (view s) with
    | (done, g) => (done, update g s)
  contains type s :=
    match c.contains type (view s) with
    | (held, g) => (held, update g s)
  property name s :=
    match c.property name (view s) with
    | (v, g) => (v, update g s)

end Wiring
