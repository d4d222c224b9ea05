import Wiring.Config.Error
import Wiring.Container.Basic
import Wiring.Record.Introspector
import Wiring.Registry.Settings

/-!
# The registry

A registry is bound to one container, once and possibly late. It keeps every
bean that it has handed out, so each type has one instance until the cache is
cleared.
-/

namespace Wiring

open Wiring.Number

inductive RegistryError
  | containerNotReady (waited : Duration)
  | beanNotFound (type : TypeName) (waited : Duration)
  | alreadyBound
  | typeMismatch (type : TypeName)
  | clockOverflow
  | context (e : ContextError)
  | access (e : AccessError)
  | config (e : ConfigError)
deriving DecidableEq

def RegistryError.message? : RegistryError → Option String
  | .containerNotReady d => some ("container not ready after waiting " ++ d.text)
  | .beanNotFound t d =>
    some ("no bean of type '" ++ t.text ++ "' after waiting " ++ d.text)
  | .alreadyBound => some "a container is already bound"
  | .typeMismatch t => some ("bean registered for '" ++ t.text ++ "' has a different type")
  | .clockOverflow => some "overflow when adding duration to instant"
  | .context e => some e.message
  | .access e => some e.message
  | .config e => e.message?

/-- A place for one thing of the kind `γ`, filled at most once. It counts the
signals that have gone out to those who wait for it. -/
structure Handle (γ : Type) where
  bound : Option γ := none
  signals : Nat := 0

namespace Handle

variable {γ : Type}

def isReady (h : Handle γ) : Bool :=
  h.bound.isSome

def bind (h : Handle γ) (c : γ) : Except RegistryError (Handle γ) :=
  match h.bound with
  | some _ => .error .alreadyBound
  | none => .ok ⟨some c, h.signals + 1⟩

/-- Wakes those who wait. -/
def notify (h : Handle γ) : Handle γ :=
  { h with signals := h.signals + 1 }

def text (h : Handle γ) : String :=
  "ContainerHandle \x7b ready: " ++ (if h.isReady then "true" else "false") ++ ", .. \x7d"

end Handle

structure Registry (α ω : Type) where
  handle : Handle (Container α ω) := {}
  /-- The beans handed out, by the type that was asked for. -/
  cache : List (TypeName × Bean α) := []
  introspector : Introspector := {}
  settings : Settings := .standard

namespace Registry

variable {α ω : Type}

/-- Keeps a bean for a type, unless there is one; gives the one kept. -/
def remember (type : TypeName) (b : Bean α) (r : Registry α ω) : Bean α × Registry α ω :=
  match r.cache.lookup type with
  | some kept => (kept, r)
  | none => (b, { r with cache := r.cache ++ [(type, b)] })

def clearCache (r : Registry α ω) : Registry α ω :=
  { r with cache := [] }

def text (r : Registry α ω) : String :=
  "Beans \x7b handle: " ++ r.handle.text ++ ", cached: " ++ natText r.cache.length ++
    ", settings: " ++ r.settings.text ++ ", .. \x7d"

end Registry

/-- The content of a bean, if it is of the wanted type. -/
def Bean.as {α : Type} (type : TypeName) (b : Bean α) : Except RegistryError α :=
  if b.type = type then .ok b.content else .error (.typeMismatch type)

/-- A registry and what surrounds it. -/
structure World (α ω : Type) where
  registry : Registry α ω
  around : ω

end Wiring
