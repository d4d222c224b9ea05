import Wiring.Config.Environment
import Wiring.Discovery
import Wiring.Registry.Action
import Wiring.Registry.Basic

/-!
# Operations of the registry

What takes no time is a function on the world. A call needs the container and
waits for it; asking for a bean then waits for the bean too. What a lookup
finds is kept before its type is looked at.
-/

namespace Wiring

open Wiring.Config

namespace World

variable {α ω : Type}

def bind (c : Container α ω) (w : World α ω) : Except RegistryError Unit × World α ω :=
  match w.registry.handle.bind c with
  | .ok h => (.ok (), { w with registry := { w.registry with handle := h } })
  | .error e => (.error e, w)

def isReady (w : World α ω) : Bool :=
  w.registry.handle.isReady

/-- Wakes those who wait for the container or for a bean. -/
def notify (w : World α ω) : World α ω :=
  { w with registry := { w.registry with handle := w.registry.handle.notify } }

/-- Looks a type up in a container. -/
def lookupIn (c : Container α ω) (type : TypeName) (w : World α ω) :
    Option (Bean α) × World α ω :=
  match c.lookup type w.around with
  | (found, around) => (found, { w with around })

/-- Keeps a bean for a type, unless there is one, and gives the one kept. -/
def remember (type : TypeName) (b : Bean α) (w : World α ω) :
    Except RegistryError α × World α ω :=
  match w.registry.remember type b with
  | (kept, r) => (kept.as type, { w with registry := r })

/-- The bean of a type without waiting: kept, or found at once. -/
def get (type : TypeName) (w : World α ω) : Option α × World α ω :=
  match w.registry.cache.lookup type with
  | some b => ((b.as type).toOption, w)
  | none =>
    match w.registry.handle.bound with
    | none => (none, w)
    | some c =>
      match w.lookupIn c type with
      | (none, w) => (none, w)
      | (some b, w) =>
        match w.remember type b with
        | (result, w) => (result.toOption, w)

/-- Keeps a bean without registering it. -/
def add (b : Bean α) (w : World α ω) : Except RegistryError α × World α ω :=
  w.remember b.type b

def clearCache (w : World α ω) : World α ω :=
  { w with registry := w.registry.clearCache }

/-- Writes fields one after the other, through the registry's introspector. -/
def fill {σ : Type} (r : Record σ) (x : σ) :
    List (String × Value) → World α ω → Except AccessError σ × World α ω
  | [], w => (.ok x, w)
  | (name, v) :: rest, w =>
    match Introspector.setValue r x name v w.registry.introspector with
    | (result, i) =>
      let w := { w with registry := { w.registry with introspector := i } }
      match result with
      | .ok y => fill r y rest w
      | .error e => (.error e, w)

/-- Registers a bean in a container and keeps it, unless one is kept already. -/
def registerIn (c : Container α ω) (r : Registration α) (w : World α ω) :
    Except RegistryError α × World α ω :=
  match c.register r w.around with
  | (.error e, around) => (.error (.context e), { w with around })
  | (.ok _, around) =>
    match remember r.bean.type r.bean { w with around } with
    | (result, w) => (result, w.notify)

/-- One pass of a scan. -/
def pass (scan : Scan α ω) (known : List Discoverable) (w : World α ω) :
    List Discoverable × World α ω :=
  match scan.pass known w.around with
  | (found, around) => (found, { w with around })

end World

/-- What is asked of a registry: it may have to wait, and it may fail. -/
abbrev Call (α ω : Type) :=
  ExceptT RegistryError (Action (World α ω))

namespace Call

variable {α ω : Type}

/-- Does something that takes no time. -/
def immediately {β : Type} (act : World α ω → Except RegistryError β × World α ω) :
    Call α ω β :=
  .mk (modifyGet act)

/-- Waits for a check to find something, and fails as told if it does not. -/
def await {β : Type} (p : WaitPolicy) (late : RegistryError)
    (check : World α ω → Option β × World α ω) : Call α ω β := do
  match ← (Action.await p check : Action (World α ω) _) with
  | .found b => return b
  | .timedOut => throw late
  | .overflow => throw .clockOverflow

/-- The bound container, waited for if need be. -/
def container : Call α ω (Container α ω) := do
  let r := (← get).registry
  match r.handle.bound with
  | some c => return c
  | none =>
    let p := r.settings.contextWait
    await p (.containerNotReady p.window) fun w => (w.registry.handle.bound, w)

/-- The bean of a type: kept, or waited for. -/
def of (type : TypeName) : Call α ω α := do
  match (← get).registry.cache.lookup type with
  | some b => immediately fun w => (b.as type, w)
  | none =>
    let c ← container
    let p := (← get).registry.settings.beanWait
    let b ← await p (.beanNotFound type p.window) (World.lookupIn c type)
    immediately (World.remember type b)

/-- Registers a bean under a name and keeps it, unless one is kept already. -/
def registerNamed (name : String) (b : Bean α) : Call α ω α := do
  let c ← container
  immediately (World.registerIn c ⟨name, b⟩)

/-- Registers a bean under the name that its type suggests. -/
def register (b : Bean α) : Call α ω α :=
  registerNamed b.type.beanName b

/-- Registers a record made by writing fields of a blank one. The fields are
written before the container is waited for. -/
def registerWith {σ : Type} (r : Record σ) (blank : σ) (content : σ → α)
    (fields : List (String × Value)) : Call α ω α := do
  let x ← immediately fun w =>
    match World.fill r blank fields w with
    | (x, w) => (x.mapError .access, w)
  register ⟨r.type, content x⟩

def property (name : String) : Call α ω (Option Toml.Value) := do
  let c ← container
  immediately fun w =>
    match c.property name w.around with
    | (v, around) => (.ok v, { w with around })

/-- The text of a scalar property, or a default. -/
def propertyTextOr (name default : String) : Call α ω String := do
  let v ← property name
  return ((v.bind (·.scalarText?)).map String.ofList).getD default

/-- A property in a shape, if it is there. -/
def propertyAs (name : String) (shape : Shape) : Call α ω (Option Toml.Value) := do
  match ← property name with
  | none => return none
  | some v =>
    match shape.read v with
    | some x => return some x
    | none => throw (.config (.propertyShape name))

/-- Scans a scope for what the container does not hold. -/
def scan (scope : String) : Call α ω (Scan α ω) := do
  return ⟨scope, ← container⟩

/-- Scans the scope that declares a type. -/
def scanNear (type : TypeName) : Call α ω (Scan α ω) :=
  scan type.scope

end Call

end Wiring
