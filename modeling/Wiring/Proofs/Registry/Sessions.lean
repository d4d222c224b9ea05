import Wiring.Proofs.Registry.Calls

/-!
# Sessions

In a session clients ask a new registry for things, wait in their calls and are
woken, in any order and at any readings of the clock, while the surroundings of
the registry change on their own. The session writes a history: one entry for
each slice of a call, with the worlds before and after it. Containers note every
access to them, so that an entry tells which container it has turned to and for
what.
-/

namespace Wiring

variable {α ω : Type}

/-- An access to a container, and its answer. -/
inductive Access (α ω : Type)
  | lookup (c : Container α ω) (type : TypeName) (found : Option (Bean α))
  | register (c : Container α ω) (r : Registration α) (done : Except ContextError Unit)
  | contains (c : Container α ω) (type : TypeName) (held : Bool)
  | property (c : Container α ω) (name : String) (value : Option Toml.Value)

def Access.container : Access α ω → Container α ω
  | lookup c _ _ | register c _ _ | contains c _ _ | property c _ _ => c

/-- Surroundings with a note of the accesses to containers. -/
abbrev Noted (α ω : Type) :=
  ω × List (Access α ω)

/-- The container with every access to it noted. -/
def Container.noted (c : Container α ω) : Container α (Noted α ω) where
  lookup type s :=
    match c.lookup type s.1 with
    | (found, o) => (found, o, s.2 ++ [.lookup c type found])
  register r s :=
    match c.register r s.1 with
    | (done, o) => (done, o, s.2 ++ [.register c r done])
  contains type s :=
    match c.contains type s.1 with
    | (held, o) => (held, o, s.2 ++ [.contains c type held])
  property name s :=
    match c.property name s.1 with
    | (value, o) => (value, o, s.2 ++ [.property c name value])

/-! ## Requests -/

inductive Request (α ω : Type) : Type 1
  | bind (c : Container α ω)
  | of (type : TypeName)
  | get (type : TypeName)
  | add (b : Bean α)
  | register (b : Bean α)
  | registerNamed (name : String) (b : Bean α)
  | registerWith {σ : Type} (r : Record σ) (blank : σ) (content : σ → α)
      (fields : List (String × Value))
  | clearCache

/-- What a request comes to: an error, or an instance if it gives one. -/
abbrev Reply (α : Type) :=
  Except RegistryError (Option α)

namespace Request

/-- The type whose instance is asked for. -/
def type? : Request α ω → Option TypeName
  | bind _ | clearCache => none
  | of type | get type => some type
  | add b | register b | registerNamed _ b => some b.type
  | registerWith r _ _ _ => some r.type

/-- The request only wants a bean of the type. -/
def Wants (type : TypeName) (q : Request α ω) : Prop :=
  q = .of type ∨ q = .get type

/-- The call, answered as a request. -/
def reply (call : Call α (Noted α ω) α) : Action (World α (Noted α ω)) (Reply α) :=
  Action.bind (ExceptT.run call) fun r => .done (r.map some)

def action : Request α ω → Action (World α (Noted α ω)) (Reply α)
  | bind c => .act (fun w => ((w.bind c.noted).1.map fun _ => none, (w.bind c.noted).2)) .done
  | of type => reply (Call.of type)
  | get type => .act (fun w => (.ok (w.get type).1, (w.get type).2)) .done
  | add b => reply (Call.immediately (World.add b))
  | register b => reply (Call.register b)
  | registerNamed name b => reply (Call.registerNamed name b)
  | registerWith r blank content fields => reply (Call.registerWith r blank content fields)
  | clearCache => .act (fun w => (.ok none, w.clearCache)) .done

end Request

/-! ## Histories -/

/-- An entry of a history: a slice of a call. -/
structure Slice (α ω : Type) where
  request : Request α ω
  /-- The position in the history of the first slice of the call. -/
  since : Nat
  before : World α (Noted α ω)
  /-- There is none if the slice ends asleep. -/
  reply : Option (Reply α)
  after : World α (Noted α ω)

/-- A call that sleeps. -/
structure Pending (α ω : Type) where
  request : Request α ω
  since : Nat
  rest : Action (World α (Noted α ω)) (Reply α)

structure Session (α ω : Type) where
  world : World α (Noted α ω)
  pending : List (Pending α ω)
  history : List (Slice α ω)

inductive Event (α ω : Type) : Type 1
  /-- A client asks for something. -/
  | ask (q : Request α ω) (now : Nat)
  /-- A call that sleeps is woken, on time or not. -/
  | wake (position now : Nat)
  /-- The surroundings change, as when a bean is registered in a container directly. -/
  | outside (f : ω → ω)

/-- The world before a slice, in which no access is noted yet. -/
def World.fresh (w : World α (Noted α ω)) : World α (Noted α ω) :=
  { w with around := (w.around.1, []) }

namespace Session

/-- A new registry in some surroundings. -/
def start (settings : Settings) (introspector : Introspector) (o : ω) : Session α ω :=
  ⟨⟨{ settings, introspector }, (o, [])⟩, [], []⟩

/-- Carries a call on for a slice. -/
def work (s : Session α ω) (q : Request α ω) (since : Nat)
    (a : Action (World α (Noted α ω)) (Reply α)) (pending : List (Pending α ω)) (now : Nat) :
    Session α ω :=
  match a.advance now s.world.fresh with
  | (.done reply, after) =>
    ⟨after, pending, s.history ++ [⟨q, since, s.world.fresh, some reply, after⟩]⟩
  | (.asleep rest _, after) =>
    ⟨after, pending ++ [⟨q, since, rest⟩], s.history ++ [⟨q, since, s.world.fresh, none, after⟩]⟩

def step (s : Session α ω) : Event α ω → Session α ω
  | .ask q now => s.work q s.history.length q.action s.pending now
  | .wake position now =>
    match s.pending[position]? with
    | some p => s.work p.request p.since p.rest (s.pending.eraseIdx position) now
    | none => s
  | .outside f =>
    { s with world := { s.world with around := (f s.world.around.1, s.world.around.2) } }

def run (s : Session α ω) (events : List (Event α ω)) : Session α ω :=
  events.foldl step s

end Session

namespace Slice

/-- The accesses to containers that the slice has made. -/
def accesses (s : Slice α ω) : List (Access α ω) :=
  s.after.around.2

/-- The slice ends a call for the type, with an instance. -/
def Gives (s : Slice α ω) (type : TypeName) (a : α) : Prop :=
  s.request.type? = some type ∧ s.reply = some (.ok (some a))

def Clears (s : Slice α ω) : Prop :=
  s.request = .clearCache

/-- The slice binds the container, with success. -/
def Binds (s : Slice α ω) (c : Container α ω) : Prop :=
  s.request = .bind c ∧ s.reply = some (.ok none)

/-- The slice consults a container's lookup of the type. -/
def LooksUp (s : Slice α ω) (type : TypeName) : Prop :=
  ∃ c found, .lookup c type found ∈ s.accesses

end Slice

end Wiring
