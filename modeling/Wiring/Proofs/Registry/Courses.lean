import Mathlib.Logic.Function.Basic
import Wiring.Container.Context
import Wiring.Proofs.Registry.Consulting
import Wiring.Proofs.Registry.Sessions

/-!
# Courses of a registry over contexts

A program has some contexts, each at a place, and a registry that may be bound to one of
them. In a course all operations of the registry are asked for, wait in their calls and are
woken, in any order, and beans are registered in the contexts directly. The course tells its
turns: the slices of the calls, with the worlds before and after them.
-/

namespace Wiring

variable {ι α ω β : Type}

/-! ## Calls with replies -/

namespace Call

variable {give : β → Option α} {call : Call α ω β} {start w : World α ω}

/-- The call, answered with the instance that it gives. -/
def replied (give : β → Option α) (call : Call α ω β) : Action (World α ω) (Reply α) :=
  Action.bind (ExceptT.run call) fun r => .done (r.map give)

theorem works_replied {post : World α ω → Option (Reply α) → World α ω → Prop}
    (h : Works (fun start o t => post start (o.map fun r => r.map give) t) call start start) :
    Action.Works World.Stays post (call.replied give) start start := by
  refine Action.Works.bind (Action.Works.imp h ?_)
  intro start o t ho
  cases o with
  | none => exact ho
  | some r => exact ho

theorem answers_replied {P : Reply α → World α ω → Prop}
    (h : Action.Answers (fun r u => P (r.map give) u) (ExceptT.run call) w) :
    Action.Answers P (call.replied give) w :=
  Action.Answers.bind h

end Call

/-! ## Contexts -/

variable [DecidableEq ι]

/-- The contexts of a program. -/
abbrev Contexts (ι α : Type) :=
  ι → Context α

/-- The context at a place, as a container in a world of contexts. -/
def Context.at (place : ι) : Container α (Contexts ι α) :=
  Context.container.within (fun contexts => contexts place)
    fun c contexts => Function.update contexts place c

/-! ## Queries -/

/-- What may be asked of the registry. -/
inductive Query (ι α : Type) : Type 1
  | bind (place : ι)
  | consult {β : Type} (call : Call α (Contexts ι α) β) (h : call.Consults)
  | of (type : TypeName)
  | get (type : TypeName)
  | add (b : Bean α)
  | register (b : Bean α)
  | registerNamed (name : String) (b : Bean α)
  | registerWith {σ : Type} (r : Record σ) (blank : σ) (content : σ → α)
      (fields : List (String × Value))
  | clearCache

namespace Query

def action : Query ι α → Action (World α (Contexts ι α)) (Reply α)
  | bind place => (Call.immediately (World.bind (Context.at place))).replied fun _ => none
  | consult call _ => call.replied fun _ => none
  | of type => (Call.of type).replied some
  | get type => (Call.immediately fun w => (.ok (w.get type).1, (w.get type).2)).replied id
  | add b => (Call.immediately (World.add b)).replied some
  | register b => (Call.register b).replied some
  | registerNamed name b => (Call.registerNamed name b).replied some
  | registerWith r blank content fields => (Call.registerWith r blank content fields).replied some
  | clearCache => (Call.immediately fun w => (.ok (), w.clearCache)).replied fun _ => none

/-- The query may ask a container for the registration. -/
def Registers (reg : Registration α) : Query ι α → Prop
  | register b => reg = .of b
  | registerNamed name b => reg = ⟨name, b⟩
  | registerWith r _ content _ => ∃ x, reg = .of ⟨r.type, content x⟩
  | _ => False

end Query

/-! ## Courses -/

/-- A slice of a call. -/
structure Turn (ι α : Type) : Type 1 where
  query : Query ι α
  before : World α (Contexts ι α)
  /-- There is none if the slice ends asleep. -/
  reply : Option (Reply α)
  after : World α (Contexts ι α)

structure Course (ι α : Type) : Type 1 where
  world : World α (Contexts ι α)
  sleeping : List (Query ι α × Action (World α (Contexts ι α)) (Reply α))
  turns : List (Turn ι α)

inductive Happening (ι α : Type) : Type 1
  | ask (q : Query ι α) (now : Nat)
  /-- A call that sleeps is woken, on time or not. -/
  | wake (position now : Nat)
  /-- A bean is registered in a context directly. -/
  | register (place : ι) (r : Registration α)

namespace Course

/-- A new registry among new contexts. -/
def start (settings : Settings) (introspector : Introspector) (environments : ι → Environment)
    (policies : ι → OverridePolicy) : Course ι α where
  world := ⟨{ settings, introspector },
    fun place => { environment := environments place, policy := policies place }⟩
  sleeping := []
  turns := []

/-- Carries a call on for a slice. -/
def work (c : Course ι α) (q : Query ι α) (a : Action (World α (Contexts ι α)) (Reply α))
    (sleeping : List (Query ι α × Action (World α (Contexts ι α)) (Reply α))) (now : Nat) :
    Course ι α :=
  match a.advance now c.world with
  | (.done reply, after) => ⟨after, sleeping, c.turns ++ [⟨q, c.world, some reply, after⟩]⟩
  | (.asleep rest _, after) =>
    ⟨after, sleeping ++ [(q, rest)], c.turns ++ [⟨q, c.world, none, after⟩]⟩

def step (c : Course ι α) : Happening ι α → Course ι α
  | .ask q now => c.work q q.action c.sleeping now
  | .wake position now =>
    match c.sleeping[position]? with
    | some (q, rest) => c.work q rest (c.sleeping.eraseIdx position) now
    | none => c
  | .register place r =>
    { c with world := { c.world with around := ((Context.at place).register r c.world.around).2 } }

def run (c : Course ι α) (happenings : List (Happening ι α)) : Course ι α :=
  happenings.foldl step c

end Course

end Wiring
