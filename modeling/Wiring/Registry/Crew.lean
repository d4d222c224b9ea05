import Wiring.Registry.Action

/-!
# Crews

A crew is threads that share a state. A thread does its jobs one after the
other until it has to wait; then the one goes on that has waited longest of
those that can. When none can, time passes until one can.

A thread that sleeps is woken at the instant that it asked for, and by every
signal. Signals are counted in the state.
-/

namespace Wiring

inductive Job (σ β : Type) : Type 1
  | act (a : Action σ β)
  /-- Adds a thread that begins after a delay. -/
  | spawn (delay : Nat) (jobs : List (Job σ β)) (answer : β)
  /-- Waits for all added threads that no join has waited for yet, and answers
  from what these have answered. -/
  | join (answer : List (List β) → β)

inductive Status (σ β : Type) : Type 1
  | ready (due : Nat)
  /-- Sleeps in an action until an instant, or until the number of signals is no
  longer the one it heard. -/
  | asleep (rest : Action σ β) (instant heard : Nat)
  | joining (ids : List Nat) (answer : List (List β) → β)
  | finished

/-- A thread with the jobs that it has not begun, and its answers so far. -/
structure Thread (σ β : Type) : Type 1 where
  status : Status σ β
  jobs : List (Job σ β)
  answers : List β

/-- A thread's number is its place among the threads, and the first is the one in
charge. In `queue` are the threads to go on, those first that have waited
longest; `unjoined` are those that the next join waits for. -/
structure Crew (σ β : Type) : Type 1 where
  state : σ
  now : Nat
  threads : List (Thread σ β)
  queue : List Nat
  unjoined : List Nat

variable {σ β : Type}

def Thread.isFinished (t : Thread σ β) : Bool :=
  match t.status with
  | .finished => true
  | _ => false

def Thread.isJoining (t : Thread σ β) : Bool :=
  match t.status with
  | .joining _ _ => true
  | _ => false

/-- When a thread can go on at the latest, if time alone decides. -/
def Thread.instant? (t : Thread σ β) : Option Nat :=
  match t.status with
  | .ready due => some due
  | .asleep _ instant _ => some instant
  | .joining _ _ | .finished => none

namespace Crew

/-- A crew of one thread. -/
def start (s : σ) (now : Nat) (jobs : List (Job σ β)) : Crew σ β :=
  ⟨s, now, [⟨.ready now, jobs, []⟩], [0], []⟩

/-- Leaves a thread where it cannot go on by itself. -/
def leave (id : Nat) (t : Thread σ β) (c : Crew σ β) : Crew σ β :=
  let others := c.queue.filter (· ≠ id)
  { c with
    threads := c.threads.set id t
    queue := if t.isFinished then others else others ++ [id] }

def spawn (delay : Nat) (jobs : List (Job σ β)) (c : Crew σ β) : Crew σ β :=
  { c with
    threads := c.threads ++ [⟨.ready (c.now + delay), jobs, []⟩]
    queue := c.queue ++ [c.threads.length]
    unjoined := c.unjoined ++ [c.threads.length] }

def answers (id : Nat) (c : Crew σ β) : List β :=
  (c.threads[id]?.map (·.answers)).getD []

def isFinished (id : Nat) (c : Crew σ β) : Bool :=
  c.threads[id]?.any (·.isFinished)

variable (signals : σ → Nat)

def canGoOn (c : Crew σ β) (t : Thread σ β) : Bool :=
  match t.status with
  | .ready due => due ≤ c.now
  | .asleep _ instant heard => instant ≤ c.now || heard ≠ signals c.state
  | .joining ids _ => ids.all c.isFinished
  | .finished => false

/-- Does the jobs of a thread up to one that has to wait. -/
def work (id : Nat) : List β → List (Job σ β) → Crew σ β → Crew σ β
  | answers, [], c => c.leave id ⟨.finished, [], answers⟩
  | answers, .act a :: rest, c =>
    match a.advance c.now c.state with
    | (.done b, s) => work id (answers ++ [b]) rest { c with state := s }
    | (.asleep a instant, s) =>
      { c with state := s }.leave id ⟨.asleep a instant (signals s), rest, answers⟩
  | answers, .spawn delay jobs b :: rest, c =>
    work id (answers ++ [b]) rest (c.spawn delay jobs)
  | answers, .join answer :: rest, c =>
    { c with unjoined := [] }.leave id ⟨.joining c.unjoined answer, rest, answers⟩

/-- Lets a thread go on. -/
def goOn (id : Nat) (t : Thread σ β) (c : Crew σ β) : Crew σ β :=
  match t.status with
  | .ready _ => c.work signals id t.answers t.jobs
  | .asleep a _ _ => c.work signals id t.answers (.act a :: t.jobs)
  | .joining ids answer =>
    c.work signals id (t.answers ++ [answer (ids.map c.answers)]) t.jobs
  | .finished => c

/-- Lets the first thread in the queue go on that can, one that joins only if no
other can, or lets time pass; nothing if neither would bring anything about. -/
def round? (c : Crew σ β) : Option (Crew σ β) :=
  let queue := c.queue.filterMap fun id => c.threads[id]?.map (id, ·)
  let able := queue.filter fun (_, t) => c.canGoOn signals t
  match (able.find? fun (_, t) => !t.isJoining) <|> able.head? with
  | some (id, t) => some (c.goOn signals id t)
  | none => (queue.filterMap (·.2.instant?)).min?.map fun now => { c with now }

/-- Goes on for at most so many rounds, until the thread in charge has finished. -/
def run : Nat → Crew σ β → Crew σ β
  | 0, c => c
  | n + 1, c =>
    if c.isFinished 0 then c
    else match c.round? signals with
      | none => c
      | some c => run n c

end Crew

end Wiring
