import Wiring.Registry.Settings

/-!
# Bounded waits

A wait reads the clock for its deadline. Then it checks, and as long as the
check finds nothing it reads the clock again and sleeps until it is woken. It
gives up when a reading reaches the deadline. It asks to be woken after an
interval, but not after the deadline; it may be woken earlier for any reason.

`attempt` is one check with what follows from it. `WaitPolicy.wait` repeats
attempts against any course of events, given as a list of moments, one for every
check.
-/

namespace Wiring

/-- The latest instant that the clock can tell, in nanoseconds. -/
def latestInstant : Nat :=
  Nat.pow 2 63 * Duration.perSecond - 1

inductive WaitOutcome (β : Type)
  | found (b : β)
  | timedOut
  /-- An instant to wake at lies beyond what the clock can tell. -/
  | overflow
deriving DecidableEq, Repr

/-- What a check comes to. -/
inductive Attempt (β : Type)
  | ended (o : WaitOutcome β)
  /-- The wait goes on, and asks to be woken at an instant. -/
  | again (instant : Nat)
deriving DecidableEq, Repr

variable {σ β : Type}

/-- Checks once. The deadline matters only if nothing is found. -/
def attempt (check : σ → Option β × σ) (interval deadline now : Nat) (s : σ) :
    Attempt β × σ :=
  match check s with
  | (some b, s) => (.ended (.found b), s)
  | (none, s) =>
    if deadline ≤ now then (.ended .timedOut, s)
    else if latestInstant < now + interval then (.ended .overflow, s)
    else (.again (min (now + interval) deadline), s)

/-- What the clock shows when it is read, and what happens before it is read again. -/
structure Moment (σ : Type) where
  reading : Nat
  effect : σ → σ

/-- A wait from its start: what came of it, unless the moments ended first, the
state it left, how often it checked, and the instants at which it asked to be
woken. -/
structure WaitRun (σ β : Type) where
  outcome : Option (WaitOutcome β)
  state : σ
  checks : Nat
  requested : List Nat

/-- One check more in front, after which a wake was asked for. -/
def WaitRun.after (instant : Nat) (r : WaitRun σ β) : WaitRun σ β :=
  { r with checks := r.checks + 1, requested := instant :: r.requested }

/-- Checks once a moment until the wait has ended. -/
def waitUntil (check : σ → Option β × σ) (interval deadline : Nat) :
    List (Moment σ) → σ → WaitRun σ β
  | [], s => ⟨none, s, 0, []⟩
  | m :: rest, s =>
    match attempt check interval deadline m.reading s with
    | (.ended o, s) => ⟨some o, s, 1, []⟩
    | (.again instant, s) =>
      (waitUntil check interval deadline rest (m.effect s)).after instant

/-- The deadline of a wait that starts at an instant, if the clock can tell it. -/
def WaitPolicy.deadline? (p : WaitPolicy) (start : Nat) : Option Nat :=
  if latestInstant < start + p.window.nanos then none else some (start + p.window.nanos)

/-- Waits from an instant on. The deadline is fixed before the first check. -/
def WaitPolicy.wait (p : WaitPolicy) (start : Nat) (check : σ → Option β × σ)
    (moments : List (Moment σ)) (s : σ) : WaitRun σ β :=
  match p.deadline? start with
  | none => ⟨some .overflow, s, 0, []⟩
  | some deadline => waitUntil check p.interval.nanos deadline moments s

/-- The first moments of a course of events in which nothing happens: one at
every interval, on time. -/
def WaitPolicy.ticks (p : WaitPolicy) (start count : Nat) : List (Moment σ) :=
  (List.range count).map fun k => ⟨start + k * p.interval.nanos, id⟩

end Wiring
