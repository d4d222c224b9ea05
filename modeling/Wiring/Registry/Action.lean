import Wiring.Registry.Wait

/-!
# Actions

An action works on a state that it shares with others, who change it while it
waits.

`Action.advance` carries an action on as far as it gets without a pause, in no
time, so that the clock shows the same all along and no one else has a turn.
`Action.run` carries it out against a course of events, in which time passes
and others may have a turn whenever it has read the clock.
-/

namespace Wiring

inductive Action (σ γ : Type) : Type 1
  | done (c : γ)
  | act {β : Type} (f : σ → β × σ) (next : β → Action σ γ)
  /-- Reads the clock. -/
  | clock (next : Nat → Action σ γ)
  /-- Waits until something is found or the deadline is reached. -/
  | poll {β : Type} (check : σ → Option β × σ) (interval deadline : Nat)
      (next : WaitOutcome β → Action σ γ)

/-- An action that is done, or that sleeps and asks to be woken at an instant to
go on as it says. -/
inductive Progress (σ γ : Type) : Type 1
  | done (c : γ)
  | asleep (rest : Action σ γ) (instant : Nat)

namespace Action

variable {σ β γ δ : Type}

protected def bind : Action σ γ → (γ → Action σ δ) → Action σ δ
  | .done c, k => k c
  | .act f next, k => .act f fun b => (next b).bind k
  | .clock next, k => .clock fun now => (next now).bind k
  | .poll check interval deadline next, k =>
    .poll check interval deadline fun o => (next o).bind k

instance : Monad (Action σ) where
  pure := .done
  bind := Action.bind

instance : MonadStateOf σ (Action σ) where
  get := .act (fun s => (s, s)) .done
  set s := .act (fun _ => ((), s)) .done
  modifyGet f := .act f .done

/-- Waits as a policy says. -/
def await (p : WaitPolicy) (check : σ → Option β × σ) : Action σ (WaitOutcome β) :=
  .clock fun now =>
    match p.deadline? now with
    | none => .done .overflow
    | some deadline => .poll check p.interval.nanos deadline .done

/-- Goes on until it is done or has to sleep, in no time. -/
def advance (now : Nat) : Action σ γ → σ → Progress σ γ × σ
  | .done c, s => (.done c, s)
  | .act f next, s =>
    match f s with
    | (b, s) => (next b).advance now s
  | .clock next, s => (next now).advance now s
  | .poll check interval deadline next, s =>
    match attempt check interval deadline now s with
    | (.ended o, s) => (next o).advance now s
    | (.again instant, s) => (.asleep (.poll check interval deadline next) instant, s)

/-- Carries an action out. It reads the clock at the given moments, one after the
other, and there is no answer if they end before it does. What follows a wait
begins with the moment of its last check. -/
def run : Action σ γ → List (Moment σ) → σ → Option γ × σ
  | .done c, _, s => (some c, s)
  | .act f next, moments, s =>
    match f s with
    | (b, s) => (next b).run moments s
  | .clock _, [], s => (none, s)
  | .clock next, m :: rest, s => (next m.reading).run rest (m.effect s)
  | .poll check interval deadline next, moments, s =>
    let r := waitUntil check interval deadline moments s
    match r.outcome with
    | none => (none, r.state)
    | some o => (next o).run (moments.drop (r.checks - 1)) r.state

end Action

end Wiring
