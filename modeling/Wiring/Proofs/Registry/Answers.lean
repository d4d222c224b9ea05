import Wiring.Proofs.Registry.Calls

/-!
# What actions can answer

A statement about the answers of an action holds whatever happens once it has read the clock
and while it waits: a wait may come to anything, and any state may be left behind. This says
less than a statement about slices and needs nothing about what others do.

Actions form a lawful monad, so calls may be regrouped.
-/

namespace Wiring

namespace Action

variable {σ β γ δ : Type}

theorem bind_done (a : Action σ γ) : a.bind .done = a := by
  induction a with
  | done c => rfl
  | act f next ih => exact congrArg (act f) (funext ih)
  | clock next ih => exact congrArg clock (funext ih)
  | poll check interval deadline next ih =>
    exact congrArg (poll check interval deadline) (funext ih)

theorem bind_bind (a : Action σ β) (f : β → Action σ γ) (g : γ → Action σ δ) :
    (a.bind f).bind g = a.bind fun b => (f b).bind g := by
  induction a with
  | done c => rfl
  | act h next ih => exact congrArg (act h) (funext fun b => ih b)
  | clock next ih => exact congrArg clock (funext fun now => ih now)
  | poll check interval deadline next ih =>
    exact congrArg (poll check interval deadline) (funext fun o => ih o)

instance : LawfulMonad (Action σ) :=
  LawfulMonad.mk' (Action σ) bind_done (fun _ _ => rfl) bind_bind

/-- A wait comes first. It takes a moment for its deadline, and those that it does not use are
left to what follows. -/
theorem run_await (p : WaitPolicy) (check : σ → Option β × σ) (k : WaitOutcome β → Action σ γ)
    (m : Moment σ) (rest : List (Moment σ)) (s : σ) :
    ((await p check).bind k).run (m :: rest) s =
      let r := p.wait m.reading check rest (m.effect s)
      match r.outcome with
      | none => (none, r.state)
      | some o => (k o).run (rest.drop (r.checks - 1)) r.state := by
  rw [await, Action.bind, run, WaitPolicy.wait]
  cases p.deadline? m.reading with
  | none => rfl
  | some deadline =>
    cases h : (waitUntil check p.interval.nanos deadline rest (m.effect s)).outcome <;>
      simp only [Action.bind, run, h]

/-- Every answer of the action, begun in a state, satisfies `P` with the state it ends in. -/
def Answers (P : γ → σ → Prop) : Action σ γ → σ → Prop
  | .done c, s => P c s
  | .act f next, s => Answers P (next (f s).1) (f s).2
  | .clock next, _ => ∀ now s, Answers P (next now) s
  | .poll _ _ _ next, _ => ∀ o s, Answers P (next o) s

variable {P : γ → σ → Prop} {a : Action σ γ} {s : σ}

theorem Answers.bind {k : γ → Action σ δ} {P : δ → σ → Prop}
    (h : a.Answers (fun c s => (k c).Answers P s) s) : (a.bind k).Answers P s := by
  induction a generalizing s with
  | done c => exact h
  | act f next ih => exact ih _ h
  | clock next ih => exact fun now s => ih now (h now s)
  | poll check interval deadline next ih => exact fun o s => ih o (h o s)

theorem Answers.imp {P' : γ → σ → Prop} (h : a.Answers P s) (himp : ∀ c s, P c s → P' c s) :
    a.Answers P' s := by
  induction a generalizing s with
  | done c => exact himp c s h
  | act f next ih => exact ih _ h
  | clock next ih => exact fun now s => ih now (h now s)
  | poll check interval deadline next ih => exact fun o s => ih o (h o s)

/-- A slice ends with such an answer, or asleep on the way to one. -/
theorem Answers.advance (h : a.Answers P s) (now : Nat) :
    match a.advance now s with
    | (.done c, t) => P c t
    | (.asleep rest _, _) => ∀ u, rest.Answers P u := by
  induction a generalizing s with
  | done c => exact h
  | act f next ih => exact ih _ h
  | clock next ih => exact ih now (h now s)
  | poll check interval deadline next ih =>
    rw [Action.advance]
    rcases attempt check interval deadline now s with ⟨o | instant, t⟩
    · exact ih o (h o t)
    · exact fun u => h

theorem Answers.run (h : a.Answers P s) {moments : List (Moment σ)} {c : γ} {t : σ}
    (hrun : a.run moments s = (some c, t)) : P c t := by
  induction a generalizing moments s with
  | done d =>
    cases hrun
    exact h
  | act f next ih => exact ih _ h hrun
  | clock next ih =>
    cases moments with
    | nil => cases hrun
    | cons m rest => exact ih m.reading (h m.reading (m.effect s)) hrun
  | poll check interval deadline next ih =>
    rw [Action.run] at hrun
    split at hrun
    · cases hrun
    · exact ih _ (h _ _) hrun

end Action

namespace Call

variable {α ω β γ : Type} {P : Except RegistryError β → World α ω → Prop} {w : World α ω}

/-- What follows a call answers as told where the call has succeeded. -/
theorem answers_bind {call : Call α ω γ} {k : γ → Call α ω β}
    (h : Action.Answers (fun r w =>
      match r with
      | .ok c => Action.Answers P (ExceptT.run (k c)) w
      | .error e => P (.error e) w) (ExceptT.run call) w) :
    Action.Answers P (ExceptT.run (call >>= k)) w := by
  apply Action.Answers.bind
  refine h.imp ?_
  intro r w hr
  cases r <;> exact hr

theorem answers_get {k : World α ω → Call α ω β} (h : Action.Answers P (ExceptT.run (k w)) w) :
    Action.Answers P (ExceptT.run (get >>= k)) w :=
  h

theorem answers_immediately {act : World α ω → Except RegistryError β × World α ω}
    (h : P (act w).1 (act w).2) : Action.Answers P (ExceptT.run (immediately act)) w :=
  h

theorem answers_await {p : WaitPolicy} {late : RegistryError}
    {check : World α ω → Option β × World α ω} (hfound : ∀ b u, P (.ok b) u)
    (hlate : ∀ u, P (.error late) u) (hbeyond : ∀ u, P (.error .clockOverflow) u) :
    Action.Answers P (ExceptT.run (await p late check)) w := by
  intro now v
  dsimp only
  cases p.deadline? now with
  | none => exact hbeyond v
  | some deadline =>
    intro o u
    cases o with
    | found b => exact hfound b u
    | timedOut => exact hlate u
    | overflow => exact hbeyond u

theorem answers_container {P : Except RegistryError (Container α ω) → World α ω → Prop}
    (hbound : ∀ c u, P (.ok c) u) (hlate : ∀ waited u, P (.error (.containerNotReady waited)) u)
    (hbeyond : ∀ u, P (.error .clockOverflow) u) :
    Action.Answers P (ExceptT.run container) w := by
  apply answers_get
  dsimp only
  cases w.registry.handle.bound with
  | some c => exact hbound c w
  | none => exact answers_await hbound (hlate _) hbeyond

/-! ## What a call can fail by -/

/-- Whenever the call fails, it is by such an error. -/
def FailsBy (P : RegistryError → Prop) (call : Call α ω β) : Prop :=
  ∀ w, Action.Answers (fun r _ => ∀ e, r = .error e → P e) (ExceptT.run call) w

variable {P P' : RegistryError → Prop}

theorem FailsBy.imp {call : Call α ω β} (h : FailsBy P call) (himp : ∀ e, P e → P' e) :
    FailsBy P' call := by
  intro w
  refine (h w).imp ?_
  intro r u hr e he
  exact himp e (hr e he)

theorem FailsBy.bind {call : Call α ω γ} {k : γ → Call α ω β} (h : FailsBy P call)
    (hk : ∀ c, FailsBy P (k c)) : FailsBy P (call >>= k) := by
  intro w
  refine answers_bind ((h w).imp ?_)
  intro r u hr
  cases r with
  | ok c => exact hk c u
  | error e =>
    rintro e' ⟨⟩
    exact hr e rfl

theorem failsBy_pure (b : β) : FailsBy P (pure b : Call α ω β) := by
  rintro w e ⟨⟩

theorem failsBy_immediately {act : World α ω → Except RegistryError β × World α ω}
    (h : ∀ w e, (act w).1 = .error e → P e) : FailsBy P (immediately act) :=
  h

theorem failsBy_container (hlate : ∀ waited, P (.containerNotReady waited))
    (hbeyond : P .clockOverflow) : FailsBy P (container : Call α ω (Container α ω)) := by
  intro w
  refine answers_container ?_ ?_ ?_
  · rintro c u e ⟨⟩
  · rintro waited u e ⟨⟩
    exact hlate waited
  · rintro u e ⟨⟩
    exact hbeyond

end Call

end Wiring
