import Wiring.Registry.Action

/-!
# Actions in slices

An action runs in slices: from its start, or from a wake, until it is done or
sleeps. Meanwhile others change the state, within a relation that they keep. A
statement about slices sees the state in which a slice began, the outcome if
there is one, and the state in which the slice ended.
-/

namespace Wiring.Action

variable {σ β γ δ : Type}

/-- A check is made in a slice. What it finds goes on, and so does a wait that is over;
otherwise the slice ends asleep. -/
def Tries (rely : σ → σ → Prop) (goesOn : WaitOutcome β → σ → σ → Prop) (asleep : σ → σ → Prop)
    (check : σ → Option β × σ) (start s : σ) : Prop :=
  match check s with
  | (some b, t) => goesOn (.found b) start t
  | (none, t) => rely s t ∧ goesOn .timedOut start t ∧ goesOn .overflow start t ∧ asleep start t

/-- Every slice that the action still runs ends as `post` says. The first of them began
in `start` and has come to `s`. -/
def Works (rely : σ → σ → Prop) (post : σ → Option γ → σ → Prop) :
    Action σ γ → σ → σ → Prop
  | .done c, start, s => post start (some c) s
  | .act f next, start, s => Works rely post (next (f s).1) start (f s).2
  | .clock next, start, s => ∀ now, Works rely post (next now) start s
  | .poll check _ _ next, start, s =>
    let tries := Tries rely (fun o => Works rely post (next o)) (fun start => post start none) check
    tries start s ∧ ∀ t, rely s t → tries t t

theorem Tries.imp {rely : σ → σ → Prop} {goesOn goesOn' : WaitOutcome β → σ → σ → Prop}
    {asleep asleep' : σ → σ → Prop} {check : σ → Option β × σ} {start s : σ}
    (h : Tries rely goesOn asleep check start s)
    (hgoesOn : ∀ o start t, goesOn o start t → goesOn' o start t)
    (hasleep : ∀ start t, asleep start t → asleep' start t) :
    Tries rely goesOn' asleep' check start s := by
  unfold Tries at h ⊢
  cases hcheck : check s with
  | mk found t =>
    rw [hcheck] at h
    cases found with
    | some b => exact hgoesOn _ _ _ h
    | none =>
      obtain ⟨hrely, hlate, hbeyond, h⟩ := h
      exact ⟨hrely, hgoesOn _ _ _ hlate, hgoesOn _ _ _ hbeyond, hasleep _ _ h⟩

/-- An action that needs no wake goes on in the same slice with what follows it. -/
theorem advance_bind_of_done {a : Action σ γ} {k : γ → Action σ δ} {now : Nat} {s t : σ} {c : γ}
    (h : a.advance now s = (.done c, t)) : (a.bind k).advance now s = (k c).advance now t := by
  induction a generalizing s with
  | done d =>
    cases h
    rfl
  | act f next ih => exact ih _ h
  | clock next ih => exact ih _ h
  | poll check interval deadline next ih =>
    rw [advance] at h
    rw [Action.bind, advance]
    split at h
    · exact ih _ h
    · cases h

section Works

variable {rely : σ → σ → Prop} {post post' : σ → Option γ → σ → Prop} {a : Action σ γ} {start s : σ}

theorem Works.imp (h : a.Works rely post start s)
    (hpost : ∀ start o t, post start o t → post' start o t) : a.Works rely post' start s := by
  induction a generalizing start s with
  | done c => exact hpost _ _ _ h
  | act f next ih => exact ih _ h
  | clock next ih =>
    intro now
    exact ih now (h now)
  | poll check interval deadline next ih =>
    obtain ⟨hnow, hlater⟩ := h
    constructor
    · exact hnow.imp (fun o _ _ h => ih o h) fun _ _ h => hpost _ _ _ h
    · intro t ht
      exact (hlater t ht).imp (fun o _ _ h => ih o h) fun _ _ h => hpost _ _ _ h

/-- What follows an action may rely on how its last slice has come to there. -/
theorem Works.bind {k : γ → Action σ δ} {post : σ → Option δ → σ → Prop}
    (h : a.Works rely (fun start o t =>
      match o with
      | some c => (k c).Works rely post start t
      | none => post start none t) start s) :
    (a.bind k).Works rely post start s := by
  induction a generalizing start s with
  | done c => exact h
  | act f next ih => exact ih _ h
  | clock next ih =>
    intro now
    exact ih now (h now)
  | poll check interval deadline next ih =>
    obtain ⟨hnow, hlater⟩ := h
    constructor
    · exact hnow.imp (fun o _ _ h => ih o h) fun _ _ h => h
    · intro t ht
      exact (hlater t ht).imp (fun o _ _ h => ih o h) fun _ _ h => h

/-- **Slices.** An action that works ends its slice as told. If it sleeps it still works
when it is woken, whatever others have done within what they keep. -/
theorem Works.advance (htrans : ∀ s t u, rely s t → rely t u → rely s u)
    (h : a.Works rely post start s) (now : Nat) :
    match a.advance now s with
    | (.done c, t) => post start (some c) t
    | (.asleep rest _, t) => post start none t ∧ ∀ u, rely t u → rest.Works rely post u u := by
  induction a generalizing start s with
  | done c => exact h
  | act f next ih => exact ih _ h
  | clock next ih => exact ih now (h now)
  | poll check interval deadline next ih =>
    obtain ⟨hnow, hlater⟩ := h
    rw [Tries] at hnow
    simp only [Action.advance, attempt]
    cases hcheck : check s with
    | mk found t =>
      rw [hcheck] at hnow
      cases found with
      | some b => exact ih (.found b) hnow
      | none =>
        obtain ⟨hrely, hlate, hbeyond, hasleep⟩ := hnow
        by_cases hdeadline : deadline ≤ now
        · simp only [hdeadline, if_true]
          exact ih .timedOut hlate
        · by_cases hinstant : latestInstant < now + interval
          · simp only [hdeadline, hinstant, if_true, if_false]
            exact ih .overflow hbeyond
          · simp only [hdeadline, hinstant, if_false]
            -- A later wake is as good as the first: the relation reaches it from the start.
            refine ⟨hasleep, fun u hu => ⟨hlater u (htrans _ _ _ hrely hu), ?_⟩⟩
            intro v hv
            exact hlater v (htrans _ _ _ hrely (htrans _ _ _ hu hv))

end Works

end Wiring.Action
