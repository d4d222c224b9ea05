import Wiring.Registry.Action

/-!
# Waits and the end of the clock

A wait needs instants that the clock may be unable to tell: its deadline, which is fixed
before the first check, and after a check that finds nothing an instant to be woken at.
It overflows just when one of them is missing.
-/

namespace Wiring

variable {σ β : Type}

/-- The wait comes to a check before its deadline that finds nothing, and an interval later
the clock has ended. -/
inductive Outlasts (check : σ → Option β × σ) (interval deadline : Nat) :
    List (Moment σ) → σ → Prop
  | now {m : Moment σ} {rest : List (Moment σ)} {s : σ} (nothing : (check s).1 = none)
    (early : m.reading < deadline) (beyond : latestInstant < m.reading + interval) :
    Outlasts check interval deadline (m :: rest) s
  | later {m : Moment σ} {rest : List (Moment σ)} {s : σ} (nothing : (check s).1 = none)
    (early : m.reading < deadline)
    (h : Outlasts check interval deadline rest (m.effect (check s).2)) :
    Outlasts check interval deadline (m :: rest) s

/-- A wait by the policy from an instant on needs an instant that the clock cannot tell. -/
def WaitPolicy.Overruns (p : WaitPolicy) (start : Nat) (check : σ → Option β × σ)
    (moments : List (Moment σ)) (s : σ) : Prop :=
  latestInstant < start + p.window.nanos ∨
    Outlasts check p.interval.nanos (start + p.window.nanos) moments s

/-- So does a wait that takes the first moment for its deadline. -/
def WaitPolicy.OverrunsIn (p : WaitPolicy) (check : σ → Option β × σ) :
    List (Moment σ) → σ → Prop
  | [], _ => False
  | m :: rest, s => p.Overruns m.reading check rest (m.effect s)

/-- The clock can tell every instant that a wait by the policy from this one on may need. -/
def WaitPolicy.HasRoom (p : WaitPolicy) (reading : Nat) : Prop :=
  reading + max p.window.nanos p.interval.nanos ≤ latestInstant

instance (p : WaitPolicy) (reading : Nat) : Decidable (p.HasRoom reading) :=
  inferInstanceAs (Decidable (_ ≤ _))

variable {check : σ → Option β × σ} {interval deadline : Nat} {moments : List (Moment σ)} {s : σ}
  {p : WaitPolicy}

/-- What a check comes to after which the wait goes on or is over. -/
theorem attempt_of_none {now : Nat} (h : (check s).1 = none) :
    attempt check interval deadline now s =
      (if deadline ≤ now then .ended .timedOut
        else if latestInstant < now + interval then .ended .overflow
        else .again (min (now + interval) deadline), (check s).2) := by
  have hcheck : check s = (none, (check s).2) := Prod.ext h rfl
  rw [attempt, hcheck]
  dsimp only
  split
  · rfl
  · split <;> rfl

theorem attempt_of_some {now : Nat} {b : β} (h : (check s).1 = some b) :
    attempt check interval deadline now s = (.ended (.found b), (check s).2) := by
  have hcheck : check s = (some b, (check s).2) := Prod.ext h rfl
  rw [attempt, hcheck]

theorem Outlasts.head {m : Moment σ} {rest : List (Moment σ)}
    (h : Outlasts check interval deadline (m :: rest) s) :
    (check s).1 = none ∧ m.reading < deadline := by
  cases h with
  | now nothing early _ => exact ⟨nothing, early⟩
  | later nothing early _ => exact ⟨nothing, early⟩

/-- **A wait overflows** just when it outlasts the clock. -/
theorem outcome_waitUntil_eq_overflow_iff :
    (waitUntil check interval deadline moments s).outcome = some .overflow ↔
      Outlasts check interval deadline moments s := by
  induction moments generalizing s with
  | nil =>
    exact iff_of_false (by rintro ⟨⟩) (by rintro ⟨⟩)
  | cons m rest ih =>
    cases hnothing : (check s).1 with
    | some b =>
      rw [waitUntil, attempt_of_some hnothing]
      refine iff_of_false (by rintro ⟨⟩) fun h => ?_
      rw [h.head.1] at hnothing
      cases hnothing
    | none =>
      rw [waitUntil, attempt_of_none hnothing]
      by_cases hlate : deadline ≤ m.reading
      · rw [if_pos hlate]
        exact iff_of_false (by rintro ⟨⟩) fun h => Nat.not_lt.mpr hlate h.head.2
      · rw [if_neg hlate]
        have hearly : m.reading < deadline := Nat.lt_of_not_le hlate
        by_cases hbeyond : latestInstant < m.reading + interval
        · rw [if_pos hbeyond]
          exact iff_of_true rfl (.now hnothing hearly hbeyond)
        · rw [if_neg hbeyond]
          -- The wait goes on, so it is the rest of it that decides.
          refine ih.trans ⟨.later hnothing hearly, ?_⟩
          rintro (⟨-, -, h⟩ | ⟨-, -, h⟩)
          · exact absurd h hbeyond
          · exact h

/-- A wait that finds something at once is over, if the clock can tell its deadline. -/
theorem WaitPolicy.wait_of_found {start : Nat} {m : Moment σ} {rest : List (Moment σ)} {b : β}
    (h : (check s).1 = some b) :
    p.wait start check (m :: rest) s =
      if latestInstant < start + p.window.nanos then ⟨some .overflow, s, 0, []⟩
      else ⟨some (.found b), (check s).2, 1, []⟩ := by
  rw [wait, deadline?]
  by_cases hbeyond : latestInstant < start + p.window.nanos
  · rw [if_pos hbeyond, if_pos hbeyond]
  · rw [if_neg hbeyond, if_neg hbeyond]
    dsimp only
    rw [waitUntil, attempt_of_some h]

theorem WaitPolicy.outcome_wait_eq_overflow_iff {start : Nat} :
    (p.wait start check moments s).outcome = some .overflow ↔
      p.Overruns start check moments s := by
  rw [wait, deadline?, Overruns]
  by_cases hbeyond : latestInstant < start + p.window.nanos
  · rw [if_pos hbeyond]
    exact iff_of_true rfl (.inl hbeyond)
  · rw [if_neg hbeyond]
    exact outcome_waitUntil_eq_overflow_iff.trans (or_iff_right hbeyond).symm

/-- What checks keep, and what happens meanwhile keeps, a wait keeps. -/
theorem waitUntil_keeps {I : σ → Prop} (hcheck : ∀ s, I s → I (check s).2)
    (heffect : ∀ m ∈ moments, ∀ s, I s → I (m.effect s)) (hs : I s) :
    I (waitUntil check interval deadline moments s).state := by
  induction moments generalizing s with
  | nil => exact hs
  | cons m rest ih =>
    have hnext := hcheck s hs
    cases hnothing : (check s).1 with
    | some b =>
      rw [waitUntil, attempt_of_some hnothing]
      exact hnext
    | none =>
      rw [waitUntil, attempt_of_none hnothing]
      split
      · rename_i o t hended
        rw [← (Prod.mk.inj hended).2]
        exact hnext
      · rename_i instant t hagain
        rw [← (Prod.mk.inj hagain).2]
        exact ih (fun n hn => heffect n (List.mem_cons_of_mem _ hn))
          (heffect m (List.mem_cons_self ..) _ hnext)

theorem WaitPolicy.wait_keeps {I : σ → Prop} {start : Nat} (hcheck : ∀ s, I s → I (check s).2)
    (heffect : ∀ m ∈ moments, ∀ s, I s → I (m.effect s)) (hs : I s) :
    I (p.wait start check moments s).state := by
  rw [wait]
  cases p.deadline? start with
  | none => exact hs
  | some deadline => exact waitUntil_keeps hcheck heffect hs

theorem not_outlasts_of_room (h : ∀ m ∈ moments, m.reading + interval ≤ latestInstant) :
    ¬ Outlasts check interval deadline moments s := by
  intro houtlasts
  induction houtlasts with
  | now _ _ beyond => exact Nat.not_lt.mpr (h _ (List.mem_cons_self ..)) beyond
  | later _ _ _ ih => exact ih fun m hm => h m (List.mem_cons_of_mem _ hm)

/-- A wait that has room at its start and at its checks does not overrun. -/
theorem WaitPolicy.not_overruns_of_room {start : Nat} (hstart : p.HasRoom start)
    (h : ∀ m ∈ moments, p.HasRoom m.reading) : ¬ p.Overruns start check moments s := by
  rintro (hbeyond | houtlasts)
  · have hroom : start + max p.window.nanos p.interval.nanos ≤ latestInstant := hstart
    omega
  · refine not_outlasts_of_room ?_ houtlasts
    intro m hm
    have hroom : m.reading + max p.window.nanos p.interval.nanos ≤ latestInstant := h m hm
    omega

theorem WaitPolicy.not_overrunsIn_of_room (h : ∀ m ∈ moments, p.HasRoom m.reading) :
    ¬ p.OverrunsIn check moments s := by
  cases moments with
  | nil => exact id
  | cons m rest =>
    obtain ⟨hstart, hrest⟩ := List.forall_mem_cons.mp h
    exact not_overruns_of_room hstart hrest

/-- The standard settings leave room for a wait that starts a century after the clock does. -/
example : Settings.standard.contextWait.HasRoom (3153600000 * Duration.perSecond) := by
  decide

end Wiring
