import Mathlib.Data.List.TakeWhile
import Wiring.Proofs.Registry.Waits

/-!
# Waits within their window

What a wait sees at a moment is what its check finds and what the clock shows after it.
The wait goes on as long as it finds nothing and the clock has not reached the deadline,
so a whole wait is told by what it sees: the sights with which it goes on, and the first
one with which it does not. It also ends, with neither a value nor the end of its window,
where the clock cannot tell the instant an interval later, although the deadline comes
before that.

A wake-up that is a timeout brings the clock forward by an interval or to the deadline.
So there is room for as many timeouts as the policy has retries, whatever other wake-ups
come between them.
-/

namespace Wiring

variable {σ β : Type}

/-- What a check finds, and the reading of the clock after it. -/
structure Sight (β : Type) where
  answer : Option β
  reading : Nat
deriving DecidableEq, Repr

/-- What there is to be seen in a course of events, with a check at every moment. -/
def sights (check : σ → Option β × σ) : List (Moment σ) → σ → List (Sight β)
  | [], _ => []
  | m :: rest, s => ⟨(check s).1, m.reading⟩ :: sights check rest (m.effect (check s).2)

namespace Sight

/-- A wait goes on with this sight. -/
def goesOn (interval deadline : Nat) (x : Sight β) : Bool :=
  x.answer.isNone && x.reading < deadline && x.reading + interval ≤ latestInstant

/-- The instant at which a wait that goes on asks to be woken. -/
def instant (interval deadline : Nat) (x : Sight β) : Nat :=
  min (x.reading + interval) deadline

/-- What a wait comes to that does not go on. -/
def outcome (deadline : Nat) (x : Sight β) : WaitOutcome β :=
  match x.answer with
  | some b => .found b
  | none => if deadline ≤ x.reading then .timedOut else .overflow

end Sight

/-- How a sleep ends: something has changed, for no reason, or because the instant that was
asked for has come. -/
inductive Wake
  | notified
  | spurious
  | timedOut
deriving DecidableEq, Repr

/-- Timeouts do not come early: where the sleep after a check ends by one, the next reading is
no earlier than the instant that was asked for. -/
def WaitRun.Timely (r : WaitRun σ β) (readings : List Nat) (wakes : Nat → Wake) : Prop :=
  ∀ k instant reading, wakes k = .timedOut → r.requested[k]? = some instant →
    readings[k + 1]? = some reading → instant ≤ reading

/-- How many of the first wake-ups are timeouts. -/
def timeouts (wakes : Nat → Wake) (count : Nat) : Nat :=
  (List.range count).countP fun k => wakes k = .timedOut

variable {check : σ → Option β × σ} {interval deadline : Nat} {moments : List (Moment σ)} {s : σ}
  {p : WaitPolicy} {start : Nat} {x : Sight β} {b : β}

/-! ## One sight -/

theorem Sight.goesOn_iff : x.goesOn interval deadline = true ↔
    x.answer = none ∧ x.reading < deadline ∧ x.reading + interval ≤ latestInstant := by
  simp only [goesOn, Bool.and_eq_true, decide_eq_true_eq, Option.isNone_iff_eq_none, and_assoc]

theorem Sight.goesOn_eq_false_iff : x.goesOn interval deadline = false ↔
    x.answer ≠ none ∨ deadline ≤ x.reading ∨ latestInstant < x.reading + interval := by
  rw [← Bool.not_eq_true, goesOn_iff]
  by_cases hanswer : x.answer = none
  · simp only [hanswer, true_and, ne_eq, not_true_eq_false, false_or]
    omega
  · simp [hanswer]

theorem Sight.found_iff : x.goesOn interval deadline = false ∧ x.outcome deadline = .found b ↔
    x.answer = some b := by
  rw [goesOn_eq_false_iff, outcome]
  cases x.answer with
  | some c => simp
  | none =>
    refine iff_of_false ?_ nofun
    rintro ⟨-, h⟩
    dsimp only at h
    split at h <;> cases h

theorem Sight.timedOut_iff : x.goesOn interval deadline = false ∧ x.outcome deadline = .timedOut ↔
    x.answer = none ∧ deadline ≤ x.reading := by
  rw [goesOn_eq_false_iff, outcome]
  cases x.answer with
  | some c => simp
  | none =>
    by_cases hlate : deadline ≤ x.reading
    · simp [hlate]
    · simp [hlate]

/-- An attempt depends on what is seen. -/
theorem attempt_eq {now : Nat} (hx : x = ⟨(check s).1, now⟩) :
    attempt check interval deadline now s =
      (if x.goesOn interval deadline then .again (x.instant interval deadline)
        else .ended (x.outcome deadline), (check s).2) := by
  subst hx
  cases hanswer : (check s).1 with
  | some b => rw [attempt_of_some hanswer]; rfl
  | none =>
    rw [attempt_of_none hanswer]
    by_cases hlate : deadline ≤ now
    · simp [Sight.goesOn, Sight.outcome, hlate, Nat.not_lt.mpr hlate]
    · by_cases hbeyond : latestInstant < now + interval
      · simp [Sight.goesOn, Sight.outcome, hlate, hbeyond]
      · simp [Sight.goesOn, Sight.instant, hlate, hbeyond, Nat.lt_of_not_le hlate,
          Nat.le_of_not_lt hbeyond]

/-! ## A whole wait, told by what it sees -/

theorem map_reading_sights (check : σ → Option β × σ) (moments : List (Moment σ)) (s : σ) :
    (sights check moments s).map Sight.reading = moments.map Moment.reading := by
  induction moments generalizing s with
  | nil => rfl
  | cons m rest ih => rw [sights, List.map_cons, List.map_cons, ih]

theorem length_sights : (sights check moments s).length = moments.length := by
  rw [← List.length_map Sight.reading, map_reading_sights, List.length_map]

/-- **A wait is told by what it sees.** It asks to be woken after each sight with which it goes
on, and the first other sight is its last one. -/
theorem waitUntil_of_sights {before after : List (Sight β)}
    (hbefore : (sights check moments s).takeWhile (Sight.goesOn interval deadline) = before)
    (hafter : (sights check moments s).dropWhile (Sight.goesOn interval deadline) = after) :
    (waitUntil check interval deadline moments s).requested =
        before.map (Sight.instant interval deadline) ∧
    (waitUntil check interval deadline moments s).outcome =
        after.head?.map (Sight.outcome deadline) ∧
    (waitUntil check interval deadline moments s).checks = (before ++ after.take 1).length := by
  subst hbefore hafter
  induction moments generalizing s with
  | nil => exact ⟨rfl, rfl, rfl⟩
  | cons m rest ih =>
    rw [waitUntil, attempt_eq rfl, sights]
    cases hgoes : Sight.goesOn interval deadline ⟨(check s).1, m.reading⟩ with
    | true =>
      obtain ⟨hrequested, houtcome, hchecks⟩ := ih (s := m.effect (check s).2)
      rw [List.takeWhile_cons_of_pos hgoes, List.dropWhile_cons_of_pos hgoes, if_pos rfl]
      refine ⟨?_, houtcome, ?_⟩
      · rw [List.map_cons, ← hrequested]
        rfl
      · rw [List.cons_append, List.length_cons, ← hchecks]
        rfl
    | false =>
      have hstop := (Bool.not_eq_true _).mpr hgoes
      rw [List.takeWhile_cons_of_neg hstop, List.dropWhile_cons_of_neg hstop,
        if_neg Bool.false_ne_true]
      exact ⟨rfl, rfl, rfl⟩

/-- A sight with less than an interval of the clock left ends the wait. -/
theorem outlasts_of_sights {before after : List (Sight β)}
    (hsights : sights check moments s = before ++ x :: after)
    (hbefore : ∀ y ∈ before, y.answer = none ∧ y.reading < deadline) (hanswer : x.answer = none)
    (hearly : x.reading < deadline) (hbeyond : latestInstant < x.reading + interval) :
    Outlasts check interval deadline moments s := by
  induction before generalizing moments s with
  | nil =>
    cases moments with
    | nil => cases hsights
    | cons m rest =>
      cases hsights
      exact .now hanswer hearly hbeyond
  | cons y before ih =>
    cases moments with
    | nil => cases hsights
    | cons m rest =>
      rw [sights, List.cons_append, List.cons.injEq] at hsights
      obtain ⟨rfl, hsights⟩ := hsights
      obtain ⟨hy, hbefore⟩ := List.forall_mem_cons.mp hbefore
      exact .later hy.1 hy.2 (ih hsights hbefore)

/-- A wait that does not outlast the clock goes on with every sight but the first that finds
something or comes at the deadline. -/
theorem goesOn_of_not_outlasts (h : ¬ Outlasts check interval deadline moments s)
    {before after : List (Sight β)} (hsights : sights check moments s = before ++ after)
    (hbefore : ∀ y ∈ before, y.answer = none ∧ y.reading < deadline) (hx : x ∈ before) :
    x.goesOn interval deadline = true := by
  obtain ⟨front, back, rfl⟩ := List.append_of_mem hx
  obtain ⟨hanswer, hearly⟩ := hbefore x hx
  refine Sight.goesOn_iff.mpr ⟨hanswer, hearly, Nat.le_of_not_lt fun hbeyond => h ?_⟩
  rw [List.append_assoc, List.cons_append] at hsights
  exact outlasts_of_sights hsights (fun y hy => hbefore y (List.mem_append_left _ hy)) hanswer
    hearly hbeyond

/-- **The first check that finds something, or comes at the deadline, decides the wait,** if the
wait does not outlast the clock. -/
theorem outcome_of_first (h : ¬ Outlasts check interval deadline moments s)
    {before after : List (Sight β)} (hsights : sights check moments s = before ++ x :: after)
    (hbefore : ∀ y ∈ before, y.answer = none ∧ y.reading < deadline)
    (hx : x.answer ≠ none ∨ deadline ≤ x.reading) :
    (waitUntil check interval deadline moments s).outcome = some (x.outcome deadline) := by
  have hgoes := fun y (hy : y ∈ before) => goesOn_of_not_outlasts h hsights hbefore hy
  have hstops : x.goesOn interval deadline = false :=
    Sight.goesOn_eq_false_iff.mpr (hx.imp_right .inl)
  have hafter : (sights check moments s).dropWhile (Sight.goesOn interval deadline) =
      x :: after := by
    rw [hsights, List.dropWhile_append_of_pos hgoes,
      List.dropWhile_cons_of_neg ((Bool.not_eq_true _).mpr hstops)]
  rw [(waitUntil_of_sights rfl hafter).2.1]
  rfl

section

variable {r : WaitRun σ β} (hr : waitUntil check interval deadline moments s = r)
include hr

/-- The checks that are made find what is to be seen with them. -/
theorem take_sights : (sights check moments s).take r.checks =
    (sights check moments s).takeWhile (Sight.goesOn interval deadline) ++
      ((sights check moments s).dropWhile (Sight.goesOn interval deadline)).take 1 := by
  subst hr
  have hsplit := List.takeWhile_append_dropWhile (l := sights check moments s)
    (p := Sight.goesOn interval deadline)
  rw [(waitUntil_of_sights rfl rfl).2.2]
  refine (List.prefix_iff_eq_take.mp ?_).symm
  conv => rhs; rw [← hsplit]
  exact (List.prefix_append_right_inj _).mpr (List.take_prefix ..)

/-- A wait goes on with every sight but the last. -/
theorem goesOn_of_mem_dropLast (hx : x ∈ ((sights check moments s).take r.checks).dropLast) :
    x.goesOn interval deadline = true := by
  rw [take_sights hr] at hx
  refine List.mem_takeWhile_imp (l := sights check moments s) ?_
  cases hafter : (sights check moments s).dropWhile (Sight.goesOn interval deadline) with
  | nil =>
    rw [hafter, List.take_nil, List.append_nil] at hx
    exact (List.dropLast_sublist _).subset hx
  | cons y rest =>
    rwa [hafter, List.take_succ_cons, List.take_zero, List.dropLast_concat] at hx

/-- The last sight of a wait that is over tells what it comes to. -/
theorem outcome_eq_some_iff {o : WaitOutcome β} : r.outcome = some o ↔
    ∃ x, ((sights check moments s).take r.checks).getLast? = some x ∧
      x.goesOn interval deadline = false ∧ x.outcome deadline = o := by
  rw [take_sights hr, ← hr, (waitUntil_of_sights rfl rfl).2.1]
  cases hafter : (sights check moments s).dropWhile (Sight.goesOn interval deadline) with
  | nil =>
    rw [List.take_nil, List.append_nil]
    refine iff_of_false nofun ?_
    rintro ⟨x, hlast, hgoes, -⟩
    rw [List.mem_takeWhile_imp (List.mem_of_getLast? hlast)] at hgoes
    cases hgoes
  | cons y rest =>
    have hy : y.goesOn interval deadline = false := by
      have hhead := List.head?_dropWhile_not (Sight.goesOn interval deadline)
        (sights check moments s)
      rwa [hafter] at hhead
    rw [List.take_succ_cons, List.take_zero, List.getLast?_concat]
    constructor
    · rintro ⟨⟩
      exact ⟨y, rfl, hy, rfl⟩
    · rintro ⟨x, ⟨⟩, -, rfl⟩
      rfl

theorem length_take_sights : ((sights check moments s).take r.checks).length = r.checks := by
  rw [take_sights hr, ← hr, (waitUntil_of_sights rfl rfl).2.2]

theorem length_requested : r.requested.length =
    ((sights check moments s).takeWhile (Sight.goesOn interval deadline)).length := by
  rw [← hr, (waitUntil_of_sights rfl rfl).1, List.length_map]

theorem instant_of_requested {k instant : Nat} (h : r.requested[k]? = some instant) :
    ∃ x, (sights check moments s)[k]? = some x ∧ x.goesOn interval deadline = true ∧
      instant = x.instant interval deadline := by
  rw [← hr, (waitUntil_of_sights rfl rfl).1, List.getElem?_map, Option.map_eq_some_iff] at h
  obtain ⟨x, hx, hinstant⟩ := h
  have hgoes := List.mem_takeWhile_imp (List.mem_of_getElem? hx)
  obtain ⟨hk, hxk⟩ := List.getElem?_eq_some_iff.mp hx
  have hprefix := List.takeWhile_prefix (Sight.goesOn interval deadline)
    (l := sights check moments s)
  exact ⟨x, (List.prefix_iff_getElem?.mp hprefix k hk).trans (congrArg some hxk), hgoes,
    hinstant.symm⟩

/-- Between two requests there is a sleep, and no check is made without one. -/
theorem checks_le : r.checks ≤ r.requested.length + 1 := by
  rw [length_requested hr, ← hr, (waitUntil_of_sights rfl rfl).2.2, List.length_append,
    List.length_take]
  omega

/-- A wait that is not over has made all its checks in vain. -/
theorem checks_of_outcome_none (h : r.outcome = none) :
    r.checks = moments.length ∧ r.requested.length = moments.length := by
  have hafter : (sights check moments s).dropWhile (Sight.goesOn interval deadline) = [] := by
    rwa [← hr, (waitUntil_of_sights rfl rfl).2.1, Option.map_eq_none_iff,
      List.head?_eq_none_iff] at h
  have hlength : ((sights check moments s).takeWhile (Sight.goesOn interval deadline)).length =
      moments.length := by
    rw [List.dropWhile_eq_nil_iff] at hafter
    rw [List.takeWhile_eq_self_iff.mpr hafter, length_sights]
  rw [length_requested hr, hlength, ← hr, (waitUntil_of_sights rfl hafter).2.2, List.take_nil,
    List.append_nil, hlength]
  exact ⟨rfl, rfl⟩

end

/-! ## Readings and timeouts -/

theorem timeouts_succ (wakes : Nat → Wake) (k : Nat) :
    timeouts wakes (k + 1) = timeouts wakes k + if wakes k = .timedOut then 1 else 0 := by
  rw [timeouts, List.range_succ, List.countP_append, List.countP_singleton, timeouts]
  simp only [decide_eq_true_eq]

theorem timeouts_of_all {wakes : Nat → Wake} (h : ∀ k, wakes k = .timedOut) (count : Nat) :
    timeouts wakes count = count := by
  induction count with
  | zero => rfl
  | succ k ih => rw [timeouts_succ, ih, if_pos (h k)]

section

variable {r : WaitRun σ β} {wakes : Nat → Wake}

/-- Every timeout brings the clock forward by an interval, until it has reached the deadline. -/
theorem le_reading_of_timeouts (hr : waitUntil check interval deadline moments s = r)
    (hclock : (start :: moments.map Moment.reading).Pairwise (· ≤ ·))
    (hwakes : r.Timely (moments.map Moment.reading) wakes) {k : Nat}
    (hk : k ≤ r.requested.length) (hx : (sights check moments s)[k]? = some x) :
    min (start + interval * timeouts wakes k) deadline ≤ x.reading := by
  obtain ⟨hstart, hmono⟩ := List.pairwise_cons.mp hclock
  have hreading : ∀ {k : Nat} {x : Sight β}, (sights check moments s)[k]? = some x →
      (moments.map Moment.reading)[k]? = some x.reading := by
    intro k x hx
    rw [← map_reading_sights check moments s, List.getElem?_map, hx]
    rfl
  induction k generalizing x with
  | zero =>
    have hfirst : start ≤ x.reading := hstart _ (List.mem_of_getElem? (hreading hx))
    exact Nat.le_trans (Nat.min_le_left ..) hfirst
  | succ k ih =>
    have hasked : r.requested[k]? = some r.requested[k] := List.getElem?_eq_getElem hk
    obtain ⟨y, hy, -, hinstant⟩ := instant_of_requested hr hasked
    have hbefore := ih (Nat.le_of_succ_le hk) hy
    rw [timeouts_succ]
    by_cases hwake : wakes k = .timedOut
    · have hlater := hwakes k _ _ hwake hasked (hreading hx)
      rw [hinstant, Sight.instant] at hlater
      rw [if_pos hwake, Nat.mul_succ]
      omega
    · have hlater : y.reading ≤ x.reading := by
        obtain ⟨hi, hyi⟩ := List.getElem?_eq_some_iff.mp (hreading hy)
        obtain ⟨hj, hxj⟩ := List.getElem?_eq_some_iff.mp (hreading hx)
        rw [← hyi, ← hxj]
        exact List.pairwise_iff_getElem.mp hmono k (k + 1) hi hj (Nat.lt_succ_self k)
      rw [if_neg hwake]
      exact Nat.le_trans hbefore hlater

/-- A window of so many intervals has room for so many timeouts. -/
theorem timeouts_le {retries : Nat}
    (hr : waitUntil check interval (start + interval * retries) moments s = r)
    (hclock : (start :: moments.map Moment.reading).Pairwise (· ≤ ·))
    (hwakes : r.Timely (moments.map Moment.reading) wakes) :
    timeouts wakes r.requested.length ≤ retries := by
  cases hcount : r.requested.length with
  | zero => exact Nat.zero_le _
  | succ n =>
    -- The last sleep began before the deadline, so the timeouts before it have not used it up.
    have hn : n < r.requested.length := hcount ▸ Nat.lt_succ_self n
    obtain ⟨x, hx, hgoes, -⟩ := instant_of_requested hr (List.getElem?_eq_getElem hn)
    have hbefore := le_reading_of_timeouts hr hclock hwakes (Nat.le_of_lt hn) hx
    obtain ⟨-, hearly, -⟩ := Sight.goesOn_iff.mp hgoes
    have hroom : interval * timeouts wakes n < interval * retries := by omega
    have hlt := Nat.lt_of_mul_lt_mul_left hroom
    rw [timeouts_succ]
    split <;> omega

end

/-! ## Waiting by a policy -/

theorem WaitPolicy.deadline?_of_le
    (h : start + p.interval.nanos * p.retries.toNat ≤ latestInstant) :
    p.deadline? start = some (start + p.interval.nanos * p.retries.toNat) := by
  have hlongest : latestInstant ≤ Duration.longest.nanos := by decide
  have hwindow : p.window.nanos = p.interval.nanos * p.retries.toNat :=
    Nat.min_eq_left (by omega)
  rw [deadline?, hwindow, if_neg (Nat.not_lt.mpr h)]

theorem WaitPolicy.wait_of_le (h : start + p.interval.nanos * p.retries.toNat ≤ latestInstant) :
    p.wait start check moments s = waitUntil check p.interval.nanos
      (start + p.interval.nanos * p.retries.toNat) moments s := by
  rw [wait, deadline?_of_le h]

/-- **A wait keeps to its window unless it outlasts the clock.** The window is `retries` intervals
long, and the clock can tell its end.

The wait checks before it looks at the deadline, and goes on only after a check that found nothing
before the deadline. It gives what its last check has found, and gives up only by a reading at or
past the deadline after a check that found nothing. No instant that it asks for lies past the
deadline. On a clock that does not go back, at most `retries` of its wake-ups are timeouts; so if
all of them are, it makes at most `retries + 1` checks and is over by then.

It overflows just when it outlasts the clock: a check finds nothing before the deadline, and the
clock ends within an interval. Otherwise the first check that finds something or comes at the
deadline decides. -/
theorem WaitPolicy.window_kept_unless_outlasted (p : WaitPolicy) (start : Nat)
    (check : σ → Option β × σ) (moments : List (Moment σ)) (s : σ)
    (hdeadline : start + p.interval.nanos * p.retries.toNat ≤ latestInstant) :
    let deadline := start + p.interval.nanos * p.retries.toNat
    let r := p.wait start check moments s
    let seen := (sights check moments s).take r.checks
    (seen.length = r.checks ∧
      (∀ m rest b, moments = m :: rest → (check s).1 = some b →
        r.outcome = some (.found b) ∧ r.checks = 1) ∧
      (∀ x ∈ seen.dropLast, x.answer = none ∧ x.reading < deadline) ∧
      (∀ b, r.outcome = some (.found b) ↔ ∃ x, seen.getLast? = some x ∧ x.answer = some b) ∧
      (r.outcome = some .timedOut ↔
        ∃ x, seen.getLast? = some x ∧ x.answer = none ∧ deadline ≤ x.reading) ∧
      (r.outcome = none → r.checks = moments.length) ∧
      (∀ instant ∈ r.requested, instant ≤ deadline) ∧
      ∀ wakes, (start :: moments.map Moment.reading).Pairwise (· ≤ ·) →
        r.Timely (moments.map Moment.reading) wakes →
        timeouts wakes r.requested.length ≤ p.retries.toNat ∧
        ((∀ k, wakes k = .timedOut) → r.checks ≤ p.retries.toNat + 1 ∧
          (p.retries.toNat < moments.length → r.outcome ≠ none))) ∧
    (r.outcome = some .overflow ↔ Outlasts check p.interval.nanos deadline moments s) ∧
    (¬ Outlasts check p.interval.nanos deadline moments s → ∀ before x after,
      sights check moments s = before ++ x :: after →
      (∀ y ∈ before, y.answer = none ∧ y.reading < deadline) →
      (∀ b, x.answer = some b → r.outcome = some (.found b)) ∧
      (x.answer = none → deadline ≤ x.reading → r.outcome = some .timedOut)) := by
  intro deadline r seen
  have hr : waitUntil check p.interval.nanos deadline moments s = r := (wait_of_le hdeadline).symm
  have hends {o : WaitOutcome β} := outcome_eq_some_iff hr (o := o)
  refine ⟨⟨length_take_sights hr, ?_, fun x hx => ?_, fun b => ?_, ?_,
    fun h => (checks_of_outcome_none hr h).1, ?_, ?_⟩, ?_, ?_⟩
  · rintro m rest b rfl hfound
    rw [← hr, waitUntil, attempt_of_some hfound]
    exact ⟨rfl, rfl⟩
  · obtain ⟨hanswer, hearly, -⟩ := Sight.goesOn_iff.mp (goesOn_of_mem_dropLast hr hx)
    exact ⟨hanswer, hearly⟩
  · exact hends.trans (exists_congr fun x => and_congr_right fun _ => Sight.found_iff)
  · exact hends.trans (exists_congr fun x => and_congr_right fun _ => Sight.timedOut_iff)
  · intro instant hinstant
    obtain ⟨k, hk⟩ := List.mem_iff_getElem?.mp hinstant
    obtain ⟨x, -, -, rfl⟩ := instant_of_requested hr hk
    exact Nat.min_le_right ..
  · intro wakes hclock hwakes
    have htimeouts := timeouts_le hr hclock hwakes
    refine ⟨htimeouts, fun hall => ?_⟩
    rw [timeouts_of_all hall] at htimeouts
    refine ⟨Nat.le_trans (checks_le hr) (Nat.succ_le_succ htimeouts), fun hlong hnone => ?_⟩
    rw [(checks_of_outcome_none hr hnone).2] at htimeouts
    exact Nat.not_lt.mpr htimeouts hlong
  · rw [← hr]
    exact outcome_waitUntil_eq_overflow_iff
  · intro hroom before x after hsights hbefore
    have hdecides := outcome_of_first hroom hsights hbefore
    rw [hr] at hdecides
    constructor
    · intro b hb
      have hfinds : x.answer ≠ none := by
        rw [hb]
        exact Option.some_ne_none b
      rw [hdecides (.inl hfinds), Sight.outcome, hb]
    · intro hnothing hlate
      rw [hdecides (.inr hlate), Sight.outcome, hnothing]
      exact congrArg some (if_pos hlate)

def pollTwice : WaitPolicy := ⟨⟨10⟩, 2⟩

/-- The first sleep is cut short, the second one lasts an interval and the third one up to the
deadline. -/
def wokenOnce : List (Moment Unit) := [⟨5, id⟩, ⟨8, id⟩, ⟨18, id⟩, ⟨25, id⟩]

def wakesOfWokenOnce (k : Nat) : Wake :=
  if k = 0 then .spurious else .timedOut

theorem WaitPolicy.woken_once_within_window :
    5 + 10 * 2 ≤ latestInstant ∧
    (pollTwice.wait 5 (fun _ => (none (α := Nat), ())) wokenOnce ()).outcome = some .timedOut ∧
    (pollTwice.wait 5 (fun _ => (none (α := Nat), ())) wokenOnce ()).requested = [15, 18, 25] ∧
    timeouts wakesOfWokenOnce 3 ≤ 2 := by
  have hdeadline : 5 + 10 * 2 ≤ latestInstant := by decide
  obtain ⟨⟨-, -, -, -, htimedOut, -, -, htimeouts⟩, -, -⟩ :=
    window_kept_unless_outlasted pollTwice 5 (fun _ => (none (α := Nat), ())) wokenOnce ()
      hdeadline
  refine ⟨hdeadline, htimedOut.mpr ⟨⟨none, 25⟩, rfl, rfl, by decide⟩, rfl, ?_⟩
  refine (htimeouts wakesOfWokenOnce (by decide) ?_).1
  rintro (_ | _ | _ | k) instant reading hwake hasked hreading
  · cases hwake
  · cases hasked
    cases hreading
    decide
  · cases hasked
    cases hreading
    decide
  · cases hreading

/-- One interval, begun a quarter of an hour after the clock. It leaves a millisecond of it. -/
def pollToTheEnd : WaitPolicy := ⟨⟨latestInstant - 900000000000 - 1000000⟩, 1⟩

/-- Finds something the second time. -/
def secondTry (n : Nat) : Option Nat × Nat :=
  (if n = 0 then none else some n, n + 1)

/-- The clock can tell the deadline, but the first check takes two milliseconds, and an interval
after it the clock has ended. So the wait overflows, where it had only to sleep up to the deadline
and the check would have found something then. -/
theorem WaitPolicy.slow_check_outlasts_clock :
    let start := 900000000000
    let deadline := start + pollToTheEnd.interval.nanos * pollToTheEnd.retries.toNat
    let moments : List (Moment Nat) := [⟨start + 2000000, id⟩, ⟨deadline, id⟩]
    deadline ≤ latestInstant ∧ (start :: moments.map Moment.reading).Pairwise (· ≤ ·) ∧
    sights secondTry moments 0 = [⟨none, start + 2000000⟩, ⟨some 1, deadline⟩] ∧
    start + 2000000 < deadline ∧
    (pollToTheEnd.wait start secondTry moments 0).outcome = some .overflow :=
  ⟨by decide, by decide, rfl, by decide, by decide⟩

end Wiring
