import Wiring.Discovery
import Wiring.Proofs.Container.Displacement

/-!
# What the passes of a scan find

A scan is made once and passed over again and again, while beans are registered in the
context behind it. Each pass asks the context anew, so what it finds depends on the
registrations up to then and on nothing else, the earlier passes included. Hence what a
pass no longer finds can be read off the registrations, and so can whether it is found
again later.
-/

namespace Wiring.Scan

/-- Something done with a scan and the container behind it. -/
inductive Step (α : Type)
  | register (r : Registration α)
  | pass

inductive Answer
  | registered (done : Except ContextError Unit)
  | found (entries : List Discoverable)
deriving DecidableEq

section

variable {α ω : Type}

def answer (scan : Scan α ω) (known : List Discoverable) : Step α → ω → Answer × ω
  | .register r, s =>
    match scan.container.register r s with
    | (done, s) => (.registered done, s)
  | .pass, s =>
    match scan.pass known s with
    | (entries, s) => (.found entries, s)

/-- The answers to steps taken one after the other. -/
def answers (scan : Scan α ω) (known : List Discoverable) : List (Step α) → ω → List Answer
  | [], _ => []
  | step :: rest, s =>
    match scan.answer known step s with
    | (a, s) => a :: answers scan known rest s

/-- The registrations among some steps, in order. -/
def registrations (steps : List (Step α)) : List (Registration α) :=
  steps.filterMap fun
    | .register r => some r
    | .pass => none

theorem registrations_pass (rest : List (Step α)) :
    registrations (.pass :: rest) = registrations rest := rfl

theorem registrations_append (steps more : List (Step α)) :
    registrations (steps ++ more) = registrations steps ++ registrations more :=
  List.filterMap_append

theorem registrations_eq_nil {steps : List (Step α)} (h : ∀ r, .register r ∉ steps) :
    registrations steps = [] := by
  rw [registrations, List.filterMap_eq_nil_iff]
  intro step hstep
  cases step with
  | register r => exact absurd hstep (h r)
  | pass => rfl

end

variable {α : Type}

/-- A scan of a scope over contexts. -/
def within (scope : String) : Scan α (Context α) :=
  ⟨scope, Context.container⟩

/-- The entries in a scope whose types a context does not hold. -/
def missing (scope : String) (known : List Discoverable) (c : Context α) : List Discoverable :=
  known.filter fun d => d.isWithin scope && !c.contains d.type

theorem mem_missing_iff {scope : String} {known : List Discoverable} {c : Context α}
    {d : Discoverable} :
    d ∈ missing scope known c ↔
      d ∈ known ∧ d.isWithin scope = true ∧ c.contains d.type = false := by
  simp [missing]

/-! ## Passes over a context -/

/-- **One pass** finds what is missing and leaves the context as it is. -/
theorem pass_within (scope : String) (known : List Discoverable) (c : Context α) :
    (within scope).pass known c = (missing scope known c, c) := by
  induction known with
  | nil => rfl
  | cons d rest ih =>
    have hcontains : (within scope).container.contains d.type c = (c.contains d.type, c) := rfl
    have hscope : (within (α := α) scope).scope = scope := rfl
    rw [pass, hscope, hcontains, missing, List.filter_cons]
    cases d.isWithin scope with
    | false => exact ih
    | true => cases c.contains d.type <;> simp [ih, missing]

/-- The answer to each step is what it is in the context that the registrations before it
have left. -/
theorem getElem?_answers (scope : String) (known : List Discoverable) (steps : List (Step α))
    (c : Context α) (i : Nat) :
    ((within scope).answers known steps c)[i]? = steps[i]?.map fun step =>
      ((within scope).answer known step (c.registerAll (registrations (steps.take i)))).1 := by
  induction steps generalizing c i with
  | nil => rfl
  | cons step rest ih =>
    cases i with
    | zero => rfl
    | succ i =>
      rw [answers, List.getElem?_cons_succ, ih, List.getElem?_cons_succ, List.take_succ_cons]
      cases step with
      | register r => rfl
      | pass =>
        have hkept : ((within scope).answer known .pass c).2 = c := by
          rw [answer, pass_within]
        rw [hkept, registrations_pass]

theorem found_of_pass {scope : String} {known : List Discoverable} {steps : List (Step α)}
    {i : Nat} (h : steps[i]? = some .pass) (c : Context α) :
    ((within scope).answers known steps c)[i]? =
      some (.found (missing scope known (c.registerAll (registrations (steps.take i))))) := by
  rw [getElem?_answers, h, Option.map_some, answer, pass_within]

/-- Only a pass finds anything. -/
theorem pass_of_found {scope : String} {known entries : List Discoverable} {steps : List (Step α)}
    {i : Nat} {c : Context α}
    (h : ((within scope).answers known steps c)[i]? = some (.found entries)) :
    steps[i]? = some .pass ∧
      entries = missing scope known (c.registerAll (registrations (steps.take i))) := by
  have hpass : steps[i]? = some .pass := by
    rw [getElem?_answers] at h
    obtain ⟨step, hstep, hanswer⟩ := Option.map_eq_some_iff.mp h
    cases step with
    | register r => cases hanswer
    | pass => exact hstep
  refine ⟨hpass, ?_⟩
  rw [found_of_pass hpass, Option.some.injEq, Answer.found.injEq] at h
  exact h.symm

/-! ## From one pass to a later one -/

/-- The registrations before a step are those before an earlier one and some more. -/
theorem registrations_take_append (steps : List (Step α)) {i j : Nat} (h : i ≤ j) :
    registrations (steps.take j) =
      registrations (steps.take i) ++ registrations ((steps.take j).drop i) := by
  rw [← registrations_append]
  congr 1
  conv_lhs => rw [← List.take_append_drop i (steps.take j), List.take_take, Nat.min_eq_left h]

theorem registrations_between_eq_nil {steps : List (Step α)} {i j : Nat}
    (hi : steps[i]? = some .pass)
    (hnone : ∀ (k : Nat) r, i < k → k < j → steps[k]? ≠ some (.register r)) :
    registrations ((steps.take j).drop i) = [] := by
  apply registrations_eq_nil
  intro r hmem
  obtain ⟨n, hn⟩ := List.mem_iff_getElem?.mp hmem
  rw [List.getElem?_drop, List.getElem?_take] at hn
  split at hn
  · rename_i hlt
    cases n with
    | zero =>
      rw [Nat.add_zero, hi] at hn
      cases hn
    | succ n => exact hnone (i + (n + 1)) r (by omega) hlt hn
  · cases hn

/-- **Passes track the context.** Whatever is registered between the passes of a scan over
a context that starts empty, each pass finds the entries within the scope whose types are
not held then, in order and each as often as it is listed. Two passes with no registration
between them find the same. An entry that a pass misses has been registered. If beans may
not be displaced, no later pass finds it; if they may, a later pass finds it just when after
the last registration of its type until then another type was registered under the name of
that one. -/
theorem passes_track_context (environment : Environment) (policy : OverridePolicy)
    (scope : String) (known : List Discoverable) (steps : List (Step α)) :
    let start : Context α := { environment, policy }
    let before := fun i : Nat => registrations (steps.take i)
    let answers := (within scope).answers known steps start
    (∀ i : Nat, steps[i]? = some .pass → answers[i]? = some (.found
      (known.filter fun d => d.isWithin scope && !(start.registerAll (before i)).contains d.type))) ∧
    (∀ i j : Nat, i ≤ j → steps[i]? = some .pass → steps[j]? = some .pass →
      (∀ (k : Nat) r, i < k → k < j → steps[k]? ≠ some (.register r)) → answers[i]? = answers[j]?) ∧
    (∀ (i j : Nat) first later d, i ≤ j → answers[i]? = some (.found first) →
      answers[j]? = some (.found later) → d ∈ known → d.isWithin scope = true → d ∉ first →
      (∃ r ∈ before i, r.bean.type = d.type) ∧
      match policy with
      | .reject => d ∉ later
      | .replace => d ∈ later ↔ Context.Displaced (before j) d.type) := by
  intro start before answers
  have hstart : start.Coherent := Context.Coherent.new environment policy
  have hempty : ∀ type, start.contains type = false := fun _ => rfl
  refine ⟨fun i hi => found_of_pass hi start, ?_, ?_⟩
  · intro i j hij hi hj hnone
    have hbetween := registrations_between_eq_nil hi hnone
    rw [found_of_pass hi, found_of_pass hj, registrations_take_append steps hij, hbetween,
      List.append_nil]
  · intro i j first later d hij hi hj hknown hscope hfirst
    obtain ⟨-, rfl⟩ := pass_of_found hi
    obtain ⟨-, rfl⟩ := pass_of_found hj
    have hheld : (start.registerAll (before i)).contains d.type = true := by
      rw [← Bool.not_eq_false]
      intro hgone
      exact hfirst (mem_missing_iff.mpr ⟨hknown, hscope, hgone⟩)
    have hregistered : ∃ r ∈ before i, r.bean.type = d.type := by
      rcases Context.registered_of_contains hheld with h | h
      · rw [hempty] at h
        cases h
      · exact h
    have hmore : before j = before i ++ registrations ((steps.take j).drop i) :=
      registrations_take_append steps hij
    refine ⟨hregistered, ?_⟩
    cases policy with
    | reject =>
      intro hlater
      have hgone := (mem_missing_iff.mp hlater).2.2
      have hkept := (hstart.registerAll (before i)).contains_registerAll_of_reject
        (Context.policy_registerAll _ _) hheld (registrations ((steps.take j).drop i))
      rw [← Context.registerAll_append, ← hmore] at hkept
      rw [hkept] at hgone
      cases hgone
    | replace =>
      obtain ⟨r, hr, htype⟩ := hregistered
      have hregistered' : ∃ r ∈ before j, r.bean.type = d.type :=
        ⟨r, hmore ▸ List.mem_append_left _ hr, htype⟩
      show d ∈ missing scope known (start.registerAll (before j)) ↔ _
      rw [mem_missing_iff, hstart.contains_eq_false_iff_displaced rfl hregistered']
      exact ⟨fun h => h.2.2, fun h => ⟨hknown, hscope, h⟩⟩

/-- The till takes the name of the cart: the cart is found again, twice as it is listed. -/
example :
    let cart : Discoverable := ⟨"shop", "Cart", ⟨"shop::Cart"⟩⟩
    let till : Discoverable := ⟨"shop::desk", "Till", ⟨"shop::desk::Till"⟩⟩
    let basket : Discoverable := ⟨"shopping", "Basket", ⟨"shopping::Basket"⟩⟩
    (within "shop").answers [cart, till, basket, cart]
      [.pass, .register ⟨"main", ⟨cart.type, 1⟩⟩, .pass, .register ⟨"main", ⟨till.type, 2⟩⟩, .pass]
      { environment := .empty, policy := .replace } =
    [.found [cart, till, cart], .registered (.ok ()), .found [till], .registered (.ok ()),
      .found [cart, cart]] := by
  decide

end Wiring.Scan
