import Wiring.Proofs.Container.Naming

/-!
# What a registration does

After a registration every type and every name answers as before, except for the four
that it concerns: the type and the name of the bean lead to the bean, the type that had
the name is gone, and so is the name that the type had. Where nothing may be displaced
there are no such two, and what is found once is found for good.
-/

namespace Wiring.Context

variable {α : Type} {c : Context α} {r : Registration α} {name : String} {type : TypeName}
  {b : Bean α}

/-! ## A registration that is carried out -/

theorem lookup_insert (c : Context α) (r : Registration α) (type : TypeName) :
    (c.insert r).lookup type =
      if type = r.bean.type then some r.bean
      else if c.names.lookup r.name = some type then none else c.lookup type := by
  rw [lookup, lookup_singletons_insert]
  split
  · rfl
  · split <;> rfl

/-- A name that is neither the new nor the old one of the type leads past both types that a
registration concerns, so it leads where it led before. -/
theorem Coherent.lookupNamed_insert (h : c.Coherent) (r : Registration α) (name : String) :
    (c.insert r).lookupNamed name =
      if name = r.name then some r.bean
      else if c.names.lookup name = some r.bean.type then none else c.lookupNamed name := by
  rw [lookupNamed, lookup_names_insert]
  simp only [← h.paired]
  by_cases hname : name = r.name
  · rw [if_pos hname, if_pos hname, Option.bind_some, lookup_insert, if_pos rfl]
  · rw [if_neg hname, if_neg hname]
    by_cases hold : c.names.lookup name = some r.bean.type
    · rw [if_pos hold, if_pos hold, Option.bind_none]
    · rw [if_neg hold, if_neg hold, lookupNamed]
      cases htype : c.names.lookup name with
      | none => rfl
      | some type =>
        have hother : type ≠ r.bean.type := by
          rintro rfl
          exact hold htype
        have hkeeps : c.names.lookup r.name ≠ some type := by
          intro hdisplaced
          rw [h.paired] at htype hdisplaced
          exact hname (Option.some.inj (htype.symm.trans hdisplaced))
        rw [Option.bind_some, Option.bind_some, lookup_insert, if_neg hother, if_neg hkeeps]

/-- A name is taken just when it leads to a bean. -/
theorem Coherent.lookupNamed_eq_none_iff (h : c.Coherent) :
    c.lookupNamed name = none ↔ c.names.lookup name = none := by
  constructor
  · intro hnone
    cases hname : c.names.lookup name with
    | none => rfl
    | some type =>
      obtain ⟨held, hheld, -⟩ := h.held_of_name hname
      simp [lookupNamed, lookup, hname, hheld] at hnone
  · intro hname
    rw [lookupNamed, hname, Option.bind_none]

theorem Coherent.conflicts_eq_false_iff (h : c.Coherent) :
    c.conflicts r = false ↔ c.lookupNamed r.name = none ∧ c.lookup r.bean.type = none := by
  rw [h.lookupNamed_eq_none_iff, conflicts, Bool.or_eq_false_iff, Option.isSome_eq_false_iff,
    Option.isNone_iff_eq_none, contains, Option.isSome_eq_false_iff, Option.isNone_iff_eq_none,
    lookup, Option.map_eq_none_iff]

/-! ## Where nothing is displaced -/

theorem policy_register (r : Registration α) (c : Context α) :
    (container.register r c).2.policy = c.policy := by
  rcases register_cases r c with ⟨hdone, -⟩ | ⟨hrefused, -⟩
  · rw [hdone]
    rfl
  · rw [hrefused]

theorem policy_registerAll (c : Context α) (rs : List (Registration α)) :
    (c.registerAll rs).policy = c.policy := by
  induction rs generalizing c with
  | nil => rfl
  | cons r rest ih => exact (ih _).trans (policy_register r c)

namespace Coherent

theorem lookup_insert_of_free (h : c.Coherent) (hfree : c.conflicts r = false)
    (type : TypeName) :
    (c.insert r).lookup type = if type = r.bean.type then some r.bean else c.lookup type := by
  have hname := h.lookupNamed_eq_none_iff.mp (h.conflicts_eq_false_iff.mp hfree).1
  simp [lookup_insert, hname]

theorem lookupNamed_insert_of_free (h : c.Coherent) (hfree : c.conflicts r = false)
    (name : String) :
    (c.insert r).lookupNamed name = if name = r.name then some r.bean else c.lookupNamed name := by
  have hold : c.names.lookup name ≠ some r.bean.type := by
    intro hname
    obtain ⟨held, hheld, -⟩ := h.held_of_name hname
    have htype := (h.conflicts_eq_false_iff.mp hfree).2
    rw [lookup, hheld] at htype
    cases htype
  rw [h.lookupNamed_insert, if_neg hold]

/-- **One registration** that may displace nothing leaves what is found. -/
theorem found_register (h : c.Coherent) (hpolicy : c.policy = .reject) (r : Registration α) :
    (∀ type b, c.lookup type = some b → (container.register r c).2.lookup type = some b) ∧
    (∀ name b, c.lookupNamed name = some b →
      (container.register r c).2.lookupNamed name = some b) := by
  rcases register_cases r c with ⟨hdone, hreplace | hfree⟩ | ⟨hrefused, -⟩
  · rw [hpolicy] at hreplace
    cases hreplace
  · obtain ⟨hname, htype⟩ := h.conflicts_eq_false_iff.mp hfree
    rw [hdone]
    constructor
    · intro type b hb
      rw [h.lookup_insert_of_free hfree, if_neg, hb]
      rintro rfl
      rw [htype] at hb
      cases hb
    · intro name b hb
      rw [h.lookupNamed_insert_of_free hfree, if_neg, hb]
      rintro rfl
      rw [hname] at hb
      cases hb
  · rw [hrefused]
    exact ⟨fun _ _ hb => hb, fun _ _ hb => hb⟩

/-- **Runs.** Where nothing may be displaced, what is found stays through any registrations. -/
theorem found_registerAll (h : c.Coherent) (hpolicy : c.policy = .reject)
    (rs : List (Registration α)) :
    (∀ type b, c.lookup type = some b → (c.registerAll rs).lookup type = some b) ∧
    (∀ name b, c.lookupNamed name = some b → (c.registerAll rs).lookupNamed name = some b) := by
  induction rs generalizing c with
  | nil => exact ⟨fun _ _ hb => hb, fun _ _ hb => hb⟩
  | cons r rest ih =>
    obtain ⟨htype, hname⟩ := h.found_register hpolicy r
    obtain ⟨htype', hname'⟩ := ih (h.register r) ((policy_register r c).trans hpolicy)
    exact ⟨fun type b hb => htype' type b (htype type b hb),
      fun name b hb => hname' name b (hname name b hb)⟩

end Coherent

/-- **The effect of one registration**, in a context with any registrations behind it. If
beans may be displaced it succeeds: its type and its name give the bean, the type that had
the name is gone, the name that the type had is gone, and everything else answers as before.
If not, it succeeds just when neither its name nor its type is found, and then concerns
nothing else; a refusal changes nothing; and whatever is found now is found after any
registrations to come. -/
theorem registration_effect (environment : Environment) (policy : OverridePolicy)
    (rs : List (Registration α)) (r : Registration α) :
    let c := registerAll { environment, policy } rs
    let done := (container.register r c).1
    let after := (container.register r c).2
    match policy with
    | .replace =>
      done = .ok () ∧
      (∀ type, after.lookup type =
        if type = r.bean.type then some r.bean
        else if c.names.lookup r.name = some type then none else c.lookup type) ∧
      (∀ name, after.lookupNamed name =
        if name = r.name then some r.bean
        else if c.names.lookup name = some r.bean.type then none else c.lookupNamed name)
    | .reject =>
      (done = .ok () ↔ c.lookupNamed r.name = none ∧ c.lookup r.bean.type = none) ∧
      (done = .ok () →
        (∀ type, after.lookup type =
          if type = r.bean.type then some r.bean else c.lookup type) ∧
        (∀ name, after.lookupNamed name =
          if name = r.name then some r.bean else c.lookupNamed name)) ∧
      (∀ e, done = .error e → e = .duplicateBean r.name ∧ after = c) ∧
      (∀ later type b, c.lookup type = some b → (c.registerAll later).lookup type = some b) ∧
      (∀ later name b, c.lookupNamed name = some b →
        (c.registerAll later).lookupNamed name = some b) := by
  intro c done after
  have h : c.Coherent := (Coherent.new environment policy).registerAll rs
  have hpolicy : c.policy = policy := policy_registerAll _ rs
  have hcases := register_cases r c
  rw [hpolicy] at hcases
  cases policy with
  | replace =>
    rcases hcases with ⟨hdone, -⟩ | ⟨-, hreject, -⟩
    · have hafter : after = c.insert r := congrArg Prod.snd hdone
      refine ⟨congrArg Prod.fst hdone, ?_, ?_⟩
      · intro type
        rw [hafter, lookup_insert]
      · intro name
        rw [hafter, h.lookupNamed_insert]
    · cases hreject
  | reject =>
    have hlater := fun later => h.found_registerAll hpolicy later
    rcases hcases with ⟨hdone, hreplace | hfree⟩ | ⟨hrefused, -, hconflicts⟩
    · cases hreplace
    · have hafter : after = c.insert r := congrArg Prod.snd hdone
      have hok : done = .ok () := congrArg Prod.fst hdone
      refine ⟨iff_of_true hok (h.conflicts_eq_false_iff.mp hfree), fun _ => ⟨?_, ?_⟩, ?_,
        fun later => (hlater later).1, fun later => (hlater later).2⟩
      · intro type
        rw [hafter, h.lookup_insert_of_free hfree]
      · intro name
        rw [hafter, h.lookupNamed_insert_of_free hfree]
      · intro e he
        rw [hok] at he
        cases he
    · have herror : done = .error (.duplicateBean r.name) := congrArg Prod.fst hrefused
      have hnot : ¬ done = .ok () := by
        rw [herror]
        rintro ⟨⟩
      refine ⟨iff_of_false hnot ?_, fun hok => absurd hok hnot, ?_,
        fun later => (hlater later).1, fun later => (hlater later).2⟩
      · rw [← h.conflicts_eq_false_iff, hconflicts]
        rintro ⟨⟩
      · intro e he
        rw [herror] at he
        cases he
        exact ⟨rfl, congrArg Prod.snd hrefused⟩

/-- The clock is given the name of the mailer: the mailer goes, and so does the old name of
the clock, while the desk stays. -/
example :
    let mailer : TypeName := ⟨"post::Mailer"⟩
    let clock : TypeName := ⟨"time::Clock"⟩
    let desk : TypeName := ⟨"office::Desk"⟩
    let c := registerAll { environment := .empty, policy := .replace }
      [⟨"mail", ⟨mailer, 1⟩⟩, ⟨"clock", ⟨clock, 2⟩⟩, ⟨"desk", ⟨desk, 3⟩⟩, ⟨"mail", ⟨clock, 4⟩⟩]
    [mailer, clock, desk].map c.lookup = [none, some ⟨clock, 4⟩, some ⟨desk, 3⟩] ∧
      ["mail", "clock", "desk"].map c.lookupNamed =
        [some ⟨clock, 4⟩, none, some ⟨desk, 3⟩] := by
  decide

end Wiring.Context
