import Wiring.Proofs.Container.Registering

/-!
# When a type is given up

Where beans may be displaced, a registration of another type takes nothing from a type
but its name, and with the name the type is gone. So what has become of a type can be
read off the registrations: it is held from its last registration on, until another
type is registered under the name that it was given then.
-/

namespace Wiring.Context

variable {α : Type} {c : Context α} {r : Registration α} {rs : List (Registration α)}
  {name : String} {type : TypeName}

theorem contains_iff_nameOf? : c.contains type = true ↔ ∃ name, c.nameOf? type = some name := by
  rw [contains, nameOf?, ← Option.isSome_iff_exists, Option.isSome_map]

theorem registerAll_cons (c : Context α) (r : Registration α) (rest : List (Registration α)) :
    c.registerAll (r :: rest) = (container.register r c).2.registerAll rest := rfl

theorem registerAll_append (c : Context α) (rs later : List (Registration α)) :
    c.registerAll (rs ++ later) = (c.registerAll rs).registerAll later :=
  List.foldl_append

theorem register_of_replace (hpolicy : c.policy = .replace) (r : Registration α) :
    (container.register r c).2 = c.insert r := by
  rcases register_cases r c with ⟨hdone, -⟩ | ⟨-, hreject, -⟩
  · rw [hdone]
  · rw [hpolicy] at hreject
    cases hreject

/-- What is held was there from the start, or it was registered. -/
theorem registered_of_contains (h : (c.registerAll rs).contains type = true) :
    c.contains type = true ∨ ∃ r ∈ rs, r.bean.type = type := by
  induction rs generalizing c with
  | nil => exact .inl h
  | cons r rest ih =>
    rw [registerAll_cons] at h
    rcases ih h with hheld | ⟨s, hs, htype⟩
    · rcases register_cases r c with ⟨hdone, -⟩ | ⟨hrefused, -⟩
      · rw [hdone, contains, lookup_singletons_insert] at hheld
        split at hheld
        · rename_i htype
          exact .inr ⟨r, List.mem_cons_self, htype.symm⟩
        · split at hheld
          · cases hheld
          · exact .inl hheld
      · rw [hrefused] at hheld
        exact .inl hheld
    · exact .inr ⟨s, List.mem_cons_of_mem _ hs, htype⟩

/-! ## Names that are taken away -/

/-- A type keeps its name until another type is registered under it. -/
theorem Coherent.nameOf?_insert_of_other (h : c.Coherent) (hother : r.bean.type ≠ type) :
    (c.insert r).nameOf? type = some name ↔ c.nameOf? type = some name ∧ r.name ≠ name := by
  rw [nameOf?_insert, if_neg hother.symm]
  simp only [h.paired]
  by_cases htaken : c.nameOf? type = some r.name
  · rw [if_pos htaken, htaken]
    simp
  · rw [if_neg htaken]
    constructor
    · intro hname
      refine ⟨hname, ?_⟩
      rintro rfl
      exact htaken hname
    · exact And.left

theorem Coherent.nameOf?_registerAll_of_others (h : c.Coherent) (hpolicy : c.policy = .replace)
    (hothers : ∀ r ∈ rs, r.bean.type ≠ type) :
    (c.registerAll rs).nameOf? type = some name ↔
      c.nameOf? type = some name ∧ ∀ r ∈ rs, r.name ≠ name := by
  induction rs generalizing c with
  | nil => exact (and_iff_left (List.forall_mem_nil _)).symm
  | cons r rest ih =>
    obtain ⟨hr, hrest⟩ := List.forall_mem_cons.mp hothers
    rw [registerAll_cons, register_of_replace hpolicy, ih (h.insert r) hpolicy hrest,
      h.nameOf?_insert_of_other hr, List.forall_mem_cons, and_assoc]

/-- From a registration on in which a type is registered for the last time, it is held
until its name is taken. -/
theorem Coherent.contains_after_last (h : c.Coherent) (hpolicy : c.policy = .replace)
    (earlier : List (Registration α)) (r : Registration α) {later : List (Registration α)}
    (hlast : ∀ s ∈ later, s.bean.type ≠ r.bean.type) :
    (c.registerAll (earlier ++ r :: later)).contains r.bean.type = true ↔
      ∀ s ∈ later, s.name ≠ r.name := by
  have hbefore := h.registerAll earlier
  have hpolicy' : (c.registerAll earlier).policy = .replace :=
    (policy_registerAll c earlier).trans hpolicy
  have hstep : c.registerAll (earlier ++ r :: later) =
      ((c.registerAll earlier).insert r).registerAll later := by
    rw [registerAll_append, registerAll_cons, register_of_replace hpolicy']
  have hgiven : ((c.registerAll earlier).insert r).nameOf? r.bean.type = some r.name := by
    rw [nameOf?_insert, if_pos rfl]
  simp only [hstep, contains_iff_nameOf?,
    (hbefore.insert r).nameOf?_registerAll_of_others hpolicy' hlast, hgiven, Option.some.injEq]
  constructor
  · rintro ⟨name, rfl, hfree⟩
    exact hfree
  · intro hfree
    exact ⟨r.name, rfl, hfree⟩

/-! ## The last registration of a type -/

/-- After the last registration of a type another type is registered under the name of
that one. -/
def Displaced (rs : List (Registration α)) (type : TypeName) : Prop :=
  ∃ earlier r later, rs = earlier ++ r :: later ∧ r.bean.type = type ∧
    (∀ s ∈ later, s.bean.type ≠ type) ∧ ∃ s ∈ later, s.name = r.name

theorem exists_last_registration (h : ∃ r ∈ rs, r.bean.type = type) :
    ∃ earlier r later, rs = earlier ++ r :: later ∧ r.bean.type = type ∧
      ∀ s ∈ later, s.bean.type ≠ type := by
  induction rs with
  | nil => simp at h
  | cons first rest ih =>
    by_cases hrest : ∃ r ∈ rest, r.bean.type = type
    · obtain ⟨earlier, r, later, rfl, htype, hlast⟩ := ih hrest
      exact ⟨first :: earlier, r, later, rfl, htype, hlast⟩
    · obtain ⟨r, hmem, htype⟩ := h
      rcases List.mem_cons.mp hmem with rfl | hmem
      · exact ⟨[], r, rest, rfl, htype, fun s hs hst => hrest ⟨s, hs, hst⟩⟩
      · exact absurd ⟨r, hmem, htype⟩ hrest

/-- **Displacement.** Where beans may be displaced, a type that was registered is not held
any more just when it was displaced. -/
theorem Coherent.contains_eq_false_iff_displaced (h : c.Coherent) (hpolicy : c.policy = .replace)
    (hregistered : ∃ r ∈ rs, r.bean.type = type) :
    (c.registerAll rs).contains type = false ↔ Displaced rs type := by
  constructor
  · intro hgone
    obtain ⟨earlier, r, later, rfl, rfl, hlast⟩ := exists_last_registration hregistered
    refine ⟨earlier, r, later, rfl, rfl, hlast, ?_⟩
    by_contra hfree
    have hheld := (h.contains_after_last hpolicy earlier r hlast).mpr
      fun s hs hname => hfree ⟨s, hs, hname⟩
    rw [hgone] at hheld
    cases hheld
  · rintro ⟨earlier, r, later, rfl, rfl, hlast, s, hs, hname⟩
    rw [← Bool.not_eq_true, h.contains_after_last hpolicy earlier r hlast]
    intro hfree
    exact hfree s hs hname

/-- Where nothing may be displaced, what is held is held for good. -/
theorem Coherent.contains_registerAll_of_reject (h : c.Coherent) (hpolicy : c.policy = .reject)
    (hheld : c.contains type = true) (rs : List (Registration α)) :
    (c.registerAll rs).contains type = true := by
  obtain ⟨held, hlookup⟩ := Option.isSome_iff_exists.mp hheld
  have hkept := (h.found_registerAll hpolicy rs).1 type held.bean (by rw [lookup, hlookup]; rfl)
  rw [lookup, Option.map_eq_some_iff] at hkept
  obtain ⟨kept, hkept, -⟩ := hkept
  rw [contains, hkept]
  rfl

/-- The clock takes the name of the mailer, and the mailer is gone although its type was
registered twice. -/
example :
    let mailer : TypeName := ⟨"post::Mailer"⟩
    let clock : TypeName := ⟨"time::Clock"⟩
    let c := registerAll { environment := .empty, policy := .replace }
      [⟨"mail", ⟨mailer, 1⟩⟩, ⟨"post", ⟨mailer, 2⟩⟩, ⟨"mail", ⟨clock, 3⟩⟩, ⟨"post", ⟨clock, 4⟩⟩]
    c.contains mailer = false ∧ c.nameOf? clock = some "post" := by
  decide

end Wiring.Context
