import Mathlib.Data.List.Nodup
import Wiring.Proofs.Container.Entries

/-!
# Names and types of a context

A context knows the type that goes by a name and, with the bean of a type, the
name of that type. Both are one pairing of names with types: holding a bean
parts its name and its type from whatever they were paired with and pairs them
with each other. So they agree after any history of registrations.
-/

namespace Wiring

/-- In a one-to-one lookup `f` with the inverse `g` a key is paired with a value, and
whatever either of them was paired with is parted from it. -/
theorem repaired_iff {κ τ : Type} [DecidableEq κ] [DecidableEq τ] {f : κ → Option τ}
    {g : τ → Option κ} (inverse : ∀ k v, f k = some v ↔ g v = some k) (key k : κ) (v w : τ) :
    (if k = key then some v else if g v = some k then none else f k) = some w ↔
      (k = key ∧ w = v) ∨ (k ≠ key ∧ w ≠ v ∧ f k = some w) := by
  by_cases hkey : k = key
  · simp [hkey, eq_comm]
  · rw [if_neg hkey]
    by_cases hold : g v = some k
    · have hv : f k = some v := (inverse k v).mpr hold
      rw [if_pos hold]
      constructor
      · rintro ⟨⟩
      · rintro (⟨heq, -⟩ | ⟨-, hne, hw⟩)
        · exact absurd heq hkey
        · rw [hv] at hw
          exact absurd (Option.some.inj hw).symm hne
    · rw [if_neg hold]
      constructor
      · intro hw
        refine .inr ⟨hkey, ?_, hw⟩
        rintro rfl
        exact hold ((inverse k w).mp hw)
      · rintro (⟨heq, -⟩ | ⟨-, -, hw⟩)
        · exact absurd heq hkey
        · exact hw

namespace Context

variable {α : Type}

/-- The name that a type goes by. -/
def nameOf? (c : Context α) (type : TypeName) : Option String :=
  (c.singletons.lookup type).map (·.name)

/-- Registers one after the other. What is refused leaves the context as it was. -/
def registerAll (c : Context α) (rs : List (Registration α)) : Context α :=
  rs.foldl (fun c r => (container.register r c).2) c

/-- Names and types are paired, and each bean is held for its own type. -/
structure Coherent (c : Context α) : Prop where
  names : Keyed c.names
  singletons : Keyed c.singletons
  paired : ∀ name type, c.names.lookup name = some type ↔ c.nameOf? type = some name
  typed : ∀ type r, c.singletons.lookup type = some r → r.bean.type = type

variable {c : Context α} {r : Registration α} {name : String} {type : TypeName}

/-! ## One registration -/

theorem nameOf?_eq_some_iff :
    c.nameOf? type = some name ↔ ∃ r, c.singletons.lookup type = some r ∧ r.name = name :=
  Option.map_eq_some_iff

theorem lookup_dropOldName (c : Context α) (r : Registration α) (name : String) :
    (c.dropOldName r).lookup name =
      if c.nameOf? r.bean.type = some name ∧ name ≠ r.name then none else c.names.lookup name := by
  rw [dropOldName, nameOf?]
  cases c.singletons.lookup r.bean.type with
  | none => simp
  | some previous =>
    dsimp only [Option.map_some]
    by_cases hprevious : previous.name = r.name
    · have hkeep : ¬ (some previous.name = some name ∧ name ≠ r.name) := by
        rintro ⟨heq, hne⟩
        exact hne ((Option.some.inj heq).symm.trans hprevious)
      rw [if_pos hprevious, if_neg hkeep]
    · rw [if_neg hprevious, lookup_eraseAt]
      by_cases hname : name = previous.name
      · subst hname
        simp [hprevious]
      · simp [hname, eq_comm]

/-- After a registration the name goes to the type, and the old name of the type is free. -/
theorem lookup_names_insert (c : Context α) (r : Registration α) (name : String) :
    (c.insert r).names.lookup name =
      if name = r.name then some r.bean.type
      else if c.nameOf? r.bean.type = some name then none else c.names.lookup name := by
  rw [insert, lookup_insertAt, lookup_dropOldName]
  by_cases hname : name = r.name
  · simp [hname]
  · simp [hname]

/-- After a registration the bean is held, and the one that had its name is not. -/
theorem lookup_singletons_insert (c : Context α) (r : Registration α) (type : TypeName) :
    (c.insert r).singletons.lookup type =
      if type = r.bean.type then some r
      else if c.names.lookup r.name = some type then none else c.singletons.lookup type := by
  have hname : (c.dropOldName r).lookup r.name = c.names.lookup r.name := by
    rw [lookup_dropOldName, if_neg fun h => h.2 rfl]
  rw [insert, dropDisplaced, hname]
  cases c.names.lookup r.name with
  | none => simp [lookup_insertAt]
  | some displaced =>
    dsimp only
    by_cases hsame : displaced = r.bean.type
    · subst hsame
      rw [if_pos rfl, lookup_insertAt]
      by_cases htype : type = r.bean.type
      · simp [htype]
      · simp [htype, Ne.symm htype]
    · rw [if_neg hsame, lookup_eraseAt, lookup_insertAt]
      by_cases htype : type = displaced
      · subst htype
        simp [hsame]
      · simp [htype, Ne.symm htype]

/-- The mirror image of `lookup_names_insert`. -/
theorem nameOf?_insert (c : Context α) (r : Registration α) (type : TypeName) :
    (c.insert r).nameOf? type =
      if type = r.bean.type then some r.name
      else if c.names.lookup r.name = some type then none else c.nameOf? type := by
  rw [nameOf?, lookup_singletons_insert, nameOf?]
  split
  · rfl
  · split <;> rfl

/-- A registration is carried out, or it is refused and changes nothing. -/
theorem register_cases (r : Registration α) (c : Context α) :
    (container.register r c = (.ok (), c.insert r) ∧
      (c.policy = .replace ∨ c.conflicts r = false)) ∨
    (container.register r c = (.error (.duplicateBean r.name), c) ∧
      c.policy = .reject ∧ c.conflicts r = true) := by
  cases hpolicy : c.policy with
  | replace =>
    refine .inl ⟨?_, .inl rfl⟩
    simp [container, register, hpolicy]
  | reject =>
    cases hconflicts : c.conflicts r with
    | false =>
      refine .inl ⟨?_, .inr rfl⟩
      simp [container, register, hpolicy, hconflicts]
    | true =>
      refine .inr ⟨?_, rfl, rfl⟩
      simp [container, register, hpolicy, hconflicts]

/-! ## What registrations keep -/

namespace Coherent

theorem new (environment : Environment) (policy : OverridePolicy) :
    Coherent (α := α) { environment, policy } where
  names := List.nodup_nil
  singletons := List.nodup_nil
  paired := by
    intro name type
    exact iff_of_false (by rintro ⟨⟩) (by rintro ⟨⟩)
  typed := by
    rintro type r ⟨⟩

/-- **One registration** keeps a context coherent. -/
theorem insert (h : c.Coherent) (r : Registration α) : (c.insert r).Coherent where
  names := by
    apply Keyed.insertAt
    rw [dropOldName]
    split
    · split
      · exact h.names
      · exact h.names.eraseAt _
    · exact h.names
  singletons := by
    rw [Context.insert, dropDisplaced]
    split
    · split
      · exact h.singletons.insertAt _ _
      · exact (h.singletons.insertAt _ _).eraseAt _
    · exact h.singletons.insertAt _ _
  paired := by
    intro name type
    rw [lookup_names_insert, nameOf?_insert]
    have hinverse : ∀ type name, c.nameOf? type = some name ↔ c.names.lookup name = some type :=
      fun type name => (h.paired name type).symm
    -- Both sides are the old pairing with the new pair in the place of what it displaces.
    rw [repaired_iff h.paired, repaired_iff hinverse, h.paired]
    tauto
  typed := by
    intro type s hs
    rw [lookup_singletons_insert] at hs
    split at hs
    · rename_i htype
      cases hs
      exact htype.symm
    · split at hs
      · cases hs
      · exact h.typed type s hs

/-- What a registration does to a context, it does in a container. -/
theorem register (h : c.Coherent) (r : Registration α) : (container.register r c).2.Coherent := by
  rcases register_cases r c with ⟨hdone, -⟩ | ⟨hrefused, -⟩
  · rw [hdone]
    exact h.insert r
  · rw [hrefused]
    exact h

/-- **Runs.** After any registrations a coherent context is coherent. -/
theorem registerAll (h : c.Coherent) (rs : List (Registration α)) :
    (c.registerAll rs).Coherent := by
  induction rs generalizing c with
  | nil => exact h
  | cons r rest ih => exact ih (h.register r)

/-! ## What coherence means for lookups -/

theorem held_of_name (h : c.Coherent) (hname : c.names.lookup name = some type) :
    ∃ r, c.singletons.lookup type = some r ∧ r.name = name ∧ r.bean.type = type := by
  obtain ⟨r, hr, hrname⟩ := nameOf?_eq_some_iff.mp ((h.paired name type).mp hname)
  exact ⟨r, hr, hrname, h.typed type r hr⟩

/-- The types that go by names are the types that are held, each once. -/
theorem types_perm (h : c.Coherent) :
    (c.names.map (·.2)).Perm (c.singletons.map (·.1)) := by
  have hnodup : (c.names.map (·.2)).Nodup := by
    apply List.Nodup.map_on _ (List.Nodup.of_map _ h.names)
    rintro ⟨n, t⟩ hn ⟨m, u⟩ hm heq
    have heq : t = u := heq
    subst heq
    rw [h.names.mem_iff, h.paired] at hn hm
    rw [hn] at hm
    rw [Option.some.inj hm]
  rw [List.perm_ext_iff_of_nodup hnodup h.singletons]
  intro type
  rw [mem_keys_iff, List.mem_map]
  constructor
  · rintro ⟨⟨name, t⟩, hmem, heq⟩
    have heq : t = type := heq
    subst heq
    obtain ⟨r, hr, -⟩ := h.held_of_name ((h.names.mem_iff name t).mp hmem)
    rw [hr]
    rfl
  · intro hheld
    obtain ⟨r, hr⟩ := Option.isSome_iff_exists.mp hheld
    have hname : c.names.lookup r.name = some type :=
      (h.paired r.name type).mpr (nameOf?_eq_some_iff.mpr ⟨r, hr, rfl⟩)
    exact ⟨(r.name, type), (h.names.mem_iff _ _).mpr hname, rfl⟩

theorem mem_beanNames_iff (h : c.Coherent) :
    name ∈ c.beanNames ↔ ∃ b, c.lookupNamed name = some b := by
  rw [beanNames, List.mem_mergeSort, mem_keys_iff, Option.isSome_iff_exists]
  constructor
  · rintro ⟨type, hname⟩
    obtain ⟨r, hr, -⟩ := h.held_of_name hname
    exact ⟨r.bean, by simp [lookupNamed, lookup, hname, hr]⟩
  · rintro ⟨b, hb⟩
    obtain ⟨type, hname, -⟩ := Option.bind_eq_some_iff.mp hb
    exact ⟨type, hname⟩

end Coherent

/-- **Names and beans are in bijection.** After any registrations in a new context, under
either policy, a name leads to a type just when the bean of the type is held under that
name. So the names in use are those under which a bean is found, each type that is held
has one name, there are as many names as beans, and a name finds the very bean that its
type finds. -/
theorem one_name_per_bean (environment : Environment) (policy : OverridePolicy)
    (rs : List (Registration α)) :
    let c := registerAll { environment, policy } rs
    (∀ name type, c.names.lookup name = some type ↔
      ∃ r, c.singletons.lookup type = some r ∧ r.name = name) ∧
    (∀ name, name ∈ c.beanNames ↔ ∃ b, c.lookupNamed name = some b) ∧
    (∀ type, c.contains type = true → ∃! name, c.names.lookup name = some type) ∧
    (Keyed c.names ∧ Keyed c.singletons ∧ c.names.length = c.singletons.length) ∧
    (∀ name type, c.names.lookup name = some type →
      ∃ b, b.type = type ∧ c.lookupNamed name = some b ∧ c.lookup type = some b) := by
  intro c
  have h : c.Coherent := (Coherent.new environment policy).registerAll rs
  refine ⟨?_, ?_, ?_, ⟨h.names, h.singletons, ?_⟩, ?_⟩
  · intro name type
    rw [h.paired, nameOf?_eq_some_iff]
  · intro name
    exact h.mem_beanNames_iff
  · intro type hheld
    obtain ⟨r, hr⟩ := Option.isSome_iff_exists.mp hheld
    have hname : c.nameOf? type = some r.name := nameOf?_eq_some_iff.mpr ⟨r, hr, rfl⟩
    refine ⟨r.name, (h.paired _ _).mpr hname, ?_⟩
    intro other hother
    rw [h.paired, hname] at hother
    exact (Option.some.inj hother).symm
  · simpa using h.types_perm.length_eq
  · intro name type hname
    obtain ⟨r, hr, -, htype⟩ := h.held_of_name hname
    exact ⟨r.bean, htype, by simp [lookupNamed, lookup, hname, hr], by simp [lookup, hr]⟩

/-- The clock takes the name of the mailer and drops its own, all at once. -/
example :
    let mailer : TypeName := ⟨"post::Mailer"⟩
    let clock : TypeName := ⟨"time::Clock"⟩
    let c := registerAll { environment := .empty, policy := .replace }
      [⟨"mail", ⟨mailer, 1⟩⟩, ⟨"clock", ⟨clock, 2⟩⟩, ⟨"mail", ⟨clock, 3⟩⟩]
    c.names = [("mail", clock)] ∧ c.singletons = [(clock, ⟨"mail", ⟨clock, 3⟩⟩)] := by
  decide

end Context

end Wiring
