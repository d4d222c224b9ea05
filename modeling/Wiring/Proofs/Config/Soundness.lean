import Wiring.Proofs.Config.Expansion

/-!
# Expanding with a stack is sound and complete

`expand` goes token by token. What it finds is an expansion whatever paths it
remembers, and it finds every expansion as long as the text reaches none of the
remembered paths. Where it meets a remembered path, some path leads back to
itself, or the text reaches a path that was remembered from the start.
-/

namespace Wiring.Config

open Wiring.Text Wiring.Toml Relation

/-! ## `expand` by tokens -/

/-- What stands in the place of a reference. -/
def substitute (root : Table) (stack : List String) (r : Reference) :
    Except ConfigError (List Char) :=
  if r.isValid then
    match lookup root r.name with
    | none =>
      match r.fallback with
      | some fallback => expand root stack fallback
      | none => .error (.referenceNotFound r.name)
    | some (.string t) =>
      if stack.contains r.name then .error .circularReference
      else expand root (r.name :: stack) t.toList
    | some v =>
      match v.scalarText? with
      | some text => .ok text
      | none => .error (.nonScalarReference r.name)
  else .error (.invalidReferencePath r.name)

theorem expand_nil (root : Table) (stack : List String) : expand root stack [] = .ok [] := by
  rw [expand]

theorem expand_unclosed (root : Table) (stack : List String) {rest : List Char}
    (h : '\x7d' ∉ rest) :
    expand root stack ('$' :: '\x7b' :: rest) = .error .unclosedReference := by
  have hcut := cutFirst_eq_none_iff.mpr h
  rw [expand]
  split
  · rfl
  · rename_i hcut'
    rw [hcut] at hcut'
    cases hcut'

theorem expand_char (root : Table) (stack : List String) {s rest : List Char} {c : Char}
    (h : Reads s (.char c) rest) :
    expand root stack s = (expand root stack rest).map (c :: ·) := by
  cases h with
  | escaped => rw [expand]
  | ordinary _ _ alone =>
    rw [expand]
    · rintro tail rfl rfl
      exact (alone rfl '$' rfl).1 rfl
    · rintro tail rfl rfl
      exact (alone rfl '\x7b' rfl).2 rfl

theorem expand_reference (root : Table) (stack : List String) {s rest : List Char} {r : Reference}
    (h : Reads s (.reference r) rest) :
    expand root stack s =
      match substitute root stack r with
      | .ok front => (expand root stack rest).map (front ++ ·)
      | .error e => .error e := by
  cases h with
  | reference _ _ colon brace =>
    have hcut := cutFirst_body brace rest
    rw [expand]
    split
    · rename_i hcut'
      rw [hcut] at hcut'
      cases hcut'
    · rename_i hcut'
      rw [hcut] at hcut'
      cases hcut'
      rw [Reference.ofBody_eq_iff.mpr ⟨rfl, colon⟩]
      unfold substitute
      cases hvalid : r.isValid
      · simp only [hvalid, Bool.not_false, Bool.false_eq_true, if_true, if_false]
      · simp only [hvalid, Bool.not_true, Bool.false_eq_true, if_false, if_true]
        congr 1
        split
        · rename_i habsent
          rw [habsent]
          split <;> rename_i hfallback <;> rw [hfallback]
        · rename_i t htarget
          rw [htarget]
          cases stack.contains r.name <;> rfl
        · rename_i v hother htarget
          rw [htarget]
          cases v with
          | string t => exact absurd rfl (hother t)
          | integer | float | bool | stamp | array | table => rfl

theorem Reference.isValid_iff {r : Reference} : r.isValid = true ↔ [] ∉ splitAt '.' r.path := by
  simp only [Reference.isValid, List.all_eq_true, Bool.not_eq_true', List.isEmpty_eq_false_iff]
  exact ⟨fun h hmem => h [] hmem rfl, fun h step hstep hnil => h (hnil ▸ hstep)⟩

theorem substitute_string {root : Table} {r : Reference} {t : String} (stack : List String)
    (steps : [] ∉ splitAt '.' r.path) (target : lookup root r.name = some (.string t)) :
    substitute root stack r =
      if stack.contains r.name then .error .circularReference
      else expand root (r.name :: stack) t.toList := by
  rw [substitute, if_pos (Reference.isValid_iff.mpr steps), target]

theorem substitute_scalar {root : Table} {r : Reference} {v : Value} (stack : List String)
    (steps : [] ∉ splitAt '.' r.path) (target : lookup root r.name = some v)
    (other : ∀ t, v ≠ .string t) :
    substitute root stack r =
      match v.scalarText? with
      | some text => .ok text
      | none => .error (.nonScalarReference r.name) := by
  rw [substitute, if_pos (Reference.isValid_iff.mpr steps), target]
  cases v with
  | string t => exact absurd rfl (other t)
  | integer | float | bool | stamp | array | table => rfl

theorem substitute_absent {root : Table} {r : Reference} (stack : List String)
    (steps : [] ∉ splitAt '.' r.path) (absent : lookup root r.name = none) :
    substitute root stack r =
      match r.fallback with
      | some fallback => expand root stack fallback
      | none => .error (.referenceNotFound r.name) := by
  rw [substitute, if_pos (Reference.isValid_iff.mpr steps), absent]

theorem substitute_invalid {root : Table} {r : Reference} (stack : List String)
    (steps : [] ∈ splitAt '.' r.path) :
    substitute root stack r = .error (.invalidReferencePath r.name) := by
  rw [substitute, if_neg]
  rw [Reference.isValid_iff]
  exact fun h => h steps

/-- The ways in which a reference can be settled. -/
theorem substitute_eq_ok_iff {root : Table} {stack : List String} {r : Reference}
    {front : List Char} :
    substitute root stack r = .ok front ↔ [] ∉ splitAt '.' r.path ∧
      ((lookup root r.name = none ∧
          ∃ fb, r.fallback = some fb ∧ expand root stack fb = .ok front) ∨
        (∃ v, lookup root r.name = some v ∧ (∀ t, v ≠ .string t) ∧ v.scalarText? = some front) ∨
        (∃ t, lookup root r.name = some (.string t) ∧ r.name ∉ stack ∧
          expand root (r.name :: stack) t.toList = .ok front)) := by
  by_cases steps : [] ∈ splitAt '.' r.path
  · simp [substitute_invalid stack steps, steps]
  cases target : lookup root r.name with
  | none =>
    rw [substitute_absent stack steps target]
    cases r.fallback <;> simp [steps]
  | some v =>
    by_cases other : ∀ t, v ≠ .string t
    · rw [substitute_scalar stack steps target other]
      cases htext : v.scalarText? <;> simp [steps, other, htext]
    · obtain ⟨t, rfl⟩ : ∃ t, v = .string t := by simpa using other
      rw [substitute_string stack steps target]
      by_cases hstack : r.name ∈ stack <;> simp [steps, hstack]

/-- A circle is met at the path itself, in the fallback or in the string at the path. -/
theorem substitute_eq_circular {root : Table} {stack : List String} {r : Reference}
    (h : substitute root stack r = .error .circularReference) :
    (lookup root r.name = none ∧
        ∃ fb, r.fallback = some fb ∧ expand root stack fb = .error .circularReference) ∨
      ∃ t, lookup root r.name = some (.string t) ∧ (r.name ∈ stack ∨ r.name ∉ stack ∧
        expand root (r.name :: stack) t.toList = .error .circularReference) := by
  by_cases steps : [] ∈ splitAt '.' r.path
  · rw [substitute_invalid stack steps] at h
    cases h
  cases target : lookup root r.name with
  | none =>
    rw [substitute_absent stack steps target] at h
    cases hfb : r.fallback with
    | none => rw [hfb] at h; cases h
    | some fb => rw [hfb] at h; exact .inl ⟨rfl, fb, rfl, h⟩
  | some v =>
    by_cases other : ∀ t, v ≠ .string t
    · rw [substitute_scalar stack steps target other] at h
      cases htext : v.scalarText? <;> rw [htext] at h <;> cases h
    · obtain ⟨t, rfl⟩ : ∃ t, v = .string t := by simpa using other
      rw [substitute_string stack steps target] at h
      by_cases hstack : r.name ∈ stack
      · exact .inr ⟨t, rfl, .inl hstack⟩
      · exact .inr ⟨t, rfl, .inr ⟨hstack, by simpa [hstack] using h⟩⟩

theorem expand_char_eq_ok_iff {root : Table} {stack : List String} {s rest out : List Char}
    {c : Char} (h : Reads s (.char c) rest) :
    expand root stack s = .ok out ↔
      ∃ tail, expand root stack rest = .ok tail ∧ out = c :: tail := by
  rw [expand_char root stack h]
  cases expand root stack rest <;> simp [Except.map, eq_comm]

theorem expand_reference_eq_ok_iff {root : Table} {stack : List String} {s rest out : List Char}
    {r : Reference} (h : Reads s (.reference r) rest) :
    expand root stack s = .ok out ↔ ∃ front tail, substitute root stack r = .ok front ∧
      expand root stack rest = .ok tail ∧ out = front ++ tail := by
  rw [expand_reference root stack h]
  cases substitute root stack r <;> cases expand root stack rest <;> simp [Except.map, eq_comm]

/-- **Induction along an expansion.** A reference is settled from what remains, from
the fallback if the path has no value, and from the string at the path with the
path remembered. Either a path is remembered that was not, or the text gets
shorter. -/
theorem expansion_induction (root : Table) {P : List String → List Char → Prop}
    (nil : ∀ stack, P stack [])
    (unclosed : ∀ stack rest, '\x7d' ∉ rest → P stack ('$' :: '\x7b' :: rest))
    (char : ∀ stack s c rest, Reads s (.char c) rest → P stack rest → P stack s)
    (reference : ∀ stack s r rest, Reads s (.reference r) rest →
      (∀ fb, lookup root r.name = none → r.fallback = some fb → P stack fb) →
      (∀ t, lookup root r.name = some (.string t) → r.name ∉ stack →
        P (r.name :: stack) t.toList) →
      P stack rest → P stack s)
    (stack : List String) (s : List Char) : P stack s := by
  rcases reads_or_unclosed s with rfl | ⟨k, rest, h⟩ | ⟨rest, rfl, h⟩
  · exact nil stack
  · have hrest := h.length_lt
    cases k with
    | char c =>
      exact char stack s c rest h
        (expansion_induction root nil unclosed char reference stack rest)
    | reference r =>
      refine reference stack s r rest h ?_ ?_
        (expansion_induction root nil unclosed char reference stack rest)
      · intro fb _ hfb
        have := h.length_fallback_lt hfb
        exact expansion_induction root nil unclosed char reference stack fb
      · intro t target fresh
        have : freshNames root (r.name :: stack) < freshNames root stack :=
          freshNames_lt target (by simpa using fresh)
        exact expansion_induction root nil unclosed char reference (r.name :: stack) t.toList
  · exact unclosed stack rest h
termination_by (freshNames root stack, s.length)
decreasing_by
  · exact .right _ hrest
  · exact .right _ this
  · exact .left _ _ this
  · exact .right _ hrest

/-! ## Soundness and completeness -/

/-- **Soundness.** Whatever paths are remembered, what is found is an expansion. -/
theorem expands_of_expand {root : Table} (stack : List String) (s : List Char) :
    ∀ out, expand root stack s = .ok out → Expands root s out := by
  induction stack, s using expansion_induction root with
  | nil stack =>
    intro out h
    rw [expand_nil] at h
    cases h
    exact .nil
  | unclosed stack rest hbrace =>
    intro out h
    rw [expand_unclosed root stack hbrace] at h
    cases h
  | char stack s c rest hreads ih =>
    intro out h
    obtain ⟨tail, hrest, rfl⟩ := (expand_char_eq_ok_iff hreads).mp h
    exact .char hreads (ih tail hrest)
  | reference stack s r rest hreads ihFallback ihString ihRest =>
    intro out h
    obtain ⟨front, tail, hfront, hrest, rfl⟩ := (expand_reference_eq_ok_iff hreads).mp h
    have back := ihRest tail hrest
    obtain ⟨steps, hcase⟩ := substitute_eq_ok_iff.mp hfront
    rcases hcase with ⟨absent, fb, hfb, hinner⟩ | ⟨v, target, other, htext⟩ |
      ⟨t, target, fresh, hinner⟩
    · exact .fallback hreads steps absent hfb (ihFallback fb absent hfb front hinner) back
    · exact .scalar hreads steps target other htext back
    · exact .string hreads steps target (ihString t target fresh front hinner) back

/-- **Completeness.** An expansion is found whenever the text reaches none of the
remembered paths. Below a string at a path that path is remembered too, and the
string cannot reach it, for it would then lead back to itself. -/
theorem expand_of_expands {root : Table} {s out : List Char} (h : Expands root s out)
    (stack : List String) (fresh : ∀ p ∈ stack, ¬ Reaches root s p) :
    expand root stack s = .ok out := by
  induction h generalizing stack with
  | nil => exact expand_nil root stack
  | char hreads _ ih =>
    have hrest := ih stack fun p hp hr => fresh p hp (hr.later hreads)
    exact (expand_char_eq_ok_iff hreads).mpr ⟨_, hrest, rfl⟩
  | @string s rest front out r t hreads steps target inner _ ihInner ihBack =>
    have hrest := ihBack stack fun p hp hr => fresh p hp (hr.later hreads)
    have hname : r.name ∉ stack := fun hmem => fresh _ hmem (Mentions.here hreads).reaches
    have hinner : expand root (r.name :: stack) t.toList = .ok front := by
      refine ihInner _ fun p hp hr => ?_
      rcases List.mem_cons.mp hp with rfl | hp
      · exact not_expands_of_reaches hr (hr.transGen target) inner
      · exact fresh p hp (hr.string hreads target)
    refine (expand_reference_eq_ok_iff hreads).mpr ⟨front, out, ?_, hrest, rfl⟩
    exact substitute_eq_ok_iff.mpr ⟨steps, .inr (.inr ⟨t, target, hname, hinner⟩)⟩
  | @scalar s rest front out r v hreads steps target other text _ ihBack =>
    have hrest := ihBack stack fun p hp hr => fresh p hp (hr.later hreads)
    refine (expand_reference_eq_ok_iff hreads).mpr ⟨front, out, ?_, hrest, rfl⟩
    exact substitute_eq_ok_iff.mpr ⟨steps, .inr (.inl ⟨v, target, other, text⟩)⟩
  | @fallback s rest front out fb r hreads steps absent some_fb _ _ ihInner ihBack =>
    have hrest := ihBack stack fun p hp hr => fresh p hp (hr.later hreads)
    have hinner := ihInner stack fun p hp hr => fresh p hp (hr.fallback hreads absent some_fb)
    refine (expand_reference_eq_ok_iff hreads).mpr ⟨front, out, ?_, hrest, rfl⟩
    exact substitute_eq_ok_iff.mpr ⟨steps, .inl ⟨absent, fb, some_fb, hinner⟩⟩

/-- With nothing remembered, expansions are found exactly. -/
theorem expand_nil_eq_ok_iff {root : Table} {s out : List Char} :
    expand root [] s = .ok out ↔ Expands root s out :=
  ⟨expands_of_expand [] s out, fun h => expand_of_expands h [] (by simp)⟩

/-- **A circle is a circle.** When a remembered path is met, the text reaches a path
that leads back to itself, or one that was remembered before. -/
theorem cycle_of_expand {root : Table} (stack : List String) (s : List Char) :
    expand root stack s = .error .circularReference →
      ∃ p, Reaches root s p ∧ (TransGen (LeadsTo root) p p ∨ p ∈ stack) := by
  induction stack, s using expansion_induction root with
  | nil stack =>
    intro h
    rw [expand_nil] at h
    cases h
  | unclosed stack rest hbrace =>
    intro h
    rw [expand_unclosed root stack hbrace] at h
    cases h
  | char stack s c rest hreads ih =>
    intro h
    rw [expand_char root stack hreads] at h
    cases hrest : expand root stack rest with
    | ok tail => rw [hrest] at h; cases h
    | error e =>
      rw [hrest] at h
      cases h
      obtain ⟨p, hp, hcase⟩ := ih hrest
      exact ⟨p, hp.later hreads, hcase⟩
  | reference stack s r rest hreads ihFallback ihString ihRest =>
    intro h
    rw [expand_reference root stack hreads] at h
    cases hfront : substitute root stack r with
    | ok front =>
      rw [hfront] at h
      cases hrest : expand root stack rest with
      | ok tail => rw [hrest] at h; cases h
      | error e =>
        rw [hrest] at h
        cases h
        obtain ⟨p, hp, hcase⟩ := ihRest hrest
        exact ⟨p, hp.later hreads, hcase⟩
    | error e =>
      rw [hfront] at h
      cases h
      rcases substitute_eq_circular hfront with ⟨absent, fb, hfb, hinner⟩ |
        ⟨t, target, hmem | ⟨fresh, hinner⟩⟩
      · obtain ⟨p, hp, hcase⟩ := ihFallback fb absent hfb hinner
        exact ⟨p, hp.fallback hreads absent hfb, hcase⟩
      · exact ⟨r.name, (Mentions.here hreads).reaches, .inr hmem⟩
      · obtain ⟨p, hp, hcase⟩ := ihString t target fresh hinner
        refine ⟨p, hp.string hreads target, ?_⟩
        rcases hcase with hcycle | hmem
        · exact .inl hcycle
        · -- A path met below the reference may be the one that was just remembered.
          rcases List.mem_cons.mp hmem with rfl | hmem
          · exact .inl (hp.transGen target)
          · exact .inr hmem

end Wiring.Config
