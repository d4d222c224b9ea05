import Wiring.Proofs.Config.Resolution

/-!
# The stack of paths as state

Resolving keeps one stack of paths for all of its calls. A call on a text that
meets a reference to a string puts the path on top, expands the string, and
takes the top off again, whether the string could be expanded or not. Here the
calls are told with the stack in front of each and behind it, and nothing is
assumed about what a call leaves there.

* `runs_iff`, `settles_iff` — a call on a text or on a reference answers what
  `expand` and `substitute` do, and leaves the stack as it was.
* `exists_resolves_iff` — so does a call on a value.
-/

namespace Wiring.Config

open Wiring.Text Wiring.Toml

section

variable (root : Table)

mutual

/-- `Runs root stack s answer stack'`: called on the text `s` with `stack`, the loop
over its tokens ends with `answer` and leaves `stack'`. -/
inductive Runs : List String → List Char → Except ConfigError (List Char) → List String → Prop
  | nil {stack : List String} : Runs stack [] (.ok []) stack
  | unclosed {stack : List String} {rest : List Char} (brace : '\x7d' ∉ rest) :
      Runs stack ('$' :: '\x7b' :: rest) (.error .unclosedReference) stack
  | char {stack stack' : List String} {s rest : List Char} {c : Char}
      {answer : Except ConfigError (List Char)} (h : Reads s (.char c) rest)
      (back : Runs stack rest answer stack') : Runs stack s (answer.map (c :: ·)) stack'
  | failed {stack stack' : List String} {s rest : List Char} {r : Reference} {e : ConfigError}
      (h : Reads s (.reference r) rest) (replaced : Settles stack r (.error e) stack') :
      Runs stack s (.error e) stack'
  | settled {stack mid stack' : List String} {s rest front : List Char} {r : Reference}
      {answer : Except ConfigError (List Char)} (h : Reads s (.reference r) rest)
      (replaced : Settles stack r (.ok front) mid) (back : Runs mid rest answer stack') :
      Runs stack s (answer.map (front ++ ·)) stack'

/-- `Settles root stack r answer stack'`: called on the reference `r` with `stack`, what
stands in its place is `answer`, and `stack'` is left. -/
inductive Settles : List String → Reference → Except ConfigError (List Char) → List String → Prop
  | invalid {stack : List String} {r : Reference} (steps : [] ∈ splitAt '.' r.path) :
      Settles stack r (.error (.invalidReferencePath r.name)) stack
  | missing {stack : List String} {r : Reference} (steps : [] ∉ splitAt '.' r.path)
      (absent : lookup root r.name = none) (no_fb : r.fallback = none) :
      Settles stack r (.error (.referenceNotFound r.name)) stack
  | fallback {stack stack' : List String} {r : Reference} {fb : List Char}
      {answer : Except ConfigError (List Char)} (steps : [] ∉ splitAt '.' r.path)
      (absent : lookup root r.name = none) (some_fb : r.fallback = some fb)
      (inner : Runs stack fb answer stack') : Settles stack r answer stack'
  | circle {stack : List String} {r : Reference} {t : String} (steps : [] ∉ splitAt '.' r.path)
      (target : lookup root r.name = some (.string t)) (met : r.name ∈ stack) :
      Settles stack r (.error .circularReference) stack
  | string {stack stack' : List String} {r : Reference} {t : String}
      {answer : Except ConfigError (List Char)} (steps : [] ∉ splitAt '.' r.path)
      (target : lookup root r.name = some (.string t)) (fresh : r.name ∉ stack)
      (inner : Runs (r.name :: stack) t.toList answer stack') :
      Settles stack r answer stack'.tail
  | scalar {stack : List String} {r : Reference} {v : Value} {text : List Char}
      (steps : [] ∉ splitAt '.' r.path) (target : lookup root r.name = some v)
      (other : ∀ t, v ≠ .string t) (some_text : v.scalarText? = some text) :
      Settles stack r (.ok text) stack
  | nonScalar {stack : List String} {r : Reference} {v : Value}
      (steps : [] ∉ splitAt '.' r.path) (target : lookup root r.name = some v)
      (other : ∀ t, v ≠ .string t) (no_text : v.scalarText? = none) :
      Settles stack r (.error (.nonScalarReference r.name)) stack

end

end

/-! ## Texts and references -/

section

variable {root : Table}

/- By the derivation. The stack put back below a string is the one the string was
called with, so its top is the path that was put there. -/
mutual

theorem Runs.eq : ∀ {stack s answer stack'}, Runs root stack s answer stack' →
    answer = expand root stack s ∧ stack' = stack
  | _, _, _, _, .nil => ⟨(expand_nil root _).symm, rfl⟩
  | _, _, _, _, .unclosed brace => ⟨(expand_unclosed root _ brace).symm, rfl⟩
  | _, _, _, _, .char h back => by
    obtain ⟨rfl, rfl⟩ := back.eq
    exact ⟨(expand_char root _ h).symm, rfl⟩
  | _, _, _, _, .failed h replaced => by
    obtain ⟨hreplaced, rfl⟩ := replaced.eq
    exact ⟨by rw [expand_reference root _ h, ← hreplaced], rfl⟩
  | _, _, _, _, .settled h replaced back => by
    obtain ⟨hreplaced, rfl⟩ := replaced.eq
    obtain ⟨rfl, rfl⟩ := back.eq
    exact ⟨by rw [expand_reference root _ h, ← hreplaced], rfl⟩

theorem Settles.eq : ∀ {stack r answer stack'}, Settles root stack r answer stack' →
    answer = substitute root stack r ∧ stack' = stack
  | _, _, _, _, .invalid steps => ⟨(substitute_invalid _ steps).symm, rfl⟩
  | _, _, _, _, .missing steps absent no_fb => by
    rw [substitute_absent _ steps absent, no_fb]
    exact ⟨rfl, rfl⟩
  | _, _, _, _, .fallback steps absent some_fb inner => by
    obtain ⟨rfl, rfl⟩ := inner.eq
    rw [substitute_absent _ steps absent, some_fb]
    exact ⟨rfl, rfl⟩
  | _, _, _, _, .circle steps target met => by
    rw [substitute_string _ steps target, if_pos (by simpa using met)]
    exact ⟨rfl, rfl⟩
  | _, _, _, _, .string steps target fresh inner => by
    obtain ⟨rfl, rfl⟩ := inner.eq
    rw [substitute_string _ steps target, if_neg (by simpa using fresh)]
    exact ⟨rfl, rfl⟩
  | _, _, _, _, .scalar steps target other some_text => by
    rw [substitute_scalar _ steps target other, some_text]
    exact ⟨rfl, rfl⟩
  | _, _, _, _, .nonScalar steps target other no_text => by
    rw [substitute_scalar _ steps target other, no_text]
    exact ⟨rfl, rfl⟩

end

theorem settles_substitute {stack : List String} {r : Reference}
    (fallback : ∀ fb, lookup root r.name = none → r.fallback = some fb →
      Runs root stack fb (expand root stack fb) stack)
    (string : ∀ t, lookup root r.name = some (.string t) → r.name ∉ stack →
      Runs root (r.name :: stack) t.toList (expand root (r.name :: stack) t.toList)
        (r.name :: stack)) :
    Settles root stack r (substitute root stack r) stack := by
  by_cases steps : [] ∈ splitAt '.' r.path
  · rw [substitute_invalid stack steps]
    exact .invalid steps
  cases target : lookup root r.name with
  | none =>
    rw [substitute_absent stack steps target]
    cases hfb : r.fallback with
    | none => exact .missing steps target hfb
    | some fb => exact .fallback steps target hfb (fallback fb target hfb)
  | some v =>
    by_cases other : ∀ t, v ≠ .string t
    · rw [substitute_scalar stack steps target other]
      cases htext : v.scalarText? with
      | none => exact .nonScalar steps target other htext
      | some text => exact .scalar steps target other htext
    · obtain ⟨t, rfl⟩ : ∃ t, v = .string t := by simpa using other
      rw [substitute_string stack steps target]
      by_cases met : r.name ∈ stack
      · rw [if_pos (by simpa using met)]
        exact .circle steps target met
      · rw [if_neg (by simpa using met)]
        exact .string steps target met (string t target met)

theorem runs_expand (stack : List String) (s : List Char) :
    Runs root stack s (expand root stack s) stack := by
  induction stack, s using expansion_induction root with
  | nil stack =>
    rw [expand_nil]
    exact .nil
  | unclosed stack rest brace =>
    rw [expand_unclosed root stack brace]
    exact .unclosed brace
  | char stack s c rest h back =>
    rw [expand_char root stack h]
    exact .char h back
  | reference stack s r rest h fallback string back =>
    have replaced := settles_substitute fallback string
    rw [expand_reference root stack h]
    cases hreplaced : substitute root stack r with
    | error e =>
      rw [hreplaced] at replaced
      exact .failed h replaced
    | ok front =>
      rw [hreplaced] at replaced
      exact .settled h replaced back

/-- **A call on a text** answers what `expand` does, and leaves the stack as it was. -/
theorem runs_iff {stack stack' : List String} {s : List Char}
    {answer : Except ConfigError (List Char)} :
    Runs root stack s answer stack' ↔ answer = expand root stack s ∧ stack' = stack := by
  refine ⟨Runs.eq, ?_⟩
  rintro ⟨rfl, rfl⟩
  exact runs_expand stack' s

/-- **A call on a reference** answers what `substitute` does, and leaves the stack as
it was. -/
theorem settles_iff {stack stack' : List String} {r : Reference}
    {answer : Except ConfigError (List Char)} :
    Settles root stack r answer stack' ↔ answer = substitute root stack r ∧ stack' = stack := by
  refine ⟨Settles.eq, ?_⟩
  rintro ⟨rfl, rfl⟩
  exact settles_substitute (fun fb _ _ => runs_expand _ fb) fun t _ _ => runs_expand _ t.toList

end

/-! ## Values -/

section

variable (root : Table)

mutual

/-- `Resolves root stack v answer stack'`: called on the value `v` with `stack`, `answer`
comes to stand in its place, and `stack'` is left. -/
inductive Resolves : List String → Value → Except ConfigError Value → List String → Prop
  | string {stack stack' : List String} {s : String} {answer : Except ConfigError (List Char)}
      (inner : Runs root stack s.toList answer stack') :
      Resolves stack (.string s) (answer.map fun t => .string (String.ofList t)) stack'
  | array {stack stack' : List String} {items : List Value}
      {answer : Except ConfigError (List Value)} (inner : ResolvesItems stack items answer stack') :
      Resolves stack (.array items) (answer.map .array) stack'
  | table {stack stack' : List String} {entries : List (String × Value)}
      {answer : Except ConfigError Table} (inner : ResolvesEntries stack entries answer stack') :
      Resolves stack (.table entries) (answer.map .table) stack'
  | scalar {stack : List String} {v : Value} (other : ∀ s, v ≠ .string s)
      (some_text : v.scalarText?.isSome) : Resolves stack v (.ok v) stack

/-- Called on items one after the other, up to the first that fails. -/
inductive ResolvesItems :
    List String → List Value → Except ConfigError (List Value) → List String → Prop
  | nil {stack : List String} : ResolvesItems stack [] (.ok []) stack
  | failed {stack stack' : List String} {v : Value} {rest : List Value} {e : ConfigError}
      (first : Resolves stack v (.error e) stack') :
      ResolvesItems stack (v :: rest) (.error e) stack'
  | cons {stack mid stack' : List String} {v w : Value} {rest : List Value}
      {answer : Except ConfigError (List Value)} (first : Resolves stack v (.ok w) mid)
      (later : ResolvesItems mid rest answer stack') :
      ResolvesItems stack (v :: rest) (answer.map (w :: ·)) stack'

/-- Called on the values of entries one after the other, up to the first that fails. -/
inductive ResolvesEntries :
    List String → List (String × Value) → Except ConfigError Table → List String → Prop
  | nil {stack : List String} : ResolvesEntries stack [] (.ok []) stack
  | failed {stack stack' : List String} {key : String} {v : Value}
      {rest : List (String × Value)} {e : ConfigError}
      (first : Resolves stack v (.error e) stack') :
      ResolvesEntries stack ((key, v) :: rest) (.error e) stack'
  | cons {stack mid stack' : List String} {key : String} {v w : Value}
      {rest : List (String × Value)} {answer : Except ConfigError Table}
      (first : Resolves stack v (.ok w) mid) (later : ResolvesEntries mid rest answer stack') :
      ResolvesEntries stack ((key, v) :: rest) (answer.map ((key, w) :: ·)) stack'

end

end

section

variable {root : Table}

theorem resolves_scalar_iff {stack stack' : List String} {v : Value}
    {answer : Except ConfigError Value} (other : ∀ s, v ≠ .string s)
    (some_text : v.scalarText?.isSome) :
    Resolves root stack v answer stack' ↔ answer = .ok v ∧ stack' = stack := by
  constructor
  · intro h
    cases h with
    | string => exact absurd rfl (other _)
    | array | table => cases some_text
    | scalar => exact ⟨rfl, rfl⟩
  · rintro ⟨rfl, rfl⟩
    exact .scalar other some_text

end

section

variable (root : Table) (stack : List String)

/- By the value: each part answers once and hands the stack on as it was. -/
mutual

/-- **A call on a value** answers once, and leaves the stack as it was. With nothing
on the stack the answer is what `resolveValue` gives. -/
theorem exists_resolves_iff : ∀ v : Value, ∃ out,
    (stack = [] → out = resolveValue root v) ∧
    ∀ answer stack', Resolves root stack v answer stack' ↔ answer = out ∧ stack' = stack
  | .string s => by
    refine ⟨(expand root stack s.toList).map fun t => .string (String.ofList t), ?_, ?_⟩
    · rintro rfl
      rw [resolveValue]
    · intro answer stack'
      constructor
      · intro h
        cases h with
        | string inner =>
          obtain ⟨rfl, rfl⟩ := runs_iff.mp inner
          exact ⟨rfl, rfl⟩
        | scalar other => exact absurd rfl (other s)
      · rintro ⟨rfl, rfl⟩
        exact .string (runs_expand _ s.toList)
  | .array items => by
    obtain ⟨out, hnil, hout⟩ := exists_resolvesItems_iff items
    refine ⟨out.map .array, fun h => by rw [resolveValue, hnil h], fun answer stack' => ?_⟩
    constructor
    · intro h
      cases h with
      | array inner =>
        obtain ⟨rfl, rfl⟩ := (hout _ _).mp inner
        exact ⟨rfl, rfl⟩
      | scalar _ some_text => cases some_text
    · rintro ⟨rfl, rfl⟩
      exact .array ((hout _ _).mpr ⟨rfl, rfl⟩)
  | .table entries => by
    obtain ⟨out, hnil, hout⟩ := exists_resolvesEntries_iff entries
    refine ⟨out.map .table, fun h => by rw [resolveValue, hnil h], fun answer stack' => ?_⟩
    constructor
    · intro h
      cases h with
      | table inner =>
        obtain ⟨rfl, rfl⟩ := (hout _ _).mp inner
        exact ⟨rfl, rfl⟩
      | scalar _ some_text => cases some_text
    · rintro ⟨rfl, rfl⟩
      exact .table ((hout _ _).mpr ⟨rfl, rfl⟩)
  | .integer _ | .float _ | .bool _ | .stamp _ =>
    ⟨_, fun _ => rfl, fun _ _ => resolves_scalar_iff (fun _ h => by cases h) rfl⟩

theorem exists_resolvesItems_iff : ∀ items : List Value, ∃ out,
    (stack = [] → out = resolveItems root items) ∧
    ∀ answer stack', ResolvesItems root stack items answer stack' ↔ answer = out ∧ stack' = stack
  | [] => by
    refine ⟨.ok [], fun _ => rfl, fun answer stack' => ⟨fun h => ?_, ?_⟩⟩
    · cases h
      exact ⟨rfl, rfl⟩
    · rintro ⟨rfl, rfl⟩
      exact .nil
  | v :: rest => by
    obtain ⟨first, hnil, hfirst⟩ := exists_resolves_iff v
    obtain ⟨later, hnil', hlater⟩ := exists_resolvesItems_iff rest
    cases first with
    | error e =>
      refine ⟨.error e, fun h => by rw [resolveItems, ← hnil h], fun answer stack' => ?_⟩
      constructor
      · intro h
        cases h with
        | failed hfail =>
          obtain ⟨heq, rfl⟩ := (hfirst _ _).mp hfail
          cases heq
          exact ⟨rfl, rfl⟩
        | cons hok => cases ((hfirst _ _).mp hok).1
      · rintro ⟨rfl, rfl⟩
        exact .failed ((hfirst _ _).mpr ⟨rfl, rfl⟩)
    | ok w =>
      refine ⟨later.map (w :: ·), fun h => by rw [resolveItems, ← hnil h, hnil' h],
        fun answer stack' => ?_⟩
      constructor
      · intro h
        cases h with
        | failed hfail => cases ((hfirst _ _).mp hfail).1
        | cons hok hrest =>
          obtain ⟨heq, rfl⟩ := (hfirst _ _).mp hok
          cases heq
          obtain ⟨rfl, rfl⟩ := (hlater _ _).mp hrest
          exact ⟨rfl, rfl⟩
      · rintro ⟨rfl, rfl⟩
        exact .cons ((hfirst _ _).mpr ⟨rfl, rfl⟩) ((hlater _ _).mpr ⟨rfl, rfl⟩)

theorem exists_resolvesEntries_iff : ∀ entries : List (String × Value), ∃ out,
    (stack = [] → out = resolveEntries root entries) ∧
    ∀ answer stack',
      ResolvesEntries root stack entries answer stack' ↔ answer = out ∧ stack' = stack
  | [] => by
    refine ⟨.ok [], fun _ => rfl, fun answer stack' => ⟨fun h => ?_, ?_⟩⟩
    · cases h
      exact ⟨rfl, rfl⟩
    · rintro ⟨rfl, rfl⟩
      exact .nil
  | (key, v) :: rest => by
    obtain ⟨first, hnil, hfirst⟩ := exists_resolves_iff v
    obtain ⟨later, hnil', hlater⟩ := exists_resolvesEntries_iff rest
    cases first with
    | error e =>
      refine ⟨.error e, fun h => by rw [resolveEntries, ← hnil h], fun answer stack' => ?_⟩
      constructor
      · intro h
        cases h with
        | failed hfail =>
          obtain ⟨heq, rfl⟩ := (hfirst _ _).mp hfail
          cases heq
          exact ⟨rfl, rfl⟩
        | cons hok => cases ((hfirst _ _).mp hok).1
      · rintro ⟨rfl, rfl⟩
        exact .failed ((hfirst _ _).mpr ⟨rfl, rfl⟩)
    | ok w =>
      refine ⟨later.map ((key, w) :: ·), fun h => by rw [resolveEntries, ← hnil h, hnil' h],
        fun answer stack' => ?_⟩
      constructor
      · intro h
        cases h with
        | failed hfail => cases ((hfirst _ _).mp hfail).1
        | cons hok hrest =>
          obtain ⟨heq, rfl⟩ := (hfirst _ _).mp hok
          cases heq
          obtain ⟨rfl, rfl⟩ := (hlater _ _).mp hrest
          exact ⟨rfl, rfl⟩
      · rintro ⟨rfl, rfl⟩
        exact .cons ((hfirst _ _).mpr ⟨rfl, rfl⟩) ((hlater _ _).mpr ⟨rfl, rfl⟩)

end

end

end Wiring.Config
