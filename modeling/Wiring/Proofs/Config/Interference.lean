import Wiring.Proofs.Config.Nesting

/-!
# Settings that are not consulted

Expanding a text looks up the paths of the references that it meets: those in the text
itself, in the strings at paths that it refers to and in the fallbacks that it uses, up
to the first that fails. Two tables that have the same under all of these paths give the
same answer. So what else stands in a configuration cannot change what a string becomes.
-/

namespace Wiring.Config

open Wiring.Text Wiring.Toml Relation

/-- `Consults root call p`: at the call or below it a reference is met whose path is `p`.
A path with an empty step is refused before anything is looked up. -/
def Consults (root : Table) (call : Call) (p : String) : Prop :=
  ∃ stack r, ReflTransGen (Calls root) call ⟨stack, .reference r⟩ ∧
    [] ∉ splitAt '.' r.path ∧ r.name = p

section

variable {root : Table} {stack stack' : List String} {s rest : List Char} {r q : Reference}
  {p : String}

/-! ## What is consulted -/

theorem arrives_char_iff {c : Char} (h : Reads s (.char c) rest) :
    Arrives root stack s stack' q ↔ Arrives root stack rest stack' q := by
  constructor
  · intro harrives
    cases harrives with
    | here h' | settled h' => cases (h.unique h').1
    | char h' later =>
      obtain ⟨-, rfl⟩ := h.unique h'
      exact later
  · exact .char h

theorem arrives_reference_iff (h : Reads s (.reference r) rest) :
    Arrives root stack s stack' q ↔ (stack' = stack ∧ q = r) ∨
      (∃ front, substitute root stack r = .ok front) ∧ Arrives root stack rest stack' q := by
  constructor
  · intro harrives
    cases harrives with
    | here h' =>
      cases (h.unique h').1
      exact .inl ⟨rfl, rfl⟩
    | char h' => cases (h.unique h').1
    | settled h' replaced later =>
      obtain ⟨hk, rfl⟩ := h.unique h'
      cases hk
      obtain ⟨hfront, rfl⟩ := settles_iff.mp replaced
      exact .inr ⟨⟨_, hfront.symm⟩, later⟩
  · rintro (⟨rfl, rfl⟩ | ⟨⟨front, hfront⟩, later⟩)
    · exact .here h
    · exact .settled h (settles_iff.mpr ⟨hfront.symm, rfl⟩) later

/-- A text consults what the references consult to which one comes. -/
theorem consults_text_iff :
    Consults root ⟨stack, .text s⟩ p ↔
      ∃ q, Arrives root stack s stack q ∧ Consults root ⟨stack, .reference q⟩ p := by
  constructor
  · rintro ⟨stack', r, hreach, steps, rfl⟩
    rcases ReflTransGen.cases_head hreach with hsame | ⟨mid, hcalls, hbelow⟩
    · cases hsame
    · cases hcalls with
      | @reference _ _ _ q harrives =>
        obtain rfl := harrives.stack_eq
        exact ⟨q, harrives, _, r, hbelow, steps, rfl⟩
  · rintro ⟨q, harrives, stack', r, hreach, steps, rfl⟩
    exact ⟨stack', r, hreach.head (.reference harrives), steps, rfl⟩

theorem not_consults_nil : ¬ Consults root ⟨stack, .text []⟩ p := by
  rw [consults_text_iff]
  rintro ⟨q, harrives, -⟩
  cases harrives with
  | here h | char h | settled h => exact not_reads_nil h

theorem consults_char_iff {c : Char} (h : Reads s (.char c) rest) :
    Consults root ⟨stack, .text s⟩ p ↔ Consults root ⟨stack, .text rest⟩ p := by
  rw [consults_text_iff, consults_text_iff]
  simp only [arrives_char_iff h]

/-- What comes behind a reference is only consulted once the reference is settled. -/
theorem consults_later_iff (h : Reads s (.reference r) rest) :
    Consults root ⟨stack, .text s⟩ p ↔ Consults root ⟨stack, .reference r⟩ p ∨
      (∃ front, substitute root stack r = .ok front) ∧ Consults root ⟨stack, .text rest⟩ p := by
  rw [consults_text_iff, consults_text_iff]
  simp only [arrives_reference_iff h, true_and]
  constructor
  · rintro ⟨q, rfl | ⟨hfront, later⟩, hq⟩
    · exact .inl hq
    · exact .inr ⟨hfront, q, later, hq⟩
  · rintro (hr | ⟨hfront, q, later, hq⟩)
    · exact ⟨r, .inl rfl, hr⟩
    · exact ⟨q, .inr ⟨hfront, later⟩, hq⟩

/-- A reference consults its path; then the fallback where there is nothing under the path,
and the string that is there unless it is on the stack. -/
theorem consults_reference_iff :
    Consults root ⟨stack, .reference r⟩ p ↔ [] ∉ splitAt '.' r.path ∧ (p = r.name ∨
      (lookup root r.name = none ∧
        ∃ fb, r.fallback = some fb ∧ Consults root ⟨stack, .text fb⟩ p) ∨
      ∃ t, lookup root r.name = some (.string t) ∧ r.name ∉ stack ∧
        Consults root ⟨r.name :: stack, .text t.toList⟩ p) := by
  constructor
  · rintro ⟨stack', q, hreach, valid, rfl⟩
    rcases ReflTransGen.cases_head hreach with hsame | ⟨mid, hcalls, hbelow⟩
    · cases hsame
      exact ⟨valid, .inl rfl⟩
    · cases hcalls with
      | fallback steps absent some_fb =>
        exact ⟨steps, .inr (.inl ⟨absent, _, some_fb, stack', q, hbelow, valid, rfl⟩)⟩
      | target steps target fresh =>
        exact ⟨steps, .inr (.inr ⟨_, target, fresh, stack', q, hbelow, valid, rfl⟩)⟩
  · rintro ⟨steps, rfl | ⟨absent, fb, some_fb, stack', q, hreach, valid, rfl⟩ |
      ⟨t, target, fresh, stack', q, hreach, valid, rfl⟩⟩
    · exact ⟨stack, r, .refl, steps, rfl⟩
    · exact ⟨stack', q, hreach.head (.fallback steps absent some_fb), valid, rfl⟩
    · exact ⟨stack', q, hreach.head (.target steps target fresh), valid, rfl⟩

end

/-! ## Two runs -/

/-- A table has under every path that the call consults what the other one has. -/
def Agrees (root root' : Table) (call : Call) : Prop :=
  ∀ p, Consults root call p → lookup root' p = lookup root p

section

variable {root root' : Table} {stack : List String} {s rest : List Char} {r : Reference}

/-- A reference is settled alike if its fallback and the string at its path are expanded
alike where they are expanded. -/
theorem substitute_congr (h : Agrees root root' ⟨stack, .reference r⟩)
    (fallback : ∀ fb, lookup root r.name = none → r.fallback = some fb →
      Agrees root root' ⟨stack, .text fb⟩ → expand root' stack fb = expand root stack fb)
    (string : ∀ t, lookup root r.name = some (.string t) → r.name ∉ stack →
      Agrees root root' ⟨r.name :: stack, .text t.toList⟩ →
      expand root' (r.name :: stack) t.toList = expand root (r.name :: stack) t.toList) :
    substitute root' stack r = substitute root stack r := by
  by_cases steps : [] ∈ splitAt '.' r.path
  · rw [substitute_invalid stack steps, substitute_invalid stack steps]
  have hlookup := h r.name (consults_reference_iff.mpr ⟨steps, .inl rfl⟩)
  cases target : lookup root r.name with
  | none =>
    rw [target] at hlookup
    rw [substitute_absent stack steps target, substitute_absent stack steps hlookup]
    cases hfb : r.fallback with
    | none => rfl
    | some fb =>
      refine fallback fb target hfb fun p hp => h p ?_
      exact consults_reference_iff.mpr ⟨steps, .inr (.inl ⟨target, fb, hfb, hp⟩)⟩
  | some v =>
    rw [target] at hlookup
    by_cases other : ∀ t, v ≠ .string t
    · rw [substitute_scalar stack steps target other, substitute_scalar stack steps hlookup other]
    · obtain ⟨t, rfl⟩ : ∃ t, v = .string t := by simpa using other
      rw [substitute_string stack steps target, substitute_string stack steps hlookup]
      by_cases met : r.name ∈ stack
      · rw [if_pos (by simpa using met), if_pos (by simpa using met)]
      · rw [if_neg (by simpa using met), if_neg (by simpa using met)]
        refine string t target met fun p hp => h p ?_
        exact consults_reference_iff.mpr ⟨steps, .inr (.inr ⟨t, target, met, hp⟩)⟩

/-- **Two runs on tables that agree end alike.** The induction is along the first run: what
its parts consult, the run consults. -/
theorem expand_congr (stack : List String) (s : List Char) :
    Agrees root root' ⟨stack, .text s⟩ → expand root' stack s = expand root stack s := by
  induction stack, s using expansion_induction root with
  | nil stack =>
    intro _
    rw [expand_nil, expand_nil]
  | unclosed stack rest brace =>
    intro _
    rw [expand_unclosed root' stack brace, expand_unclosed root stack brace]
  | char stack s c rest hreads ih =>
    intro h
    have hrest := ih fun p hp => h p ((consults_char_iff hreads).mpr hp)
    rw [expand_char root' stack hreads, expand_char root stack hreads, hrest]
  | reference stack s r rest hreads ihFallback ihString ihRest =>
    intro h
    have hreference : Agrees root root' ⟨stack, .reference r⟩ := fun p hp =>
      h p ((consults_later_iff hreads).mpr (.inl hp))
    have hsame := substitute_congr hreference ihFallback ihString
    rw [expand_reference root' stack hreads, expand_reference root stack hreads, hsame]
    cases hfront : substitute root stack r with
    | error e => rfl
    | ok front =>
      have hrest := ihRest fun p hp =>
        h p ((consults_later_iff hreads).mpr (.inr ⟨⟨front, hfront⟩, hp⟩))
      dsimp only
      rw [hrest]

theorem expansionOf_congr {s : String} (h : Agrees root root' ⟨[], .text s.toList⟩) :
    expansionOf root' s = expansionOf root s := by
  rw [expansionOf, expansionOf, expand_congr [] s.toList h]

/-! ## Edited configurations -/

/-- Entries on paths apart from all that a call consults make no difference to it. -/
theorem agrees_of_apart {base : Table} {old new : List Entry} {call : Call}
    (hroot : root = applyAll base old)
    (h : ∀ e ∈ old ++ new, ∀ p, Consults root call p →
      ¬ e.path <+: keysOf p ∧ ¬ keysOf p <+: e.path) :
    Agrees root (applyAll base new) call := by
  intro p hp
  rw [lookup, lookup, hroot,
    follow_applyAll_of_apart base fun e he => h e (List.mem_append_left _ he) p hp,
    follow_applyAll_of_apart base fun e he => h e (List.mem_append_right _ he) p hp]

/-- A property resolves alike in tables that agree about each of its strings. -/
theorem property?_congr {t t' : Table} {name : String} (hroot : resolve root = .ok t)
    (hroot' : resolve root' = .ok t') (hname : property? root' name = property? root name)
    (h : ∀ v, property? root name = some v → ∀ s ∈ stringsOf v,
      Agrees root root' ⟨[], .text s.toList⟩) :
    property? t' name = property? t name := by
  rw [property?_of_resolve hroot, property?_of_resolve hroot', hname]
  cases hv : property? root name with
  | none => rfl
  | some v =>
    have hmap : mapStrings (expansionOf root') v = mapStrings (expansionOf root) v :=
      mapStrings_congr fun s hs => expansionOf_congr (h v hv s hs)
    rw [Option.map_some, Option.map_some, hmap]

end

/-- **Unconsulted settings do not interfere.** If a table has under every path that expanding
a text consults what the root has, then the text expands to the same in both, or fails with
the same error. So entries that are added, removed or changed on paths apart from those make
no difference. In configurations that resolve, a property that both have alike is the same
in the end if they agree on what its strings consult. -/
theorem unconsulted_settings_do_not_interfere (root : Table) :
    (∀ root' stack s,
      (∀ p, Consults root ⟨stack, .text s⟩ p → lookup root' p = lookup root p) →
      expand root' stack s = expand root stack s) ∧
    (∀ base old new stack s, root = applyAll base old →
      (∀ e ∈ old ++ new, ∀ p, Consults root ⟨stack, .text s⟩ p →
        ¬ e.path <+: keysOf p ∧ ¬ keysOf p <+: e.path) →
      expand (applyAll base new) stack s = expand root stack s) ∧
    ∀ root' t t' name, resolve root = .ok t → resolve root' = .ok t' →
      property? root' name = property? root name →
      (∀ v, property? root name = some v → ∀ s ∈ stringsOf v, ∀ p,
        Consults root ⟨[], .text s.toList⟩ p → lookup root' p = lookup root p) →
      (Environment.mk t').property? name = (Environment.mk t).property? name :=
  ⟨fun _ stack s h => expand_congr stack s h,
    fun _ _ _ stack s hroot h => expand_congr stack s (agrees_of_apart hroot h),
    fun _ _ _ _ hroot hroot' hname h => property?_congr hroot hroot' hname h⟩

/-! A door that refers to the hall: the roof can be taken off, and a cellar put in. -/

def house : Table :=
  [("door", .string "$\x7bhall:open\x7d"), ("hall", .integer 5)]

def roofed : Table :=
  [("door", .string "$\x7bhall:open\x7d"), ("hall", .integer 5),
    ("roof", .string "$\x7bdoor\x7d")]

theorem consults_door {p : String}
    (h : Consults roofed ⟨[], .text "$\x7bdoor\x7d".toList⟩ p) : p = "door" ∨ p = "hall" := by
  have hdoor := Reads.reference ⟨"door".toList, none⟩ [] (by decide) (by decide)
  have hhall := Reads.reference ⟨"hall".toList, some "open".toList⟩ [] (by decide) (by decide)
  have door : lookup roofed "door" = some (.string "$\x7bhall:open\x7d") := rfl
  have hall : lookup roofed "hall" = some (.integer 5) := rfl
  rcases (consults_later_iff hdoor).mp h with h | ⟨-, h⟩
  · obtain ⟨-, rfl | ⟨absent, -⟩ | ⟨t, target, -, h⟩⟩ := consults_reference_iff.mp h
    · exact .inl rfl
    · cases door.symm.trans absent
    · cases door.symm.trans target
      rcases (consults_later_iff hhall).mp h with h | ⟨-, h⟩
      · obtain ⟨-, rfl | ⟨absent, -⟩ | ⟨t, target, -, -⟩⟩ := consults_reference_iff.mp h
        · exact .inr rfl
        · cases hall.symm.trans absent
        · cases hall.symm.trans target
      · exact absurd h not_consults_nil
  · exact absurd h not_consults_nil

theorem roof_taken_off :
    expand (applyAll house [⟨["cellar"], .integer 1⟩]) [] "$\x7bdoor\x7d".toList =
      expand roofed [] "$\x7bdoor\x7d".toList := by
  obtain ⟨-, hedited, -⟩ := unconsulted_settings_do_not_interfere roofed
  refine hedited house [⟨["roof"], .string "$\x7bdoor\x7d"⟩] [⟨["cellar"], .integer 1⟩] []
    "$\x7bdoor\x7d".toList rfl fun e he p hp => ?_
  have hpath : e.path = ["roof"] ∨ e.path = ["cellar"] := by
    rcases List.mem_pair.mp he with rfl | rfl
    · exact .inl rfl
    · exact .inr rfl
  rcases consults_door hp with rfl | rfl <;> rcases hpath with hpath | hpath <;> rw [hpath] <;>
    decide

end Wiring.Config
