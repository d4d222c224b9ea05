import Mathlib.Logic.Relation
import Wiring.Config.Placeholder

/-!
# What a text expands to, said without a stack

A text is a row of tokens: single characters, and references in braces. What
it expands to is the smallest relation that copies characters and puts the
expansion of its target, the text of a scalar or the expansion of the fallback
in the place of a reference. No path is remembered here, so a text that refers
back to itself has no expansion for want of a finite derivation.

* `Expands.unique` — a text has at most one expansion.
* `acc_of_expands` — below a path that a text with an expansion mentions, the
  references go only finitely deep.
* `not_expands_of_reaches` — a text that reaches a path which leads back to
  itself has no expansion.
-/

namespace Wiring.Config

open Wiring.Text Wiring.Toml Relation

/-! ## Tokens -/

/-- What stands between the braces of a reference. -/
def Reference.body (r : Reference) : List Char :=
  match r.fallback with
  | none => r.path
  | some fallback => r.path ++ ':' :: fallback

/-- A character to be copied, or a reference to be replaced. -/
inductive Token
  | char (c : Char)
  | reference (r : Reference)

/-- `Reads s k rest`: the text `s` begins with the token `k`, and `rest` is left.
The path of a reference ends at the first colon, its body at the first closing
brace. -/
inductive Reads : List Char → Token → List Char → Prop
  | escaped (rest : List Char) : Reads ('$' :: '$' :: rest) (.char '$') rest
  | ordinary (c : Char) (rest : List Char)
      (alone : c = '$' → ∀ d ∈ rest.head?, d ≠ '$' ∧ d ≠ '\x7b') : Reads (c :: rest) (.char c) rest
  | reference (r : Reference) (rest : List Char) (colon : ':' ∉ r.path)
      (brace : '\x7d' ∉ r.body) :
      Reads ('$' :: '\x7b' :: (r.body ++ '\x7d' :: rest)) (.reference r) rest

theorem Reference.ofBody_eq_iff {body : List Char} {r : Reference} :
    Reference.ofBody body = r ↔ body = r.body ∧ ':' ∉ r.path := by
  obtain ⟨path, fallback⟩ := r
  unfold Reference.ofBody
  split
  · rename_i front back hcut
    obtain ⟨rfl, hfront⟩ := cutFirst_eq_some_iff.mp hcut
    constructor
    · intro h
      cases h
      exact ⟨rfl, hfront⟩
    · rintro ⟨hbody, hpath⟩
      cases fallback with
      | none =>
        simp only [Reference.body] at hbody
        exact absurd (hbody ▸ by simp : ':' ∈ path) hpath
      | some fallback =>
        simp only [Reference.body] at hbody
        have := cutFirst_eq_some_iff.mpr ⟨hbody, hpath⟩
        rw [hcut] at this
        simpa using this
  · rename_i hcut
    rw [cutFirst_eq_none_iff] at hcut
    constructor
    · intro h
      cases h
      exact ⟨rfl, hcut⟩
    · rintro ⟨hbody, -⟩
      cases fallback with
      | none => rw [hbody]; rfl
      | some fallback => exact absurd (hbody ▸ by simp [Reference.body]) hcut

theorem cutFirst_body {r : Reference} (h : '\x7d' ∉ r.body) (rest : List Char) :
    cutFirst '\x7d' (r.body ++ '\x7d' :: rest) = some (r.body, rest) :=
  cutFirst_eq_some_iff.mpr ⟨rfl, h⟩

/-- Every text is empty, begins with a token, or begins with a reference that is
not closed. -/
theorem reads_or_unclosed (s : List Char) :
    s = [] ∨ (∃ k rest, Reads s k rest) ∨
      ∃ rest, s = '$' :: '\x7b' :: rest ∧ '\x7d' ∉ rest := by
  cases s with
  | nil => exact .inl rfl
  | cons c rest =>
    by_cases alone : c = '$' → ∀ d ∈ rest.head?, d ≠ '$' ∧ d ≠ '\x7b'
    · exact .inr (.inl ⟨_, _, .ordinary c rest alone⟩)
    · simp only [Classical.not_imp, Classical.not_forall, Option.mem_def] at alone
      -- What follows the dollar decides: another one, or a brace that may not be closed.
      obtain ⟨rfl, d, hd, hne⟩ := alone
      obtain ⟨tail, rfl⟩ := List.head?_eq_some_iff.mp hd
      by_cases hd : d = '$'
      · subst hd
        exact .inr (.inl ⟨_, _, .escaped tail⟩)
      · obtain rfl : d = '\x7b' := Classical.byContradiction fun h => hne ⟨hd, h⟩
        cases hcut : cutFirst '\x7d' tail with
        | none => exact .inr (.inr ⟨tail, rfl, cutFirst_eq_none_iff.mp hcut⟩)
        | some cut =>
          obtain ⟨body, after⟩ := cut
          obtain ⟨rfl, hbrace⟩ := cutFirst_eq_some_iff.mp hcut
          obtain ⟨hbody, hcolon⟩ := Reference.ofBody_eq_iff.mp (rfl : Reference.ofBody body = _)
          have h := Reads.reference (Reference.ofBody body) after hcolon (hbody ▸ hbrace)
          rw [← hbody] at h
          exact .inr (.inl ⟨_, _, h⟩)

theorem Reads.unique {s : List Char} {k k' : Token} {rest rest' : List Char}
    (h : Reads s k rest) (h' : Reads s k' rest') : k = k' ∧ rest = rest' := by
  generalize hs : s = s' at h'
  cases h with
  | escaped rest =>
    cases h' with
    | escaped => cases hs; exact ⟨rfl, rfl⟩
    | ordinary c _ alone => cases hs; exact absurd rfl (alone rfl '$' rfl).1
    | reference r => cases hs
  | ordinary c rest alone =>
    cases h' with
    | escaped => cases hs; exact absurd rfl (alone rfl '$' rfl).1
    | ordinary => cases hs; exact ⟨rfl, rfl⟩
    | reference r => cases hs; exact absurd rfl (alone rfl '\x7b' rfl).2
  | reference r rest colon brace =>
    cases h' with
    | escaped => cases hs
    | ordinary c _ alone => cases hs; exact absurd rfl (alone rfl '\x7b' rfl).2
    | reference r' _ colon' brace' =>
      simp only [List.cons.injEq, true_and] at hs
      have hcut := cutFirst_body brace rest
      rw [hs, cutFirst_body brace' rest'] at hcut
      simp only [Option.some.injEq, Prod.mk.injEq] at hcut
      have hr := Reference.ofBody_eq_iff.mpr ⟨hcut.1, colon⟩
      rw [Reference.ofBody_eq_iff.mpr ⟨rfl, colon'⟩] at hr
      exact ⟨by rw [hr], hcut.2.symm⟩

theorem not_reads_nil {k : Token} {rest : List Char} : ¬ Reads [] k rest := by
  intro h
  cases h

theorem Reads.length_lt {s : List Char} {k : Token} {rest : List Char} (h : Reads s k rest) :
    rest.length < s.length := by
  cases h <;> (simp only [List.length_cons, List.length_append]; omega)

/-- The fallback of a reference is shorter than the text that the reference begins. -/
theorem Reads.length_fallback_lt {s : List Char} {r : Reference} {rest fallback : List Char}
    (h : Reads s (.reference r) rest) (hf : r.fallback = some fallback) :
    fallback.length < s.length := by
  cases h
  simp only [Reference.body, hf, List.length_cons, List.length_append]
  omega

/-! ## The relation -/

/-- A text and its expansion in a table. -/
inductive Expands (root : Table) : List Char → List Char → Prop
  | nil : Expands root [] []
  | char {s rest out : List Char} {c : Char} (h : Reads s (.char c) rest)
      (back : Expands root rest out) : Expands root s (c :: out)
  | string {s rest front out : List Char} {r : Reference} {t : String}
      (h : Reads s (.reference r) rest) (steps : [] ∉ splitAt '.' r.path)
      (target : lookup root r.name = some (.string t)) (inner : Expands root t.toList front)
      (back : Expands root rest out) : Expands root s (front ++ out)
  | scalar {s rest front out : List Char} {r : Reference} {v : Value}
      (h : Reads s (.reference r) rest) (steps : [] ∉ splitAt '.' r.path)
      (target : lookup root r.name = some v) (other : ∀ t, v ≠ .string t)
      (text : v.scalarText? = some front) (back : Expands root rest out) :
      Expands root s (front ++ out)
  | fallback {s rest front out fb : List Char} {r : Reference}
      (h : Reads s (.reference r) rest) (steps : [] ∉ splitAt '.' r.path)
      (absent : lookup root r.name = none) (some_fb : r.fallback = some fb)
      (inner : Expands root fb front) (back : Expands root rest out) :
      Expands root s (front ++ out)

/-- A text without a dollar sign stands for itself. -/
theorem expands_self (root : Table) {s : List Char} (h : '$' ∉ s) : Expands root s s := by
  induction s with
  | nil => exact .nil
  | cons c rest ih =>
    simp only [List.mem_cons, not_or] at h
    exact .char (.ordinary c rest fun hc => absurd hc.symm h.1) (ih h.2)

theorem Expands.unique {root : Table} {s a b : List Char} (h : Expands root s a)
    (h' : Expands root s b) : a = b := by
  -- Both derivations begin with the same token, and what its path leads to fixes the rule.
  induction h generalizing b with
  | nil =>
    cases h' with
    | nil => rfl
    | char h | string h | scalar h | fallback h => exact absurd h not_reads_nil
  | char h _ ih =>
    cases h' with
    | nil => exact absurd h not_reads_nil
    | char h' back' =>
      obtain ⟨hk, rfl⟩ := h.unique h'
      cases hk
      rw [ih back']
    | string h' | scalar h' | fallback h' => cases (h.unique h').1
  | string h _ target _ _ ihInner ihBack =>
    cases h' with
    | nil => exact absurd h not_reads_nil
    | char h' => cases (h.unique h').1
    | string h' _ target' inner' back' =>
      obtain ⟨hk, rfl⟩ := h.unique h'
      cases hk
      rw [target] at target'
      cases target'
      rw [ihInner inner', ihBack back']
    | scalar h' _ target' other' =>
      cases (h.unique h').1
      rw [target] at target'
      cases target'
      exact absurd rfl (other' _)
    | fallback h' _ absent' =>
      cases (h.unique h').1
      rw [target] at absent'
      cases absent'
  | scalar h _ target other text _ ihBack =>
    cases h' with
    | nil => exact absurd h not_reads_nil
    | char h' => cases (h.unique h').1
    | string h' _ target' =>
      cases (h.unique h').1
      rw [target] at target'
      cases target'
      exact absurd rfl (other _)
    | scalar h' _ target' _ text' back' =>
      obtain ⟨hk, rfl⟩ := h.unique h'
      cases hk
      rw [target] at target'
      cases target'
      rw [text] at text'
      cases text'
      rw [ihBack back']
    | fallback h' _ absent' =>
      cases (h.unique h').1
      rw [target] at absent'
      cases absent'
  | fallback h _ absent some_fb _ _ ihInner ihBack =>
    cases h' with
    | nil => exact absurd h not_reads_nil
    | char h' => cases (h.unique h').1
    | string h' _ target' | scalar h' _ target' =>
      cases (h.unique h').1
      rw [absent] at target'
      cases target'
    | fallback h' _ _ some_fb' inner' back' =>
      obtain ⟨hk, rfl⟩ := h.unique h'
      cases hk
      rw [some_fb] at some_fb'
      cases some_fb'
      rw [ihInner inner', ihBack back']

/-! ## Who leads where -/

/-- The text consults the path, itself or in a fallback that is used. -/
inductive Mentions (root : Table) : List Char → String → Prop
  | here {s rest : List Char} {r : Reference} (h : Reads s (.reference r) rest) :
      Mentions root s r.name
  | fallback {s rest fb : List Char} {r : Reference} {p : String}
      (h : Reads s (.reference r) rest) (absent : lookup root r.name = none)
      (some_fb : r.fallback = some fb) (inner : Mentions root fb p) : Mentions root s p
  | later {s rest : List Char} {k : Token} {p : String} (h : Reads s k rest)
      (back : Mentions root rest p) : Mentions root s p

/-- The string at one path mentions another path. -/
def LeadsTo (root : Table) (p q : String) : Prop :=
  ∃ t, lookup root p = some (.string t) ∧ Mentions root t.toList q

/-- A text comes to a path after any number of references. -/
def Reaches (root : Table) (s : List Char) (p : String) : Prop :=
  ∃ q, Mentions root s q ∧ ReflTransGen (LeadsTo root) q p

theorem Mentions.reaches {root : Table} {s : List Char} {p : String}
    (h : Mentions root s p) : Reaches root s p :=
  ⟨p, h, .refl⟩

theorem Reaches.later {root : Table} {s rest : List Char} {k : Token} {p : String}
    (h : Reads s k rest) : Reaches root rest p → Reaches root s p := by
  rintro ⟨q, hq, hqp⟩
  exact ⟨q, .later h hq, hqp⟩

theorem Reaches.fallback {root : Table} {s rest fb : List Char} {r : Reference} {p : String}
    (h : Reads s (.reference r) rest) (absent : lookup root r.name = none)
    (some_fb : r.fallback = some fb) : Reaches root fb p → Reaches root s p := by
  rintro ⟨q, hq, hqp⟩
  exact ⟨q, .fallback h absent some_fb hq, hqp⟩

/-- What the string at a path reaches, the path leads to. -/
theorem Reaches.transGen {root : Table} {t p q : String}
    (target : lookup root p = some (.string t)) :
    Reaches root t.toList q → TransGen (LeadsTo root) p q := by
  rintro ⟨m, hm, hmq⟩
  exact .head' ⟨t, target, hm⟩ hmq

theorem Reaches.string {root : Table} {s rest : List Char} {r : Reference} {t p : String}
    (h : Reads s (.reference r) rest) (target : lookup root r.name = some (.string t))
    (ht : Reaches root t.toList p) : Reaches root s p :=
  ⟨r.name, .here h, (ht.transGen target).to_reflTransGen⟩

theorem mentions_char_iff {root : Table} {s rest : List Char} {c : Char} {p : String}
    (h : Reads s (.char c) rest) : Mentions root s p ↔ Mentions root rest p := by
  constructor
  · intro hp
    cases hp with
    | here h' | fallback h' => cases (h.unique h').1
    | later h' back =>
      obtain ⟨-, rfl⟩ := h.unique h'
      exact back
  · exact .later h

theorem mentions_reference_iff {root : Table} {s rest : List Char} {r : Reference} {p : String}
    (h : Reads s (.reference r) rest) :
    Mentions root s p ↔ p = r.name ∨
      (lookup root r.name = none ∧ ∃ fb, r.fallback = some fb ∧ Mentions root fb p) ∨
      Mentions root rest p := by
  constructor
  · intro hp
    cases hp with
    | here h' =>
      cases (h.unique h').1
      exact .inl rfl
    | fallback h' absent some_fb inner =>
      cases (h.unique h').1
      exact .inr (.inl ⟨absent, _, some_fb, inner⟩)
    | later h' back =>
      obtain ⟨-, rfl⟩ := h.unique h'
      exact .inr (.inr back)
  · rintro (rfl | ⟨absent, fb, some_fb, inner⟩ | back)
    · exact .here h
    · exact .fallback h absent some_fb inner
    · exact .later h back

/-- Only a path to a string leads anywhere. -/
theorem acc_of_not_string {root : Table} {p : String}
    (h : ∀ t, lookup root p ≠ some (.string t)) : Acc (fun q p => LeadsTo root p q) p := by
  refine .intro _ ?_
  rintro q ⟨t, target, -⟩
  exact absurd target (h t)

/-- Each step of a derivation goes to a smaller one, so below what a text with an
expansion mentions no references go on for ever. -/
theorem acc_of_expands {root : Table} {s out : List Char} (h : Expands root s out) {p : String}
    (hp : Mentions root s p) : Acc (fun q p => LeadsTo root p q) p := by
  induction h generalizing p with
  | nil => cases hp with
    | here h | fallback h | later h => exact absurd h not_reads_nil
  | char h _ ih => exact ih ((mentions_char_iff h).mp hp)
  | string h _ target _ _ ihInner ihBack =>
    rcases (mentions_reference_iff h).mp hp with rfl | ⟨absent, -⟩ | back
    · refine .intro _ ?_
      rintro q ⟨t', target', hq⟩
      rw [target] at target'
      cases target'
      exact ihInner hq
    · rw [target] at absent
      cases absent
    · exact ihBack back
  | scalar h _ target other _ _ ihBack =>
    rcases (mentions_reference_iff h).mp hp with rfl | ⟨absent, -⟩ | back
    · exact acc_of_not_string fun t => by simpa [target] using other t
    · rw [target] at absent
      cases absent
    · exact ihBack back
  | fallback h _ absent some_fb _ _ ihInner ihBack =>
    rcases (mentions_reference_iff h).mp hp with rfl | ⟨-, fb, some_fb', inner⟩ | back
    · exact acc_of_not_string fun t => by simp [absent]
    · rw [some_fb] at some_fb'
      cases some_fb'
      exact ihInner inner
    · exact ihBack back

theorem not_cycle_of_acc {root : Table} {p : String}
    (h : Acc (fun q p => LeadsTo root p q) p) : ¬ TransGen (LeadsTo root) p p := by
  induction h with
  | intro p _ ih =>
    intro hcycle
    obtain ⟨q, hpq, hqp⟩ := TransGen.head'_iff.mp hcycle
    exact ih q hpq (.tail' hqp hpq)

theorem acc_of_reaches {root : Table} {s out : List Char} (h : Expands root s out) {p : String}
    (hp : Reaches root s p) : Acc (fun q p => LeadsTo root p q) p := by
  obtain ⟨q, hq, hqp⟩ := hp
  have hacc := acc_of_expands h hq
  clear hq
  induction hqp using ReflTransGen.head_induction_on with
  | refl => exact hacc
  | head hqm _ ih => exact ih (hacc.inv hqm)

/-- **No expansion around a circle.** A text that reaches a path which leads back to
itself has no expansion. -/
theorem not_expands_of_reaches {root : Table} {s out : List Char} {p : String}
    (hp : Reaches root s p) (hcycle : TransGen (LeadsTo root) p p) : ¬ Expands root s out :=
  fun h => not_cycle_of_acc (acc_of_reaches h hp) hcycle

end Wiring.Config
