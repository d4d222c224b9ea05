import Mathlib.Data.List.Dedup
import Mathlib.Data.List.Perm.Subperm
import Mathlib.Data.Prod.Lex
import Wiring.Proofs.Config.Names
import Wiring.Proofs.Config.Stack

/-!
# How deep resolution nests

A call is a value, a text or a reference together with the stack that it finds.
The calls it makes in turn form a relation on calls, the recursion of resolving
itself. It is well-founded for every table: below a push fewer paths to strings
are left that are not on the stack, without a push a reference is shorter than
the text it stands in and a fallback shorter than the reference, and values
have finitely many parts.

* `Calls.rank_lt` — each call is below the one that makes it.
* `Calls.stack_cases` — only a reference to a string that is not on the stack
  pushes.
* `resolution_terminates` — the recursion is well-founded, and what the stack
  holds bounds its depth.
-/

namespace Wiring.Config

open Wiring.Text Wiring.Toml Relation

/-! ## The paths to strings -/

/-- The path addresses a string of the root. -/
def Addresses (root : Table) (p : String) : Prop :=
  ∃ t, lookup root p = some (.string t)

instance (root : Table) (p : String) : Decidable (Addresses root p) :=
  match h : lookup root p with
  | some (.string t) => isTrue ⟨t, h⟩
  | none => isFalse fun ⟨_, ht⟩ => by simp [h] at ht
  | some (.integer _) | some (.float _) | some (.bool _) | some (.stamp _) | some (.array _)
  | some (.table _) => isFalse fun ⟨_, ht⟩ => by simp [h] at ht

/-- All paths that address a string, each once. -/
def stringPaths (root : Table) : List String :=
  ((stringNames [] root).filter fun p => Addresses root p).dedup

theorem mem_stringPaths {root : Table} {p : String} :
    p ∈ stringPaths root ↔ Addresses root p := by
  simp only [stringPaths, List.mem_dedup, List.mem_filter, decide_eq_true_eq]
  exact ⟨And.right, fun h => ⟨h.elim fun _ ht => lookup_mem_stringNames ht, h⟩⟩

theorem nodup_stringPaths (root : Table) : (stringPaths root).Nodup :=
  List.nodup_dedup _

/-- Two paths never address the same string. -/
theorem nodup_map_keysOf (root : Table) : ((stringPaths root).map keysOf).Nodup :=
  (List.nodup_map_iff (Function.LeftInverse.injective dotted_keysOf)).mpr (nodup_stringPaths root)

/-- The strings that paths address are those behind keys without a dot. -/
theorem mem_map_keysOf_iff {root : Table} {keys : List String} :
    keys ∈ (stringPaths root).map keysOf ↔
      (∃ t, follow root keys = some (.string t)) ∧ ∀ key ∈ keys, '.' ∉ key.toList := by
  simp only [List.mem_map, mem_stringPaths]
  constructor
  · rintro ⟨p, target, rfl⟩
    exact ⟨target, fun key => dot_not_mem_of_mem_keysOf⟩
  · rintro ⟨⟨t, target⟩, plain⟩
    have hne : keys ≠ [] := by
      rintro rfl
      cases target
    have hkeys := keysOf_dotted plain hne
    exact ⟨dotted keys, ⟨t, by rw [lookup, hkeys, target]⟩, hkeys⟩

/-- The key with a dot in it has no path of its own. -/
example :
    stringPaths [("a.b", .string "whole"), ("a", .table [("b", .string "inner")]),
      ("port", .integer 80)] = ["a.b"] ∧
    keysOf "a.b" = ["a", "b"] := by
  decide

/-! ## Calls -/

/-- What a call is made on. -/
inductive Job
  | value (v : Value)
  | text (s : List Char)
  | reference (r : Reference)

/-- What a call is made on, and the stack it finds. -/
structure Call where
  stack : List String
  job : Job

section

variable (root : Table)

/-- `Arrives root stack s stack' r`: called on `s` with `stack`, the loop comes to the
reference `r`, with `stack'` left by what was settled before it. -/
inductive Arrives : List String → List Char → List String → Reference → Prop
  | here {stack : List String} {s rest : List Char} {r : Reference}
      (h : Reads s (.reference r) rest) : Arrives stack s stack r
  | char {stack stack' : List String} {s rest : List Char} {c : Char} {r : Reference}
      (h : Reads s (.char c) rest) (later : Arrives stack rest stack' r) :
      Arrives stack s stack' r
  | settled {stack mid stack' : List String} {s rest front : List Char} {q r : Reference}
      (h : Reads s (.reference q) rest) (replaced : Settles root stack q (.ok front) mid)
      (later : Arrives mid rest stack' r) : Arrives stack s stack' r

/-- `Calls root outer inner`: the call `outer` makes the call `inner`. Earlier calls have
left the stack that `inner` finds. -/
inductive Calls : Call → Call → Prop
  | item {stack stack' : List String} {front rest before : List Value} {v : Value}
      (h : ResolvesItems root stack front (.ok before) stack') :
      Calls ⟨stack, .value (.array (front ++ v :: rest))⟩ ⟨stack', .value v⟩
  | entry {stack stack' : List String} {front rest before : List (String × Value)} {key : String}
      {v : Value} (h : ResolvesEntries root stack front (.ok before) stack') :
      Calls ⟨stack, .value (.table (front ++ (key, v) :: rest))⟩ ⟨stack', .value v⟩
  | string {stack : List String} {s : String} :
      Calls ⟨stack, .value (.string s)⟩ ⟨stack, .text s.toList⟩
  | reference {stack stack' : List String} {s : List Char} {r : Reference}
      (h : Arrives root stack s stack' r) : Calls ⟨stack, .text s⟩ ⟨stack', .reference r⟩
  | fallback {stack : List String} {r : Reference} {fb : List Char}
      (steps : [] ∉ splitAt '.' r.path) (absent : lookup root r.name = none)
      (some_fb : r.fallback = some fb) : Calls ⟨stack, .reference r⟩ ⟨stack, .text fb⟩
  | target {stack : List String} {r : Reference} {t : String} (steps : [] ∉ splitAt '.' r.path)
      (target : lookup root r.name = some (.string t)) (fresh : r.name ∉ stack) :
      Calls ⟨stack, .reference r⟩ ⟨r.name :: stack, .text t.toList⟩

/-- Values come before texts. Below them count the paths to strings that are not on
the stack, then what is left to read. -/
noncomputable def Call.rank (call : Call) : ℕ ×ₗ ℕ ×ₗ ℕ :=
  match call.job with
  | .value v => toLex (sizeOf v, toLex (0, 0))
  | .text s => toLex (0, toLex (freshNames root call.stack, s.length))
  | .reference r => toLex (0, toLex (freshNames root call.stack, r.body.length))

end

section

variable {root : Table}

theorem Reads.length_body_lt {s : List Char} {r : Reference} {rest : List Char}
    (h : Reads s (.reference r) rest) : r.body.length < s.length := by
  cases h
  simp only [List.length_cons, List.length_append]
  omega

theorem Reference.length_fallback_lt {r : Reference} {fb : List Char}
    (h : r.fallback = some fb) : fb.length < r.body.length := by
  simp only [Reference.body, h, List.length_append, List.length_cons]
  omega

theorem Arrives.stack_eq {stack stack' : List String} {s : List Char} {r : Reference}
    (h : Arrives root stack s stack' r) : stack' = stack := by
  induction h with
  | here => rfl
  | char _ _ ih => exact ih
  | settled _ replaced _ ih => rw [ih, (settles_iff.mp replaced).2]

theorem Arrives.length_body_lt {stack stack' : List String} {s : List Char} {r : Reference}
    (h : Arrives root stack s stack' r) : r.body.length < s.length := by
  induction h with
  | here h => exact h.length_body_lt
  | char h _ ih | settled h _ _ ih => exact ih.trans h.length_lt

theorem ResolvesItems.stack_eq {stack stack' : List String} {items : List Value}
    {answer : Except ConfigError (List Value)} (h : ResolvesItems root stack items answer stack') :
    stack' = stack := by
  obtain ⟨_, _, hout⟩ := exists_resolvesItems_iff root stack items
  exact ((hout _ _).mp h).2

theorem ResolvesEntries.stack_eq {stack stack' : List String} {entries : List (String × Value)}
    {answer : Except ConfigError Table} (h : ResolvesEntries root stack entries answer stack') :
    stack' = stack := by
  obtain ⟨_, _, hout⟩ := exists_resolvesEntries_iff root stack entries
  exact ((hout _ _).mp h).2

/-! ## The recursion is well-founded -/

/-- A call is below the one that makes it. -/
theorem Calls.rank_lt {outer inner : Call} (h : Calls root outer inner) :
    inner.rank root < outer.rank root := by
  cases h with
  | @item _ _ front rest _ v =>
    have hmem : v ∈ front ++ v :: rest := by simp
    have := List.sizeOf_lt_of_mem hmem
    refine Prod.Lex.toLex_lt_toLex.mpr (.inl ?_)
    simp only [Value.array.sizeOf_spec]
    omega
  | @entry _ _ front rest _ key v =>
    have hmem : (key, v) ∈ front ++ (key, v) :: rest := by simp
    have := List.sizeOf_lt_of_mem hmem
    refine Prod.Lex.toLex_lt_toLex.mpr (.inl ?_)
    simp only [Value.table.sizeOf_spec, Prod.mk.sizeOf_spec] at this ⊢
    omega
  | string =>
    refine Prod.Lex.toLex_lt_toLex.mpr (.inl ?_)
    simp only [Value.string.sizeOf_spec]
    omega
  | reference h =>
    obtain rfl := h.stack_eq
    refine Prod.Lex.toLex_lt_toLex.mpr (.inr ⟨rfl, ?_⟩)
    exact Prod.Lex.toLex_lt_toLex.mpr (.inr ⟨rfl, h.length_body_lt⟩)
  | fallback _ _ some_fb =>
    refine Prod.Lex.toLex_lt_toLex.mpr (.inr ⟨rfl, ?_⟩)
    exact Prod.Lex.toLex_lt_toLex.mpr (.inr ⟨rfl, Reference.length_fallback_lt some_fb⟩)
  | target _ target fresh =>
    refine Prod.Lex.toLex_lt_toLex.mpr (.inr ⟨rfl, ?_⟩)
    exact Prod.Lex.toLex_lt_toLex.mpr (.inl (freshNames_lt target (by simpa using fresh)))

theorem wellFounded_calls : WellFounded fun inner outer => Calls root outer inner :=
  Subrelation.wf Calls.rank_lt (InvImage.wf (Call.rank root) wellFounded_lt)

/-! ## What the stack holds -/

/-- A call hands on its stack, or pushes the path of a reference to a string. -/
theorem Calls.stack_cases {outer inner : Call} (h : Calls root outer inner) :
    inner.stack = outer.stack ∨
      ∃ r t, outer.job = .reference r ∧ lookup root r.name = some (.string t) ∧
        r.name ∉ outer.stack ∧ inner = ⟨r.name :: outer.stack, .text t.toList⟩ := by
  cases h with
  | item h | entry h | reference h => exact .inl h.stack_eq
  | string | fallback => exact .inl rfl
  | @target _ r t _ target fresh => exact .inr ⟨r, t, rfl, target, fresh, rfl⟩

/-- No path is on the stack twice, and every path on it addresses a string. -/
structure Call.Proper (root : Table) (call : Call) : Prop where
  nodup : call.stack.Nodup
  addresses : ∀ p ∈ call.stack, Addresses root p

theorem Calls.proper {outer inner : Call} (h : Calls root outer inner)
    (proper : outer.Proper root) : inner.Proper root := by
  rcases h.stack_cases with hstack | ⟨r, t, -, target, fresh, rfl⟩
  · exact ⟨hstack ▸ proper.nodup, hstack ▸ proper.addresses⟩
  · refine ⟨List.nodup_cons.mpr ⟨fresh, proper.nodup⟩, fun p hp => ?_⟩
    rcases List.mem_cons.mp hp with rfl | hp
    · exact ⟨t, target⟩
    · exact proper.addresses p hp

theorem proper_of_calls {outer inner : Call} (h : ReflTransGen (Calls root) outer inner)
    (proper : outer.Proper root) : inner.Proper root := by
  induction h with
  | refl => exact proper
  | tail _ hcalls ih => exact hcalls.proper ih

theorem Call.Proper.length_le {call : Call} (proper : call.Proper root) :
    call.stack.length ≤ (stringPaths root).length :=
  (List.Nodup.subperm proper.nodup fun p hp =>
    mem_stringPaths.mpr (proper.addresses p hp)).length_le

/-! ## From push to push -/

theorem suffix_of_calls {outer inner : Call} (h : ReflTransGen (Calls root) outer inner) :
    outer.stack <:+ inner.stack := by
  induction h with
  | refl => exact List.suffix_rfl
  | tail _ hcalls ih =>
    rcases hcalls.stack_cases with hstack | ⟨r, t, -, -, -, rfl⟩
    · exact hstack ▸ ih
    · exact ih.trans (List.suffix_cons _ _)

theorem rank_lt_of_calls {outer inner : Call} (h : TransGen (Calls root) outer inner) :
    inner.rank root < outer.rank root := by
  induction h with
  | single hcalls => exact hcalls.rank_lt
  | tail _ hcalls ih => exact hcalls.rank_lt.trans ih

/-- Without a push in between, a text expanded inside another is shorter. -/
theorem length_lt_of_calls {stack : List String} {s s' : List Char}
    (h : TransGen (Calls root) ⟨stack, .text s⟩ ⟨stack, .text s'⟩) : s'.length < s.length := by
  have hrank := rank_lt_of_calls h
  simpa [Call.rank, Prod.Lex.toLex_lt_toLex] using hrank

/-- From a text to the next one below it: a reference in it is settled by its fallback
or pushed. -/
theorem Calls.text_cases {stack stack' : List String} {s s' : List Char} {mid : Call}
    (h : Calls root ⟨stack, .text s⟩ mid) (h' : Calls root mid ⟨stack', .text s'⟩) :
    ∃ r, mid = ⟨stack, .reference r⟩ ∧
      ((stack' = stack ∧ lookup root r.name = none ∧ r.fallback = some s' ∧
          s'.length < s.length) ∨
        (stack' = r.name :: stack ∧ r.name ∉ stack ∧
          ∃ t, lookup root r.name = some (.string t) ∧ s' = t.toList)) := by
  cases h with
  | @reference _ _ _ r h =>
    obtain rfl := h.stack_eq
    refine ⟨r, rfl, ?_⟩
    cases h' with
    | fallback _ absent some_fb =>
      have := Reference.length_fallback_lt some_fb
      exact .inl ⟨rfl, absent, some_fb, this.trans h.length_body_lt⟩
    | target _ target fresh => exact .inr ⟨rfl, fresh, _, target, rfl⟩

/-- **Resolution terminates on every configuration.** The calls that calls make are
well-founded, and each of them answers once and leaves the stack as it was, in
success and in failure. Below a call with nothing on the stack no path is ever on it
twice and every path on it addresses a string, so references nest at most as deep
as there are strings that dotted paths address. From one text to the next below it,
either a path is pushed that was not on the stack, or a strictly shorter fallback is
expanded. -/
theorem resolution_terminates (root : Table) :
    (WellFounded fun inner outer => Calls root outer inner) ∧
    (∀ stack s answer stack',
      Runs root stack s answer stack' ↔ answer = expand root stack s ∧ stack' = stack) ∧
    (∀ stack r answer stack',
      Settles root stack r answer stack' ↔ answer = substitute root stack r ∧ stack' = stack) ∧
    (∀ stack v, ∃ out, (stack = [] → out = resolveValue root v) ∧ ∀ answer stack',
      Resolves root stack v answer stack' ↔ answer = out ∧ stack' = stack) ∧
    (∀ job call, ReflTransGen (Calls root) ⟨[], job⟩ call →
      call.stack.Nodup ∧ (∀ p ∈ call.stack, Addresses root p) ∧
        call.stack.length ≤ (stringPaths root).length) ∧
    ((∀ p, p ∈ stringPaths root ↔ Addresses root p) ∧
      ((stringPaths root).map keysOf).Nodup ∧ ∀ keys, keys ∈ (stringPaths root).map keysOf ↔
        (∃ t, follow root keys = some (.string t)) ∧ ∀ key ∈ keys, '.' ∉ key.toList) ∧
    (∀ stack s mid stack' s', Calls root ⟨stack, .text s⟩ mid →
      Calls root mid ⟨stack', .text s'⟩ → ∃ r, mid = ⟨stack, .reference r⟩ ∧
        ((stack' = stack ∧ lookup root r.name = none ∧ r.fallback = some s' ∧
            s'.length < s.length) ∨
          (stack' = r.name :: stack ∧ r.name ∉ stack ∧
            ∃ t, lookup root r.name = some (.string t) ∧ s' = t.toList))) ∧
    (∀ stack s stack' s', TransGen (Calls root) ⟨stack, .text s⟩ ⟨stack', .text s'⟩ →
      stack <:+ stack' ∧ (stack' = stack → s'.length < s.length)) := by
  refine ⟨wellFounded_calls, fun _ _ _ _ => runs_iff, fun _ _ _ _ => settles_iff,
    exists_resolves_iff root, fun job call h => ?_,
    ⟨fun _ => mem_stringPaths, nodup_map_keysOf root, fun _ => mem_map_keysOf_iff⟩,
    fun _ _ _ _ _ => Calls.text_cases, fun stack s stack' s' h => ⟨?_, ?_⟩⟩
  · have proper := proper_of_calls h ⟨List.nodup_nil, by simp⟩
    exact ⟨proper.nodup, proper.addresses, proper.length_le⟩
  · exact suffix_of_calls h.to_reflTransGen
  · rintro rfl
    exact length_lt_of_calls h

end

end Wiring.Config
