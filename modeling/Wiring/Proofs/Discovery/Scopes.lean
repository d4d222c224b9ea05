import Wiring.Proofs.Discovery.Passes

/-!
# Scopes inside scopes

A scope is written as its segments with double colons between them, and whether one scope
lies in another is decided on the written form. Segments are never cut: one scope lies in
another just when its segments start with those of the other, even where a segment starts
with the text of another one. So a scan of an inner scope finds nothing that a scan of an
outer one misses, as long as the container holds the same types for both.
-/

namespace Wiring

open Wiring.Text

namespace Scope

/-- A step of a scope: a text that is not empty and has no colon. -/
@[ext]
structure Segment where
  chars : List Char
  ne_nil : chars ≠ []
  colon_free : ':' ∉ chars

/-- The written form of a scope. -/
def text (segments : List Segment) : List Char :=
  join pathSeparator.chars (segments.map (·.chars))

/-- The scope that has these segments, from the outermost to the innermost. -/
def ofSegments (segments : List Segment) : String :=
  String.ofList (text segments)

/-- Nothing is left, or a double colon comes next. -/
def Breaks (rest : List Char) : Prop :=
  rest = [] ∨ ∃ more, rest = ':' :: ':' :: more

/-- The written form goes on for a segment or ends with it. -/
def behind (segments : List Segment) : List Char :=
  match segments with
  | [] => []
  | s :: more => ':' :: ':' :: text (s :: more)

section

variable {s t : Segment} {q e : List Segment} {rest more : List Char}

/-! ## Written segments -/

theorem text_cons (s : Segment) (e : List Segment) : text (s :: e) = s.chars ++ behind e := by
  cases e with
  | nil => exact (List.append_nil _).symm
  | cons t e => exact List.append_assoc ..

theorem text_ne_nil (s : Segment) (e : List Segment) : text (s :: e) ≠ [] := by
  rw [text_cons]
  exact List.append_ne_nil_of_left_ne_nil s.ne_nil _

theorem breaks_behind (e : List Segment) : Breaks (behind e) := by
  cases e with
  | nil => exact .inl rfl
  | cons s e => exact .inr ⟨text (s :: e), rfl⟩

theorem breaks_behind_append (q : List Segment) (h : Breaks rest) : Breaks (behind q ++ rest) := by
  cases q with
  | nil => exact h
  | cons s q => exact .inr ⟨text (s :: q) ++ rest, rfl⟩

/-- Where the first segment ends can be seen in the text. -/
theorem append_eq_append_iff_of_breaks (hrest : Breaks rest) (hmore : Breaks more) :
    s.chars ++ rest = t.chars ++ more ↔ s = t ∧ rest = more := by
  -- A colon stands in a text just when what is behind the segment is not empty.
  have hcolon : ∀ (u : Segment) {x : List Char}, Breaks x → (':' ∈ u.chars ++ x ↔ x ≠ []) := by
    rintro u x (rfl | ⟨y, rfl⟩) <;> simp [u.colon_free]
  constructor
  · intro h
    have hempty : rest = [] ↔ more = [] := by
      rw [← not_iff_not, ← Ne, ← Ne, ← hcolon s hrest, h, hcolon t hmore]
    rcases hrest with rfl | ⟨x, rfl⟩
    · obtain rfl := hempty.mp rfl
      rw [List.append_nil, List.append_nil] at h
      exact ⟨Segment.ext h, rfl⟩
    · rcases hmore with rfl | ⟨y, rfl⟩
      · exact absurd (hempty.mpr rfl) (List.cons_ne_nil _ _)
      · have hs : cutFirst ':' (s.chars ++ ':' :: ':' :: x) = some (s.chars, ':' :: x) :=
          cutFirst_eq_some_iff.mpr ⟨rfl, s.colon_free⟩
        have ht := cutFirst_eq_some_iff.mpr ⟨h, t.colon_free⟩
        rw [hs, Option.some.injEq, Prod.mk.injEq] at ht
        exact ⟨Segment.ext ht.1, congrArg _ ht.2⟩
  · rintro ⟨rfl, rfl⟩
    rfl

/-! ## The test on written scopes -/

/-- What the test of a scope looks for in the written form of another one. -/
def Inside (inner outer : List Char) : Prop :=
  outer = [] ∨ ∃ rest, inner = outer ++ rest ∧ Breaks rest

theorem Inside.refl (scope : List Char) : Inside scope scope :=
  .inr ⟨[], (List.append_nil _).symm, .inl rfl⟩

theorem Inside.trans {a b c : List Char} (hab : Inside a b) (hbc : Inside b c) : Inside a c := by
  rcases hbc with rfl | ⟨y, rfl, hy⟩
  · exact .inl rfl
  rcases hab with hb | ⟨x, rfl, hx⟩
  · exact .inl (List.append_eq_nil_iff.mp hb).1
  refine .inr ⟨y ++ x, List.append_assoc .., ?_⟩
  rcases hy with rfl | ⟨z, rfl⟩
  · exact hx
  · exact .inr ⟨z ++ x, rfl⟩

/-- What stands behind two equal segments decides in the same way. -/
theorem behind_eq_append_iff :
    (∃ rest, behind e = behind q ++ rest ∧ Breaks rest) ↔ Inside (text e) (text q) := by
  cases q with
  | nil => exact iff_of_true ⟨behind e, rfl, breaks_behind e⟩ (.inl rfl)
  | cons s q =>
    rw [Inside, or_iff_right (text_ne_nil s q)]
    cases e with
    | nil =>
      refine iff_of_false ?_ ?_
      · rintro ⟨rest, h, -⟩
        cases h
      · rintro ⟨rest, h, -⟩
        exact text_ne_nil s q (List.append_eq_nil_iff.mp h.symm).1
    | cons t e => simp only [behind, List.cons_append, List.cons.injEq, true_and]

theorem inside_cons_iff : Inside (text (t :: e)) (text (s :: q)) ↔
    s = t ∧ Inside (text e) (text q) := by
  rw [Inside, or_iff_right (text_ne_nil s q), ← behind_eq_append_iff]
  simp only [text_cons, List.append_assoc]
  constructor
  · rintro ⟨rest, h, hrest⟩
    obtain ⟨rfl, hbehind⟩ := (append_eq_append_iff_of_breaks (breaks_behind e)
      (breaks_behind_append q hrest)).mp h
    exact ⟨rfl, rest, hbehind, hrest⟩
  · rintro ⟨rfl, rest, hbehind, hrest⟩
    exact ⟨rest, congrArg _ hbehind, hrest⟩

/-- One written scope is inside another just when its segments start with those of the other. -/
theorem inside_text_iff : Inside (text e) (text q) ↔ q <+: e := by
  induction q generalizing e with
  | nil => exact iff_of_true (.inl rfl) List.nil_prefix
  | cons s q ih =>
    cases e with
    | nil =>
      refine iff_of_false ?_ (by simp)
      rintro (h | ⟨rest, h, -⟩)
      · exact text_ne_nil s q h
      · exact text_ne_nil s q (List.append_eq_nil_iff.mp h.symm).1
    | cons t e => rw [inside_cons_iff, ih, List.cons_prefix_cons]

end

end Scope

namespace Discoverable

variable {d outer : Discoverable} {scope : String}

theorem isWithin_iff : d.isWithin scope = true ↔ Scope.Inside d.scope.toList scope.toList := by
  have hempty : scope.isEmpty = true ↔ scope.toList = [] := by simp
  have hbreak : ∀ rest : List Char,
      (rest.isEmpty || (dropLeading pathSeparator.chars rest).isSome) = true ↔
        Scope.Breaks rest := by
    intro rest
    rw [Bool.or_eq_true, List.isEmpty_iff, Option.isSome_iff_exists, Scope.Breaks]
    simp only [dropLeading_eq_some_iff]
    rfl
  rw [isWithin, Bool.or_eq_true, hempty, Scope.Inside]
  refine or_congr_right ?_
  cases hdrop : dropLeading scope.toList d.scope.toList with
  | none =>
    refine iff_of_false Bool.false_ne_true ?_
    rintro ⟨rest, h, -⟩
    rw [dropLeading_eq_some_iff.mpr h] at hdrop
    cases hdrop
  | some rest =>
    rw [dropLeading_eq_some_iff] at hdrop
    simp only [hbreak, hdrop, List.append_cancel_left_eq, exists_eq_left']

theorem isWithin_trans (h : d.isWithin outer.scope = true) (h' : outer.isWithin scope = true) :
    d.isWithin scope = true := by
  rw [isWithin_iff] at h h' ⊢
  exact h.trans h'

end Discoverable

/-! ## Scans of inner and outer scopes -/

namespace Container

variable {α ω : Type}

/-- The answers to which types are held, asked one after the other. -/
def told (container : Container α ω) : List TypeName → ω → List Bool
  | [], _ => []
  | type :: rest, s =>
    match container.contains type s with
    | (held, s) => held :: told container rest s

/-- In this state the container holds these types, and being asked does not change that. -/
def Holds (container : Container α ω) (s : ω) (held : TypeName → Bool) : Prop :=
  ∀ types, container.told types s = types.map held

variable {container : Container α ω} {s : ω} {held : TypeName → Bool}

theorem Holds.contains (h : container.Holds s held) (type : TypeName) :
    (container.contains type s).1 = held type ∧
      container.Holds (container.contains type s).2 held :=
  ⟨(List.cons.inj (h [type])).1, fun types => (List.cons.inj (h (type :: types))).2⟩

theorem holds_context (c : Context α) : Context.container.Holds c c.contains := by
  intro types
  induction types with
  | nil => rfl
  | cons type rest ih => exact congrArg _ ih

end Container

namespace Scan

variable {α ω : Type} {container : Container α ω} {s : ω} {held : TypeName → Bool}

theorem pass_of_holds (h : container.Holds s held) (scope : String) (known : List Discoverable) :
    ((⟨scope, container⟩ : Scan α ω).pass known s).1 =
      known.filter fun d => d.isWithin scope && !held d.type := by
  induction known generalizing s with
  | nil => rfl
  | cons d rest ih =>
    obtain ⟨hheld, hkept⟩ := h.contains d.type
    rcases hasked : container.contains d.type s with ⟨answer, s'⟩
    rw [hasked] at hheld hkept
    rw [List.filter_cons, ← hheld]
    dsimp only [pass]
    rw [hasked]
    cases d.isWithin scope with
    | false => exact ih h
    | true =>
      cases answer with
      | true => exact ih hkept
      | false => exact congrArg _ (ih hkept)

/-- What is found in a scope is found in each scope around it, in the same order. -/
theorem pass_sublist (h : container.Holds s held) {d : Discoverable} {scope : String}
    (hscope : d.isWithin scope = true) (known : List Discoverable) :
    ((⟨d.scope, container⟩ : Scan α ω).pass known s).1.Sublist
      ((⟨scope, container⟩ : Scan α ω).pass known s).1 := by
  rw [pass_of_holds h, pass_of_holds h]
  refine List.monotone_filter_right known fun entry hentry => ?_
  rw [Bool.and_eq_true] at hentry ⊢
  exact ⟨Discoverable.isWithin_trans hentry.1 hscope, hentry.2⟩

end Scan

/-- **Scopes contain scopes by their segments.** An entry is within a scope just when the
segments of its own scope start with those of the other; the scope without segments is
written as the empty text and contains everything. So containment is reflexive and
transitive, for any texts as scopes, and whatever a container holds, a scan of a scope
finds some of what a scan of each enclosing scope finds, in the same order. A context
holds the same types however often it is asked, so this is so in all of its states. -/
theorem contained_by_segments {α ω : Type} (container : Container α ω) :
    (∀ (e q : List Scope.Segment) name type,
      (⟨Scope.ofSegments e, name, type⟩ : Discoverable).isWithin (Scope.ofSegments q) = true ↔
        q <+: e) ∧
    (Scope.ofSegments [] = "" ∧ ∀ d : Discoverable, d.isWithin "" = true) ∧
    (∀ d : Discoverable, d.isWithin d.scope = true) ∧
    (∀ (d outer : Discoverable) scope, d.isWithin outer.scope = true →
      outer.isWithin scope = true → d.isWithin scope = true) ∧
    (∀ s held, container.Holds s held → ∀ (d : Discoverable) scope, d.isWithin scope = true →
      ∀ known, ((⟨d.scope, container⟩ : Scan α ω).pass known s).1.Sublist
        ((⟨scope, container⟩ : Scan α ω).pass known s).1) ∧
    (∀ (c : Context α) (d : Discoverable) scope, d.isWithin scope = true →
      ∀ known, ((⟨d.scope, Context.container⟩ : Scan α _).pass known c).1.Sublist
        ((⟨scope, Context.container⟩ : Scan α _).pass known c).1) := by
  refine ⟨fun e q name type => ?_, ⟨rfl, fun d => ?_⟩, fun d => ?_,
    fun d outer scope => Discoverable.isWithin_trans,
    fun s held hheld d scope hscope => Scan.pass_sublist hheld hscope,
    fun c d scope hscope => Scan.pass_sublist (Container.holds_context c) hscope⟩
  · rw [Discoverable.isWithin_iff]
    simp only [Scope.ofSegments, String.toList_ofList, Scope.inside_text_iff]
  · exact Discoverable.isWithin_iff.mpr (.inl rfl)
  · exact Discoverable.isWithin_iff.mpr (.refl _)

/-! A shop with a desk, and a mall whose scope starts with the letters of the shop's. -/

def cart : Discoverable := ⟨"shop", "Cart", ⟨"shop::Cart"⟩⟩

def till : Discoverable := ⟨"shop::desk", "Till", ⟨"shop::desk::Till"⟩⟩

def stool : Discoverable := ⟨"shop::desk", "Stool", ⟨"shop::desk::Stool"⟩⟩

def basket : Discoverable := ⟨"shopping", "Basket", ⟨"shopping::Basket"⟩⟩

/-- A context that holds the stool. -/
def furnished : Context Nat :=
  { environment := .empty, policy := .reject : Context Nat }.registerAll
    [⟨"stool", ⟨stool.type, 1⟩⟩]

/-- The desk is in the shop, so what is found at the desk is found in the shop. -/
theorem desk_scanned_with_shop :
    Context.container.Holds furnished furnished.contains ∧ till.isWithin cart.scope = true ∧
    List.Sublist
      ((⟨till.scope, Context.container⟩ : Scan Nat _).pass [stool, cart, basket, till] furnished).1
      ((⟨cart.scope, Context.container⟩ : Scan Nat _).pass [stool, cart, basket, till] furnished).1
      := by
  have hheld := Container.holds_context furnished
  have hdesk : till.isWithin cart.scope = true := by decide
  obtain ⟨-, -, -, -, hscans, -⟩ := contained_by_segments (Context.container : Container Nat _)
  exact ⟨hheld, hdesk, hscans furnished _ hheld till cart.scope hdesk _⟩

example :
    ((⟨till.scope, Context.container⟩ : Scan Nat _).pass [stool, cart, basket, till] furnished).1 =
      [till] ∧
    ((⟨cart.scope, Context.container⟩ : Scan Nat _).pass [stool, cart, basket, till] furnished).1 =
      [cart, till] := by
  decide

end Wiring
