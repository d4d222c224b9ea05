import Wiring.Proofs.Config.Lookups

/-!
# Referring to a value and reading it

A string that is one reference and nothing else is an alias of the value at
the path. Expanding an alias remembers the path on the way, and reading the
value does not; the texts are the same all the same, and so are those of any
aliases of aliases. An alias of an array or a table cannot be expanded.
-/

namespace Wiring.Config

open Wiring.Text Wiring.Toml Relation

/-- The reference can be written: its parts hold nothing that would end them early, and
no step of its path is empty. -/
structure Reference.Plain (r : Reference) : Prop where
  steps : [] ∉ splitAt '.' r.path
  colon : ':' ∉ r.path
  brace : '\x7d' ∉ r.body

/-- The reference as a text of its own. -/
def Reference.text (r : Reference) : List Char :=
  '$' :: '\x7b' :: (r.body ++ ['\x7d'])

theorem Reference.Plain.reads {r : Reference} (h : r.Plain) : Reads r.text (.reference r) [] :=
  .reference r [] h.colon h.brace

theorem expand_text {r : Reference} (h : r.Plain) (root : Table) (stack : List String) :
    expand root stack r.text = substitute root stack r := by
  rw [expand_reference root stack h.reads, expand_nil]
  cases substitute root stack r with
  | error e => rfl
  | ok front => simp [Except.map]

theorem scalarText?_mapStrings {f : String → String} {v : Value} (h : ∀ s, v ≠ .string s) :
    (mapStrings f v).scalarText? = v.scalarText? := by
  cases v with
  | string s => exact absurd rfl (h s)
  | integer | float | bool | stamp | array | table => rfl

theorem scalarText?_eq_none_iff {v : Value} :
    v.scalarText? = none ↔ (∃ items, v = .array items) ∨ ∃ entries, v = .table entries := by
  cases v <;> simp [Value.scalarText?]

/-- In a table that resolves, a reference to a value expands to the text of the value's
resolved form. -/
theorem expand_text_of_resolve {root t : Table} (h : resolve root = .ok t) {r : Reference}
    (hr : r.Plain) {v : Value} (target : lookup root r.name = some v) :
    expand root [] r.text =
      match (mapStrings (expansionOf root) v).scalarText? with
      | some text => .ok text
      | none => .error (.nonScalarReference r.name) := by
  by_cases other : ∀ s, v ≠ .string s
  · have hexpand := (expand_text hr root []).trans (substitute_scalar [] hr.steps target other)
    rw [scalarText?_mapStrings other]
    cases htext : v.scalarText? with
    | none => simp only [hexpand, htext]
    | some text => simp only [hexpand, htext]
  · obtain ⟨s, rfl⟩ : ∃ s, v = .string s := by simpa using other
    -- The derivation for the string itself, which remembers nothing, also serves the reference.
    have inner := expands_of_resolve h (property?_of_lookup target)
    have whole := Expands.string hr.reads hr.steps target inner .nil
    rw [List.append_nil] at whole
    simp only [mapStrings, Value.scalarText?]
    exact expand_nil_eq_ok_iff.mpr whole

/-- Under the name `q` stands nothing but a reference to the value at the path `p`. -/
def IsAlias (root : Table) (q p : String) : Prop :=
  ∃ r : Reference, r.Plain ∧ r.name = p ∧ (lookup root p).isSome ∧
    property? root q = some (.string (String.ofList r.text))

theorem IsAlias.propertyText? {root t : Table} (h : resolve root = .ok t) {q p : String}
    (hq : IsAlias root q p) :
    (Environment.mk t).propertyText? q = (Environment.mk t).propertyText? p := by
  obtain ⟨r, hr, rfl, hsome, hstring⟩ := hq
  obtain ⟨v, target⟩ := Option.isSome_iff_exists.mp hsome
  have hexpand := expand_nil_eq_ok_iff.mpr (expands_of_resolve h hstring)
  rw [String.toList_ofList, expand_text_of_resolve h hr target] at hexpand
  simp only [Environment.propertyText?, Environment.property?, property?_of_resolve h, hstring,
    property?_of_lookup target, Option.map_some, Option.bind_some, mapStrings]
  cases htext : (mapStrings (expansionOf root) v).scalarText? with
  | none => rw [htext] at hexpand; cases hexpand
  | some text =>
    rw [htext] at hexpand
    cases hexpand
    simp [Value.scalarText?]

/-- **Reading a property and referring to it agree.** In a table that resolves, a reference
to a path with a value expands to a text exactly when that is the text of the property, and
is refused as no scalar exactly when the property is an array or a table. Along any row of
aliases the text of the property stays the same. -/
theorem reference_iff_property {root t : Table} (h : resolve root = .ok t) {r : Reference}
    (hr : r.Plain) {v : Value} (target : lookup root r.name = some v) :
    (∀ out, expand root [] r.text = .ok out ↔
      (Environment.mk t).propertyText? r.name = some (String.ofList out)) ∧
    (expand root [] r.text = .error (.nonScalarReference r.name) ↔
      ∃ w, (Environment.mk t).property? r.name = some w ∧
        ((∃ items, w = .array items) ∨ ∃ entries, w = .table entries)) ∧
    ∀ q, ReflTransGen (IsAlias root) q r.name →
      (Environment.mk t).propertyText? q = (Environment.mk t).propertyText? r.name := by
  have hproperty : (Environment.mk t).property? r.name =
      some (mapStrings (expansionOf root) v) := by
    rw [Environment.property?, property?_of_resolve h, property?_of_lookup target]
    rfl
  refine ⟨fun out => ?_, ?_, fun q hq => ?_⟩
  · rw [Environment.propertyText?, hproperty, expand_text_of_resolve h hr target,
      Option.bind_some]
    cases (mapStrings (expansionOf root) v).scalarText? <;> simp [String.ofList_inj]
  · rw [expand_text_of_resolve h hr target, hproperty]
    simp only [Option.some.injEq, exists_eq_left', ← scalarText?_eq_none_iff]
    cases (mapStrings (expansionOf root) v).scalarText? <;> simp
  · induction hq using ReflTransGen.head_induction_on with
    | refl => rfl
    | head hstep _ ih => exact (hstep.propertyText? h).trans ih

/-! A price with an escape in it, an alias of it, and an alias of the alias that comes first. -/

def tariff : Table :=
  [("door", .string "$\x7bhall.entry:free\x7d"),
    ("hall", .table [("entry", .string "$\x7bhall.price\x7d"), ("price", .string "5$$")])]

def tariffResolved : Table :=
  [("door", .string "5$"), ("hall", .table [("entry", .string "5$"), ("price", .string "5$")])]

def entryReference : Reference := ⟨"hall.entry".toList, some "free".toList⟩

def priceReference : Reference := ⟨"hall.price".toList, none⟩

theorem entryReference_plain : entryReference.Plain := ⟨by decide, by decide, by decide⟩

theorem priceReference_plain : priceReference.Plain := ⟨by decide, by decide, by decide⟩

theorem expands_price : Expands tariff "5$$".toList "5$".toList :=
  .char (.ordinary '5' _ (by decide)) (.char (.escaped []) .nil)

theorem resolve_tariff : resolve tariff = .ok tariffResolved := by
  have entry : Expands tariff "$\x7bhall.price\x7d".toList "5$".toList :=
    .string priceReference_plain.reads priceReference_plain.steps (t := "5$$") rfl
      expands_price .nil
  have door : Expands tariff "$\x7bhall.entry:free\x7d".toList "5$".toList :=
    .string entryReference_plain.reads entryReference_plain.steps (t := "$\x7bhall.price\x7d")
      rfl entry .nil
  refine resolve_of_expands (f := fun _ => "5$") fun s hs => ?_
  simp only [stringsOfEntries, stringsOf, tariff, List.append_nil, List.cons_append,
    List.nil_append, List.mem_cons, List.not_mem_nil, or_false] at hs
  rcases hs with rfl | rfl | rfl
  · exact door
  · exact entry
  · exact expands_price

theorem tariff_aliases :
    resolve tariff = .ok tariffResolved ∧ entryReference.Plain ∧
      lookup tariff entryReference.name = some (.string "$\x7bhall.price\x7d") ∧
      expand tariff [] entryReference.text = .ok "5$".toList ∧
      (Environment.mk tariffResolved).propertyText? "door" =
        (Environment.mk tariffResolved).propertyText? entryReference.name := by
  have target : lookup tariff entryReference.name = some (.string "$\x7bhall.price\x7d") := rfl
  obtain ⟨texts, -, rows⟩ := reference_iff_property resolve_tariff entryReference_plain target
  have row : IsAlias tariff "door" entryReference.name :=
    ⟨entryReference, entryReference_plain, rfl, by decide +kernel, rfl⟩
  exact ⟨resolve_tariff, entryReference_plain, target, (texts _).mpr (by decide +kernel),
    rows "door" (.single row)⟩

end Wiring.Config
