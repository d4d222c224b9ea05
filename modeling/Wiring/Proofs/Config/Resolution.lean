import Wiring.Proofs.Config.Soundness

/-!
# Resolving a configuration

Resolving a table expands each of its strings, at any depth of nested tables
and arrays, against the table as it was. It succeeds exactly when every string
has an expansion, and then changes nothing but the strings.
-/

namespace Wiring.Config

open Wiring.Toml Relation

/-! ## The strings of a value -/

mutual

/-- The strings at any depth, in order. -/
def stringsOf : Value → List String
  | .string s => [s]
  | .array items => stringsOfItems items
  | .table entries => stringsOfEntries entries
  | _ => []

def stringsOfItems : List Value → List String
  | [] => []
  | v :: rest => stringsOf v ++ stringsOfItems rest

def stringsOfEntries : List (String × Value) → List String
  | [] => []
  | (_, v) :: rest => stringsOf v ++ stringsOfEntries rest

end

mutual

/-- Replaces the strings at any depth and leaves everything else as it is. -/
def mapStrings (f : String → String) : Value → Value
  | .string s => .string (f s)
  | .array items => .array (mapItems f items)
  | .table entries => .table (mapEntries f entries)
  | v => v

def mapItems (f : String → String) : List Value → List Value
  | [] => []
  | v :: rest => mapStrings f v :: mapItems f rest

def mapEntries (f : String → String) : List (String × Value) → List (String × Value)
  | [] => []
  | (key, v) :: rest => (key, mapStrings f v) :: mapEntries f rest

end

mutual

theorem mapStrings_congr {f g : String → String} : ∀ {v : Value},
    (∀ s ∈ stringsOf v, f s = g s) → mapStrings f v = mapStrings g v
  | .string s, h => by rw [mapStrings, mapStrings, h s (by simp [stringsOf])]
  | .array items, h => by
    rw [stringsOf] at h
    rw [mapStrings, mapStrings, mapItems_congr h]
  | .table entries, h => by
    rw [stringsOf] at h
    rw [mapStrings, mapStrings, mapEntries_congr h]
  | .integer _, _ | .float _, _ | .bool _, _ | .stamp _, _ => rfl

theorem mapItems_congr {f g : String → String} : ∀ {items : List Value},
    (∀ s ∈ stringsOfItems items, f s = g s) → mapItems f items = mapItems g items
  | [], _ => rfl
  | v :: rest, h => by
    simp only [stringsOfItems, List.mem_append] at h
    rw [mapItems, mapItems, mapStrings_congr fun s hs => h s (.inl hs),
      mapItems_congr fun s hs => h s (.inr hs)]

theorem mapEntries_congr {f g : String → String} : ∀ {entries : List (String × Value)},
    (∀ s ∈ stringsOfEntries entries, f s = g s) → mapEntries f entries = mapEntries g entries
  | [], _ => rfl
  | (key, v) :: rest, h => by
    simp only [stringsOfEntries, List.mem_append] at h
    rw [mapEntries, mapEntries, mapStrings_congr fun s hs => h s (.inl hs),
      mapEntries_congr fun s hs => h s (.inr hs)]

end

/-! ## `resolve` string by string -/

/-- Why a string has no expansion, if it has none. -/
def failure? (root : Table) (s : String) : Option ConfigError :=
  match expand root [] s.toList with
  | .ok _ => none
  | .error e => some e

/-- The expansion of a string that has one. -/
def expansionOf (root : Table) (s : String) : String :=
  match expand root [] s.toList with
  | .ok out => String.ofList out
  | .error _ => s

theorem failure?_eq_none_iff {root : Table} {s : String} :
    failure? root s = none ↔ ∃ out, Expands root s.toList out := by
  simp only [← expand_nil_eq_ok_iff, failure?]
  cases expand root [] s.toList <;> simp

theorem failure?_eq_some_iff {root : Table} {s : String} {e : ConfigError} :
    failure? root s = some e ↔ expand root [] s.toList = .error e := by
  unfold failure?
  cases expand root [] s.toList <;> simp

theorem expansionOf_eq_of_expands {root : Table} {s t : String}
    (h : Expands root s.toList t.toList) : expansionOf root s = t := by
  rw [expansionOf, expand_nil_eq_ok_iff.mpr h]
  exact String.ofList_toList

theorem expands_expansionOf {root : Table} {s : String} (h : failure? root s = none) :
    Expands root s.toList (expansionOf root s).toList := by
  obtain ⟨out, hout⟩ := failure?_eq_none_iff.mp h
  have : expansionOf root s = String.ofList out :=
    expansionOf_eq_of_expands (by rwa [String.toList_ofList])
  rwa [this, String.toList_ofList]

section

variable (root : Table)

/- The first string that fails decides; if none does, each becomes its expansion. -/
mutual

theorem resolveValue_eq : ∀ v : Value,
    resolveValue root v =
      match (stringsOf v).findSome? (failure? root) with
      | some e => .error e
      | none => .ok (mapStrings (expansionOf root) v)
  | .string s => by
    rw [resolveValue, stringsOf, List.findSome?_singleton, mapStrings, failure?, expansionOf]
    cases expand root [] s.toList <;> rfl
  | .array items => by
    rw [resolveValue, stringsOf, resolveItems_eq items, mapStrings]
    cases (stringsOfItems items).findSome? (failure? root) <;> rfl
  | .table entries => by
    rw [resolveValue, stringsOf, resolveEntries_eq entries, mapStrings]
    cases (stringsOfEntries entries).findSome? (failure? root) <;> rfl
  | .integer _ | .float _ | .bool _ | .stamp _ => rfl

theorem resolveItems_eq : ∀ items : List Value,
    resolveItems root items =
      match (stringsOfItems items).findSome? (failure? root) with
      | some e => .error e
      | none => .ok (mapItems (expansionOf root) items)
  | [] => rfl
  | v :: rest => by
    rw [resolveItems, stringsOfItems, List.findSome?_append, resolveValue_eq v,
      resolveItems_eq rest, mapItems]
    cases (stringsOf v).findSome? (failure? root) <;>
      cases (stringsOfItems rest).findSome? (failure? root) <;> rfl

theorem resolveEntries_eq : ∀ entries : List (String × Value),
    resolveEntries root entries =
      match (stringsOfEntries entries).findSome? (failure? root) with
      | some e => .error e
      | none => .ok (mapEntries (expansionOf root) entries)
  | [] => rfl
  | (key, v) :: rest => by
    rw [resolveEntries, stringsOfEntries, List.findSome?_append, resolveValue_eq v,
      resolveEntries_eq rest, mapEntries]
    cases (stringsOf v).findSome? (failure? root) <;>
      cases (stringsOfEntries rest).findSome? (failure? root) <;> rfl

end

end

theorem resolve_eq_ok_iff {root t : Table} :
    resolve root = .ok t ↔ (∀ s ∈ stringsOfEntries root, failure? root s = none) ∧
      t = mapEntries (expansionOf root) root := by
  rw [resolve, resolveEntries_eq]
  cases h : (stringsOfEntries root).findSome? (failure? root) with
  | none =>
    rw [List.findSome?_eq_none_iff] at h
    simp only [Except.ok.injEq]
    exact ⟨fun ht => ⟨h, ht.symm⟩, fun ht => ht.2.symm⟩
  | some e =>
    obtain ⟨s, hs, he⟩ := List.exists_of_findSome?_eq_some h
    simp only [reduceCtorEq, false_iff, not_and]
    intro hnone
    rw [hnone s hs] at he
    cases he

theorem exists_expand_of_resolve {root : Table} {e : ConfigError} (h : resolve root = .error e) :
    ∃ s ∈ stringsOfEntries root, expand root [] s.toList = .error e := by
  rw [resolve, resolveEntries_eq] at h
  cases hfind : (stringsOfEntries root).findSome? (failure? root) with
  | none => rw [hfind] at h; cases h
  | some e' =>
    rw [hfind] at h
    cases h
    obtain ⟨s, hs, he⟩ := List.exists_of_findSome?_eq_some hfind
    exact ⟨s, hs, failure?_eq_some_iff.mp he⟩

/-- **Resolution is sound and complete.** A table resolves exactly when each of its
strings has an expansion, and becomes the table with every string replaced by its
one expansion. A circle is reported only where a string reaches a path that leads
back to itself, and a string that reaches one is never resolved. -/
theorem resolve_iff_expands (root : Table) :
    (∀ s a b, Expands root s a → Expands root s b → a = b) ∧
    ((∃ t, resolve root = .ok t) ↔
      ∀ s ∈ stringsOfEntries root, ∃ out, Expands root s.toList out) ∧
    (∀ t, resolve root = .ok t ↔ ∃ f : String → String,
      (∀ s ∈ stringsOfEntries root, Expands root s.toList (f s).toList) ∧ t = mapEntries f root) ∧
    (resolve root = .error .circularReference → ∃ s ∈ stringsOfEntries root, ∃ p,
      Reaches root s.toList p ∧ TransGen (LeadsTo root) p p) ∧
    ∀ s ∈ stringsOfEntries root, ∀ p, Reaches root s.toList p → TransGen (LeadsTo root) p p →
      ∃ e, resolve root = .error e := by
  have hok : (∃ t, resolve root = .ok t) ↔
      ∀ s ∈ stringsOfEntries root, ∃ out, Expands root s.toList out := by
    simp only [resolve_eq_ok_iff, failure?_eq_none_iff, exists_and_left, exists_eq, and_true]
  refine ⟨fun s a b => Expands.unique, hok, fun t => ⟨fun h => ?_, ?_⟩, fun h => ?_, ?_⟩
  · obtain ⟨hnone, rfl⟩ := resolve_eq_ok_iff.mp h
    exact ⟨expansionOf root, fun s hs => expands_expansionOf (hnone s hs), rfl⟩
  · rintro ⟨f, hf, rfl⟩
    refine resolve_eq_ok_iff.mpr ⟨fun s hs => failure?_eq_none_iff.mpr ⟨_, hf s hs⟩, ?_⟩
    exact mapEntries_congr fun s hs => (expansionOf_eq_of_expands (hf s hs)).symm
  · obtain ⟨s, hs, he⟩ := exists_expand_of_resolve h
    obtain ⟨p, hp, hcycle | hmem⟩ := cycle_of_expand [] s.toList he
    · exact ⟨s, hs, p, hp, hcycle⟩
    · cases hmem
  · intro s hs p hp hcycle
    cases h : resolve root with
    | error e => exact ⟨e, rfl⟩
    | ok t =>
      obtain ⟨out, hout⟩ := hok.mp ⟨t, h⟩ s hs
      exact absurd hout (not_expands_of_reaches hp hcycle)

end Wiring.Config
