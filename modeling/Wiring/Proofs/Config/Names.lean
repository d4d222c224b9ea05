import Mathlib.Logic.Function.Basic
import Wiring.Proofs.Config.Overrides
import Wiring.Proofs.Text.Cuts

/-!
# Names and the places they address

A place in a table has an address: the keys to look up one after the other, each in the
table found under the one before. An address is written as a name, with dots between the
keys. As no key of an address has a dot, the name gives the keys back, and there is one
address for every name. The root may have a key that is spelled like the name of a place;
what stands at the place hides it.
-/

namespace Wiring.Config

open Wiring.Text Wiring.Toml

/-- Following the keys through nested tables leads to the value. -/
inductive Leads : Table → List String → Value → Prop
  | last {t : Table} {key : String} {v : Value} (h : t.get? key = some v) : Leads t [key] v
  | inside {t inner : Table} {key : String} {keys : List String} {v : Value}
      (h : t.get? key = some (.table inner)) (rest : Leads inner keys v) : Leads t (key :: keys) v

/-- Keys without dots, at least one. An empty key is a key: without keys there would be a
second address that is written as the empty name. -/
@[ext]
structure Address where
  keys : List String
  ne_nil : keys ≠ []
  dot_free : ∀ key ∈ keys, '.' ∉ key.toList

def Address.name (a : Address) : String :=
  dotted a.keys

section

variable {t : Table} {keys front rest : List String} {v : Value}

/-! ## Following keys -/

theorem Leads.ne_nil (h : Leads t keys v) : keys ≠ [] := by
  cases h <;> exact List.cons_ne_nil _ _

theorem follow_eq_some_iff : follow t keys = some v ↔ Leads t keys v := by
  induction keys generalizing t with
  | nil => exact iff_of_false nofun fun h => h.ne_nil rfl
  | cons key keys ih =>
    cases keys with
    | nil =>
      refine ⟨.last, fun h => ?_⟩
      cases h with
      | last h => exact h
      | inside _ hrest => exact absurd rfl hrest.ne_nil
    | cons next keys =>
      constructor
      · intro h
        rw [follow] at h
        split at h
        · rename_i inner hinner
          exact .inside hinner (ih.mp h)
        · cases h
      · rintro (_ | ⟨hinner, hrest⟩)
        rw [follow, hinner]
        exact ih.mpr hrest

/-- Keys behind others are followed from the table that these lead to, if it is one. -/
theorem follow_append (t : Table) (hfront : front ≠ []) (hrest : rest ≠ []) :
    follow t (front ++ rest) =
      ((follow t front).bind (·.table?)).bind fun inner => follow inner rest := by
  induction front generalizing t with
  | nil => exact absurd rfl hfront
  | cons key front ih =>
    cases front with
    | nil =>
      obtain ⟨next, rest, rfl⟩ := List.exists_cons_of_ne_nil hrest
      rw [List.singleton_append, follow, follow]
      cases t.get? key with
      | none => rfl
      | some v => cases v <;> rfl
    | cons next front =>
      rw [List.cons_append, List.cons_append, follow, follow]
      cases t.get? key with
      | none => rfl
      | some v =>
        cases v with
        | table inner => exact ih inner (List.cons_ne_nil next front)
        | string | integer | float | bool | stamp | array => rfl

end

/-! ## The keys of a name -/

theorem dotted_keysOf (p : String) : dotted (keysOf p) = p := by
  simp [dotted, keysOf, Function.comp_def, join_splitAt]

theorem keysOf_ne_nil (name : String) : keysOf name ≠ [] := by
  rw [keysOf, Ne, List.map_eq_nil_iff]
  exact splitAt_ne_nil '.' name.toList

theorem dot_not_mem_of_mem_keysOf {name key : String} (h : key ∈ keysOf name) :
    '.' ∉ key.toList := by
  obtain ⟨segment, hsegment, rfl⟩ := List.mem_map.mp h
  rw [String.toList_ofList]
  exact not_mem_of_mem_splitAt hsegment

/-- A dot in a name parts its keys, wherever it stands. -/
theorem keysOf_append (front rest : String) :
    keysOf (front ++ "." ++ rest) = keysOf front ++ keysOf rest := by
  have hchars : (front ++ "." ++ rest).toList = front.toList ++ '.' :: rest.toList := by
    simp [String.toList_append]
  rw [keysOf, hchars, splitAt_append, List.map_append]
  rfl

namespace Address

theorem keysOf_name (a : Address) : keysOf a.name = a.keys :=
  keysOf_dotted a.dot_free a.ne_nil

/-- The address that a name is read as. -/
def ofName (name : String) : Address :=
  ⟨keysOf name, keysOf_ne_nil name, fun _ => dot_not_mem_of_mem_keysOf⟩

theorem name_ofName (name : String) : (ofName name).name = name :=
  dotted_keysOf name

theorem name_bijective : Function.Bijective name := by
  refine ⟨fun a b h => Address.ext ?_, fun name => ⟨ofName name, name_ofName name⟩⟩
  rw [← keysOf_name a, ← keysOf_name b, h]

end Address

/-! ## What a name leads to -/

theorem lookup_name_eq_some_iff {t : Table} {a : Address} {v : Value} :
    lookup t a.name = some v ↔ Leads t a.keys v := by
  rw [lookup, Address.keysOf_name, follow_eq_some_iff]

theorem lookup_append (t : Table) (front rest : String) :
    lookup t (front ++ "." ++ rest) =
      ((lookup t front).bind (·.table?)).bind fun inner => lookup inner rest := by
  simp only [lookup, keysOf_append]
  exact follow_append t (keysOf_ne_nil front) (keysOf_ne_nil rest)

theorem table?_eq_some_iff {v : Value} {inner : Table} :
    v.table? = some inner ↔ v = .table inner := by
  cases v <;> simp [Value.table?]

theorem lookup_append_eq_some_iff {t : Table} {front rest : String} {v : Value} :
    lookup t (front ++ "." ++ rest) = some v ↔
      ∃ inner, lookup t front = some (.table inner) ∧ lookup inner rest = some v := by
  simp only [lookup_append, Option.bind_eq_some_iff, table?_eq_some_iff]
  constructor
  · rintro ⟨inner, ⟨_, hfront, rfl⟩, hrest⟩
    exact ⟨inner, hfront, hrest⟩
  · rintro ⟨inner, hfront, hrest⟩
    exact ⟨inner, ⟨_, hfront, rfl⟩, hrest⟩

/-- **A name addresses one place.** Every name is that of exactly one address. A property is
what its address leads to, whatever the root has under the name itself; where the address
leads nowhere, it is what the root has there, if anything. What stands behind a dot is
looked up in the table that the name before the dot leads to. If this name leads to a value
that is no table, nothing is looked up in it, and only the root may have the whole name. -/
theorem name_addresses_one_place (env : Environment) :
    Function.Bijective Address.name ∧
    (∀ (a : Address) v, Leads env.table a.keys v → env.property? a.name = some v) ∧
    (∀ a : Address, (∀ v, ¬ Leads env.table a.keys v) →
      env.property? a.name = env.table.get? a.name) ∧
    (∀ front rest v, lookup env.table (front ++ "." ++ rest) = some v ↔
      ∃ inner, lookup env.table front = some (.table inner) ∧ lookup inner rest = some v) ∧
    ∀ front rest v, lookup env.table front = some v → v.table? = none →
      env.property? (front ++ "." ++ rest) = env.table.get? (front ++ "." ++ rest) := by
  refine ⟨Address.name_bijective, ?_, ?_, fun _ _ _ => lookup_append_eq_some_iff, ?_⟩
  · intro a v h
    exact property?_of_lookup (lookup_name_eq_some_iff.mpr h)
  · intro a h
    refine property?_of_lookup_eq_none (Option.eq_none_iff_forall_ne_some.mpr fun v hv => ?_)
    exact h v (lookup_name_eq_some_iff.mp hv)
  · intro front rest v hfront hv
    refine property?_of_lookup_eq_none ?_
    rw [lookup_append, hfront, Option.bind_some, hv, Option.bind_none]

/-! A till with two names in its way: one spells an address that leads to a value, the other
one goes on behind that value. -/

def counter : Environment where
  table := [("till", .table [("", .bool true), ("size", .integer 3)]),
    ("till.size", .integer 4), ("till.size.unit", .string "drawers")]

def tillSize : Address := ⟨["till", "size"], by decide, by decide⟩

theorem till_size_hides_name :
    Leads counter.table tillSize.keys (.integer 3) ∧
    counter.table.get? tillSize.name = some (.integer 4) ∧
    counter.property? tillSize.name = some (.integer 3) ∧
    counter.property? (tillSize.name ++ "." ++ "unit") = some (.string "drawers") := by
  have hleads : Leads counter.table tillSize.keys (.integer 3) := .inside rfl (.last rfl)
  obtain ⟨-, hplace, -, -, hbehind⟩ := name_addresses_one_place counter
  refine ⟨hleads, rfl, hplace _ _ hleads, ?_⟩
  exact hbehind tillSize.name "unit" _ (lookup_name_eq_some_iff.mpr hleads) rfl

/-- The last key of a name may be empty. -/
example : keysOf "till." = ["till", ""] ∧ counter.property? "till." = some (.bool true) :=
  ⟨by decide, rfl⟩

end Wiring.Config
