import Wiring.Config.Environment
import Wiring.Proofs.Config.Resolution

/-!
# Looking into a resolved table

Resolving changes strings and nothing else, so a name leads to the same place
in the table and in what it resolves to, and to the resolved form of what was
there.
-/

namespace Wiring.Config

open Wiring.Text Wiring.Toml

section

variable (f : String → String)

theorem get?_mapEntries (key : String) (t : Table) :
    Table.get? key (mapEntries f t) = (t.get? key).map (mapStrings f) := by
  induction t with
  | nil => rfl
  | cons entry rest ih =>
    obtain ⟨k, v⟩ := entry
    simp only [mapEntries, Table.get?]
    split
    · rfl
    · exact ih

theorem follow_mapEntries (keys : List String) (t : Table) :
    follow (mapEntries f t) keys = (follow t keys).map (mapStrings f) := by
  induction keys generalizing t with
  | nil => rfl
  | cons key rest ih =>
    cases rest with
    | nil => exact get?_mapEntries f key t
    | cons next rest =>
      simp only [follow, get?_mapEntries]
      cases t.get? key with
      | none => rfl
      | some v =>
        cases v with
        | table inner => exact ih inner
        | string | integer | float | bool | stamp | array => rfl

theorem lookup_mapEntries (t : Table) (name : String) :
    lookup (mapEntries f t) name = (lookup t name).map (mapStrings f) :=
  follow_mapEntries f (keysOf name) t

theorem property?_mapEntries (t : Table) (name : String) :
    property? (mapEntries f t) name = (property? t name).map (mapStrings f) := by
  unfold property?
  rw [lookup_mapEntries, get?_mapEntries]
  cases lookup t name <;> rfl

end

/-! ## Strings that a name leads to -/

theorem stringsOf_subset_of_get? {key : String} {t : Table} {v : Value}
    (h : t.get? key = some v) : stringsOf v ⊆ stringsOfEntries t := by
  induction t with
  | nil => cases h
  | cons entry rest ih =>
    obtain ⟨k, w⟩ := entry
    simp only [Table.get?] at h
    simp only [stringsOfEntries]
    split at h
    · cases h
      exact List.subset_append_left _ _
    · exact List.subset_append_of_subset_right _ (ih h)

theorem stringsOf_subset_of_follow {keys : List String} {t : Table} {v : Value}
    (h : follow t keys = some v) : stringsOf v ⊆ stringsOfEntries t := by
  induction keys generalizing t with
  | nil => cases h
  | cons key rest ih =>
    cases rest with
    | nil => exact stringsOf_subset_of_get? h
    | cons next rest =>
      simp only [follow] at h
      split at h
      · rename_i inner hinner
        exact List.Subset.trans (ih h) (stringsOf_subset_of_get? hinner)
      · cases h

theorem stringsOf_subset_of_property? {t : Table} {name : String} {v : Value}
    (h : property? t name = some v) : stringsOf v ⊆ stringsOfEntries t := by
  unfold property? at h
  split at h
  · rename_i w hw
    cases h
    exact stringsOf_subset_of_follow hw
  · exact stringsOf_subset_of_get? h

/-! ## What a resolved table has under a name -/

theorem property?_of_resolve {root t : Table} (h : resolve root = .ok t) (name : String) :
    property? t name = (property? root name).map (mapStrings (expansionOf root)) := by
  obtain ⟨-, rfl⟩ := resolve_eq_ok_iff.mp h
  exact property?_mapEntries _ _ _

theorem resolve_of_expands {root : Table} {f : String → String}
    (h : ∀ s ∈ stringsOfEntries root, Expands root s.toList (f s).toList) :
    resolve root = .ok (mapEntries f root) := by
  refine resolve_eq_ok_iff.mpr ⟨fun s hs => failure?_eq_none_iff.mpr ⟨_, h s hs⟩, ?_⟩
  exact mapEntries_congr fun s hs => (expansionOf_eq_of_expands (h s hs)).symm

/-- Every string that a name leads to in a table that resolves has its expansion. -/
theorem expands_of_resolve {root t : Table} (h : resolve root = .ok t) {name s : String}
    (hs : property? root name = some (.string s)) :
    Expands root s.toList (expansionOf root s).toList := by
  have hmem : s ∈ stringsOfEntries root :=
    stringsOf_subset_of_property? hs (by simp [stringsOf])
  exact expands_expansionOf ((resolve_eq_ok_iff.mp h).1 s hmem)

theorem property?_of_lookup {t : Table} {name : String} {v : Value}
    (h : lookup t name = some v) : property? t name = some v := by
  unfold property?
  rw [h]

theorem property?_of_lookup_eq_none {t : Table} {name : String} (h : lookup t name = none) :
    property? t name = t.get? name := by
  rw [property?, h]

end Wiring.Config
