import Mathlib.Data.List.Nodup
import Wiring.Container.Context

/-!
# Entries

A list of pairs is a map if no key occurs twice: then looking a key up finds the
one pair that has it. Setting and removing a key concern no other key, and keep
the list a map.
-/

namespace Wiring

variable {κ β : Type} [DecidableEq κ]

/-- No key occurs twice. -/
def Keyed (entries : List (κ × β)) : Prop :=
  (entries.map (·.1)).Nodup

theorem lookup_cons_pair (key k : κ) (w : β) (rest : List (κ × β)) :
    ((k, w) :: rest).lookup key = if key = k then some w else rest.lookup key := by
  rw [List.lookup_cons]
  by_cases h : key = k
  · simp [h]
  · simp [h, beq_eq_false_iff_ne.mpr h]

theorem lookup_insertAt (key other : κ) (v : β) (entries : List (κ × β)) :
    (insertAt key v entries).lookup other =
      if other = key then some v else entries.lookup other := by
  induction entries with
  | nil => rw [insertAt, lookup_cons_pair]
  | cons e rest ih =>
    obtain ⟨k, w⟩ := e
    rw [insertAt]
    by_cases hk : k = key
    · subst hk
      rw [if_pos rfl, lookup_cons_pair, lookup_cons_pair]
      split <;> rfl
    · rw [if_neg hk, lookup_cons_pair, lookup_cons_pair, ih]
      by_cases hother : other = k
      · simp [hother, hk]
      · simp [hother]

theorem lookup_eraseAt (key other : κ) (entries : List (κ × β)) :
    (eraseAt key entries).lookup other =
      if other = key then none else entries.lookup other := by
  induction entries with
  | nil => simp [eraseAt]
  | cons e rest ih =>
    obtain ⟨k, w⟩ := e
    rw [eraseAt] at ih
    rw [eraseAt, List.filter_cons, lookup_cons_pair]
    by_cases hk : k = key
    · subst hk
      rw [if_neg (by simp), ih]
      split <;> rfl
    · rw [if_pos (by simpa using hk), lookup_cons_pair, ih]
      by_cases hother : other = k
      · simp [hother, hk]
      · simp [hother]

theorem mem_keys_insertAt (key other : κ) (v : β) (entries : List (κ × β)) :
    other ∈ (insertAt key v entries).map (·.1) ↔ other = key ∨ other ∈ entries.map (·.1) := by
  induction entries with
  | nil => simp [insertAt]
  | cons e rest ih =>
    obtain ⟨k, w⟩ := e
    rw [insertAt]
    split
    · rename_i hk
      subst hk
      simp
    · simp only [List.map_cons, List.mem_cons, ih]
      tauto

theorem mem_keys_iff (key : κ) (entries : List (κ × β)) :
    key ∈ entries.map (·.1) ↔ (entries.lookup key).isSome := by
  rw [← Bool.not_eq_false, Option.isSome_eq_false_iff, Option.isNone_iff_eq_none,
    List.lookup_eq_none_iff]
  constructor
  · intro hmem hnone
    obtain ⟨e, he, rfl⟩ := List.mem_map.mp hmem
    simpa using hnone e he
  · intro h
    by_contra hmem
    apply h
    intro e he
    simpa using fun heq : key = e.1 => hmem (heq ▸ List.mem_map_of_mem he)

namespace Keyed

variable {entries : List (κ × β)}

theorem insertAt (h : Keyed entries) (key : κ) (v : β) : Keyed (insertAt key v entries) := by
  induction entries with
  | nil => exact List.nodup_singleton key
  | cons e rest ih =>
    obtain ⟨k, w⟩ := e
    obtain ⟨hk, hrest⟩ := List.nodup_cons.mp h
    rw [Wiring.insertAt]
    split
    · rename_i heq
      subst heq
      exact h
    · rename_i hne
      apply List.nodup_cons.mpr
      refine ⟨?_, ih hrest⟩
      rw [mem_keys_insertAt]
      rintro (heq | hmem)
      · exact hne heq
      · exact hk hmem

theorem eraseAt (h : Keyed entries) (key : κ) : Keyed (eraseAt key entries) :=
  List.Nodup.sublist (List.filter_sublist.map _) h

/-- In a map a pair is found under its key, wherever it stands. -/
theorem mem_iff (h : Keyed entries) (key : κ) (v : β) :
    (key, v) ∈ entries ↔ entries.lookup key = some v := by
  induction entries with
  | nil => simp
  | cons e rest ih =>
    obtain ⟨k, w⟩ := e
    obtain ⟨hk, hrest⟩ := List.nodup_cons.mp h
    rw [List.mem_cons, ih hrest, lookup_cons_pair, Prod.mk.injEq]
    by_cases hkey : key = k
    · subst hkey
      have hnone : rest.lookup key = none := by
        rw [← Option.not_isSome_iff_eq_none, ← mem_keys_iff]
        exact hk
      simp [hnone, eq_comm]
    · simp [hkey]

end Keyed

end Wiring
