import Wiring.Proofs.Config.PathOrder
import Wiring.Proofs.Config.Placing

/-!
# Ordered tables

In an ordered table, and in every table inside it, the keys increase. So a table is
known by what its keys lead to, and what lies over a table is known key by key: a key
that is missing above leads where it led, and any other to its value laid over the old one.
-/

namespace Wiring.Toml.Table

open Wiring.Text

/-- The keys increase, so none occurs twice. -/
def Sorted (t : Table) : Prop :=
  t.Pairwise fun d e => d.1 < e.1

/-- The table is sorted, and so is every table that keys lead to from it. Arrays are not
looked into: tables in them are values like any other. -/
inductive Ordered : Table → Prop
  | intro {t : Table} (sorted : t.Sorted)
    (inner : ∀ key u, t.get? key = some (.table u) → Ordered u) : Ordered t

variable {t u : Table} {key : String} {v : Value}

theorem mem_of_get? (h : t.get? key = some v) : (key, v) ∈ t := by
  induction t with
  | nil => cases h
  | cons entry rest ih =>
    obtain ⟨k, w⟩ := entry
    rw [get?] at h
    split at h
    · rename_i hk
      cases h
      rw [hk]
      exact List.mem_cons_self
    · exact List.mem_cons_of_mem _ (ih h)

theorem get?_eq_none_of_forall_lt (h : ∀ e ∈ t, key < e.1) : t.get? key = none := by
  cases hv : t.get? key with
  | none => rfl
  | some v => exact absurd (h _ (mem_of_get? hv)) (lt_irrefl key)

namespace Sorted

theorem head_absent {rest : Table} (h : Sorted ((key, v) :: rest)) : rest.get? key = none :=
  get?_eq_none_of_forall_lt (List.pairwise_cons.mp h).1

/-- Sorted tables with the same values under all keys begin with the same key. -/
theorem head_eq {k : String} {w : Value} {rest rest' : Table}
    (ht : Sorted ((key, v) :: rest)) (hu : Sorted ((k, w) :: rest'))
    (h : ∀ l, get? l ((key, v) :: rest) = get? l ((k, w) :: rest')) : key = k := by
  rcases lt_trichotomy key k with hlt | heq | hlt
  · have hkey := h key
    rw [get?, if_pos rfl, get?, if_neg hlt.ne'] at hkey
    exact absurd ((List.pairwise_cons.mp hu).1 _ (mem_of_get? hkey.symm)) (not_lt.mpr hlt.le)
  · exact heq
  · have hkey := h k
    rw [get?, if_neg hlt.ne', get?, if_pos rfl] at hkey
    exact absurd ((List.pairwise_cons.mp ht).1 _ (mem_of_get? hkey)) (not_lt.mpr hlt.le)

/-- Sorted tables with the same values under all keys are equal. -/
theorem ext (ht : t.Sorted) (hu : u.Sorted) (h : ∀ key, t.get? key = u.get? key) : t = u := by
  induction t generalizing u with
  | nil =>
    cases u with
    | nil => rfl
    | cons entry rest =>
      have hkey := h entry.1
      simp [get?] at hkey
  | cons entry rest ih =>
    obtain ⟨key, v⟩ := entry
    cases u with
    | nil =>
      have hkey := h key
      simp [get?] at hkey
    | cons entry rest' =>
      obtain ⟨k, w⟩ := entry
      obtain rfl := ht.head_eq hu h
      have hvalue := h key
      rw [get?, if_pos rfl, get?, if_pos rfl] at hvalue
      have hrest : ∀ l, get? l rest = get? l rest' := by
        intro l
        by_cases hl : key = l
        · rw [← hl, ht.head_absent, hu.head_absent]
        · have hkey := h l
          rwa [get?, if_neg hl, get?, if_neg hl] at hkey
      rw [Option.some.inj hvalue,
        ih (List.pairwise_cons.mp ht).2 (List.pairwise_cons.mp hu).2 hrest]

end Sorted

theorem mem_put {e : String × Value} (h : e ∈ t.put key v) : e = (key, v) ∨ e ∈ t := by
  induction t with
  | nil => exact .inl (List.mem_singleton.mp h)
  | cons entry rest ih =>
    obtain ⟨k, w⟩ := entry
    rw [put] at h
    split at h
    · rcases List.mem_cons.mp h with h | h
      · exact .inl h
      · exact .inr (List.mem_cons_of_mem _ h)
    · split at h
      · exact List.mem_cons.mp h
      · rcases List.mem_cons.mp h with h | h
        · exact .inr (h ▸ List.mem_cons_self)
        · exact (ih h).imp_right (List.mem_cons_of_mem _)

theorem Sorted.put (h : t.Sorted) (key : String) (v : Value) : (t.put key v).Sorted := by
  induction t with
  | nil => exact List.pairwise_singleton _ _
  | cons entry rest ih =>
    obtain ⟨k, w⟩ := entry
    obtain ⟨hhead, hrest⟩ := List.pairwise_cons.mp h
    rw [Table.put]
    split
    · rename_i hk
      exact List.pairwise_cons.mpr ⟨hk ▸ hhead, hrest⟩
    · rename_i hk
      split
      · rename_i hlt
        have hlt : key < k := String.lt_iff_toList_lt.mpr (Config.precedes_iff.mp hlt)
        refine List.pairwise_cons.mpr ⟨?_, h⟩
        intro e he
        rcases List.mem_cons.mp he with rfl | he
        · exact hlt
        · exact hlt.trans (hhead e he)
      · rename_i hlt
        have hle : k ≤ key := by
          rw [← not_lt, String.lt_iff_toList_lt, ← Config.precedes_iff]
          exact hlt
        refine List.pairwise_cons.mpr ⟨?_, ih hrest⟩
        intro e he
        rcases mem_put he with rfl | he
        · exact lt_of_le_of_ne hle hk
        · exact hhead e he

theorem Ordered.sorted (h : t.Ordered) : t.Sorted := by
  cases h with
  | intro sorted _ => exact sorted

theorem Ordered.inner (h : t.Ordered) (hu : t.get? key = some (.table u)) : u.Ordered := by
  cases h with
  | intro _ inner => exact inner key u hu

theorem ordered_nil : Ordered [] :=
  .intro .nil (by rintro key u ⟨⟩)

end Wiring.Toml.Table

namespace Wiring.Config

open Wiring.Toml

variable {a b : Table} {key : String}

/-! ## One table over another -/

theorem overlayValue_of_old_not_table {old : Option Value} (h : ∀ t, old ≠ some (.table t))
    (v : Value) : overlayValue old v = v := by
  cases v with
  | table entries =>
    match old with
    | some (.table t) => exact absurd rfl (h t)
    | none | some (.string _) | some (.integer _) | some (.float _) | some (.bool _)
    | some (.stamp _) | some (.array _) => rfl
  | string | integer | float | bool | stamp | array => rfl

theorem get?_overlay (a : Table) (hb : b.Sorted) (key : String) :
    (overlay a b).get? key =
      match b.get? key with
      | none => a.get? key
      | some v => some (overlayValue (a.get? key) v) := by
  induction b generalizing a with
  | nil => rfl
  | cons entry rest ih =>
    obtain ⟨k, v⟩ := entry
    rw [overlay, ih _ (List.pairwise_cons.mp hb).2, Table.get?]
    by_cases hk : k = key
    · subst hk
      rw [if_pos rfl, hb.head_absent]
      exact Table.get?_put_self a k _
    · rw [if_neg hk, Table.get?_put_of_ne a _ (Ne.symm hk)]

theorem sorted_overlay (ha : a.Sorted) (b : Table) : (overlay a b).Sorted := by
  induction b generalizing a with
  | nil => exact ha
  | cons entry rest ih => exact ih (ha.put entry.1 _)

theorem ordered_overlay (ha : a.Ordered) (hb : b.Ordered) : (overlay a b).Ordered := by
  induction hb generalizing a with
  | @intro b sorted inner ih =>
    refine .intro (sorted_overlay ha.sorted b) ?_
    intro key u hu
    rw [get?_overlay a sorted] at hu
    cases hb : b.get? key with
    | none =>
      rw [hb] at hu
      exact ha.inner hu
    | some v =>
      rw [hb] at hu
      have hu : overlayValue (a.get? key) v = .table u := Option.some.inj hu
      cases v with
      | table t =>
        by_cases hold : ∃ s, a.get? key = some (.table s)
        · obtain ⟨s, hs⟩ := hold
          rw [hs] at hu
          cases hu
          exact ih key t hb (ha.inner hs)
        · rw [overlayValue_of_old_not_table fun s hs => hold ⟨s, hs⟩] at hu
          cases hu
          exact inner key _ hb
      | string | integer | float | bool | stamp | array => cases hu

/-! ## Paths -/

/-- A path that goes on from a table leads on in that table. -/
theorem follow_inner {t u : Table} (h : t.get? key = some (.table u)) {path : List String}
    (hne : path ≠ []) : follow t (key :: path) = follow u path := by
  cases path with
  | nil => exact absurd rfl hne
  | cons next rest => simp only [follow, h]

theorem ne_nil_of_follow {t : Table} {path : List String} {v : Value}
    (h : follow t path = some v) : path ≠ [] := by
  rintro rfl
  cases h

end Wiring.Config
