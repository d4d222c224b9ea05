import Wiring.Config.Layer
import Wiring.Config.Lookup

/-!
# Placing a value at a path

What a path of keys leads to after a value has been placed at another path. On
the way to the value there are tables, at the path there is the value, and a
path that is neither on the way nor behind it leads where it led before: also
where a scalar on the way had to make room for a table.
-/

namespace Wiring.Toml.Table

theorem get?_put_self (t : Table) (key : String) (v : Value) :
    (t.put key v).get? key = some v := by
  induction t with
  | nil => simp [put, get?]
  | cons entry rest ih =>
    obtain ⟨k, w⟩ := entry
    simp only [put]
    split
    · simp [get?]
    · rename_i hk
      split
      · simp [get?]
      · simp only [get?, if_neg hk, ih]

theorem get?_put_of_ne (t : Table) {key k : String} (v : Value) (h : k ≠ key) :
    (t.put key v).get? k = t.get? k := by
  induction t with
  | nil => simp [put, get?, Ne.symm h]
  | cons entry rest ih =>
    obtain ⟨l, w⟩ := entry
    simp only [put]
    split
    · rename_i hl
      simp only [get?, hl, if_neg (Ne.symm h)]
    · split
      · simp only [get?, if_neg (Ne.symm h)]
      · simp only [get?, ih]

end Wiring.Toml.Table

namespace Wiring.Config

open Wiring.Toml

theorem follow_congr {t t' : Table} {key : String} (h : t.get? key = t'.get? key)
    (rest : List String) : follow t (key :: rest) = follow t' (key :: rest) := by
  cases rest with
  | nil => exact h
  | cons next rest => simp only [follow, h]

theorem follow_empty (path : List String) : follow [] path = none := by
  match path with
  | [] | [_] | _ :: _ :: _ => rfl

theorem follow_put_table (t inner : Table) (key next : String) (rest : List String) :
    follow (t.put key (.table inner)) (key :: next :: rest) = follow inner (next :: rest) := by
  simp only [follow, Table.get?_put_self]

theorem follow_tableAt (t : Table) (key next : String) (rest : List String) :
    follow (tableAt key t) (next :: rest) = follow t (key :: next :: rest) := by
  simp only [tableAt, follow]
  cases t.get? key with
  | none => exact follow_empty _
  | some v =>
    cases v with
    | table inner => rfl
    | string | integer | float | bool | stamp | array => exact follow_empty _

theorem overlayValue_of_not_table (old : Option Value) {v : Value} (h : v.table? = none) :
    overlayValue old v = v := by
  cases v with
  | table entries => cases h
  | string | integer | float | bool | stamp | array => rfl

/-- At the path there is the value. -/
theorem follow_place_self {v : Value} (h : v.table? = none) (t : Table) {path : List String}
    (hne : path ≠ []) : follow (place v t path) path = some v := by
  induction path generalizing t with
  | nil => exact absurd rfl hne
  | cons key rest ih =>
    cases rest with
    | nil => rw [place, overlayValue_of_not_table _ h, follow, Table.get?_put_self]
    | cons next rest =>
      rw [place, follow_put_table]
      exact ih (tableAt key t) (List.cons_ne_nil next rest)

/-- On the way to the value there are tables. -/
theorem follow_place_of_isPrefix (v : Value) (t : Table) {path front : List String}
    (h : front <+: path) (hne : front ≠ path) (hnil : front ≠ []) :
    ∃ inner, follow (place v t path) front = some (.table inner) := by
  induction path generalizing t front with
  | nil => exact absurd (List.prefix_nil.mp h) hnil
  | cons key rest ih =>
    cases front with
    | nil => exact absurd rfl hnil
    | cons k front =>
      obtain ⟨rfl, htail⟩ := List.cons_prefix_cons.mp h
      cases rest with
      | nil =>
        rw [List.prefix_nil.mp htail] at hne
        exact absurd rfl hne
      | cons next rest =>
        cases front with
        | nil => exact ⟨_, by rw [place, follow, Table.get?_put_self]⟩
        | cons k' front =>
          rw [place, follow_put_table]
          exact ih _ htail (fun heq => hne (by rw [heq])) (List.cons_ne_nil k' front)

/-- **Frame.** A path that neither begins the path of the value nor goes on behind it leads
where it led before. -/
theorem follow_place_of_apart (v : Value) (t : Table) {path other : List String}
    (h : ¬ path <+: other) (h' : ¬ other <+: path) :
    follow (place v t path) other = follow t other := by
  induction path generalizing t other with
  | nil => exact absurd (List.nil_prefix) h
  | cons key rest ih =>
    cases other with
    | nil => exact absurd (List.nil_prefix) h'
    | cons k other =>
      by_cases hk : k = key
      · subst hk
        rw [List.cons_prefix_cons] at h h'
        -- Both paths go on, for else one of them would begin the other.
        cases rest with
        | nil => exact absurd ⟨rfl, List.nil_prefix⟩ h
        | cons next rest =>
          cases other with
          | nil => exact absurd ⟨rfl, List.nil_prefix⟩ h'
          | cons k' other =>
            rw [place, follow_put_table, ← follow_tableAt]
            exact ih _ (fun hp => h ⟨rfl, hp⟩) fun hp => h' ⟨rfl, hp⟩
      · cases rest with
        | nil =>
          rw [place]
          exact follow_congr (Table.get?_put_of_ne t _ hk) other
        | cons next rest =>
          rw [place]
          exact follow_congr (Table.get?_put_of_ne t _ hk) other

/-- A table stays a table unless something is placed there or above. -/
theorem follow_place_table (v : Value) (t : Table) {path other : List String} {inner : Table}
    (h : ¬ path <+: other) (ht : follow t other = some (.table inner)) :
    ∃ inner, follow (place v t path) other = some (.table inner) := by
  by_cases h' : other <+: path
  · refine follow_place_of_isPrefix v t h' (fun heq => h (heq ▸ List.prefix_rfl)) ?_
    rintro rfl
    cases ht
  · exact ⟨inner, by rw [follow_place_of_apart v t h h', ht]⟩

/-! ## Many entries -/

theorem applyAll_append (t : Table) (front back : List Entry) :
    applyAll t (front ++ back) = applyAll (applyAll t front) back :=
  List.foldl_append

theorem applyAll_cons (t : Table) (e : Entry) (rest : List Entry) :
    applyAll t (e :: rest) = applyAll (place e.value t e.path) rest := rfl

theorem follow_applyAll_of_apart {es : List Entry} {path : List String} (t : Table)
    (h : ∀ e ∈ es, ¬ e.path <+: path ∧ ¬ path <+: e.path) :
    follow (applyAll t es) path = follow t path := by
  induction es generalizing t with
  | nil => rfl
  | cons e rest ih =>
    have he := h e (List.mem_cons_self ..)
    rw [applyAll_cons, ih _ fun d hd => h d (List.mem_cons_of_mem _ hd),
      follow_place_of_apart e.value t he.1 he.2]

theorem follow_applyAll_table {es : List Entry} {path : List String} {t inner : Table}
    (h : ∀ e ∈ es, ¬ e.path <+: path) (ht : follow t path = some (.table inner)) :
    ∃ inner, follow (applyAll t es) path = some (.table inner) := by
  induction es generalizing t inner with
  | nil => exact ⟨inner, ht⟩
  | cons e rest ih =>
    obtain ⟨inner', ht'⟩ := follow_place_table e.value t (h e (List.mem_cons_self ..)) ht
    exact ih (fun d hd => h d (List.mem_cons_of_mem _ hd)) ht'

end Wiring.Config
