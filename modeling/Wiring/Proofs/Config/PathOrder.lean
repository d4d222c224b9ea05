import Mathlib.Data.List.Lex
import Mathlib.Data.String.Basic
import Wiring.Config.Variables

/-!
# The order of the entries of variables

Paths are compared step by step, and steps by code points: this is the
lexicographic order of lists of strings. A path comes before every longer path
that it begins. Sorting is stable, so of the variables that set one path the
last in the list is also the last to be applied.
-/

namespace Wiring.Config

open Wiring.Text Wiring.Toml

theorem precedes_iff {s t : List Char} : precedes s t = true ↔ s < t := by
  induction s generalizing t with
  | nil =>
    cases t with
    | nil => simp [precedes]
    | cons b t => simp [precedes]
  | cons a s ih =>
    cases t with
    | nil => simp [precedes]
    | cons b t =>
      have hchar : a.toNat < b.toNat ↔ a < b := Iff.rfl
      simp only [precedes, Bool.or_eq_true, decide_eq_true_eq, Bool.and_eq_true, beq_iff_eq, ih,
        hchar, List.cons_lt_cons_iff]

theorem pathPrecedes_iff {p q : List String} : pathPrecedes p q = true ↔ p < q := by
  induction p generalizing q with
  | nil =>
    cases q with
    | nil => simp [pathPrecedes]
    | cons b q => simp [pathPrecedes]
  | cons a p ih =>
    cases q with
    | nil => simp [pathPrecedes]
    | cons b q =>
      simp only [pathPrecedes, Bool.or_eq_true, Bool.and_eq_true, beq_iff_eq, ih, precedes_iff,
        ← String.lt_iff_toList_lt, List.cons_lt_cons_iff]

theorem not_pathPrecedes_iff {p q : List String} : (!pathPrecedes q p) = true ↔ p ≤ q := by
  rw [Bool.not_eq_true', ← Bool.not_eq_true, pathPrecedes_iff, not_lt]

/-- A path comes before the longer paths that it begins. -/
theorem lt_of_isPrefix {p q : List String} (h : p <+: q) (hne : p ≠ q) : p < q := by
  induction p generalizing q with
  | nil =>
    cases q with
    | nil => exact absurd rfl hne
    | cons b q => exact List.nil_lt_cons b q
  | cons a p ih =>
    cases q with
    | nil => exact absurd (List.prefix_nil.mp h) (List.cons_ne_nil a p)
    | cons b q =>
      obtain ⟨rfl, htail⟩ := List.cons_prefix_cons.mp h
      exact List.cons_lt_cons_iff.mpr (.inr ⟨rfl, ih htail fun heq => hne (by rw [heq])⟩)

theorem le_of_isPrefix {p q : List String} (h : p <+: q) : p ≤ q := by
  by_cases hne : p = q
  · exact hne.le
  · exact (lt_of_isPrefix h hne).le

/-- How entries are compared when they are sorted. -/
def Entry.notAfter (a b : Entry) : Bool :=
  !pathPrecedes b.path a.path

theorem Entry.notAfter_iff {a b : Entry} : a.notAfter b = true ↔ a.path ≤ b.path :=
  not_pathPrecedes_iff

theorem Entry.notAfter_trans (a b c : Entry) (hab : a.notAfter b = true)
    (hbc : b.notAfter c = true) : a.notAfter c = true := by
  rw [notAfter_iff] at *
  exact hab.trans hbc

theorem Entry.notAfter_total (a b : Entry) : (a.notAfter b || b.notAfter a) = true := by
  rw [Bool.or_eq_true, notAfter_iff, notAfter_iff]
  exact le_total _ _

namespace Variables

variable {vs : Variables}

/-- The variable maps to the path: behind the leading text and a separator stands a text
that is not empty, and its segments in lower case are the steps. -/
def Maps (vs : Variables) (name : String) (path : List String) : Prop :=
  ∃ rest, rest ≠ [] ∧ name.toList = vs.lead.toList ++ vs.separator.chars ++ rest ∧
    path = (splitOn vs.separator rest).map fun step => String.ofList (lower step)

theorem path?_eq_some_iff {name : String} {path : List String} :
    vs.path? name = some path ↔ vs.Maps name path := by
  unfold path? Maps
  split
  · rename_i hdrop
    rw [dropLeading_eq_none_iff] at hdrop
    simp only [reduceCtorEq, false_iff, not_exists, not_and]
    rintro rest - hname
    exact absurd ⟨rest, hname.symm⟩ hdrop
  · rename_i hdrop
    rw [dropLeading_eq_some_iff] at hdrop
    simp only [reduceCtorEq, false_iff, not_exists, not_and]
    rintro rest hne hname
    rw [hdrop, List.append_cancel_left_eq] at hname
    exact absurd hname.symm hne
  · rename_i rest hrest hdrop
    rw [dropLeading_eq_some_iff] at hdrop
    rw [hdrop, Option.some.injEq]
    constructor
    · rintro rfl
      exact ⟨rest, hrest, rfl, rfl⟩
    · rintro ⟨other, -, hname, rfl⟩
      rw [List.append_cancel_left_eq] at hname
      rw [hname]

theorem entry?_eq_some_iff {assignment : String × String} {e : Entry} :
    vs.entry? assignment = some e ↔
      vs.Maps assignment.1 e.path ∧ e.value = classify assignment.2.toList := by
  obtain ⟨path, value⟩ := e
  unfold entry?
  simp only [Option.map_eq_some_iff, Entry.mk.injEq, path?_eq_some_iff]
  constructor
  · rintro ⟨p, hp, rfl, rfl⟩
    exact ⟨hp, rfl⟩
  · rintro ⟨hp, rfl⟩
    exact ⟨path, hp, rfl, rfl⟩

theorem mem_entries_iff {e : Entry} :
    e ∈ vs.entries ↔ ∃ a ∈ vs.assignments, vs.Maps a.1 e.path ∧ e.value = classify a.2.toList := by
  simp only [entries, List.mem_mergeSort, List.mem_filterMap, entry?_eq_some_iff]

theorem entries_eq (vs : Variables) :
    vs.entries = (vs.assignments.filterMap vs.entry?).mergeSort Entry.notAfter := rfl

theorem pairwise_entries (vs : Variables) : vs.entries.Pairwise fun a b => a.path ≤ b.path :=
  (List.pairwise_mergeSort Entry.notAfter_trans Entry.notAfter_total _).imp Entry.notAfter_iff.mp

/-- Two entries are exchanged if the second one's path comes first. -/
theorem entries_of_pair {a b : Entry} (h : vs.assignments.filterMap vs.entry? = [a, b])
    (hbefore : pathPrecedes b.path a.path = true) : vs.entries = [b, a] := by
  simp [entries, h, hbefore, List.mergeSort]

/-- Sorting keeps the entries of one path in their order. -/
theorem filter_entries (vs : Variables) (path : List String) :
    vs.entries.filter (fun e => e.path == path) =
      (vs.assignments.filterMap vs.entry?).filter fun e => e.path == path := by
  rw [entries_eq]
  generalize vs.assignments.filterMap vs.entry? = es
  have hmem : ∀ e ∈ es.filter (fun e => e.path == path), e.path = path := fun e he =>
    beq_iff_eq.mp (List.mem_filter.mp he).2
  have hpairwise : (es.filter fun e => e.path == path).Pairwise fun a b => a.notAfter b = true := by
    refine List.pairwise_of_forall_mem_list fun a ha b hb => ?_
    rw [Entry.notAfter_iff, hmem a ha, hmem b hb]
  have hsub : (es.filter fun e => e.path == path).Sublist (es.mergeSort Entry.notAfter) :=
    List.sublist_mergeSort Entry.notAfter_trans Entry.notAfter_total hpairwise List.filter_sublist
  have hfilter := hsub.filter fun e => e.path == path
  rw [List.filter_filter] at hfilter
  simp only [Bool.and_self] at hfilter
  have hperm := (List.mergeSort_perm es Entry.notAfter).filter fun e => e.path == path
  exact (hfilter.eq_of_length hperm.length_eq.symm).symm

/-- The last variable in the list that maps to a path is the last of them to be applied. -/
theorem exists_last_entry {before after : List (String × String)} {assignment : String × String}
    (hsplit : vs.assignments = before ++ assignment :: after) {path : List String}
    (hmaps : vs.Maps assignment.1 path) (hlast : ∀ a ∈ after, ¬ vs.Maps a.1 path) :
    ∃ front back, vs.entries = front ++ ⟨path, classify assignment.2.toList⟩ :: back ∧
      ∀ e ∈ back, e.path ≠ path := by
  have hentry : vs.entry? assignment = some ⟨path, classify assignment.2.toList⟩ :=
    entry?_eq_some_iff.mpr ⟨hmaps, rfl⟩
  have hafter : (after.filterMap vs.entry?).filter (fun e => e.path == path) = [] := by
    rw [List.filter_eq_nil_iff]
    intro e he hpath
    obtain ⟨a, ha, hae⟩ := List.mem_filterMap.mp he
    have hmaps := (entry?_eq_some_iff.mp hae).1
    rw [beq_iff_eq.mp hpath] at hmaps
    exact hlast a ha hmaps
  have hfilter := filter_entries vs path
  rw [hsplit, List.filterMap_append, List.filterMap_cons_some hentry, List.filter_append,
    List.filter_cons_of_pos (by simp), hafter, List.filter_eq_append_iff] at hfilter
  obtain ⟨front, rest, hrest, -, hback⟩ := hfilter
  obtain ⟨middle, back, rfl, -, -, hnone⟩ := List.filter_eq_cons_iff.mp hback
  refine ⟨front ++ middle, back, by rw [hrest, List.append_assoc], fun e he hpath => ?_⟩
  exact List.filter_eq_nil_iff.mp hnone e he (beq_iff_eq.mpr hpath)

end Variables

end Wiring.Config
