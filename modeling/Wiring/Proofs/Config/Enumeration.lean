import Mathlib.Data.List.Nodup
import Wiring.Config.Environment
import Wiring.Proofs.Config.PathOrder

/-!
# The order in which variables are listed

Variables come from the outside in no particular order. Their entries are sorted by path,
so all that can matter is in which order the variables of one and the same path are listed.
Where no two variables map to one path, nothing matters.
-/

namespace Wiring.Config

open Wiring.Text Wiring.Toml

/-! ## Sorted entries -/

theorem mem_iff_of_filter_path_eq {as bs : List Entry}
    (h : ∀ path, as.filter (fun e => e.path == path) = bs.filter fun e => e.path == path)
    (e : Entry) : e ∈ as ↔ e ∈ bs := by
  have hpath : e ∈ as.filter (fun d => d.path == e.path) ↔
      e ∈ bs.filter fun d => d.path == e.path := by rw [h]
  simpa using hpath

/-- Entries in the order of their paths are determined by the entries of each path. -/
theorem eq_of_filter_path_eq {as bs : List Entry}
    (has : as.Pairwise fun a b => a.path ≤ b.path) (hbs : bs.Pairwise fun a b => a.path ≤ b.path)
    (h : ∀ path, as.filter (fun e => e.path == path) = bs.filter fun e => e.path == path) :
    as = bs := by
  have hmem := mem_iff_of_filter_path_eq h
  induction as generalizing bs with
  | nil =>
    cases bs with
    | nil => rfl
    | cons b bs => exact absurd ((hmem b).mpr (List.mem_cons_self ..)) List.not_mem_nil
  | cons a as ih =>
    cases bs with
    | nil => exact absurd ((hmem a).mp (List.mem_cons_self ..)) List.not_mem_nil
    | cons b bs =>
      obtain ⟨ha, has⟩ := List.pairwise_cons.mp has
      obtain ⟨hb, hbs⟩ := List.pairwise_cons.mp hbs
      -- Both heads have the least path of all, and are the first entry of it.
      have hab : a.path ≤ b.path := by
        rcases List.mem_cons.mp ((hmem b).mpr (List.mem_cons_self ..)) with heq | hb
        · rw [heq]
        · exact ha b hb
      have hba : b.path ≤ a.path := by
        rcases List.mem_cons.mp ((hmem a).mp (List.mem_cons_self ..)) with heq | ha
        · rw [heq]
        · exact hb a ha
      have hfirst := h b.path
      rw [List.filter_cons_of_pos (by simp [le_antisymm hab hba]),
        List.filter_cons_of_pos (by simp)] at hfirst
      have hhead : a = b := (List.cons.inj hfirst).1
      have htail : ∀ path, as.filter (fun e => e.path == path) =
          bs.filter fun e => e.path == path := by
        intro path
        have hwhole := h path
        rw [hhead, List.filter_cons, List.filter_cons] at hwhole
        split at hwhole
        · exact (List.cons.inj hwhole).2
        · exact hwhole
      rw [hhead, ih has hbs htail (mem_iff_of_filter_path_eq htail)]

namespace Variables

variable {vs : Variables} {other : List (String × String)}

/-- The same variables listed in another way. -/
def listed (vs : Variables) (other : List (String × String)) : Variables :=
  { vs with assignments := other }

/-- Those of the listed variables that map to a path, in order. -/
def mappedTo (vs : Variables) (path : List String) : List (String × String) :=
  vs.assignments.filter fun a => vs.path? a.1 = some path

/-- A variable makes an entry if its name goes on behind the leading text and a separator. -/
theorem exists_entry_iff (vs : Variables) (assignment : String × String) :
    (∃ e, vs.entry? assignment = some e) ↔
      ∃ rest, rest ≠ [] ∧ assignment.1.toList = vs.lead.toList ++ vs.separator.chars ++ rest := by
  constructor
  · rintro ⟨e, he⟩
    obtain ⟨⟨rest, hne, hname, -⟩, -⟩ := entry?_eq_some_iff.mp he
    exact ⟨rest, hne, hname⟩
  · rintro ⟨rest, hne, hname⟩
    exact ⟨⟨_, classify assignment.2.toList⟩,
      entry?_eq_some_iff.mpr ⟨⟨rest, hne, hname, rfl⟩, rfl⟩⟩

/-- The entries of a path are those of the variables that map to it, in their order. -/
theorem filter_entries_eq_map (vs : Variables) (path : List String) :
    vs.entries.filter (fun e => e.path == path) =
      (vs.mappedTo path).map fun a => ⟨path, classify a.2.toList⟩ := by
  rw [filter_entries, mappedTo, List.filter_filterMap]
  induction vs.assignments with
  | nil => rfl
  | cons a rest ih =>
    rw [List.filterMap_cons, List.filter_cons, ih, entry?]
    cases hpath : vs.path? a.1 with
    | none => simp
    | some p =>
      by_cases hp : p = path <;> simp [hp, Option.filter]

/-- Only the order of the variables of one path counts. -/
theorem entries_eq_of_mappedTo (h : ∀ path, (vs.listed other).mappedTo path = vs.mappedTo path) :
    (vs.listed other).entries = vs.entries := by
  refine eq_of_filter_path_eq (pairwise_entries _) (pairwise_entries _) fun path => ?_
  rw [filter_entries_eq_map, filter_entries_eq_map, h]

theorem length_mappedTo_le (h : (vs.assignments.filterMap fun a => vs.path? a.1).Nodup)
    (path : List String) : (vs.mappedTo path).length ≤ 1 :=
  calc (vs.mappedTo path).length
      = (vs.assignments.filterMap fun a => vs.path? a.1).count path := by
        rw [mappedTo, ← List.countP_eq_length_filter, List.count, List.countP_filterMap]
        congr 1
        funext a
        cases vs.path? a.1 <;> simp [beq_eq_decide]
    _ ≤ 1 := List.nodup_iff_count_le_one.mp h path

/-- Where paths are distinct, there is no order of the variables of one path. -/
theorem mappedTo_eq_of_perm (hperm : other.Perm vs.assignments)
    (h : (vs.assignments.filterMap fun a => vs.path? a.1).Nodup) (path : List String) :
    (vs.listed other).mappedTo path = vs.mappedTo path := by
  have hsame : ((vs.listed other).mappedTo path).Perm (vs.mappedTo path) := hperm.filter _
  have hlength := length_mappedTo_le h path
  match hfound : vs.mappedTo path with
  | [] => rwa [hfound, List.perm_nil] at hsame
  | [a] => rwa [hfound, List.perm_singleton] at hsame
  | a :: b :: rest =>
    rw [hfound] at hlength
    simp at hlength

end Variables

/-! ## Loading -/

/-- A source counts by its entries alone. -/
theorem mergeSources_congr {s s' : Source} (h : s.load = s'.load) (t : Table)
    (earlier later : List Source) :
    mergeSources t (earlier ++ s :: later) = mergeSources t (earlier ++ s' :: later) := by
  induction earlier generalizing t with
  | nil => rw [List.nil_append, List.nil_append, mergeSources, mergeSources, h]
  | cons first rest ih =>
    rw [List.cons_append, List.cons_append, mergeSources, mergeSources]
    cases first.load with
    | ok es => exact ih _
    | error e => rfl

theorem load_congr {s s' : Source} (h : s.load = s'.load) (earlier later : List Source) :
    Environment.load (earlier ++ s :: later) = Environment.load (earlier ++ s' :: later) := by
  rw [Environment.load, Environment.load, loadSources, loadSources, mergeSources_congr h]

/-- **The order of variables does not matter.** Entries are in the order of their paths, and
there is one for each variable whose name goes on behind the leading text and a separator.
However the variables are listed, as long as those of one path keep their order the entries
are the same. So where the paths are distinct a configuration is the same for every order,
whatever other sources it has. -/
theorem variable_order_is_immaterial (vs : Variables) :
    (vs.entries.Pairwise fun a b => a.path ≤ b.path) ∧
    (vs.entries.Perm (vs.assignments.filterMap vs.entry?) ∧
      (∀ a, (∃ e, vs.entry? a = some e) ↔
        ∃ rest, rest ≠ [] ∧ a.1.toList = vs.lead.toList ++ vs.separator.chars ++ rest) ∧
      ∀ a e, vs.entry? a = some e ↔
        vs.Maps a.1 e.path ∧ e.value = classify a.2.toList) ∧
    (∀ other, (∀ path, (vs.listed other).mappedTo path = vs.mappedTo path) →
      (vs.listed other).entries = vs.entries) ∧
    ∀ other, other.Perm vs.assignments →
      (vs.assignments.filterMap fun a => vs.path? a.1).Nodup → ∀ earlier later,
        Environment.load (earlier ++ .variables (vs.listed other) :: later) =
          Environment.load (earlier ++ .variables vs :: later) := by
  refine ⟨vs.pairwise_entries, ⟨List.mergeSort_perm _ _, vs.exists_entry_iff, fun a e =>
    Variables.entry?_eq_some_iff⟩, fun other => Variables.entries_eq_of_mappedTo, ?_⟩
  intro other hperm hnodup earlier later
  apply load_congr
  have hentries := Variables.entries_eq_of_mappedTo (Variables.mappedTo_eq_of_perm hperm hnodup)
  exact congrArg Except.ok hentries

/-! Two variables of one path stay in their order, and the others move around them. -/

def ports : Variables where
  lead := "APP"
  separator := ⟨'_', ['_']⟩
  assignments := [("APP__Port", "1"), ("PATH", "/bin"), ("APP__PORT", "2"), ("APP__HOST", "db")]

def portsOtherwise : List (String × String) :=
  [("APP__HOST", "db"), ("APP__Port", "1"), ("APP__PORT", "2"), ("PATH", "/bin")]

theorem ports_listed_otherwise : (ports.listed portsOtherwise).entries = ports.entries := by
  obtain ⟨-, -, hentries, -⟩ := variable_order_is_immaterial ports
  apply hentries
  intro path
  have hlower : ports.path? "APP__Port" = some ["port"] := by decide +kernel
  have hupper : ports.path? "APP__PORT" = some ["port"] := by decide +kernel
  have hhost : ports.path? "APP__HOST" = some ["host"] := by decide +kernel
  have hother : ports.path? "PATH" = none := by decide +kernel
  have hassigned : ports.assignments =
      [("APP__Port", "1"), ("PATH", "/bin"), ("APP__PORT", "2"), ("APP__HOST", "db")] := rfl
  change portsOtherwise.filter (fun a => ports.path? a.1 = some path) =
    ports.assignments.filter fun a => ports.path? a.1 = some path
  rw [hassigned, portsOtherwise]
  by_cases hport : ["port"] = path
  · subst hport
    simp [hlower, hupper, hhost, hother]
  · simp [List.filter_cons, hlower, hupper, hhost, hother, hport]

end Wiring.Config
