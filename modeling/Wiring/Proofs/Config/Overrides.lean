import Wiring.Proofs.Config.Lookups
import Wiring.Proofs.Config.PathOrder
import Wiring.Proofs.Config.Placing

/-!
# Variables override what came before

The variables are the last source of a configuration. A variable decides what
is at its path, whatever the earlier sources had there, above or below, unless
a later variable has the same path or another has a longer one that goes on
behind it; in that case there is a table. Everything that no variable is about
stays as the earlier sources left it.
-/

namespace Wiring.Config

open Wiring.Text Wiring.Toml

/-! ## The merged table -/

/-- A variable sets a scalar. -/
theorem classify_cases (s : List Char) :
    (∃ b, classify s = .bool b) ∨ (∃ i, classify s = .integer i) ∨ (∃ x, classify s = .float x) ∨
      classify s = .string (String.ofList s) := by
  unfold classify
  split
  · exact .inl ⟨true, rfl⟩
  · split
    · exact .inl ⟨false, rfl⟩
    · cases integerOf? s with
      | some i => exact .inr (.inl ⟨i, rfl⟩)
      | none =>
        cases floatOf? s with
        | some x => exact .inr (.inr (.inl ⟨x, rfl⟩))
        | none => exact .inr (.inr (.inr rfl))

theorem table?_classify (s : List Char) : (classify s).table? = none := by
  rcases classify_cases s with ⟨b, h⟩ | ⟨i, h⟩ | ⟨x, h⟩ | h <;> rw [h] <;> rfl

theorem mapStrings_classify {f : String → String} {s : List Char}
    (h : ∀ t, classify s ≠ .string t) : mapStrings f (classify s) = classify s := by
  rcases classify_cases s with ⟨b, hs⟩ | ⟨i, hs⟩ | ⟨x, hs⟩ | hs
  · rw [hs]
    rfl
  · rw [hs]
    rfl
  · rw [hs]
    rfl
  · exact absurd hs (h _)

namespace Variables

variable {vs : Variables} (base : Table)

/-- Some variable maps to the path. -/
def Mapped (vs : Variables) (path : List String) : Prop :=
  ∃ a ∈ vs.assignments, vs.Maps a.1 path

/-- The variable has the last word on the path: no later one maps to it, and none maps to a
path that goes on behind it. -/
def Decides (vs : Variables) (name value : String) (path : List String) : Prop :=
  vs.Maps name path ∧
    (∃ before after, vs.assignments = before ++ (name, value) :: after ∧
      ∀ a ∈ after, ¬ vs.Maps a.1 path) ∧
    ∀ p, vs.Mapped p → path <+: p → p = path

theorem Maps.ne_nil {name : String} {path : List String} (h : vs.Maps name path) : path ≠ [] := by
  obtain ⟨rest, -, -, rfl⟩ := h
  rw [Ne, List.map_eq_nil_iff]
  exact splitOn_ne_nil vs.separator rest

theorem Mapped.ne_nil {path : List String} (h : vs.Mapped path) : path ≠ [] := by
  obtain ⟨a, -, ha⟩ := h
  exact ha.ne_nil

theorem mapped_of_mem_entries {e : Entry} (h : e ∈ vs.entries) : vs.Mapped e.path := by
  obtain ⟨a, ha, hmaps, -⟩ := mem_entries_iff.mp h
  exact ⟨a, ha, hmaps⟩

/-- Entries are applied in the order of their paths. -/
theorem le_of_entries_eq {front back : List Entry} {e : Entry}
    (h : vs.entries = front ++ e :: back) : ∀ d ∈ back, e.path ≤ d.path := by
  have hsorted := vs.pairwise_entries
  rw [h, List.pairwise_append] at hsorted
  exact (List.pairwise_cons.mp hsorted.2.1).1

theorem follow_applyAll_of_decides {name value : String} {path : List String}
    (h : vs.Decides name value path) :
    follow (applyAll base vs.entries) path = some (classify value.toList) := by
  obtain ⟨hmaps, ⟨before, after, hsplit, hlast⟩, hlongest⟩ := h
  obtain ⟨front, back, hentries, hback⟩ := exists_last_entry hsplit hmaps hlast
  -- What is applied afterwards has a path that is not smaller, so it lies apart.
  have hapart : ∀ e ∈ back, ¬ e.path <+: path ∧ ¬ path <+: e.path := by
    intro e he
    refine ⟨fun hp => ?_, fun hp => ?_⟩
    · exact (lt_of_isPrefix hp (hback e he)).not_ge (le_of_entries_eq hentries e he)
    · have hmem : e ∈ vs.entries := by
        rw [hentries]
        exact List.mem_append_right _ (List.mem_cons_of_mem _ he)
      exact hback e he (hlongest e.path (mapped_of_mem_entries hmem) hp)
  rw [hentries, applyAll_append, applyAll_cons, follow_applyAll_of_apart _ hapart]
  exact follow_place_self (table?_classify _) _ hmaps.ne_nil

theorem follow_applyAll_of_mapped_below {path deeper : List String} (h : vs.Mapped deeper)
    (hbegin : path <+: deeper) (hne : path ≠ deeper) (hnil : path ≠ []) :
    ∃ inner, follow (applyAll base vs.entries) path = some (.table inner) := by
  obtain ⟨a, ha, hmaps⟩ := h
  have hentry : ⟨deeper, classify a.2.toList⟩ ∈ vs.entries :=
    mem_entries_iff.mpr ⟨a, ha, hmaps, rfl⟩
  obtain ⟨front, back, hentries⟩ := List.append_of_mem hentry
  obtain ⟨inner, hinner⟩ := follow_place_of_isPrefix (classify a.2.toList)
    (applyAll base front) hbegin hne hnil
  rw [hentries, applyAll_append, applyAll_cons]
  refine follow_applyAll_table (fun e he hp => ?_) hinner
  -- The path lies before the deeper one, so nothing at it or above it is applied any more.
  have hle := (le_of_entries_eq hentries e he).trans (le_of_isPrefix hp)
  exact (lt_of_isPrefix hbegin hne).not_ge hle

theorem follow_applyAll_of_apart_mapped {path : List String}
    (h : ∀ p, vs.Mapped p → ¬ p <+: path ∧ ¬ path <+: p) :
    follow (applyAll base vs.entries) path = follow base path :=
  follow_applyAll_of_apart base fun e he => h e.path (mapped_of_mem_entries he)

end Variables

/-! ## The environment -/

/-- The steps of a path with points between them. -/
def dotted (path : List String) : String :=
  String.ofList (join ['.'] (path.map String.toList))

theorem keysOf_dotted {path : List String} (h : ∀ step ∈ path, '.' ∉ step.toList)
    (hne : path ≠ []) : keysOf (dotted path) = path := by
  have hmap : path.map String.toList ≠ [] := by simpa using hne
  rw [keysOf, dotted, String.toList_ofList, splitAt_join (by simpa using h) hmap]
  simp [Function.comp_def]

theorem mergeSources_append_variables {t merged : Table} {earlier : List Source} {vs : Variables} :
    mergeSources t (earlier ++ [.variables vs]) = .ok merged ↔
      ∃ base, mergeSources t earlier = .ok base ∧ merged = applyAll base vs.entries := by
  induction earlier generalizing t with
  | nil => simp [mergeSources, Source.load, eq_comm]
  | cons s rest ih =>
    simp only [List.cons_append, mergeSources]
    cases s.load with
    | ok es => exact ih
    | error e => simp

theorem load_eq_ok_iff {sources : List Source} {env : Environment} :
    Environment.load sources = .ok env ↔
      ∃ merged, mergeSources [] sources = .ok merged ∧ resolve merged = .ok env.table := by
  obtain ⟨table⟩ := env
  unfold Environment.load loadSources
  cases mergeSources [] sources with
  | error e => simp [Except.bind, Except.map]
  | ok merged =>
    simp only [Except.bind, Except.ok.injEq, exists_eq_left']
    cases resolve merged <;> simp [Except.map]

/-- A path without points in its steps is a property's name. -/
theorem property?_of_follow {t : Table} {path : List String}
    (hsteps : ∀ step ∈ path, '.' ∉ step.toList) {v : Value} (hv : follow t path = some v) :
    property? t (dotted path) = some v := by
  have hne : path ≠ [] := by
    rintro rfl
    cases hv
  refine property?_of_lookup ?_
  rw [lookup, keysOf_dotted hsteps hne, hv]

theorem property?_dotted {merged : Table} {env : Environment} (h : resolve merged = .ok env.table)
    {path : List String} (hsteps : ∀ step ∈ path, '.' ∉ step.toList) {v : Value}
    (hv : follow merged path = some v) :
    env.property? (dotted path) = some (mapStrings (expansionOf merged) v) := by
  rw [Environment.property?, property?_of_resolve h, property?_of_follow hsteps hv]
  rfl

/-- **Variables override.** When a configuration with variables as its last source loads,
the variable that has the last word on a path without points in its steps decides the
property of that name: it is the variable's scalar, expanded against the merged table if it
is a string. Where another variable's path goes on behind that of a variable, the property
is a table. A path apart from those of all variables leads where it led without them. -/
theorem variables_override {earlier : List Source} {vs : Variables} {env : Environment}
    (h : Environment.load (earlier ++ [.variables vs]) = .ok env) :
    ∃ base merged, mergeSources [] earlier = .ok base ∧
      mergeSources [] (earlier ++ [.variables vs]) = .ok merged ∧
      resolve merged = .ok env.table ∧
      (∀ name value path, vs.Decides name value path → (∀ step ∈ path, '.' ∉ step.toList) →
        (∀ s, classify value.toList = .string s → ∃ out, expand merged [] s.toList = .ok out ∧
          env.property? (dotted path) = some (.string (String.ofList out))) ∧
        ((∀ s, classify value.toList ≠ .string s) →
          env.property? (dotted path) = some (classify value.toList))) ∧
      (∀ path, vs.Mapped path → (∀ step ∈ path, '.' ∉ step.toList) →
        (∃ p, vs.Mapped p ∧ path <+: p ∧ path ≠ p) →
        ∃ inner, env.property? (dotted path) = some (.table inner)) ∧
      ∀ path, (∀ p, vs.Mapped p → ¬ p <+: path ∧ ¬ path <+: p) →
        follow merged path = follow base path := by
  obtain ⟨merged, hmerged, hresolve⟩ := load_eq_ok_iff.mp h
  obtain ⟨base, hbase, rfl⟩ := mergeSources_append_variables.mp hmerged
  refine ⟨base, _, hbase, hmerged, hresolve, ?_, ?_, fun path hpath =>
    Variables.follow_applyAll_of_apart_mapped base hpath⟩
  · intro name value path hdecides hsteps
    have hfollow := Variables.follow_applyAll_of_decides base hdecides
    have hproperty := property?_dotted hresolve hsteps hfollow
    constructor
    · intro s hs
      rw [hs] at hfollow hproperty
      have hlookup := property?_of_follow hsteps hfollow
      refine ⟨_, expand_nil_eq_ok_iff.mpr (expands_of_resolve hresolve hlookup), ?_⟩
      rw [hproperty, mapStrings, String.ofList_toList]
    · intro hother
      rw [hproperty, mapStrings_classify hother]
  · rintro path hmapped hsteps ⟨p, hp, hbegin, hne⟩
    obtain ⟨inner, hinner⟩ :=
      Variables.follow_applyAll_of_mapped_below base hp hbegin hne hmapped.ne_nil
    exact ⟨_, property?_dotted hresolve hsteps hinner⟩

/-! A variable that makes room for itself below a scalar, one above it that comes to nothing,
and one that is none of these. -/

def defaults : List Source :=
  [.entries [⟨["db"], .string "none"⟩, ⟨["host"], .string "local"⟩]]

def deployment : Variables where
  lead := "APP"
  separator := ⟨'_', ['_']⟩
  assignments := [("APP__DB__URL", "$\x7bhost\x7d/app"), ("APP__DB", "off"), ("PATH", "/bin")]

def deployed : Table :=
  [("db", .table [("url", .string "$\x7bhost\x7d/app")]), ("host", .string "local")]

def deployedResolved : Table :=
  [("db", .table [("url", .string "local/app")]), ("host", .string "local")]

theorem deployed_url : Expands deployed "$\x7bhost\x7d/app".toList "local/app".toList := by
  have hreads := Reads.reference ⟨"host".toList, none⟩ "/app".toList (by decide) (by decide)
  exact .string hreads (by decide) (t := "local") rfl (expands_self _ (by decide))
    (expands_self _ (by decide))

theorem deployment_paths : deployment.path? "APP__DB__URL" = some ["db", "url"] ∧
    deployment.path? "APP__DB" = some ["db"] ∧ deployment.path? "PATH" = none := by
  decide +kernel

theorem entries_deployment : deployment.entries =
    [⟨["db"], .string "off"⟩, ⟨["db", "url"], .string "$\x7bhost\x7d/app"⟩] := by
  obtain ⟨hurl, hdb, hother⟩ := deployment_paths
  have hassigned : deployment.assignments =
      [("APP__DB__URL", "$\x7bhost\x7d/app"), ("APP__DB", "off"), ("PATH", "/bin")] := rfl
  refine Variables.entries_of_pair ?_ rfl
  simp only [hassigned, List.filterMap_cons, Variables.entry?, hurl, hdb, hother,
    Option.map_some, Option.map_none, List.filterMap_nil]
  rfl

theorem merge_deployment :
    mergeSources [] (defaults ++ [.variables deployment]) = .ok deployed := by
  change Except.ok (applyAll _ deployment.entries) = _
  rw [entries_deployment]
  rfl

theorem load_deployment :
    Environment.load (defaults ++ [.variables deployment]) = .ok ⟨deployedResolved⟩ := by
  refine load_eq_ok_iff.mpr ⟨deployed, merge_deployment, ?_⟩
  refine resolve_of_expands (f := fun s => if s = "local" then s else "local/app") fun s hs => ?_
  simp only [stringsOfEntries, stringsOf, deployed, List.append_nil, List.cons_append,
    List.nil_append, List.mem_cons, List.not_mem_nil, or_false] at hs
  rcases hs with rfl | rfl
  · exact deployed_url
  · exact expands_self _ (by decide)

theorem deployment_mapped {path : List String} (h : deployment.Mapped path) :
    path = ["db", "url"] ∨ path = ["db"] := by
  obtain ⟨a, ha, hmaps⟩ := h
  have hpath := Variables.path?_eq_some_iff.mpr hmaps
  simp only [deployment, List.mem_cons, List.not_mem_nil, or_false] at ha
  rcases ha with rfl | rfl | rfl
  · exact .inl (Option.some.inj (hpath.symm.trans deployment_paths.1))
  · exact .inr (Option.some.inj (hpath.symm.trans deployment_paths.2.1))
  · cases hpath.symm.trans deployment_paths.2.2

theorem deployment_decides :
    deployment.Decides "APP__DB__URL" "$\x7bhost\x7d/app" ["db", "url"] := by
  refine ⟨Variables.path?_eq_some_iff.mp deployment_paths.1, ⟨[], _, rfl, fun a ha hmaps => ?_⟩, ?_⟩
  · have hpath := Variables.path?_eq_some_iff.mpr hmaps
    rcases List.mem_pair.mp ha with rfl | rfl
    · exact absurd (Option.some.inj (hpath.symm.trans deployment_paths.2.1)) (by decide)
    · cases hpath.symm.trans deployment_paths.2.2
  · intro p hp hbegin
    rcases deployment_mapped hp with rfl | rfl
    · rfl
    · exact absurd hbegin (by decide)

theorem deployment_overrides :
    Environment.load (defaults ++ [.variables deployment]) = .ok ⟨deployedResolved⟩ ∧
      (Environment.mk deployedResolved).property? "db.url" = some (.string "local/app") ∧
      (∃ inner, (Environment.mk deployedResolved).property? "db" = some (.table inner)) := by
  obtain ⟨base, merged, -, hmerged, -, hdecided, htables, -⟩ := variables_override load_deployment
  obtain rfl : deployed = merged := Except.ok.inj (merge_deployment.symm.trans hmerged)
  have hmapped : deployment.Mapped ["db"] :=
    ⟨("APP__DB", "off"), by decide, Variables.path?_eq_some_iff.mp deployment_paths.2.1⟩
  have hbelow : deployment.Mapped ["db", "url"] :=
    ⟨_, List.mem_cons_self .., deployment_decides.1⟩
  refine ⟨load_deployment, ?_, htables ["db"] hmapped (by decide) ⟨_, hbelow, by decide, by decide⟩⟩
  obtain ⟨out, hout, hproperty⟩ :=
    (hdecided _ _ _ deployment_decides (by decide)).1 "$\x7bhost\x7d/app" rfl
  obtain rfl : "local/app".toList = out :=
    Except.ok.inj ((expand_nil_eq_ok_iff.mpr deployed_url).symm.trans hout)
  exact hproperty

end Wiring.Config
