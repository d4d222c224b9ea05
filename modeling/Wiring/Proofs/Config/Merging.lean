import Wiring.Proofs.Config.Layers
import Wiring.Proofs.Config.Names
import Wiring.Proofs.Toml.Assignments

/-!
# Merging, path by path

Where the upper of two merged tables has a value, this value is laid over what the lower one
has at the same path. Where it has none, the lower one shows, unless a value of the upper one
that is no table ends the path early. An entry at a path is merged like the table that has
nothing but its value there, so variables override as assignments in a document do.
-/

namespace Wiring.Config

open Wiring.Toml

variable {a b t : Table} {key next : String} {path rest : List String} {v : Value}

/-- A proper beginning of the path leads to a value that is no table, so the path ends early. -/
def Blocked (t : Table) (path : List String) : Prop :=
  ∃ front v, front <+: path ∧ front ≠ path ∧ follow t front = some v ∧ v.table? = none

/-! ## Paths that go on -/

theorem exists_inner_of_follow (h : follow t (key :: next :: rest) = some v) :
    ∃ u, t.get? key = some (.table u) ∧ follow u (next :: rest) = some v := by
  rw [follow] at h
  split at h
  · rename_i u hu
    exact ⟨u, hu, h⟩
  · cases h

/-- Where a path goes on behind a value that is no table, it leads nowhere. -/
theorem Blocked.follow_eq_none (h : Blocked t path) : follow t path = none := by
  obtain ⟨front, v, ⟨rest, rfl⟩, hne, hv, htable⟩ := h
  have hrest : rest ≠ [] := by
    rintro rfl
    exact hne (List.append_nil front).symm
  rw [follow_append t (ne_nil_of_follow hv) hrest, hv, Option.bind_some, htable, Option.bind_none]

theorem Blocked.of_inner {u : Table} (hkey : t.get? key = some (.table u))
    (h : Blocked u path) : Blocked t (key :: path) := by
  obtain ⟨front, v, hprefix, hne, hv, htable⟩ := h
  refine ⟨key :: front, v, List.cons_prefix_cons.mpr ⟨rfl, hprefix⟩, ?_, ?_, htable⟩
  · exact fun heq => hne (List.cons.inj heq).2
  · rw [follow_inner hkey (ne_nil_of_follow hv), hv]

theorem blocked_of_get? (hkey : t.get? key = some v) (hv : v.table? = none) :
    Blocked t (key :: next :: rest) :=
  ⟨[key], v, List.cons_prefix_cons.mpr ⟨rfl, List.nil_prefix⟩, nofun, hkey, hv⟩

/-! ## One table over another, at a path -/

/-- A table is laid over the one under a key, if any, and over the empty one otherwise. -/
theorem overlayValue_table {u : Table} (hu : overlay [] u = u) (t : Table) (key : String) :
    overlayValue (t.get? key) (.table u) = .table (overlay (tableAt key t) u) := by
  by_cases hold : ∃ s, t.get? key = some (.table s)
  · obtain ⟨s, hs⟩ := hold
    rw [tableAt, hs]
    rfl
  · have hold : ∀ s, t.get? key ≠ some (.table s) := fun s hs => hold ⟨s, hs⟩
    have hempty : tableAt key t = [] := by
      unfold tableAt
      split
      · exact absurd ‹_› (hold _)
      · rfl
    rw [overlayValue_of_old_not_table hold, hempty, hu]

theorem tableAt_overlay (hb : b.Ordered) {u : Table} (hkey : b.get? key = some (.table u)) :
    tableAt key (overlay a b) = overlay (tableAt key a) u := by
  have hget : (overlay a b).get? key = some (.table (overlay (tableAt key a) u)) := by
    rw [get?_overlay a hb.sorted, hkey]
    exact congrArg some (overlayValue_table (overlay_nil (hb.inner hkey)) a key)
  rw [tableAt, hget]

/-- What a path leads to in the upper table is laid over what it leads to in the lower one. -/
theorem follow_overlay_of_some (hb : b.Ordered) (h : follow b path = some v) :
    follow (overlay a b) path = some (overlayValue (follow a path) v) := by
  induction path generalizing a b with
  | nil => cases h
  | cons key path ih =>
    cases path with
    | nil =>
      have hkey : b.get? key = some v := h
      simp only [follow, get?_overlay a hb.sorted, hkey]
    | cons next rest =>
      obtain ⟨u, hkey, hu⟩ := exists_inner_of_follow h
      rw [← follow_tableAt, tableAt_overlay hb hkey, ih (hb.inner hkey) hu, follow_tableAt]

theorem Blocked.overlay (hb : b.Ordered) (h : Blocked b path) (a : Table) :
    Blocked (overlay a b) path := by
  obtain ⟨front, v, hprefix, hne, hv, htable⟩ := h
  refine ⟨front, v, hprefix, hne, ?_, htable⟩
  rw [follow_overlay_of_some hb hv, overlayValue_of_not_table _ htable]

/-- Where the upper table neither has anything nor ends the path early, the lower one shows. -/
theorem follow_overlay_of_none (hb : b.Ordered) (h : follow b path = none)
    (hfree : ¬ Blocked b path) : follow (overlay a b) path = follow a path := by
  induction path generalizing a b with
  | nil => rfl
  | cons key path ih =>
    cases path with
    | nil =>
      have hkey : b.get? key = none := h
      simp only [follow, get?_overlay a hb.sorted, hkey]
    | cons next rest =>
      cases hkey : b.get? key with
      | none =>
        refine follow_congr ?_ _
        rw [get?_overlay a hb.sorted, hkey]
      | some v =>
        cases v with
        | table u =>
          rw [follow_inner hkey (List.cons_ne_nil next rest)] at h
          rw [← follow_tableAt, tableAt_overlay hb hkey,
            ih (hb.inner hkey) h fun hu => hfree (hu.of_inner hkey), follow_tableAt]
        | string | integer | float | bool | stamp | array =>
          exact absurd (blocked_of_get? hkey rfl) hfree

theorem exists_follow_overlay_iff (hb : b.Ordered) :
    (∃ v, follow (overlay a b) path = some v) ↔
      (∃ v, follow b path = some v) ∨ (∃ v, follow a path = some v) ∧ ¬ Blocked b path := by
  constructor
  · rintro ⟨v, hv⟩
    cases hw : follow b path with
    | some w => exact .inl ⟨w, rfl⟩
    | none =>
      have hfree : ¬ Blocked b path := fun h => by
        rw [(h.overlay hb a).follow_eq_none] at hv
        cases hv
      rw [follow_overlay_of_none hb hw hfree] at hv
      exact .inr ⟨⟨v, hv⟩, hfree⟩
  · rintro (⟨w, hw⟩ | ⟨⟨v, hv⟩, hfree⟩)
    · exact ⟨_, follow_overlay_of_some hb hw⟩
    · cases hw : follow b path with
      | some w => exact ⟨_, follow_overlay_of_some hb hw⟩
      | none => exact ⟨v, by rw [follow_overlay_of_none hb hw hfree, hv]⟩

/-- **Merging, path by path.** A value of the upper table that is no table is what the path
leads to. A table there is merged with what the lower one has if this is a table too, and else
replaces it. Where the upper one has nothing, the lower one shows, unless a value that is no
table ends the path early: then there is nothing. The merged table has no further paths. -/
theorem overlay_pointwise (a : Table) (b : Layer) (path : List String) :
    (∀ v, follow b.table path = some v → v.table? = none →
      follow (overlay a b.table) path = some v) ∧
    (∀ s t, follow a path = some (.table s) → follow b.table path = some (.table t) →
      follow (overlay a b.table) path = some (.table (overlay s t))) ∧
    (∀ t, (∀ s, follow a path ≠ some (.table s)) → follow b.table path = some (.table t) →
      follow (overlay a b.table) path = some (.table t)) ∧
    (follow b.table path = none → ¬ Blocked b.table path →
      follow (overlay a b.table) path = follow a path) ∧
    (Blocked b.table path → follow (overlay a b.table) path = none) ∧
    ((∃ v, follow (overlay a b.table) path = some v) ↔
      (∃ v, follow b.table path = some v) ∨
        (∃ v, follow a path = some v) ∧ ¬ Blocked b.table path) := by
  obtain ⟨b, hb⟩ := b
  refine ⟨?_, ?_, ?_, follow_overlay_of_none hb, fun h => (h.overlay hb a).follow_eq_none,
    exists_follow_overlay_iff hb⟩
  · intro v hv htable
    rw [follow_overlay_of_some hb hv, overlayValue_of_not_table _ htable]
  · intro s t hs ht
    rw [follow_overlay_of_some hb ht, hs]
    rfl
  · intro t hold ht
    rw [follow_overlay_of_some hb ht, overlayValue_of_old_not_table hold]

/-- A scalar on the way ends the paths of the table below it. -/
example :
    let a : Table := [("pool", .table [("size", .bool true)])]
    let b : Table := [("pool", .bool false)]
    Blocked b ["pool", "size"] ∧ follow (overlay a b) ["pool", "size"] = none :=
  ⟨blocked_of_get? rfl rfl, rfl⟩

/-! ## Entries as layers -/

/-- Over nothing a value under a path of keys is laid as it is. -/
theorem overlay_nil_branch (v : Value) (hne : path ≠ []) :
    overlay [] (branch v path) = branch v path := by
  match path with
  | [] => exact absurd rfl hne
  | [key] => rw [branch, overlay, Table.get?, overlayValue_none]; rfl
  | key :: next :: rest => rfl

/-- A value is placed at a path by laying the table over that has nothing but it there. By
induction on the path: what is no table on the way gives way to an empty one, over which the
rest of the path is laid as it is. -/
theorem place_eq_overlay (v : Value) (t : Table) (path : List String) :
    place v t path = overlay t (branch v path) := by
  induction path generalizing t with
  | nil => cases v <;> rfl
  | cons key path ih =>
    cases path with
    | nil => rfl
    | cons next rest =>
      have hrest := overlay_nil_branch v (List.cons_ne_nil next rest)
      rw [place, ih, ← overlayValue_table hrest]
      rfl

theorem mergeSources_text_branch {contents : String}
    (hparse : parse contents = some (branch v path)) (t : Table) (sources : List Source) :
    mergeSources t (.text contents :: sources) = mergeSources (place v t path) sources := by
  rw [mergeSources, Source.load, textEntries, hparse, place_eq_overlay]
  rfl

/-- Assignments are merged as the entries that they spell out. -/
theorem mergeSources_assignments {es : List Entry} {text : Entry → List Char}
    (h : ∀ e ∈ es, (∀ key ∈ e.path, IsBare key) ∧ e.path ≠ [] ∧ e.path.length < nestingLimit ∧
      Denotes (text e) e.value) (t : Table) :
    mergeSources t (es.map fun e => .text (String.ofList (assignment e.path (text e)))) =
      .ok (applyAll t es) := by
  induction es generalizing t with
  | nil => rfl
  | cons e rest ih =>
    obtain ⟨⟨hbare, hne, hlength, htext⟩, hrest⟩ := List.forall_mem_cons.mp h
    rw [List.map_cons, mergeSources_text_branch (parse_assignment hbare hne hlength htext),
      ih hrest, applyAll_cons]

/-- **Entries are layers.** An entry changes a table as the layer does that has nothing but its
value under its path. Under the empty path a table is merged itself, and any other value changes
nothing. So a text that denotes such a layer overrides as the entry does, and variables override
as one assignment for each of them, in the order of their paths. -/
theorem entries_are_layers (t : Table) :
    (∀ path v, Entry.apply t ⟨path, v⟩ = Entry.apply t (rootEntry (branch v path))) ∧
    (∀ u, Entry.apply t ⟨[], .table u⟩ = overlay t u) ∧
    (∀ v, v.table? = none → Entry.apply t ⟨[], v⟩ = t) ∧
    (∀ path v contents, parse contents = some (branch v path) →
      mergeSources t [.text contents] = mergeSources t [.entries [⟨path, v⟩]]) ∧
    ∀ (vs : Variables) (text : Entry → List Char),
      (∀ e ∈ vs.entries, (∀ key ∈ e.path, IsBare key) ∧ e.path.length < nestingLimit ∧
        Denotes (text e) e.value) →
      mergeSources t [.variables vs] =
        mergeSources t (vs.entries.map fun e =>
          .text (String.ofList (assignment e.path (text e)))) := by
  refine ⟨fun path v => place_eq_overlay v t path, fun u => rfl, ?_, ?_, ?_⟩
  · intro v hv
    cases v with
    | table u => cases hv
    | string | integer | float | bool | stamp | array => rfl
  · intro path v contents hparse
    rw [mergeSources_text_branch hparse]
    rfl
  · intro vs text h
    refine (mergeSources_assignments (fun e he => ?_) t).symm
    obtain ⟨hbare, hlength, htext⟩ := h e he
    exact ⟨hbare, (Variables.mapped_of_mem_entries he).ne_nil, hlength, htext⟩

/-- Two variables of which one has a scalar on its way. -/
def settings : Variables :=
  ⟨"APP", ⟨'_', ['_']⟩, [("APP__POOL__SIZE", "8"), ("APP__HOST", "db")]⟩

theorem entries_settings :
    settings.entries = [⟨["host"], .string "db"⟩, ⟨["pool", "size"], .integer 8⟩] := by
  have hsize : settings.path? "APP__POOL__SIZE" = some ["pool", "size"] := by decide +kernel
  have hhost : settings.path? "APP__HOST" = some ["host"] := by decide +kernel
  have hassigned : settings.assignments = [("APP__POOL__SIZE", "8"), ("APP__HOST", "db")] := rfl
  refine Variables.entries_of_pair ?_ rfl
  simp only [hassigned, List.filterMap_cons, Variables.entry?, hsize, hhost, Option.map_some,
    List.filterMap_nil]
  rfl

theorem settings_as_assignments :
    mergeSources [("pool", .bool true)] [.variables settings] =
      mergeSources [("pool", .bool true)] [.text "host = \"db\"", .text "pool.size = 8"] := by
  have h := (entries_are_layers [("pool", .bool true)]).2.2.2.2 settings
    fun e => if e.path = ["host"] then "\"db\"".toList else "8".toList
  rw [entries_settings] at h
  refine h (List.forall_mem_cons.mpr ⟨?_, List.forall_mem_singleton.mpr ?_⟩)
  · exact ⟨by decide, by decide, .scalar (.string "db"), rfl, rfl⟩
  · exact ⟨by decide, by decide, .scalar (.integer 8), rfl, rfl⟩

end Wiring.Config
