import Mathlib.Data.List.Nodup
import Wiring.Proofs.Record.Caching
import Wiring.Proofs.Record.Reach

/-!
# Fields by name and by mark

A query names a field and lists marks. By name it reaches the nearest declaration only, by
mark also those that are hidden, and a field that is found both ways is answered once.
Fields are told apart by their owner and their name, so declarations of one name by several
members of a lineage all count. Nothing else has a part in the answer: not the order of the
marks, not what the introspector was asked before, and not the simple names of the marks.
-/

namespace Wiring

/-! ## Adding fields that are not there -/

namespace Field

/-- What tells a field from others: the type that declares it, and its name. -/
def identity (f : Field) : TypeName × String :=
  (f.owner, f.name)

variable {f g : Field}

theorem same_iff : f.same g = true ↔ f.identity = g.identity := by
  simp [same, identity]

theorem hasMark_iff {m : Mark} : f.hasMark m = true ↔ m ∈ f.marks :=
  List.contains_iff_mem

end Field

section

variable {known more : List Field} {f : Field} {key : TypeName × String}

theorem any_same_iff : known.any (·.same f) = true ↔ f.identity ∈ known.map (·.identity) := by
  simp only [List.any_eq_true, Field.same_iff, List.mem_map]

theorem mem_of_mem_unionFields (h : f ∈ unionFields known more) : f ∈ known ∨ f ∈ more := by
  induction more generalizing known with
  | nil => exact .inl h
  | cons g more ih =>
    rw [unionFields] at h
    rcases ih h with h | h
    · split at h
      · exact .inl h
      · rcases List.mem_append.mp h with h | h
        · exact .inl h
        · exact .inr (List.mem_cons.mpr (.inl (List.mem_singleton.mp h)))
    · exact .inr (List.mem_cons_of_mem _ h)

/-- Fields are only added where none of their identity is there. -/
theorem mem_identities_unionFields : key ∈ (unionFields known more).map (·.identity) ↔
    key ∈ known.map (·.identity) ∨ key ∈ more.map (·.identity) := by
  induction more generalizing known with
  | nil => simp [unionFields]
  | cons g more ih =>
    rw [unionFields, ih, List.map_cons, List.mem_cons]
    split
    · rename_i hthere
      rw [any_same_iff] at hthere
      constructor
      · rintro (h | h)
        · exact .inl h
        · exact .inr (.inr h)
      · rintro (h | rfl | h)
        · exact .inl h
        · exact .inl hthere
        · exact .inr h
    · rw [List.map_append, List.mem_append, List.map_singleton, List.mem_singleton, or_assoc]

theorem nodup_identities_unionFields (h : (known.map (·.identity)).Nodup) (more : List Field) :
    ((unionFields known more).map (·.identity)).Nodup := by
  induction more generalizing known with
  | nil => exact h
  | cons g more ih =>
    rw [unionFields]
    refine ih ?_
    split
    · exact h
    · rename_i hnew
      rw [any_same_iff] at hnew
      rw [List.map_append, List.map_singleton, ← List.concat_eq_append]
      exact h.concat hnew

end

namespace Descriptor

variable {d : Descriptor} {known : List Field} {marks : List Mark} {f : Field}
  {key : TypeName × String}

theorem mem_marked_iff {m : Mark} : f ∈ d.marked m ↔ f ∈ d.fields ∧ m ∈ f.marks := by
  rw [marked, List.mem_filter, Field.hasMark_iff]

/-- The marked fields of one mark after the other, added to what is known. -/
def gather (d : Descriptor) (known : List Field) (marks : List Mark) : List Field :=
  marks.foldl (fun known m => unionFields known (d.marked m)) known

theorem mem_of_mem_gather (h : f ∈ d.gather known marks) :
    f ∈ known ∨ (f ∈ d.fields ∧ ∃ m ∈ marks, m ∈ f.marks) := by
  induction marks generalizing known with
  | nil => exact .inl h
  | cons m marks ih =>
    rcases ih h with h | ⟨hf, n, hn, hmark⟩
    · rcases mem_of_mem_unionFields h with h | h
      · exact .inl h
      · obtain ⟨hf, hmark⟩ := mem_marked_iff.mp h
        exact .inr ⟨hf, m, List.mem_cons_self, hmark⟩
    · exact .inr ⟨hf, n, List.mem_cons_of_mem _ hn, hmark⟩

theorem mem_identities_gather : key ∈ (d.gather known marks).map (·.identity) ↔
    key ∈ known.map (·.identity) ∨
      ∃ f ∈ d.fields, (∃ m ∈ marks, m ∈ f.marks) ∧ f.identity = key := by
  induction marks generalizing known with
  | nil => simp [gather]
  | cons m marks ih =>
    rw [gather, List.foldl_cons, ← gather, ih, mem_identities_unionFields, or_assoc]
    refine or_congr_right ?_
    simp only [List.mem_map, mem_marked_iff, List.mem_cons, or_and_right, and_or_left, exists_or,
      exists_eq_left, and_assoc]

theorem nodup_identities_gather (h : (known.map (·.identity)).Nodup) (marks : List Mark) :
    ((d.gather known marks).map (·.identity)).Nodup := by
  induction marks generalizing known with
  | nil => exact h
  | cons m marks ih => exact ih (nodup_identities_unionFields h _)

end Descriptor

/-! ## What a query asks for -/

namespace Lineage

/-- What a query asks for: the fields that carry one of the marks, hidden ones included, and
the nearest declaration of the name, unless that is empty. -/
def Queried (l : Lineage) (name : String) (marks : List Mark) (f : Field) : Prop :=
  (f ∈ l.describe ∧ ∃ m ∈ marks, m ∈ f.marks) ∨
    (name ≠ "" ∧ ∃ front m d, l.Declares name front m d ∧ f = d.toField m.type)

/-- No type embeds itself, and none declares a name twice. -/
structure Distinct (l : Lineage) : Prop where
  types : (l.members.map (·.type)).Nodup
  names : ∀ m ∈ l.members, (m.fields.map (·.name)).Nodup

variable {l : Lineage} {name : String} {marks : List Mark} {f g : Field}

theorem Queried.mem_describe (h : l.Queried name marks f) : f ∈ l.describe := by
  rcases h with ⟨h, -⟩ | ⟨-, h⟩
  · exact h
  · rw [← field?_eq_some_iff, Record.describe, Descriptor.field?_build] at h
    exact List.mem_of_find?_eq_some h

theorem Distinct.nodup_identities (h : l.Distinct) : (l.describe.map (·.identity)).Nodup := by
  rw [describe, List.map_flatMap, List.nodup_flatMap]
  have hidentity : ∀ m : Member,
      m.describe.map (·.identity) = (m.fields.map (·.name)).map (m.type, ·) := by
    intro m
    rw [Member.describe, List.map_map, List.map_map]
    rfl
  simp only [hidentity]
  constructor
  · intro m hm
    exact (h.names m hm).map fun _ _ heq => (Prod.mk.inj heq).2
  · refine (List.pairwise_map.mp h.types).imp fun {m n} hne key hm hn => ?_
    obtain ⟨name, -, rfl⟩ := List.mem_map.mp hm
    obtain ⟨name', -, heq⟩ := List.mem_map.mp hn
    exact hne (Prod.mk.inj heq).1.symm

theorem Distinct.eq_of_identity (h : l.Distinct) (hf : f ∈ l.describe) (hg : g ∈ l.describe)
    (heq : f.identity = g.identity) : f = g :=
  List.inj_on_of_nodup_map h.nodup_identities hf hg heq

end Lineage

/-! ## The answer to a query -/

namespace Introspector

section

variable {lineage : TypeName → Lineage} {hl : ∀ t, (lineage t).own.type = t}

/-- The answer to a query about a type, after other requests. -/
def found (before : List (Request (.ofLineages lineage hl))) (t : TypeName) (name : String)
    (marks : List Mark) : List Field :=
  ((.fields t name marks : Request (.ofLineages lineage hl)).run (asked before)).1

variable (before : List (Request (.ofLineages lineage hl))) {t : TypeName} {name : String}
  {marks : List Mark} {f : Field} {key : TypeName × String}

/-- Where a query starts: with the field that the name leads to. -/
def namedField (d : Descriptor) (name : String) : List Field :=
  if name.isEmpty then [] else (d.field? name).toList

theorem mem_namedField_iff {l : Lineage} : f ∈ namedField l.record.describe name ↔
    name ≠ "" ∧ ∃ front m d, l.Declares name front m d ∧ f = d.toField m.type := by
  rw [namedField, ← Lineage.field?_eq_some_iff]
  by_cases hname : name = "" <;> simp [hname]

theorem nodup_namedField (d : Descriptor) (name : String) :
    ((namedField d name).map (·.identity)).Nodup := by
  rw [namedField]
  split
  · exact List.nodup_nil
  · cases d.field? name with
    | none => exact List.nodup_nil
    | some f => exact List.nodup_singleton _

theorem found_eq (t : TypeName) (name : String) (marks : List Mark) :
    found before t name marks = (lineage t).record.describe.gather
      (namedField (lineage t).record.describe name) marks :=
  congrArg Prod.fst ((sound_asked before).fields t name marks)

theorem queried_of_mem_found (h : f ∈ found before t name marks) :
    (lineage t).Queried name marks f := by
  rw [found_eq] at h
  rcases Descriptor.mem_of_mem_gather h with h | h
  · exact .inr (mem_namedField_iff.mp h)
  · exact .inl h

theorem mem_identities_found : key ∈ (found before t name marks).map (·.identity) ↔
    ∃ f, (lineage t).Queried name marks f ∧ f.identity = key := by
  rw [found_eq, Descriptor.mem_identities_gather, List.mem_map]
  simp only [mem_namedField_iff, Lineage.Queried, or_and_right, exists_or, and_assoc]
  exact or_comm

theorem nodup_identities_found (t : TypeName) (name : String) (marks : List Mark) :
    ((found before t name marks).map (·.identity)).Nodup := by
  rw [found_eq]
  exact Descriptor.nodup_identities_gather (nodup_namedField _ _) marks

/-- Where fields of one identity are one field, the answer is just what was asked for. -/
theorem mem_found_iff (hd : (lineage t).Distinct) :
    f ∈ found before t name marks ↔ (lineage t).Queried name marks f := by
  refine ⟨queried_of_mem_found before, fun h => ?_⟩
  obtain ⟨g, hg, hidentity⟩ := List.mem_map.mp ((mem_identities_found before).mpr ⟨f, h, rfl⟩)
  have hqueried := queried_of_mem_found before hg
  rwa [← hd.eq_of_identity hqueried.mem_describe h.mem_describe hidentity]

theorem queried_congr {l : Lineage} {marks' : List Mark} (h : ∀ m, m ∈ marks' ↔ m ∈ marks) :
    l.Queried name marks' f ↔ l.Queried name marks f := by
  simp only [Lineage.Queried, h]

end

/-- **A query finds what is marked and what is named.** For every lineage of a type, and
whatever the introspector was asked before, each field in the answer carries one of the
marks or is the nearest declaration of the name. Each such field is there, told apart from
the others by its owner and its name, and none is there twice; in a lineage in which no
type stands twice or declares a name twice, the answer is just these fields. The order and
the repetition of the marks have no part in it. A mark is known by its full name: a field
that carries no listed one is found by its own name only. -/
theorem query_finds_marked_and_named (lineage : TypeName → Lineage)
    (hl : ∀ t, (lineage t).own.type = t) (before : List (Request (.ofLineages lineage hl)))
    (t : TypeName) (name : String) (marks : List Mark) :
    let l := lineage t
    let answer := found before t name marks
    (∀ f ∈ answer, l.Queried name marks f) ∧
    (∀ key, key ∈ answer.map (·.identity) ↔ ∃ f, l.Queried name marks f ∧ f.identity = key) ∧
    (answer.map (·.identity)).Nodup ∧
    (l.Distinct → ∀ f, f ∈ answer ↔ l.Queried name marks f) ∧
    (∀ (before' : List (Request (.ofLineages lineage hl))) marks', (∀ m, m ∈ marks' ↔ m ∈ marks) →
      ((found before' t name marks').map (·.identity)).Perm (answer.map (·.identity)) ∧
      (l.Distinct → (found before' t name marks').Perm answer)) ∧
    (∀ f ∈ answer, (∀ m ∈ f.marks, ∀ n ∈ marks, m.type ≠ n.type) → name ≠ "" ∧ f.name = name) := by
  intro l answer
  refine ⟨fun f => queried_of_mem_found before, fun key => mem_identities_found before,
    nodup_identities_found before t name marks, fun hd f => mem_found_iff before hd, ?_, ?_⟩
  · intro before' marks' hmarks
    have hidentities := nodup_identities_found before t name marks
    have hidentities' := nodup_identities_found before' t name marks'
    constructor
    · rw [List.perm_ext_iff_of_nodup hidentities' hidentities]
      intro key
      simp only [mem_identities_found, queried_congr hmarks]
    · intro hd
      rw [List.perm_ext_iff_of_nodup (.of_map _ hidentities') (.of_map _ hidentities)]
      intro f
      rw [mem_found_iff before' hd, mem_found_iff before hd, queried_congr hmarks]
  · intro f hf hunlisted
    rcases queried_of_mem_found before hf with ⟨-, m, hm, hmark⟩ | ⟨hname, front, m, d, hd, rfl⟩
    · exact absurd rfl (hunlisted m hmark m hm)
    · have hnamed : d.name = name := by simpa using List.find?_some hd.declared
      exact ⟨hname, hnamed⟩

/-! Two keys of the same simple name: one opens the door of a suite and of the room in it, the
other one a locker. -/

def doorKey : Mark := ⟨⟨"door::Key"⟩⟩

def lockerKey : Mark := ⟨⟨"locker::Key"⟩⟩

def suite : TypeName := ⟨"inn::Suite"⟩

def room : Member :=
  ⟨⟨"inn::Room"⟩,
    [⟨"lock", .text, [doorKey]⟩, ⟨"locker", .text, [lockerKey]⟩, ⟨"floor", .text, []⟩]⟩

/-- The lock of a suite hides that of the room. -/
def lodging (t : TypeName) : Lineage :=
  if t = suite then ⟨⟨suite, [⟨"lock", .int .i64, [doorKey]⟩]⟩, [room]⟩ else ⟨⟨t, []⟩, []⟩

theorem type_lodging (t : TypeName) : (lodging t).own.type = t := by
  rw [lodging]
  split
  · rename_i h
    exact h.symm
  · rfl

theorem distinct_suite : (lodging suite).Distinct :=
  ⟨by decide, by decide⟩

/-- The query for what the door key opens finds both locks and, by name, the floor, but not the
locker, which was looked for before. -/
theorem suite_locks_found :
    (∀ t, (lodging t).own.type = t) ∧ (lodging suite).Distinct ∧ doorKey.name = lockerKey.name ∧
    let before : List (Request (.ofLineages lodging type_lodging)) :=
      [.fieldsMarked suite lockerKey]
    let answer := found before suite "floor" [doorKey, doorKey]
    ⟨"lock", suite, .int .i64, [doorKey]⟩ ∈ answer ∧
    ⟨"lock", room.type, .text, [doorKey]⟩ ∈ answer ∧
    ⟨"floor", room.type, .text, []⟩ ∈ answer ∧
    ⟨"locker", room.type, .text, [lockerKey]⟩ ∉ answer := by
  obtain ⟨-, -, -, hexact, -, hmarks⟩ := query_finds_marked_and_named lodging type_lodging
    [.fieldsMarked suite lockerKey] suite "floor" [doorKey, doorKey]
  have hanswer := hexact distinct_suite
  have hfloor : (lodging suite).Declares "floor" [(lodging suite).own] room ⟨"floor", .text, []⟩ :=
    ⟨⟨[], rfl⟩, by decide, by decide⟩
  refine ⟨type_lodging, distinct_suite, by decide, ?_, ?_, ?_, ?_⟩
  · exact (hanswer _).mpr (.inl ⟨by decide, doorKey, by decide, by decide⟩)
  · exact (hanswer _).mpr (.inl ⟨by decide, doorKey, by decide, by decide⟩)
  · exact (hanswer _).mpr (.inr ⟨by decide, _, _, _, hfloor, rfl⟩)
  · intro hlocker
    have hnamed := hmarks _ hlocker (by decide)
    exact absurd hnamed.2 (by decide)

end Introspector

end Wiring
