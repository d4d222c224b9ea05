import Wiring.Proofs.Record.Reach

/-!
# Which declaration hides which

The index of a descriptor is filled from front to back and keeps what it has, so it holds
the first position of each name. That is where a name leads, and the fields that can be
reached by name are those at these positions, one for each name. Positions and not fields
are told apart here: a list may hold the same field twice, and only one of the two can be
reached.
-/

namespace Wiring

/-- The position is that of the first field of a name. -/
structure FirstAt (fields : List Field) (name : String) (position : Nat) : Prop where
  named : ∃ f, fields[position]? = some f ∧ f.name = name
  first : ∀ earlier < position, ∀ f, fields[earlier]? = some f → f.name ≠ name

section

variable {fields : List Field} {name : String} {i : Nat}

theorem findIdx?_eq_some_iff_firstAt :
    fields.findIdx? (·.name = name) = some i ↔ FirstAt fields name i := by
  rw [List.findIdx?_eq_some_iff_getElem]
  constructor
  · rintro ⟨hi, hname, hearlier⟩
    refine ⟨⟨fields[i], List.getElem?_eq_getElem hi, of_decide_eq_true hname⟩, ?_⟩
    intro earlier hlt f hf
    obtain ⟨-, rfl⟩ := List.getElem?_eq_some_iff.mp hf
    simpa using hearlier earlier hlt
  · rintro ⟨⟨f, hf, hname⟩, hfirst⟩
    obtain ⟨hi, rfl⟩ := List.getElem?_eq_some_iff.mp hf
    refine ⟨hi, decide_eq_true hname, fun earlier hlt => ?_⟩
    have hne := hfirst earlier hlt _ (List.getElem?_eq_getElem (hlt.trans hi))
    simpa using hne

end

namespace Descriptor

/-- The position that a name leads to. -/
def position? (d : Descriptor) (name : String) : Option Nat :=
  d.index.lookup name

/-- The positions of the fields that can be reached by name, in order. -/
def positions (d : Descriptor) : List Nat :=
  (d.fields.zipIdx.filter fun (f, position) => d.position? f.name == some position).map (·.2)

theorem position?_build_eq_some_iff {type : TypeName} {fields : List Field} {name : String}
    {i : Nat} : (build type fields).position? name = some i ↔ FirstAt fields name i := by
  rw [position?, lookup_build, findIdx?_eq_some_iff_firstAt]

/-- What is contained is found, and has the name that was looked for. -/
theorem exists_field?_of_contains {type : TypeName} {fields : List Field} {name : String}
    (h : (build type fields).contains name = true) :
    ∃ f, (build type fields).field? name = some f ∧ f.name = name := by
  rw [field?_build]
  obtain ⟨f, hf⟩ : ∃ f, fields.find? (·.name = name) = some f := by
    rw [← Option.isSome_iff_exists, List.find?_isSome]
    simpa using contains_build_iff.mp h
  exact ⟨f, hf, by simpa using List.find?_some hf⟩

theorem mem_positions_iff {d : Descriptor} {i : Nat} :
    i ∈ d.positions ↔ ∃ f, d.fields[i]? = some f ∧ d.position? f.name = some i := by
  simp [positions, List.mem_zipIdx_iff_getElem?]

/-- Positions are yielded from front to back, each once. -/
theorem pairwise_positions (d : Descriptor) : d.positions.Pairwise (· < ·) := by
  have hrange : (d.fields.zipIdx.map (·.2)).Pairwise (· < ·) := by
    rw [List.zipIdx_map_snd]
    exact List.pairwise_lt_range'
  exact hrange.sublist (List.filter_sublist.map _)

/-- What is accessible is what stands at these positions. -/
theorem map_accessible (d : Descriptor) :
    d.accessible.map some = d.positions.map fun i => d.fields[i]? := by
  rw [accessible, positions, List.map_map, List.map_map]
  refine List.map_congr_left fun entry hentry => ?_
  exact (List.mem_zipIdx_iff_getElem?.mp (List.mem_filter.mp hentry).1).symm

end Descriptor

/-- **The first declaration of a name hides the others.** However often names are repeated,
a name leads to the first field of that name and is contained just when there is one. The
accessible fields stand in the order of the list, at the positions that their own names
lead to. Each name has one of them, which is the first field of that name. -/
theorem first_declaration_hides_others (type : TypeName) (fields : List Field) :
    let d := Descriptor.build type fields
    (∀ name f, d.field? name = some f ↔ ∃ i, FirstAt fields name i ∧ fields[i]? = some f) ∧
    (∀ name, d.contains name = true ↔ ∃ f ∈ fields, f.name = name) ∧
    (∀ name, d.field? name = (d.position? name).bind fun i => fields[i]?) ∧
    (∀ name i, d.position? name = some i ↔ FirstAt fields name i) ∧
    (∃ positions : List Nat, positions.Pairwise (· < ·) ∧
      d.accessible.map some = positions.map (fun i => fields[i]?) ∧
      ∀ i, i ∈ positions ↔ ∃ f, fields[i]? = some f ∧ d.position? f.name = some i) ∧
    (d.accessible.map (·.name)).Nodup ∧
    (∀ name, name ∈ d.accessible.map (·.name) ↔ ∃ f ∈ fields, f.name = name) ∧
    ∀ f ∈ d.accessible, d.field? f.name = some f := by
  intro d
  have hfield : ∀ name, d.field? name = (d.position? name).bind fun i => fields[i]? :=
    fun name => rfl
  have hposition : ∀ name i, d.position? name = some i ↔ FirstAt fields name i :=
    fun name i => Descriptor.position?_build_eq_some_iff
  have hcontains : ∀ name, d.contains name = true ↔ ∃ f ∈ fields, f.name = name :=
    fun name => Descriptor.contains_build_iff
  have haccessible : ∀ f, f ∈ d.accessible ↔ d.field? f.name = some f := fun f => by
    rw [Descriptor.field?_build, Descriptor.mem_accessible_build_iff]
  refine ⟨fun name f => ?_, hcontains, hfield, hposition,
    ⟨d.positions, d.pairwise_positions, d.map_accessible, fun i => Descriptor.mem_positions_iff⟩,
    d.nodup_accessible, fun name => ?_, fun f => (haccessible f).mp⟩
  · rw [hfield, Option.bind_eq_some_iff]
    simp only [hposition]
  · rw [← hcontains, List.mem_map]
    constructor
    · rintro ⟨f, hf, rfl⟩
      exact Descriptor.contains_of_mem_accessible hf
    · intro hname
      obtain ⟨f, hf, hnamed⟩ := Descriptor.exists_field?_of_contains hname
      exact ⟨f, (haccessible f).mpr (hnamed.symm ▸ hf), hnamed⟩

/-- The same field stands twice in a list: the first of the two is reached. -/
example :
    let title : Field := ⟨"title", ⟨"office::Badge"⟩, .text, []⟩
    let level : Field := ⟨"level", ⟨"office::Badge"⟩, .text, []⟩
    let d := Descriptor.build ⟨"office::Badge"⟩ [title, title, level, title]
    d.positions = [0, 2] ∧ d.accessible = [title, level] := by
  decide

end Wiring
