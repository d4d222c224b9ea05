import Wiring.Record.Descriptor

/-!
# What can be reached by name

A field is accessible when the index sends its name to its own position. So no
two accessible fields share a name, whatever the index is; and in a descriptor
that was built from its fields they are the first of their names.
-/

namespace Wiring

theorem lookup_remember (index : List (String × Nat)) (key name : String) (position : Nat) :
    (remember index key position).lookup name =
      (index.lookup name).or (if key = name then some position else none) := by
  by_cases hkey : key = name
  · subst hkey
    cases h : index.lookup key <;> simp [remember, List.lookup_append, h]
  · have hne : (name == key) = false := by simpa using fun heq => hkey heq.symm
    by_cases h : (index.lookup key).isSome <;>
      simp [remember, List.lookup_append, List.lookup_cons, h, hne, hkey]

/-- The index sends a name to the first position it has. -/
theorem lookup_indexFrom (index : List (String × Nat)) (position : Nat) (fields : List Field)
    (name : String) :
    (indexFrom index position fields).lookup name =
      (index.lookup name).or ((fields.findIdx? (·.name = name)).map (position + ·)) := by
  induction fields generalizing index position with
  | nil => simp [indexFrom]
  | cons f rest ih =>
    rw [indexFrom, ih, lookup_remember, List.findIdx?_cons]
    by_cases hf : f.name = name
    · cases index.lookup name <;> simp [hf]
    · simp [hf, Option.map_map, Function.comp_def, Nat.add_comm, Nat.add_left_comm]

namespace Descriptor

theorem mem_accessible_iff {d : Descriptor} {f : Field} :
    f ∈ d.accessible ↔ ∃ position, d.fields[position]? = some f ∧
      d.index.lookup f.name = some position := by
  simp [accessible, List.mem_zipIdx_iff_getElem?]

theorem contains_of_mem_accessible {d : Descriptor} {f : Field} (h : f ∈ d.accessible) :
    d.contains f.name = true := by
  obtain ⟨position, -, hindex⟩ := mem_accessible_iff.mp h
  rw [contains, hindex]
  rfl

/-- Every name is accessible once, in any descriptor. -/
theorem nodup_accessible (d : Descriptor) : (d.accessible.map (·.name)).Nodup := by
  rw [accessible, List.map_map, List.Nodup, List.pairwise_map]
  have hpositions : d.fields.zipIdx.Pairwise fun a b => a.2 ≠ b.2 := by
    rw [← List.pairwise_map (f := Prod.snd), List.zipIdx_map_snd]
    exact List.nodup_range'
  refine (hpositions.filter _).imp_of_mem ?_
  intro a b ha hb hne hname
  have hindex := (List.mem_filter.mp ha).2
  have hindex' := (List.mem_filter.mp hb).2
  simp only [Function.comp_apply] at hname
  simp only [beq_iff_eq] at hindex hindex'
  rw [hname, hindex'] at hindex
  exact hne (Option.some.inj hindex).symm

theorem lookup_build (type : TypeName) (fields : List Field) (name : String) :
    (build type fields).index.lookup name = fields.findIdx? (·.name = name) := by
  rw [build, lookup_indexFrom]
  simp

/-- In a built descriptor the first field of each name is accessible. -/
theorem mem_accessible_build_iff {type : TypeName} {fields : List Field} {f : Field} :
    f ∈ (build type fields).accessible ↔ fields.find? (·.name = f.name) = some f := by
  rw [mem_accessible_iff, List.find?_eq_bind_findIdx?_getElem?]
  constructor
  · rintro ⟨position, hfield, hindex⟩
    rw [lookup_build] at hindex
    rw [hindex]
    exact hfield
  · intro hfind
    obtain ⟨position, hindex, hfield⟩ := Option.bind_eq_some_iff.mp hfind
    refine ⟨position, hfield, ?_⟩
    rw [lookup_build]
    exact hindex

end Descriptor

end Wiring
