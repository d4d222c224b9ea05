import Wiring.Proofs.Record.Descriptors
import Wiring.Proofs.Record.Slots

/-!
# Instances of a lineage

An instance fits a lineage when it has its parts and every slot holds what a
write can leave there. Then the nearest declaration of a name decides about
every access: nothing is there to read or write when there is none, and a write
succeeds when its type stores the value. A write changes the one slot and keeps
the fit.
-/

namespace Wiring

/-- The instance has the parts that the lineage declares, and its values are such as
its fields can hold. -/
structure Instance.Fits (x : Instance) (l : Lineage) : Prop where
  shape : x.shape = l.members
  settled : ∀ s ∈ x.slots, s.Settled

instance (s : Slot) : Decidable s.Settled :=
  inferInstanceAs (Decidable (s.decl.type.store s.value = .ok s.value))

instance (x : Instance) (l : Lineage) : Decidable (x.Fits l) :=
  decidable_of_iff (x.shape = l.members ∧ ∀ s ∈ x.slots, s.Settled)
    ⟨fun h => ⟨h.1, h.2⟩, fun h => ⟨h.shape, h.settled⟩⟩

/-- The second instance is the first with a value written to the field of a name. -/
structure Instance.Written (x : Instance) (name : String) (w : Value) (y : Instance) : Prop where
  shape : y.shape = x.shape
  value : y.get name = some w
  others : ∀ other, other ≠ name → y.get other = x.get other
  hidden : y.hidden = x.hidden

namespace Lineage

/-- The declaration that a name reaches. -/
def declared? (l : Lineage) (name : String) : Option FieldDecl :=
  nearest? name (l.members.flatMap (·.fields))

theorem type_find?_describe (members : List Member) (name : String) :
    ((members.flatMap (·.describe)).find? (·.name = name)).map (·.type) =
      (nearest? name (members.flatMap (·.fields))).map (·.type) := by
  rw [nearest?]
  induction members with
  | nil => rfl
  | cons m rest ih =>
    rw [List.flatMap_cons, List.flatMap_cons, List.find?_append, List.find?_append,
      Member.describe, List.find?_map]
    simp only [Function.comp_def, FieldDecl.toField]
    cases m.fields.find? fun f => f.name = name with
    | none => exact ih
    | some f => rfl

/-- An accessible field has the type of the declaration that its name reaches. -/
theorem declared?_of_mem_accessible {l : Lineage} {f : Field}
    (h : f ∈ l.record.describe.accessible) :
    ∃ d, l.declared? f.name = some d ∧ d.type = f.type := by
  have hfirst := Descriptor.mem_accessible_build_iff.mp h
  have htype := type_find?_describe l.members f.name
  rw [← declared?] at htype
  change ((l.describe).find? (·.name = f.name)).map (·.type) = _ at htype
  change l.describe.find? (·.name = f.name) = some f at hfirst
  rw [hfirst] at htype
  obtain ⟨d, hd, hdtype⟩ := Option.map_eq_some_iff.mp htype.symm
  exact ⟨d, hd, hdtype⟩

/-- A declaration that a name reaches belongs to an accessible field. -/
theorem exists_accessible {l : Lineage} {name : String} {d : FieldDecl}
    (h : l.declared? name = some d) :
    ∃ f ∈ l.record.describe.accessible, f.name = name ∧ f.type = d.type := by
  have htype := type_find?_describe l.members name
  rw [← declared?, h, Option.map_some] at htype
  obtain ⟨f, hfind, hf⟩ := Option.map_eq_some_iff.mp htype
  have hname : f.name = name := by
    simpa using List.find?_some hfind
  refine ⟨f, ?_, hname, hf⟩
  apply Descriptor.mem_accessible_build_iff.mpr
  rw [hname]
  exact hfind

end Lineage

namespace Instance.Fits

variable {x y : Instance} {l : Lineage} {name : String} {v w : Value} {f : FieldDecl}

theorem nearest?_eq (h : x.Fits l) (name : String) :
    nearest? name (x.slots.map (·.decl)) = l.declared? name := by
  rw [decls_slots, h.shape, Lineage.declared?]

theorem get_isSome (h : x.Fits l) (name : String) :
    (x.get name).isSome = (l.declared? name).isSome := by
  rw [get_eq, getSlot_isSome, h.nearest?_eq]

theorem get_undeclared (h : x.Fits l) (hf : l.declared? name = none) : x.get name = none := by
  have hsome := h.get_isSome name
  rw [hf] at hsome
  simpa using hsome

theorem exists_declared (h : x.Fits l) (hv : x.get name = some v) :
    ∃ f, l.declared? name = some f := by
  have hsome := h.get_isSome name
  rw [hv] at hsome
  exact Option.isSome_iff_exists.mp hsome.symm

theorem exists_get (h : x.Fits l) (hf : l.declared? name = some f) : ∃ v, x.get name = some v := by
  have hsome := h.get_isSome name
  rw [hf] at hsome
  exact Option.isSome_iff_exists.mp hsome

/-- What is read can be written back. -/
theorem store_get (h : x.Fits l) (hf : l.declared? name = some f) (hv : x.get name = some v) :
    f.type.store v = .ok v := by
  rw [get_eq] at hv
  rw [← h.nearest?_eq] at hf
  exact store_getSlot hf h.settled hv

theorem set_undeclared (h : x.Fits l) (hf : l.declared? name = none) (v : Value) :
    x.set name v = none := by
  have hset := setSlot_slots name v x
  rw [setSlot_eq, h.nearest?_eq, hf] at hset
  exact Option.map_eq_none_iff.mp hset.symm

theorem set_refused (h : x.Fits l) (hf : l.declared? name = some f) {e : CoercionError}
    (he : f.type.store v = .error e) : x.set name v = some (.error e) := by
  have hset := setSlot_slots name v x
  rw [setSlot_eq, h.nearest?_eq, hf, Option.map_some, he] at hset
  obtain ⟨written, hwritten, heq⟩ := Option.map_eq_some_iff.mp hset.symm
  cases written with
  | error e' =>
    cases heq
    exact hwritten
  | ok y => cases heq

/-- A value that the declared type stores is written, and nothing else changes. -/
theorem set_stored (h : x.Fits l) (hf : l.declared? name = some f) (hw : f.type.store v = .ok w) :
    ∃ y, x.set name v = some (.ok y) ∧ y.Fits l ∧ x.Written name w y := by
  have hnearest := h.nearest?_eq name
  rw [hf] at hnearest
  have hset := setSlot_slots name v x
  rw [setSlot_eq, hnearest, Option.map_some, hw] at hset
  obtain ⟨written, hwritten, heq⟩ := Option.map_eq_some_iff.mp hset.symm
  cases written with
  | error e => cases heq
  | ok y =>
    have hslots : y.slots = putSlot name w x.slots := Except.ok.inj heq
    have hshape := shape_set hwritten
    refine ⟨y, hwritten, ⟨hshape.trans h.shape, ?_⟩, ⟨hshape, ?_, ?_, ?_⟩⟩
    · rw [hslots]
      exact settled_putSlot hnearest hw h.settled
    · rw [get_eq, hslots]
      exact getSlot_putSlot_self w (by rw [hnearest]; rfl)
    · intro other hne
      rw [get_eq, get_eq, hslots]
      exact getSlot_putSlot_of_ne w _ hne
    · rw [hidden, hslots]
      exact hiddenSlots_putSlot w _ List.not_mem_nil

/-- The outcome of a write, read off the nearest declaration. -/
theorem declared_of_set (h : x.Fits l) (hset : x.set name v = some (.ok y)) :
    ∃ f w, l.declared? name = some f ∧ f.type.store v = .ok w ∧ y.Fits l ∧ x.Written name w y := by
  cases hf : l.declared? name with
  | none =>
    rw [h.set_undeclared hf v] at hset
    cases hset
  | some f =>
    cases hw : f.type.store v with
    | error e =>
      rw [h.set_refused hf hw] at hset
      cases hset
    | ok w =>
      obtain ⟨z, hz, hfits, hwritten⟩ := h.set_stored hf hw
      rw [hz] at hset
      cases hset
      exact ⟨f, w, rfl, hw, hfits, hwritten⟩

/-- **Names and hidden slots are all there is.** -/
theorem ext (hx : x.Fits l) (hy : y.Fits l) (hget : ∀ name, x.get name = y.get name)
    (hhidden : x.hidden = y.hidden) : x = y := by
  have hshape : x.shape = y.shape := hx.shape.trans hy.shape.symm
  apply eq_of_shape_of_slots hshape
  apply slots_ext (by rw [decls_slots, decls_slots, hshape]) _ hhidden
  intro name _
  rw [← get_eq, ← get_eq]
  exact hget name

end Instance.Fits

/-! ## Blank instances -/

theorem FieldType.store_initial (t : FieldType) : t.store t.initial = .ok t.initial := by
  cases t with
  | int width => cases width <;> decide
  | single => exact congrArg (fun x => Except.ok (Value.float x)) Number.Binary64.narrow_zero
  | _ => rfl

theorem Lineage.blank_fits (l : Lineage) : l.blank.Fits l where
  shape := by
    rw [blank, Instance.shape, List.map_map]
    conv => rhs; rw [← List.map_id l.members]
    apply List.map_congr_left
    intro m _
    simp [Member.blank, Function.comp_def, Slot.blank]
  settled := by
    intro s hs
    obtain ⟨p, hp, hs⟩ := List.mem_flatMap.mp hs
    obtain ⟨m, -, rfl⟩ := List.mem_map.mp hp
    obtain ⟨f, -, rfl⟩ := List.mem_map.mp hs
    exact f.type.store_initial

end Wiring
