import Wiring.Proofs.Record.Remembering
import Wiring.Proofs.Record.Rollback

/-!
# Where a name leads

A descriptor finds a name in an index of its flattened fields, and an instance
hands an access on from part to part. Both end at the nearest member of the
lineage that declares the name: the descriptor at its declaration, and reads and
writes at the one slot of that declaration. A place names that slot by what
stands around it, so a write fills the same place with another value.
-/

namespace Wiring

/-! ## Lineages -/

namespace Lineage

/-- Some member of the lineage declares the name. -/
def Names (l : Lineage) (name : String) : Prop :=
  ∃ m ∈ l.members, ∃ f ∈ m.fields, f.name = name

/-- The nearest member that declares the name is behind those in `front`, and its
declaration of the name is `f`. -/
structure Declares (l : Lineage) (name : String) (front : List Member) (m : Member)
    (f : FieldDecl) : Prop where
  position : ∃ back, l.members = front ++ m :: back
  nearest : ∀ n ∈ front, ∀ g ∈ n.fields, g.name ≠ name
  declared : m.fields.find? (·.name = name) = some f

variable {l : Lineage} {name : String}

theorem names_iff_declared? : l.Names name ↔ (l.declared? name).isSome := by
  rw [declared?, nearest?, List.find?_isSome]
  constructor
  · rintro ⟨m, hm, f, hf, hname⟩
    exact ⟨f, List.mem_flatMap.mpr ⟨m, hm, hf⟩, by simpa using hname⟩
  · rintro ⟨f, hf, hname⟩
    obtain ⟨m, hm, hf⟩ := List.mem_flatMap.mp hf
    exact ⟨m, hm, f, hf, by simpa using hname⟩

theorem names_iff_describe : l.Names name ↔ ∃ g ∈ l.describe, g.name = name := by
  simp [Names, describe, Member.describe, FieldDecl.toField, and_assoc]

end Lineage

/-! ## Descriptors -/

namespace Descriptor

theorem contains_build_iff {type : TypeName} {fields : List Field} {name : String} :
    (build type fields).contains name = true ↔ ∃ f ∈ fields, f.name = name := by
  rw [contains, lookup_build, List.findIdx?_isSome]
  simp

/-- By way of the index one finds the first field of a name. -/
theorem field?_build (type : TypeName) (fields : List Field) (name : String) :
    (build type fields).field? name = fields.find? (·.name = name) := by
  rw [field?, lookup_build, List.find?_eq_bind_findIdx?_getElem?]
  rfl

end Descriptor

namespace Lineage

variable {l : Lineage} {name : String}

theorem contains_iff : l.record.describe.contains name = true ↔ l.Names name := by
  rw [names_iff_describe]
  exact Descriptor.contains_build_iff

theorem contains_eq_isSome (l : Lineage) (name : String) :
    l.record.describe.contains name = (l.declared? name).isSome := by
  rw [Bool.eq_iff_iff, contains_iff, names_iff_declared?]

/-- The descriptor gives the declaration of the nearest member that declares the name. -/
theorem field?_eq_some_iff {g : Field} :
    l.record.describe.field? name = some g ↔
      ∃ front m f, l.Declares name front m f ∧ g = f.toField m.type := by
  have hmember : ∀ m : Member, m.describe.find? (·.name = name) =
      (m.fields.find? (·.name = name)).map (·.toField m.type) := by
    intro m
    rw [Member.describe, List.find?_map]
    rfl
  rw [Record.describe, Descriptor.field?_build]
  change l.describe.find? (·.name = name) = some g ↔ _
  rw [describe, List.find?_flatMap, List.findSome?_eq_some_iff]
  constructor
  · rintro ⟨front, m, back, hmembers, hfound, hfront⟩
    rw [hmember] at hfound
    obtain ⟨f, hf, rfl⟩ := Option.map_eq_some_iff.mp hfound
    refine ⟨front, m, f, ⟨⟨back, hmembers⟩, ?_, hf⟩, rfl⟩
    intro n hn h hh hname
    have hnone := hfront n hn
    rw [hmember, Option.map_eq_none_iff, List.find?_eq_none] at hnone
    exact hnone h hh (by simpa using hname)
  · rintro ⟨front, m, f, ⟨⟨back, hmembers⟩, hfront, hf⟩, rfl⟩
    refine ⟨front, m, back, hmembers, by rw [hmember, hf]; rfl, ?_⟩
    intro n hn
    rw [hmember, Option.map_eq_none_iff, List.find?_eq_none]
    intro h hh
    simpa using hfront n hn h hh

end Lineage

/-! ## Places -/

/-- A slot of an instance, given by all that stands around it. -/
structure Place where
  front : List Part
  type : TypeName
  before : List Slot
  decl : FieldDecl
  after : List Slot
  back : List Part

namespace Place

/-- The instance that has a value at the place. -/
def fill (p : Place) (v : Value) : Instance :=
  p.front ++ ⟨p.type, p.before ++ ⟨p.decl, v⟩ :: p.after⟩ :: p.back

/-- The slot at the place is the first of a name. -/
structure First (p : Place) (name : String) : Prop where
  front : ∀ q ∈ p.front, ∀ s ∈ q.slots, s.decl.name ≠ name
  before : ∀ s ∈ p.before, s.decl.name ≠ name
  named : p.decl.name = name

end Place

section Skips

variable {name : String}

theorem nearest?_eq_none {slots : List Slot} (h : ∀ s ∈ slots, s.decl.name ≠ name) :
    nearest? name (slots.map (·.decl)) = none := by
  rw [nearest?, List.find?_eq_none]
  intro f hf
  obtain ⟨s, hs, rfl⟩ := List.mem_map.mp hf
  simpa using h s hs

theorem getSlot_eq_none {slots : List Slot} (h : ∀ s ∈ slots, s.decl.name ≠ name) :
    getSlot name slots = none := by
  rw [← Option.not_isSome_iff_eq_none, getSlot_isSome, nearest?_eq_none h]
  simp

theorem setSlot_eq_none (v : Value) {slots : List Slot} (h : ∀ s ∈ slots, s.decl.name ≠ name) :
    setSlot name v slots = none := by
  rw [setSlot_eq, nearest?_eq_none h]
  rfl

theorem get_skip {front : List Part} (h : ∀ q ∈ front, ∀ s ∈ q.slots, s.decl.name ≠ name)
    (x : Instance) : Instance.get name (front ++ x) = x.get name := by
  induction front with
  | nil => rfl
  | cons q front ih =>
    obtain ⟨hq, hfront⟩ := List.forall_mem_cons.mp h
    rw [List.cons_append, Instance.get, getSlot_eq_none hq]
    exact ih hfront

theorem set_skip (v : Value) {front : List Part}
    (h : ∀ q ∈ front, ∀ s ∈ q.slots, s.decl.name ≠ name) (x : Instance) :
    Instance.set name v (front ++ x) =
      (x.set name v).map fun written => written.map (front ++ ·) := by
  induction front with
  | nil =>
    cases hset : x.set name v with
    | none => simp [hset]
    | some written => cases written <;> simp [hset, Except.map]
  | cons q front ih =>
    obtain ⟨hq, hfront⟩ := List.forall_mem_cons.mp h
    rw [List.cons_append, Instance.set, setSlot_eq_none v hq]
    dsimp only
    rw [ih hfront, Option.map_map]
    congr 1
    funext written
    cases written <;> rfl

end Skips

namespace Place

variable {p : Place} {name : String}

/-- A read by name gives the value at the first place of the name. -/
theorem First.get_fill (h : p.First name) (v : Value) : (p.fill v).get name = some v := by
  rw [fill, get_skip h.front, Instance.get, Instance.getSlot_append, getSlot_eq_none h.before,
    getSlot, if_pos h.named]
  rfl

/-- A write by name stores a value at the first place of the name. -/
theorem First.set_fill (h : p.First name) (v u : Value) :
    (p.fill v).set name u = some ((p.decl.type.store u).map p.fill) := by
  rw [fill, set_skip u h.front, Instance.set, Instance.setSlot_append, setSlot_eq_none u h.before,
    setSlot, if_pos h.named]
  cases p.decl.type.store u <;> rfl

end Place

/-- Reads and writes by a name both go to one place, whatever is there. The instance has
a value there. -/
structure Instance.Reaches (x : Instance) (name : String) (p : Place) (v : Value) : Prop where
  eq_fill : x = p.fill v
  get : ∀ w, (p.fill w).get name = some w
  set : ∀ w u, (p.fill w).set name u = some ((p.decl.type.store u).map p.fill)

/-- In an instance that fits, a name leads to the slot that its nearest declaration is for. -/
theorem Lineage.Declares.reaches {l : Lineage} {name : String} {front : List Member} {m : Member}
    {f : FieldDecl} (h : l.Declares name front m f) {x : Instance} (hx : x.Fits l) :
    ∃ p v, x.Reaches name p v ∧ p.decl = f ∧ p.type = m.type ∧ Instance.shape p.front = front := by
  obtain ⟨⟨back, hmembers⟩, hnearest, hdeclared⟩ := h
  have hshape := hx.shape
  rw [hmembers, Instance.shape] at hshape
  -- The parts of the instance stand in the order of the members, ...
  obtain ⟨parts, tail, rfl, hfront, htail⟩ := List.map_eq_append_iff.mp hshape
  obtain ⟨part, rest, rfl, hpart, -⟩ := List.map_eq_cons_iff.mp htail
  subst hpart
  -- ... and the slots of a part in the order of its declarations.
  obtain ⟨hname, decls, decls', hfields, hskipped⟩ := List.find?_eq_some_iff_append.mp hdeclared
  obtain ⟨before, slots, hslots, hbefore, hfirst⟩ := List.map_eq_append_iff.mp hfields
  obtain ⟨s, after, rfl, rfl, -⟩ := List.map_eq_cons_iff.mp hfirst
  let p : Place := ⟨parts, part.type, before, s.decl, after, rest⟩
  have heq : parts ++ part :: rest = p.fill s.value := by
    rw [Place.fill, ← hslots]
  have hp : p.First name := by
    refine ⟨?_, ?_, by simpa using hname⟩
    · intro q hq t ht
      refine hnearest ⟨q.type, q.slots.map (·.decl)⟩ ?_ t.decl (List.mem_map_of_mem ht)
      rw [← hfront]
      exact List.mem_map_of_mem hq
    · intro t ht
      simpa using hskipped t.decl (hbefore ▸ List.mem_map_of_mem ht)
  exact ⟨p, s.value, ⟨heq, hp.get_fill, hp.set_fill⟩, rfl, rfl, hfront⟩

/-! ## Access through an introspector -/

namespace Introspector

variable {σ : Type} {r : Record σ} {fields : TypeName → List Field} {i : Introspector}

theorem getValue_of_faithful (h : i.Faithful fields) (hr : fields r.type = r.fields) (x : σ)
    (name : String) : (getValue r x name i).1 = r.getValue r.describe x name := by
  rw [← descriptor_content h hr]
  rfl

theorem getValueAs_of_faithful (h : i.Faithful fields) (hr : fields r.type = r.fields)
    (t : FieldType) (x : σ) (name : String) :
    (getValueAs r t x name i).1 = r.getValueAs r.describe t x name := by
  rw [← descriptor_content h hr]
  rfl

theorem setValue_of_faithful (h : i.Faithful fields) (hr : fields r.type = r.fields) (x : σ)
    (name : String) (v : Value) : (setValue r x name v i).1 = r.setValue r.describe x name v := by
  rw [← descriptor_content h hr]
  rfl

end Introspector

/-- The answer is that there is no such field. -/
def Missing {β : Type} (answer : Except AccessError β) : Prop :=
  ∃ type field, answer = .error (.fieldNotFound type field)

theorem missing_fieldNotFound {β : Type} (type : TypeName) (field : String) :
    Missing (.error (.fieldNotFound type field) : Except AccessError β) :=
  ⟨type, field, rfl⟩

namespace Instance.Fits

variable {x : Instance} {l : Lineage} {name : String}

theorem get_isSome_iff (hx : x.Fits l) : (x.get name).isSome = true ↔ l.Names name := by
  rw [hx.get_isSome, ← Lineage.names_iff_declared?]

theorem set_isSome_iff (hx : x.Fits l) (v : Value) :
    (x.set name v).isSome = true ↔ l.Names name := by
  have hknown : (x.get name).isSome = (x.set name v).isSome :=
    (l.record_lawful l.describe).known v hx
  rw [← hx.get_isSome_iff, hknown]

/-- Having passed the check of the descriptor, a read finds a field. -/
theorem getValue_eq (hx : x.Fits l) : l.record.getValue l.record.describe x name =
    match x.get name with
    | some v => .ok v
    | none => .error (.fieldNotFound l.own.type name) := by
  rw [Record.getValue]
  by_cases hname : l.Names name
  · rw [if_pos (Lineage.contains_iff.mpr hname)]
    rfl
  · rw [if_neg (mt Lineage.contains_iff.mp hname)]
    have hnone : x.get name = none := by
      simpa using mt hx.get_isSome_iff.mp hname
    rw [hnone]
    rfl

/-- Having passed the check of the descriptor, a write finds a field. -/
theorem setValue_eq (hx : x.Fits l) (v : Value) :
    l.record.setValue l.record.describe x name v =
      match x.set name v with
      | some (.ok y) => .ok y
      | some (.error e) => .error (.coercion l.own.type name e)
      | none => .error (.fieldNotFound l.own.type name) := by
  rw [Record.setValue]
  by_cases hname : l.Names name
  · rw [if_pos (Lineage.contains_iff.mpr hname), show l.record.set x name v = x.set name v from rfl]
    rcases x.set name v with _ | e | y <;> rfl
  · rw [if_neg (mt Lineage.contains_iff.mp hname)]
    have hnone : x.set name v = none := by
      simpa using mt (hx.set_isSome_iff v).mp hname
    rw [hnone]
    rfl

theorem missing_getValue_iff (hx : x.Fits l) :
    Missing (l.record.getValue l.record.describe x name) ↔ ¬ l.Names name := by
  rw [hx.getValue_eq, ← hx.get_isSome_iff]
  cases x.get name with
  | none => exact iff_of_true (missing_fieldNotFound _ _) (by simp)
  | some v => exact iff_of_false (by rintro ⟨_, _, ⟨⟩⟩) (by simp)

theorem missing_getValueAs_iff (hx : x.Fits l) (t : FieldType) :
    Missing (l.record.getValueAs l.record.describe t x name) ↔ ¬ l.Names name := by
  rw [Record.getValueAs, hx.getValue_eq, ← hx.get_isSome_iff]
  cases x.get name with
  | none => exact iff_of_true (missing_fieldNotFound _ _) (by simp)
  | some v =>
    refine iff_of_false ?_ (by simp)
    dsimp only [bind, Except.bind]
    cases t.store v with
    | ok w => rintro ⟨_, _, ⟨⟩⟩
    | error e => rintro ⟨_, _, ⟨⟩⟩

theorem missing_setValue_iff (hx : x.Fits l) (v : Value) :
    Missing (l.record.setValue l.record.describe x name v) ↔ ¬ l.Names name := by
  rw [hx.setValue_eq, ← hx.set_isSome_iff v]
  cases x.set name v with
  | none => exact iff_of_true (missing_fieldNotFound _ _) (by simp)
  | some written =>
    refine iff_of_false ?_ (by simp)
    cases written with
    | ok y => rintro ⟨_, _, ⟨⟩⟩
    | error e => rintro ⟨_, _, ⟨⟩⟩

end Instance.Fits

/-- **Descriptor and accessors agree.** A name is known to the descriptor of a type, to
its reads and to its writes just when some member of the lineage declares it. Then the
descriptor gives the declaration of the nearest such member, and reads and writes go to
the slot of that very declaration, in the part of that member. A field is found to be
missing just when no member declares its name: once the descriptor knows the name, the
accessors never fail to. -/
theorem descriptor_and_accessors_agree {fields : TypeName → List Field} {i : Introspector}
    {l : Lineage} {x : Instance} (hi : i.Faithful fields) (hl : fields l.own.type = l.describe)
    (hx : x.Fits l) (name : String) :
    let d := (Introspector.descriptor l.record i).1.content
    (d.contains name = true ↔ l.Names name) ∧
    ((l.record.get x name).isSome = true ↔ l.Names name) ∧
    (∀ v, (l.record.set x name v).isSome = true ↔ l.Names name) ∧
    (∀ g, d.field? name = some g ↔
      ∃ front m f, l.Declares name front m f ∧ g = f.toField m.type) ∧
    (∀ front m f, l.Declares name front m f →
      ∃ p v, x.Reaches name p v ∧ p.decl = f ∧ p.type = m.type ∧ Instance.shape p.front = front) ∧
    (Missing (Introspector.getValue l.record x name i).1 ↔ ¬ l.Names name) ∧
    (∀ t, Missing (Introspector.getValueAs l.record t x name i).1 ↔ ¬ l.Names name) ∧
    (∀ v, Missing (Introspector.setValue l.record x name v i).1 ↔ ¬ l.Names name) := by
  intro d
  have hd : d = l.record.describe := Introspector.descriptor_content hi hl
  rw [hd]
  refine ⟨Lineage.contains_iff, hx.get_isSome_iff, hx.set_isSome_iff, ?_, ?_, ?_, ?_, ?_⟩
  · intro g
    exact Lineage.field?_eq_some_iff
  · intro front m f h
    exact h.reaches hx
  · rw [Introspector.getValue_of_faithful hi hl]
    exact hx.missing_getValue_iff
  · intro t
    rw [Introspector.getValueAs_of_faithful hi hl]
    exact hx.missing_getValueAs_iff t
  · intro v
    rw [Introspector.setValue_of_faithful hi hl]
    exact hx.missing_setValue_iff v

/-- A permit declares the level of its badge once more, with another type. -/
def permit : Lineage where
  own := ⟨⟨"office::Permit"⟩, [⟨"level", .text, []⟩]⟩
  ancestors := badge.members

/-- The title of a permit is that of its badge. What is behind it is not reached. -/
theorem permit_title_reached :
    permit.Declares "title" [permit.own] badge.own ⟨"title", .text, []⟩ ∧
      (∃ p v, permit.blank.Reaches "title" p v ∧ p.decl = ⟨"title", .text, []⟩ ∧
        p.type = badge.own.type ∧ Instance.shape p.front = [permit.own]) ∧
      ¬ Missing (Introspector.getValue permit.record permit.blank "title" {}).1 := by
  have hdeclares : permit.Declares "title" [permit.own] badge.own ⟨"title", .text, []⟩ :=
    ⟨⟨badge.ancestors, rfl⟩, by decide, by decide⟩
  have hnames : permit.Names "title" := by
    unfold Lineage.Names
    decide
  obtain ⟨-, -, -, -, hreached, hmissing, -, -⟩ :=
    descriptor_and_accessors_agree (Introspector.faithful_new fun _ => permit.describe) rfl
      permit.blank_fits "title"
  exact ⟨hdeclares, hreached _ _ _ hdeclares, fun h => hmissing.mp h hnames⟩

end Wiring
