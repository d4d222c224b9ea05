import Wiring.Proofs.Record.Reach

/-!
# Access by name is a lens

A write changes the instance itself and says how that went. Seen from outside it
leaves what the write that gives a new instance gives, and the old instance when
there is an error. So reads and writes of a name obey the laws of a lens: one
reads what was stored, writing back what was read changes nothing, and of two
writes only the last can be seen.
-/

namespace Wiring

/-! ## Writes in place -/

/-- What a write in place answers and what it leaves of the old object, told by the
new object that it makes. -/
def inPlace {ε β : Type} (old : β) : Option (Except ε β) → Option (Except ε Unit) × β
  | none => (none, old)
  | some (.error e) => (some (.error e), old)
  | some (.ok new) => (some (.ok ()), new)

def Slot.assign (v : Value) (s : Slot) : Except CoercionError Unit × Slot :=
  match s.decl.type.store v with
  | .ok w => (.ok (), ⟨s.decl, w⟩)
  | .error e => (.error e, s)

def assignSlot (name : String) (v : Value) :
    List Slot → Option (Except CoercionError Unit) × List Slot
  | [] => (none, [])
  | s :: rest =>
    if s.decl.name = name then
      let (answer, s) := s.assign v
      (some answer, s :: rest)
    else
      let (answer, rest) := assignSlot name v rest
      (answer, s :: rest)

/-- Hands the write on to the embedded parents until one of them knows the name. -/
def Instance.assign (name : String) (v : Value) :
    Instance → Option (Except CoercionError Unit) × Instance
  | [] => (none, [])
  | p :: rest =>
    match assignSlot name v p.slots with
    | (some answer, slots) => (some answer, ⟨p.type, slots⟩ :: rest)
    | (none, slots) =>
      let (answer, rest) := assign name v rest
      (answer, ⟨p.type, slots⟩ :: rest)

def Lineage.assign (l : Lineage) (d : Descriptor) (x : Instance) (name : String) (v : Value) :
    Except AccessError Unit × Instance :=
  if d.contains name then
    match x.assign name v with
    | (some (.ok ()), y) => (.ok (), y)
    | (some (.error e), y) => (.error (.coercion l.own.type name e), y)
    | (none, y) => (.error (.fieldNotFound l.own.type name), y)
  else (.error (.fieldNotFound l.own.type name), x)

def Introspector.assign (l : Lineage) (x : Instance) (name : String) (v : Value) :
    StateM Introspector (Except AccessError Unit × Instance) := do
  let d ← descriptor l.record
  return l.assign d.content x name v

section InPlace

variable {name : String} {v : Value}

theorem assignSlot_eq (slots : List Slot) :
    assignSlot name v slots = inPlace slots (setSlot name v slots) := by
  induction slots with
  | nil => rfl
  | cons s rest ih =>
    rw [assignSlot, setSlot]
    split
    · rw [Slot.assign]
      cases s.decl.type.store v <;> rfl
    · rw [ih]
      rcases setSlot name v rest with _ | e | written <;> rfl

theorem Instance.assign_eq (x : Instance) : x.assign name v = inPlace x (x.set name v) := by
  induction x with
  | nil => rfl
  | cons p rest ih =>
    rw [assign, set, assignSlot_eq]
    rcases setSlot name v p.slots with _ | e | slots
    · simp only [inPlace, ih]
      rcases set name v rest with _ | e | written <;> rfl
    · rfl
    · rfl

/-- A write in place leaves the instance that a write gives, or else the old one. -/
theorem Lineage.assign_eq (l : Lineage) (d : Descriptor) (x : Instance) :
    l.assign d x name v =
      match l.record.setValue d x name v with
      | .ok y => (.ok (), y)
      | .error e => (.error e, x) := by
  rw [assign, Record.setValue, Instance.assign_eq,
    show l.record.set x name v = x.set name v from rfl]
  split
  · rcases x.set name v with _ | e | y <;> rfl
  · rfl

theorem Introspector.assign_of_faithful {l : Lineage} {fields : TypeName → List Field}
    {i : Introspector} (h : i.Faithful fields) (hl : fields l.own.type = l.describe)
    (x : Instance) : (assign l x name v i).1 = l.assign l.record.describe x name v := by
  have hd : (descriptor l.record i).1.content = l.record.describe := descriptor_content h hl
  rw [← hd]
  rfl

end InPlace

/-! ## The laws -/

/-- A write over a write is a write to what was there before. -/
theorem Instance.Written.trans {x y z : Instance} {name : String} {v w : Value}
    (hxy : x.Written name v y) (hyz : y.Written name w z) : x.Written name w z where
  shape := hyz.shape.trans hxy.shape
  value := hyz.value
  others := fun other h => (hyz.others other h).trans (hxy.others other h)
  hidden := hyz.hidden.trans hxy.hidden

namespace Instance.Fits

variable {x y z : Instance} {l : Lineage} {name : String} {v w : Value}

/-- A write fails for want of a declaration, or because the declared type refuses the
value, and nothing changes; or the value is stored, and nothing else changes. -/
theorem assign_cases (hx : x.Fits l) (name : String) (v : Value) :
    (l.declared? name = none ∧
      l.assign l.record.describe x name v = (.error (.fieldNotFound l.own.type name), x)) ∨
    (∃ f e, l.declared? name = some f ∧ f.type.store v = .error e ∧
      l.assign l.record.describe x name v = (.error (.coercion l.own.type name e), x)) ∨
    (∃ f w y, l.declared? name = some f ∧ f.type.store v = .ok w ∧
      l.assign l.record.describe x name v = (.ok (), y) ∧ y.Fits l ∧ x.Written name w y) := by
  rw [l.assign_eq, hx.setValue_eq]
  cases hf : l.declared? name with
  | none =>
    rw [hx.set_undeclared hf v]
    exact .inl ⟨rfl, rfl⟩
  | some f =>
    cases hw : f.type.store v with
    | error e =>
      rw [hx.set_refused hf hw]
      exact .inr (.inl ⟨f, e, rfl, hw, rfl⟩)
    | ok w =>
      obtain ⟨y, hset, hy, hwritten⟩ := hx.set_stored hf hw
      rw [hset]
      exact .inr (.inr ⟨f, w, y, rfl, hw, rfl, hy, hwritten⟩)

theorem assign_ok (hx : x.Fits l)
    (h : l.assign l.record.describe x name v = (.ok (), y)) :
    ∃ f w, l.declared? name = some f ∧ f.type.store v = .ok w ∧ y.Fits l ∧ x.Written name w y := by
  rcases hx.assign_cases name v with ⟨-, heq⟩ | ⟨_, _, -, -, heq⟩ | ⟨f, w, z, hf, hw, heq, hz⟩
  · rw [heq] at h
    cases h
  · rw [heq] at h
    cases h
  · rw [heq] at h
    cases h
    exact ⟨f, w, hf, hw, hz⟩

/-- Writes that store the same value leave the same instance. -/
theorem eq_of_written (hy : y.Fits l) (hz : z.Fits l) (hxy : x.Written name w y)
    (hxz : x.Written name w z) : y = z := by
  apply hy.ext hz
  · intro other
    by_cases h : other = name
    · rw [h, hxy.value, hxz.value]
    · rw [hxy.others other h, hxz.others other h]
  · rw [hxy.hidden, hxz.hidden]

/-- What is read under a declared name is the value of its slot. -/
theorem getValue_ok_iff (hx : x.Fits l) :
    l.record.getValue l.record.describe x name = .ok v ↔ x.get name = some v := by
  rw [hx.getValue_eq]
  cases x.get name with
  | none => simp
  | some u => simp

/-- **What was read can be written back**, and nothing changes. -/
theorem assign_getValue (hx : x.Fits l)
    (h : l.record.getValue l.record.describe x name = .ok v) :
    l.assign l.record.describe x name v = (.ok (), x) := by
  have hget : x.get name = some v := hx.getValue_ok_iff.mp h
  have hsome : (l.declared? name).isSome := by
    rw [← hx.get_isSome, hget]
    rfl
  obtain ⟨f, hf⟩ := Option.isSome_iff_exists.mp hsome
  have hstore : f.type.store v = .ok v := hx.store_get hf hget
  rcases hx.assign_cases name v with
    ⟨hnone, -⟩ | ⟨g, e, hg, he, -⟩ | ⟨g, w, y, hg, hw, heq, hy, hxy⟩
  · rw [hf] at hnone
    cases hnone
  · rw [hf] at hg
    cases hg
    rw [hstore] at he
    cases he
  · rw [hf] at hg
    cases hg
    rw [hstore] at hw
    cases hw
    -- The instance as it is counts as one with that value written to it.
    have hself : x.Written name v x := ⟨rfl, hget, fun _ _ => rfl, rfl⟩
    rw [heq, eq_of_written hy hx hxy hself]

/-- **The last write alone counts.** -/
theorem assign_assign (hx : x.Fits l)
    (hfirst : l.assign l.record.describe x name v = (.ok (), y))
    (hsecond : l.assign l.record.describe y name w = (.ok (), z)) :
    l.assign l.record.describe x name w = (.ok (), z) := by
  obtain ⟨_, _, -, -, hy, hxy⟩ := hx.assign_ok hfirst
  obtain ⟨f, u, hf, hu, hz, hyz⟩ := hy.assign_ok hsecond
  obtain ⟨z', hset, hz', hxz'⟩ := hx.set_stored hf hu
  rw [l.assign_eq, hx.setValue_eq, hset, eq_of_written hz' hz hxz' (hxy.trans hyz)]

end Instance.Fits

/-- **Access by name is a lens.** A write that succeeds stores the value as the nearest
declaration of the name has it; one reads just that, and nothing else changes, hidden
fields included. A write that fails changes nothing. Every declared name can be read, and
writing back what was read changes nothing. Two writes to a name leave what the second
one alone would leave. All this holds whatever the introspectors remember in between. -/
theorem access_is_a_lens {fields : TypeName → List Field} {i j k : Introspector} {l : Lineage}
    {x : Instance} (hi : i.Faithful fields) (hj : j.Faithful fields) (hk : k.Faithful fields)
    (hl : fields l.own.type = l.describe) (hx : x.Fits l) (name : String) :
    (∀ v y, (Introspector.assign l x name v i).1 = (.ok (), y) →
      (∃ f w, l.declared? name = some f ∧ f.type.store v = .ok w ∧
        (Introspector.getValue l.record y name j).1 = .ok w) ∧
      (∀ other, other ≠ name → (Introspector.getValue l.record y other j).1 =
        (Introspector.getValue l.record x other j).1) ∧
      y.hidden = x.hidden ∧ y.Fits l) ∧
    (∀ v e y, (Introspector.assign l x name v i).1 = (.error e, y) → y = x) ∧
    (l.Names name → ∃ v, (Introspector.getValue l.record x name i).1 = .ok v ∧
      (Introspector.assign l x name v j).1 = (.ok (), x)) ∧
    (∀ v w y z, (Introspector.assign l x name v i).1 = (.ok (), y) →
      (Introspector.assign l y name w j).1 = (.ok (), z) →
      (Introspector.assign l x name w k).1 = (.ok (), z)) := by
  refine ⟨?_, ?_, ?_, ?_⟩
  · intro v y h
    rw [Introspector.assign_of_faithful hi hl] at h
    obtain ⟨f, w, hf, hw, hy, hxy⟩ := hx.assign_ok h
    refine ⟨⟨f, w, hf, hw, ?_⟩, ?_, hxy.hidden, hy⟩
    · rw [Introspector.getValue_of_faithful hj hl]
      exact hy.getValue_ok_iff.mpr hxy.value
    · intro other hother
      rw [Introspector.getValue_of_faithful hj hl, Introspector.getValue_of_faithful hj hl,
        hy.getValue_eq, hx.getValue_eq, hxy.others other hother]
  · intro v e y h
    rw [Introspector.assign_of_faithful hi hl, l.assign_eq] at h
    cases hset : l.record.setValue l.record.describe x name v with
    | ok z =>
      rw [hset] at h
      cases h
    | error e' =>
      rw [hset] at h
      cases h
      rfl
  · intro hname
    obtain ⟨v, hv⟩ := Option.isSome_iff_exists.mp (hx.get_isSome_iff.mpr hname)
    have hread : l.record.getValue l.record.describe x name = .ok v := hx.getValue_ok_iff.mpr hv
    refine ⟨v, ?_, ?_⟩
    · rw [Introspector.getValue_of_faithful hi hl, hread]
    · rw [Introspector.assign_of_faithful hj hl]
      exact hx.assign_getValue hread
  · intro v w y z hfirst hsecond
    rw [Introspector.assign_of_faithful hi hl] at hfirst
    rw [Introspector.assign_of_faithful hj hl] at hsecond
    rw [Introspector.assign_of_faithful hk hl]
    exact hx.assign_assign hfirst hsecond

/-- A badge in which only the title was ever written. -/
def entitled (title : String) : Instance :=
  [⟨badge.own.type, [⟨⟨"title", .text, []⟩, .text title⟩, ⟨⟨"level", .int .i8, []⟩, .integer 0⟩]⟩,
    ⟨⟨"office::Entity"⟩, [⟨⟨"title", .option .text, []⟩, .null⟩]⟩]

/-- A number and then a truth value are written as the texts that they convert to. -/
theorem badge_title_rewritten :
    (Introspector.getValue badge.record (entitled "7") "title" {}).1 = .ok (.text "7") ∧
      (entitled "7").hidden = badge.blank.hidden ∧
      (Introspector.assign badge badge.blank "title" (.bool true) {}).1 =
        (.ok (), entitled "true") := by
  have hseven : (Introspector.assign badge badge.blank "title" (.integer 7) {}).1 =
      (.ok (), entitled "7") := by
    decide
  have htrue : (Introspector.assign badge (entitled "7") "title" (.bool true) {}).1 =
      (.ok (), entitled "true") := by
    decide
  have hfaithful := Introspector.faithful_new fun _ => badge.describe
  obtain ⟨hwrite, -, -, htwice⟩ :=
    access_is_a_lens hfaithful hfaithful hfaithful rfl badge.blank_fits "title"
  obtain ⟨⟨f, w, hf, hw, hread⟩, -, hhidden, -⟩ := hwrite _ _ hseven
  have hdecl : some f = some ⟨"title", .text, []⟩ := hf.symm.trans (by decide)
  cases hdecl
  have hvalue : Except.ok w = Except.ok (Value.text "7") := hw.symm.trans (by decide)
  cases hvalue
  exact ⟨hread, hhidden, htwice _ _ _ _ hseven htrue⟩

end Wiring
