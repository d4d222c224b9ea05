import Wiring.Proofs.Value.Storing
import Wiring.Record.Access

/-!
# The slots of an instance

By name an instance behaves like the list of all its slots, own part first: a
read gives the value of the first slot of the name, and a write replaces it.
The slots behind the first of their name are hidden. What is read under every
name and the hidden slots together make up the instance.
-/

namespace Wiring

/-! ## Lists of slots -/

/-- The first declaration of a name. -/
def nearest? (name : String) (decls : List FieldDecl) : Option FieldDecl :=
  decls.find? fun f => f.name = name

/-- Replaces the value of the first slot of a name. -/
def putSlot (name : String) (w : Value) : List Slot → List Slot
  | [] => []
  | s :: rest => if s.decl.name = name then ⟨s.decl, w⟩ :: rest else s :: putSlot name w rest

/-- The slots whose name is in `seen` or belongs to a slot before them. -/
def hiddenSlots : List String → List Slot → List Slot
  | _, [] => []
  | seen, s :: rest =>
    if s.decl.name ∈ seen then s :: hiddenSlots seen rest
    else hiddenSlots (s.decl.name :: seen) rest

/-- The value of the slot is one that a write can leave there. -/
def Slot.Settled (s : Slot) : Prop :=
  s.decl.type.store s.value = .ok s.value

section Lists

variable {name other : String} {v w : Value} {slots : List Slot} {seen : List String}

theorem nearest?_cons (name : String) (f : FieldDecl) (decls : List FieldDecl) :
    nearest? name (f :: decls) = if f.name = name then some f else nearest? name decls := by
  by_cases h : f.name = name <;> simp [nearest?, h]

theorem getSlot_isSome (name : String) (slots : List Slot) :
    (getSlot name slots).isSome = (nearest? name (slots.map (·.decl))).isSome := by
  induction slots with
  | nil => rfl
  | cons s rest ih =>
    rw [getSlot, List.map_cons, nearest?_cons]
    split
    · rfl
    · exact ih

/-- A write is stored by the type of the first declaration. -/
theorem setSlot_eq (name : String) (v : Value) (slots : List Slot) :
    setSlot name v slots = (nearest? name (slots.map (·.decl))).map fun f =>
      (f.type.store v).map fun w => putSlot name w slots := by
  induction slots with
  | nil => rfl
  | cons s rest ih =>
    rw [setSlot, List.map_cons, nearest?_cons]
    split
    · rename_i hs
      simp only [putSlot, hs, if_true, Option.map_some]
    · rename_i hs
      simp only [putSlot, hs, if_false, ih, Option.map_map]
      congr 1
      funext f
      cases h : f.type.store v <;> simp [h, Except.map]

theorem decls_putSlot (name : String) (w : Value) (slots : List Slot) :
    (putSlot name w slots).map (·.decl) = slots.map (·.decl) := by
  induction slots with
  | nil => rfl
  | cons s rest ih =>
    rw [putSlot]
    split
    · rfl
    · rw [List.map_cons, List.map_cons, ih]

theorem getSlot_putSlot_self (w : Value) (h : (nearest? name (slots.map (·.decl))).isSome) :
    getSlot name (putSlot name w slots) = some w := by
  induction slots with
  | nil => cases h
  | cons s rest ih =>
    rw [List.map_cons, nearest?_cons] at h
    rw [putSlot]
    split
    · rename_i hs
      simp only [getSlot, hs, if_true]
    · rename_i hs
      rw [if_neg hs] at h
      simp only [getSlot, hs, if_false]
      exact ih h

theorem getSlot_putSlot_of_ne (w : Value) (slots : List Slot) (h : other ≠ name) :
    getSlot other (putSlot name w slots) = getSlot other slots := by
  induction slots with
  | nil => rfl
  | cons s rest ih =>
    rw [putSlot]
    split
    · rename_i hs
      subst hs
      simp only [getSlot, h.symm, if_false]
    · simp only [getSlot, ih]

theorem hiddenSlots_putSlot (w : Value) (slots : List Slot) (h : name ∉ seen) :
    hiddenSlots seen (putSlot name w slots) = hiddenSlots seen slots := by
  induction slots generalizing seen with
  | nil => rfl
  | cons s rest ih =>
    rw [putSlot]
    split
    · rename_i hs
      subst hs
      simp only [hiddenSlots, h, if_false]
    · rename_i hs
      simp only [hiddenSlots]
      split
      · rw [ih h]
      · have hcons : name ∉ s.decl.name :: seen := by
          rintro (_ | ⟨_, hmem⟩)
          · exact hs rfl
          · exact h hmem
        exact ih hcons

/-- Slots with distinct names hide nothing. -/
theorem hiddenSlots_eq_nil (hnodup : (slots.map (·.decl.name)).Nodup)
    (hseen : ∀ s ∈ slots, s.decl.name ∉ seen) :
    hiddenSlots seen slots = [] := by
  induction slots generalizing seen with
  | nil => rfl
  | cons s rest ih =>
    obtain ⟨hs, hrest⟩ := List.nodup_cons.mp hnodup
    have hfirst : s.decl.name ∉ seen := hseen s (List.mem_cons_self ..)
    rw [hiddenSlots, if_neg hfirst]
    apply ih hrest
    intro t ht
    rw [List.mem_cons, not_or]
    refine ⟨?_, hseen t (List.mem_cons_of_mem _ ht)⟩
    intro heq
    exact hs (List.mem_map.mpr ⟨t, ht, heq⟩)

theorem settled_putSlot {f : FieldDecl} (hf : nearest? name (slots.map (·.decl)) = some f)
    (hw : f.type.store v = .ok w) (h : ∀ s ∈ slots, s.Settled) :
    ∀ s ∈ putSlot name w slots, s.Settled := by
  induction slots with
  | nil => exact h
  | cons s rest ih =>
    rw [List.map_cons, nearest?_cons] at hf
    have hrest : ∀ t ∈ rest, t.Settled := fun t ht => h t (List.mem_cons_of_mem _ ht)
    rw [putSlot]
    split
    · rename_i hs
      rw [if_pos hs] at hf
      cases hf
      intro t ht
      rcases List.mem_cons.mp ht with rfl | ht
      · exact FieldType.store_store hw
      · exact hrest t ht
    · rename_i hs
      rw [if_neg hs] at hf
      intro t ht
      rcases List.mem_cons.mp ht with rfl | ht
      · exact h t (List.mem_cons_self ..)
      · exact ih hf hrest t ht

theorem store_getSlot {f : FieldDecl} (hf : nearest? name (slots.map (·.decl)) = some f)
    (h : ∀ s ∈ slots, s.Settled) (hv : getSlot name slots = some v) : f.type.store v = .ok v := by
  induction slots with
  | nil => cases hv
  | cons s rest ih =>
    rw [List.map_cons, nearest?_cons] at hf
    rw [getSlot] at hv
    split at hv
    · rename_i hs
      rw [if_pos hs] at hf
      cases hf
      cases hv
      exact h s (List.mem_cons_self ..)
    · rename_i hs
      rw [if_neg hs] at hf
      exact ih hf (fun t ht => h t (List.mem_cons_of_mem _ ht)) hv

/-- Slots of the same declarations are the same if they agree by name and where no
name reaches. -/
theorem slots_ext {left right : List Slot}
    (hdecls : left.map (·.decl) = right.map (·.decl))
    (hget : ∀ name, name ∉ seen → getSlot name left = getSlot name right)
    (hhidden : hiddenSlots seen left = hiddenSlots seen right) : left = right := by
  induction left generalizing right seen with
  | nil => exact (List.map_eq_nil_iff.mp hdecls.symm).symm
  | cons s left ih =>
    cases right with
    | nil => cases hdecls
    | cons t right =>
      rw [List.map_cons, List.map_cons, List.cons.injEq] at hdecls
      obtain ⟨hst, hdecls⟩ := hdecls
      have hbehind : ∀ name, name ≠ s.decl.name → name ∉ seen →
          getSlot name left = getSlot name right := by
        intro name hne hseen
        have h := hget name hseen
        simpa only [getSlot, ← hst, hne.symm, if_false] using h
      -- A hidden slot is compared as such, and any other one by reading its name.
      simp only [hiddenSlots, ← hst] at hhidden
      split at hhidden
      · rename_i hmem
        obtain ⟨rfl, htail⟩ := List.cons.inj hhidden
        rw [ih hdecls (fun name h => hbehind name (fun heq => h (heq ▸ hmem)) h) htail]
      · rename_i hmem
        have hvalue := hget s.decl.name hmem
        simp only [getSlot, ← hst, if_true, Option.some.injEq] at hvalue
        obtain ⟨decl, value⟩ := s
        obtain ⟨decl', value'⟩ := t
        cases hst
        cases hvalue
        have hnext : ∀ name, name ∉ decl.name :: seen → getSlot name left = getSlot name right := by
          intro name h
          exact hbehind name (List.ne_of_not_mem_cons h) (List.not_mem_of_not_mem_cons h)
        rw [ih hdecls hnext hhidden]

end Lists

namespace Instance

/-! ## Instances -/

/-- All slots, nearest part first. -/
def slots (x : Instance) : List Slot :=
  x.flatMap (·.slots)

/-- What was declared for the instance. -/
def shape (x : Instance) : List Member :=
  x.map fun p => ⟨p.type, p.slots.map (·.decl)⟩

/-- The slots that no name reaches. -/
def hidden (x : Instance) : List Slot :=
  hiddenSlots [] x.slots

variable {name : String} {v : Value} {x y : Instance}

theorem getSlot_append (name : String) (left right : List Slot) :
    getSlot name (left ++ right) = (getSlot name left).or (getSlot name right) := by
  induction left with
  | nil => simp [getSlot]
  | cons s rest ih =>
    simp only [List.cons_append, getSlot]
    split
    · rfl
    · exact ih

theorem get_eq (name : String) (x : Instance) : x.get name = getSlot name x.slots := by
  induction x with
  | nil => rfl
  | cons p rest ih =>
    rw [get, slots, List.flatMap_cons, getSlot_append]
    cases getSlot name p.slots with
    | none => exact ih
    | some v => rfl

theorem setSlot_append (name : String) (v : Value) (left right : List Slot) :
    setSlot name v (left ++ right) =
      match setSlot name v left with
      | some written => some (written.map (· ++ right))
      | none => (setSlot name v right).map fun written => written.map (left ++ ·) := by
  induction left with
  | nil =>
    cases h : setSlot name v right with
    | none => simp [setSlot, h]
    | some written => cases written <;> simp [setSlot, h, Except.map]
  | cons s rest ih =>
    simp only [List.cons_append, setSlot]
    split
    · cases s.decl.type.store v <;> rfl
    · rw [ih]
      cases setSlot name v rest with
      | none =>
        cases setSlot name v right with
        | none => rfl
        | some written => cases written <;> rfl
      | some written => cases written <;> rfl

theorem setSlot_slots (name : String) (v : Value) (x : Instance) :
    setSlot name v x.slots = (x.set name v).map fun written => written.map (·.slots) := by
  induction x with
  | nil => rfl
  | cons p rest ih =>
    rw [set, slots, List.flatMap_cons, setSlot_append]
    cases setSlot name v p.slots with
    | none =>
      simp only
      rw [← slots, ih]
      cases set name v rest with
      | none => rfl
      | some written => cases written <;> rfl
    | some written => cases written <;> rfl

theorem decls_slots (x : Instance) : x.slots.map (·.decl) = x.shape.flatMap (·.fields) := by
  rw [slots, shape, List.map_flatMap, List.flatMap_map]

theorem shape_set (h : x.set name v = some (.ok y)) : y.shape = x.shape := by
  induction x generalizing y with
  | nil => cases h
  | cons p rest ih =>
    rw [set] at h
    split at h
    · rename_i written hwritten
      rw [setSlot_eq] at hwritten
      obtain ⟨f, -, hwritten⟩ := Option.map_eq_some_iff.mp hwritten
      subst hwritten
      cases hstore : f.type.store v with
      | error e => rw [hstore] at h; cases h
      | ok w =>
        rw [hstore] at h
        cases h
        simp only [shape, List.map_cons, decls_putSlot]
    · obtain ⟨written, hset, hwritten⟩ := Option.map_eq_some_iff.mp h
      cases written with
      | error e => cases hwritten
      | ok z =>
        cases hwritten
        have hz := ih hset
        simp only [shape, List.map_cons] at hz ⊢
        rw [hz]

theorem eq_of_shape_of_slots (hshape : x.shape = y.shape) (hslots : x.slots = y.slots) :
    x = y := by
  induction x generalizing y with
  | nil => exact (List.map_eq_nil_iff.mp hshape.symm).symm
  | cons p x ih =>
    cases y with
    | nil => cases hshape
    | cons q y =>
      simp only [shape, List.map_cons, List.cons.injEq, Member.mk.injEq] at hshape
      obtain ⟨⟨htype, hdecls⟩, hshape⟩ := hshape
      have hlength : p.slots.length = q.slots.length := by
        simpa using congrArg List.length hdecls
      rw [slots, slots, List.flatMap_cons, List.flatMap_cons] at hslots
      -- The declarations say where the slots of the first part end.
      obtain ⟨hown, hrest⟩ := List.append_inj hslots hlength
      obtain ⟨type, own⟩ := p
      cases htype
      cases hown
      rw [ih hshape hrest]

end Instance

end Wiring
