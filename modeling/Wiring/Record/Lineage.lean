import Wiring.Record.Descriptor

/-!
# Lineages and instances

A record type is declared as a lineage: its own declarations first, then those
of the parent it embeds, and so on. An instance has one part for each member
of the lineage. A name is looked for in the own part first and then in the
parents, so that a declaration hides those of the same name behind it.
-/

namespace Wiring

/-- A declared field, without its owner. -/
structure FieldDecl where
  name : String
  type : FieldType
  marks : List Mark
deriving DecidableEq

/-- What one type declares itself. -/
structure Member where
  type : TypeName
  fields : List FieldDecl
deriving DecidableEq

structure Lineage where
  own : Member
  ancestors : List Member
deriving DecidableEq

def FieldDecl.toField (owner : TypeName) (f : FieldDecl) : Field :=
  ⟨f.name, owner, f.type, f.marks⟩

def Member.describe (m : Member) : List Field :=
  m.fields.map (·.toField m.type)

namespace Lineage

def members (l : Lineage) : List Member :=
  l.own :: l.ancestors

def describe (l : Lineage) : List Field :=
  l.members.flatMap (·.describe)

end Lineage

/-- A declared field with the value it holds. -/
structure Slot where
  decl : FieldDecl
  value : Value
deriving DecidableEq

/-- The fields that one member of the lineage contributes. -/
structure Part where
  type : TypeName
  slots : List Slot
deriving DecidableEq

/-- The own part first, then the parts of the embedded parents. -/
abbrev Instance := List Part

def Slot.blank (f : FieldDecl) : Slot :=
  ⟨f, f.type.initial⟩

def Member.blank (m : Member) : Part :=
  ⟨m.type, m.fields.map Slot.blank⟩

/-- An instance in which every field holds its initial value. -/
def Lineage.blank (l : Lineage) : Instance :=
  l.members.map (·.blank)

def getSlot (name : String) : List Slot → Option Value
  | [] => none
  | s :: rest => if s.decl.name = name then some s.value else getSlot name rest

/-- Writes to the first slot of a name. -/
def setSlot (name : String) (v : Value) : List Slot → Option (Except CoercionError (List Slot))
  | [] => none
  | s :: rest =>
    if s.decl.name = name then
      some ((s.decl.type.store v).map fun w => ⟨s.decl, w⟩ :: rest)
    else (setSlot name v rest).map fun written => written.map (s :: ·)

namespace Instance

def get (name : String) : Instance → Option Value
  | [] => none
  | p :: rest =>
    match getSlot name p.slots with
    | some v => some v
    | none => get name rest

/-- Writes to the nearest field of a name; `none` when there is none. -/
def set (name : String) (v : Value) : Instance → Option (Except CoercionError Instance)
  | [] => none
  | p :: rest =>
    match setSlot name v p.slots with
    | some written => some (written.map fun slots => ⟨p.type, slots⟩ :: rest)
    | none => (set name v rest).map fun written => written.map (p :: ·)

/-- Writes as seen from the part at a depth, where 0 is the own part: to the nearest
field of a name, there or behind it. -/
def setAt (name : String) (v : Value) : Nat → Instance → Option (Except CoercionError Instance)
  | 0, x => x.set name v
  | _ + 1, [] => none
  | depth + 1, p :: rest =>
    (setAt name v depth rest).map fun written => written.map (p :: ·)

/-- Whether two slots agree, floats compared as numbers. -/
def equalSlots : List Slot → List Slot → Bool
  | [], [] => true
  | s :: ss, t :: ts => s.value.equals t.value && equalSlots ss ts
  | _, _ => false

/-- Whether two instances of one type agree in every field, hidden ones too. -/
def equals : Instance → Instance → Bool
  | [], [] => true
  | p :: ps, q :: qs => p.type == q.type && equalSlots p.slots q.slots && equals ps qs
  | _, _ => false

end Instance

end Wiring
