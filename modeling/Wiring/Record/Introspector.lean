import Wiring.Record.Copy

/-!
# Introspectors

An introspector remembers descriptors by type, and lists of marked fields by
type and mark. What is remembered carries a stamp, so that two answers can be
told to be the very same object. Every access to a record looks at the
remembered descriptor of its type.
-/

namespace Wiring

/-- A remembered object and the stamp it got when it was made. -/
structure Stamped (α : Type) where
  stamp : Nat
  content : α

structure Introspector where
  descriptors : List (TypeName × Stamped Descriptor) := []
  marked : List ((TypeName × Mark) × Stamped (List Field)) := []
  next : Nat := 0

namespace Introspector

variable {σ : Type}

/-- The descriptor of a type, made when it is not there. -/
def descriptor (r : Record σ) : StateM Introspector (Stamped Descriptor) := fun i =>
  match i.descriptors.lookup r.type with
  | some d => (d, i)
  | none =>
    let d : Stamped Descriptor := ⟨i.next, r.describe⟩
    (d, { i with descriptors := i.descriptors ++ [(r.type, d)], next := i.next + 1 })

/-- The marked fields of a descriptor, collected when they are not there. -/
def markedIn (d : Descriptor) (m : Mark) : StateM Introspector (Stamped (List Field)) := fun i =>
  match i.marked.lookup (d.type, m) with
  | some fs => (fs, i)
  | none =>
    let fs : Stamped (List Field) := ⟨i.next, d.marked m⟩
    (fs, { i with marked := i.marked ++ [((d.type, m), fs)], next := i.next + 1 })

/-- Forgets one type and says whether it was remembered. -/
def evict (type : TypeName) : StateM Introspector Bool := fun i =>
  ((i.descriptors.lookup type).isSome,
    { i with descriptors := i.descriptors.filter fun entry => entry.1 ≠ type })

/-- Forgets all types. -/
def clear : StateM Introspector Unit := fun i =>
  ((), { i with descriptors := [] })

/-- Forgets all lists of marked fields. -/
def clearMarked : StateM Introspector Unit := fun i =>
  ((), { i with marked := [] })

/-- The number of remembered types. -/
def size (i : Introspector) : Nat :=
  i.descriptors.length

def has (r : Record σ) (name : String) : StateM Introspector Bool := do
  let d ← descriptor r
  return d.content.contains name

def field? (r : Record σ) (name : String) : StateM Introspector (Option Field) := do
  let d ← descriptor r
  return d.content.field? name

def fieldsMarked (r : Record σ) (m : Mark) : StateM Introspector (List Field) := do
  let d ← descriptor r
  let fs ← markedIn d.content m
  return fs.content

def firstMarked? (r : Record σ) (m : Mark) : StateM Introspector (Option Field) := do
  let fs ← fieldsMarked r m
  return fs.head?

/-- Adds the fields of each mark in turn. -/
def addMarked (d : Descriptor) (known : List Field) : List Mark → StateM Introspector (List Field)
  | [] => return known
  | m :: rest => do
    let fs ← markedIn d m
    addMarked d (unionFields known fs.content) rest

/-- The field of a name, unless the name is empty, and all fields with one of
the marks, each once. -/
def fields (r : Record σ) (name : String) (marks : List Mark) :
    StateM Introspector (List Field) := do
  let d ← descriptor r
  let named := if name.isEmpty then [] else (d.content.field? name).toList
  addMarked d.content named marks

def getValue (r : Record σ) (x : σ) (name : String) :
    StateM Introspector (Except AccessError Value) := do
  let d ← descriptor r
  return r.getValue d.content x name

def getValueAs (r : Record σ) (t : FieldType) (x : σ) (name : String) :
    StateM Introspector (Except AccessError Value) := do
  let d ← descriptor r
  return r.getValueAs d.content t x name

def setValue (r : Record σ) (x : σ) (name : String) (v : Value) :
    StateM Introspector (Except AccessError σ) := do
  let d ← descriptor r
  return r.setValue d.content x name v

def setValues (r : Record σ) (x : σ) (pairs : List (String × Value)) :
    StateM Introspector (Except AccessError Nat × σ) := do
  let d ← descriptor r
  return r.setValues d.content x pairs

def copyFrom (r : Record σ) (mode : CopyMode) (source : String → Option Value) (target : σ) :
    StateM Introspector (Except AccessError Unit × σ) := do
  let d ← descriptor r
  return r.copyFrom d.content mode source target

def cloneFrom (r : Record σ) (blank primary : σ) (others : List (String → Option Value)) :
    StateM Introspector (Except AccessError σ) := do
  let d ← descriptor r
  return r.cloneFrom d.content blank primary others

def toPairs (r : Record σ) (x : σ) : StateM Introspector (List (String × Value)) := do
  let d ← descriptor r
  return r.toPairs d.content x

/-- No item means that no descriptor is looked at. -/
def keyed (r : Record σ) (key value : String) (items : List σ) :
    StateM Introspector (Except AccessError (List (String × Value))) := do
  match items with
  | [] => return .ok []
  | items => do
    let d ← descriptor r
    return r.keyed d.content key value items

end Introspector

end Wiring
