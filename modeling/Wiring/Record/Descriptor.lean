import Wiring.TypeName
import Wiring.Value.FieldType

/-!
# Descriptors

The descriptor of a record type lists its fields, nearest declaration first.
A name may be declared several times; by name only its first declaration can
be reached, and an index remembers where that is.
-/

namespace Wiring

/-- A mark that a declaration may put on a field. -/
structure Mark where
  type : TypeName
deriving DecidableEq, Repr

def Mark.name (m : Mark) : String :=
  m.type.simple

/-- A field as declared by one type. -/
structure Field where
  name : String
  owner : TypeName
  type : FieldType
  marks : List Mark
deriving DecidableEq

namespace Field

def hasMark (f : Field) (m : Mark) : Bool :=
  f.marks.contains m

/-- Fields are the same when one type declares both under one name. -/
def same (f g : Field) : Bool :=
  f.owner == g.owner && f.name == g.name

end Field

/-- Remembers a position for a name that has none yet. -/
def remember (index : List (String × Nat)) (name : String) (position : Nat) :
    List (String × Nat) :=
  if (index.lookup name).isSome then index else index ++ [(name, position)]

/-- The index of fields whose first position is given. -/
def indexFrom (index : List (String × Nat)) (position : Nat) : List Field → List (String × Nat)
  | [] => index
  | f :: rest => indexFrom (remember index f.name position) (position + 1) rest

structure Descriptor where
  type : TypeName
  fields : List Field
  index : List (String × Nat)

namespace Descriptor

def build (type : TypeName) (fields : List Field) : Descriptor :=
  ⟨type, fields, indexFrom [] 0 fields⟩

def field? (d : Descriptor) (name : String) : Option Field :=
  (d.index.lookup name).bind fun position => d.fields[position]?

def contains (d : Descriptor) (name : String) : Bool :=
  (d.index.lookup name).isSome

/-- The fields that can be reached by name, in order. -/
def accessible (d : Descriptor) : List Field :=
  (d.fields.zipIdx.filter fun (f, position) => d.index.lookup f.name == some position).map (·.1)

/-- The fields with a mark, hidden ones included, in order. -/
def marked (d : Descriptor) (m : Mark) : List Field :=
  d.fields.filter (·.hasMark m)

end Descriptor

/-- Adds the fields that are not the same as one already there. -/
def unionFields (known : List Field) : List Field → List Field
  | [] => known
  | f :: rest => unionFields (if known.any (·.same f) then known else known ++ [f]) rest

end Wiring
