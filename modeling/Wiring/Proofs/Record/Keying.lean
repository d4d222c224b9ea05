import Mathlib.Data.Finset.Image
import Wiring.Proofs.Record.BulkWrites
import Wiring.Proofs.Record.Merging
import Wiring.Proofs.Value.Texts

/-!
# Keyed maps

A list of instances becomes a map from the text of one field to the value of another.
Each item makes one entry, and entries are put into the map one after the other, so
under each text the last item counts. A map can only lose an item to another one with
the same text; for every kind that is read back from its text, that is an item with the
same key. Only date-times can share a text without being equal, where the nanoseconds of
one of them run over its second.
-/

namespace Wiring

/-! ## Entries put into a map -/

section Maps

variable {map entries before after : List (String × Value)} {text : String} {v : Value}

end Maps

/-! ## The entry of an item -/

namespace Instance

variable {x : Instance} {l : Lineage} {key value : String} {p : String × Value}

/-- The text of the field of a name. -/
def text? (x : Instance) (name : String) : Option String :=
  (x.get name).map Value.toText

/-- The entry that an item makes, if it has the two fields and its key is not null. -/
def keyedPair? (x : Instance) (key value : String) : Option (String × Value) :=
  match x.get key, x.get value with
  | some k, some v => if k.isNull then none else some (k.toText, v)
  | _, _ => none

end Instance

/-! ## Runs -/

namespace Lineage

variable {l : Lineage} {x : Instance} {items before after : List Instance} {key value text : String}
  {map m : List (String × Value)}

/-- The entries that items make, in order. -/
def entriesOf (key value : String) (items : List Instance) : List (String × Value) :=
  items.filterMap (·.keyedPair? key value)

end Lineage

/-! ## Equal texts -/

namespace Lineage

variable {l : Lineage} {items : List Instance} {key value : String} {f : FieldDecl}

end Lineage

namespace Introspector

end Introspector

end Wiring
