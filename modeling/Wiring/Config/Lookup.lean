import Wiring.Text.Segments
import Wiring.Toml.Basic

/-!
# Dotted names

A dotted name is followed key by key through nested tables. A property is also
found under the name as a whole when the root has such a key.
-/

namespace Wiring.Config

open Wiring.Text Wiring.Toml

/-- The value reached by following keys through nested tables. -/
def follow (t : Table) : List String → Option Value
  | [] => none
  | [key] => t.get? key
  | key :: next :: rest =>
    match t.get? key with
    | some (.table inner) => follow inner (next :: rest)
    | _ => none

/-- The keys of a dotted name. -/
def keysOf (name : String) : List String :=
  (splitAt '.' name.toList).map String.ofList

def lookup (root : Table) (name : String) : Option Value :=
  follow root (keysOf name)

def property? (root : Table) (name : String) : Option Value :=
  match lookup root name with
  | some v => some v
  | none => root.get? name

end Wiring.Config
