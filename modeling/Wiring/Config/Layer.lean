import Wiring.Toml.Basic

/-!
# Layers

A configuration is a table that grows by entries. An entry puts a value at a
path of keys, making the tables on the way; at the empty path a table is laid
over the whole. Laying one table over another merges tables under the same
key and replaces everything else.
-/

namespace Wiring.Config

open Wiring.Toml

mutual

/-- Lays the entries of a table over another. -/
def overlay (base : Table) : List (String × Value) → Table
  | [] => base
  | (key, v) :: rest => overlay (base.put key (overlayValue (base.get? key) v)) rest

/-- Lays a value over what was there. -/
def overlayValue (old : Option Value) : Value → Value
  | .table entries =>
    match old with
    | some (.table base) => .table (overlay base entries)
    | _ => .table entries
  | v => v

end

/-- A value and the path of keys at which it belongs. -/
structure Entry where
  path : List String
  value : Value

/-- The table at a key, empty when there is none. -/
def tableAt (key : String) (t : Table) : Table :=
  match t.get? key with
  | some (.table inner) => inner
  | _ => []

/-- Puts a value at a path. -/
def place (v : Value) (t : Table) : List String → Table
  | [] =>
    match v with
    | .table entries => overlay t entries
    | _ => t
  | [key] => t.put key (overlayValue (t.get? key) v)
  | key :: next :: rest => t.put key (.table (place v (tableAt key t) (next :: rest)))

def Entry.apply (t : Table) (e : Entry) : Table :=
  place e.value t e.path

def applyAll (t : Table) (es : List Entry) : Table :=
  es.foldl Entry.apply t

end Wiring.Config
