import Wiring.Number.FloatText
import Wiring.Text.Segments
import Wiring.Toml.Stamp

/-!
# TOML values

Tables keep their keys in increasing order of code points, so two tables with
the same content are equal.
-/

namespace Wiring.Toml

open Wiring.Number Wiring.Text

inductive Value
  | string (s : String)
  | integer (i : Int64)
  | float (x : Binary64)
  | bool (b : Bool)
  | stamp (t : Stamp)
  | array (items : List Value)
  | table (entries : List (String × Value))

abbrev Table := List (String × Value)

namespace Table

def get? (key : String) : Table → Option Value
  | [] => none
  | (k, v) :: rest => if k = key then some v else get? key rest

/-- Sets the value of a key; a new key goes to its place in the order. -/
def put (key : String) (v : Value) : Table → Table
  | [] => [(key, v)]
  | (k, w) :: rest =>
    if k = key then (key, v) :: rest
    else if precedes key.toList k.toList then (key, v) :: (k, w) :: rest
    else (k, w) :: put key v rest

end Table

namespace Value

def table? : Value → Option Table
  | table t => some t
  | _ => none

/-- The text of a scalar; arrays and tables have none. -/
def scalarText? : Value → Option (List Char)
  | string s => some s.toList
  | integer i => some (writeInteger i.toInt)
  | float x => some x.text
  | bool b => some (if b then "true".toList else "false".toList)
  | stamp t => some t.text
  | array _ => none
  | table _ => none

end Value

end Wiring.Toml
