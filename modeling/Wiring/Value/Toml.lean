import Wiring.Toml.Basic
import Wiring.Value.Basic

/-!
# Values as TOML

How a value is written where only TOML is understood. What TOML does not know
becomes a string, bytes become a list of integers, and null cannot be written.
-/

namespace Wiring

def Value.toToml? : Value → Option Toml.Value
  | .null => none
  | .bool b => some (.bool b)
  | .integer i => some (.integer i)
  | .float x => some (.float x)
  | .text s => some (.string s)
  | .uuid id => some (.string (String.ofList id.text))
  | .date d => some (.string (String.ofList d.text))
  | .dateTime t => some (.string (String.ofList t.text))
  | .bytes bs => some (.array (bs.map fun b => .integer (Int64.ofNat b.toNat)))

end Wiring
