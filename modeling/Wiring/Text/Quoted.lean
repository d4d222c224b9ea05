import Wiring.Text.EscapedTable
import Wiring.Text.Flips

/-!
# Quoted text

Text between double quotes, on one line and readable whatever it holds: the
quote, the backslash and the common control characters are escaped by a
letter, and every character that does not show as itself by its number.
-/

namespace Wiring.Text

def hexDigit (n : Nat) : Char :=
  if n < 10 then Char.ofNat (48 + n) else Char.ofNat (87 + n)

/-- Lower-case hexadecimal digits without leading zeros. -/
def hexadecimal (n : Nat) : List Char :=
  Nat.toDigits 16 n

def escape (c : Char) : List Char :=
  match c with
  | '\x00' => ['\\', '0']
  | '\t' => ['\\', 't']
  | '\r' => ['\\', 'r']
  | '\n' => ['\\', 'n']
  | '\\' => ['\\', '\\']
  | '"' => ['\\', '"']
  | c =>
    if withinFlips escapedFlips c.toNat then
      ['\\', 'u', '\x7b'] ++ hexadecimal c.toNat ++ ['\x7d']
    else [c]

def quote (s : List Char) : List Char :=
  '"' :: s.flatMap escape ++ ['"']

def quoted (s : String) : String :=
  String.ofList (quote s.toList)

end Wiring.Text
