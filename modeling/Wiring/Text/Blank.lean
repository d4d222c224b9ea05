import Wiring.Text.Flips

/-!
# Blank characters

The blanks are the code points of the property `White_Space`. Trimming drops
them from both ends and keeps those inside.
-/

namespace Wiring.Text

def blankFlips : List Nat :=
  [9, 14, 32, 33, 133, 134, 160, 161, 5760, 5761, 8192, 8203, 8232, 8234, 8239, 8240,
    8287, 8288, 12288, 12289]

def isBlank (c : Char) : Bool :=
  withinFlips blankFlips c.toNat

def trimStart (s : List Char) : List Char :=
  s.dropWhile isBlank

def trimEnd (s : List Char) : List Char :=
  (s.reverse.dropWhile isBlank).reverse

def trim (s : List Char) : List Char :=
  trimEnd (trimStart s)

end Wiring.Text
