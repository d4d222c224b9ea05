/-!
# ASCII letters

Comparison that takes ASCII letters of either case as equal and every other
character as itself.
-/

namespace Wiring.Text

/-- An ASCII letter in lower case; all else unchanged. -/
def lowerAscii (c : Char) : Char :=
  if 65 ≤ c.toNat && c.toNat ≤ 90 then Char.ofNat (c.toNat + 32) else c

/-- Whether a text is a lower-case ASCII word in some mix of cases. -/
def isWord (word : String) (s : List Char) : Bool :=
  s.map lowerAscii == word.toList

end Wiring.Text
