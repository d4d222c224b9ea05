import Wiring.Text.Lower
import Wiring.Text.Segments

/-!
# Type names

A type is known by its full name: a path of segments joined by double colons,
with type arguments in angle brackets behind it. Arguments play no part in the
simple name and the namespace.
-/

namespace Wiring

open Wiring.Text

structure TypeName where
  text : String
deriving DecidableEq, Repr

/-- The double colon. -/
def pathSeparator : Separator := ⟨':', [':']⟩

namespace TypeName

/-- The name up to its first angle bracket. -/
def base (t : TypeName) : List Char :=
  t.text.toList.takeWhile (· ≠ '<')

/-- The last segment. -/
def simpleChars (t : TypeName) : List Char :=
  match cutLast pathSeparator t.base with
  | some (_, last) => last
  | none => t.base

/-- All segments but the last. -/
def scopeChars (t : TypeName) : List Char :=
  match cutLast pathSeparator t.base with
  | some (front, _) => front
  | none => []

def simple (t : TypeName) : String :=
  String.ofList t.simpleChars

def scope (t : TypeName) : String :=
  String.ofList t.scopeChars

/-- The name of a bean that is not given one: the simple name with its first
letter in lower case. -/
def beanName (t : TypeName) : String :=
  match t.simpleChars with
  | [] => ""
  | c :: rest => String.ofList (lowerChar c ++ rest)

end TypeName

end Wiring
