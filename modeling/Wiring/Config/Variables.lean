import Wiring.Config.Layer
import Wiring.Number.Literal
import Wiring.Text.Ascii
import Wiring.Text.Lower
import Wiring.Text.Segments

/-!
# Environment variables

A variable whose name starts with a given text and a separator sets a value:
what remains of the name is cut at the separators into a path, in lower case.
The value is the most specific scalar that its text can be. Entries come in
the order of their paths, and of equal paths in the order of the variables.
-/

namespace Wiring.Config

open Wiring.Number Wiring.Text Wiring.Toml

structure Variables where
  lead : String
  separator : Separator
  assignments : List (String × String)

/-- An optional minus sign and one or more digits. -/
def looksInteger (s : List Char) : Bool :=
  let ds := match s with
    | '-' :: rest => rest
    | s => s
  !ds.isEmpty && ds.all isDigit

def integerOf? (s : List Char) : Option Int64 :=
  if looksInteger s then
    match readInteger s with
    | .ok i => some (Int64.ofInt i)
    | .error _ => none
  else none

/-- A float needs a point in its text. -/
def floatOf? (s : List Char) : Option Binary64 :=
  if s.contains '.' then (readFloat s).toOption else none

/-- The most specific scalar: boolean, integer, float, then string. -/
def classify (s : List Char) : Value :=
  if isWord "true" s then .bool true
  else if isWord "false" s then .bool false
  else match integerOf? s with
    | some i => .integer i
    | none =>
      match floatOf? s with
      | some x => .float x
      | none => .string (String.ofList s)

namespace Variables

/-- The path that a variable addresses, if it is one of these variables. -/
def path? (vs : Variables) (name : String) : Option (List String) :=
  match dropLeading (vs.lead.toList ++ vs.separator.chars) name.toList with
  | none => none
  | some [] => none
  | some rest => some ((splitOn vs.separator rest).map fun step => String.ofList (lower step))

def entry? (vs : Variables) (assignment : String × String) : Option Entry :=
  (vs.path? assignment.1).map fun path => ⟨path, classify assignment.2.toList⟩

end Variables

/-- Whether a path comes strictly before another, step by step. -/
def pathPrecedes : List String → List String → Bool
  | _, [] => false
  | [], _ :: _ => true
  | a :: as, b :: bs =>
    precedes a.toList b.toList || (a == b && pathPrecedes as bs)

def Variables.entries (vs : Variables) : List Entry :=
  (vs.assignments.filterMap vs.entry?).mergeSort fun a b => !pathPrecedes b.path a.path

/-- Sets a variable in a list of assignments; it keeps its place if it has one. -/
def assign (vars : List (String × String)) (name value : String) : List (String × String) :=
  match vars with
  | [] => [(name, value)]
  | (n, v) :: rest => if n = name then (name, value) :: rest else (n, v) :: assign rest name value

end Wiring.Config
