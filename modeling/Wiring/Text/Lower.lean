import Wiring.Text.Flips
import Wiring.Text.LowerTable

/-!
# Lower case

Letters move by the simple lower-case mapping. Two letters are special: the
dotted capital I becomes two characters, and the capital sigma becomes the
final form at the end of a word, that is after a cased letter and not before
one, case-ignorable characters in between not counted.
-/

namespace Wiring.Text

def isCased (c : Char) : Bool :=
  withinFlips casedFlips c.toNat

def isCaseIgnorable (c : Char) : Bool :=
  withinFlips caseIgnorableFlips c.toNat

def LowerRun.moves (r : LowerRun) (n : Nat) : Bool :=
  r.first ≤ n && n ≤ r.last && (n - r.first) % r.step == 0

/-- The lower-case form of one character on its own. -/
def lowerChar (c : Char) : List Char :=
  if c == 'İ' then ['i', '\u0307']
  else match lowerRuns.find? (·.moves c.toNat) with
    | some r => [Char.ofNat (c.toNat + r.shift).toNat]
    | none => [c]

/-- Whether the first character that is not case-ignorable is cased. -/
def meetsCased (s : List Char) : Bool :=
  match s.dropWhile isCaseIgnorable with
  | [] => false
  | c :: _ => isCased c

/-- Lower case of the rest of a text whose part before it is `before`,
nearest character first. -/
def lowerAfter (before : List Char) : List Char → List Char
  | [] => []
  | c :: rest =>
    let here :=
      if c == 'Σ' then
        if meetsCased before && !meetsCased rest then ['ς'] else ['σ']
      else lowerChar c
    here ++ lowerAfter (c :: before) rest

def lower (s : List Char) : List Char :=
  lowerAfter [] s

end Wiring.Text
