import Wiring.Number.Numeral
import Wiring.Text.Ascii
import Wiring.Text.Quoted
import Wiring.Text.Segments
import Wiring.Text.Utf8

/-!
# UUIDs

A UUID is 32 hexadecimal digits. It is written in five groups with hyphens
between them. It is read from the plain digits, from the groups, and from the
groups in braces or behind the URN name. Positions in faults are byte offsets.
-/

namespace Wiring

open Wiring.Number Wiring.Text

structure Uuid where
  digits : List (Fin 16)
  length_digits : digits.length = 32
deriving DecidableEq

namespace Uuid

/-- The lengths of the groups. -/
def groups : List Nat := [8, 4, 4, 4, 12]

def nil : Uuid := ⟨List.replicate 32 0, rfl⟩

/-- Why a text is no UUID. -/
inductive Fault
  | length (found : Nat)
  | character (found : Char) (index : Nat)
  | groupCount (found : Nat)
  | groupLength (group expected found : Nat)
deriving DecidableEq, Repr

def Fault.message : Fault → String
  | .length n => "invalid length: found " ++ natText n
  | .character c i =>
    "invalid character: found \x60" ++ String.singleton c ++ "\x60 at " ++ natText i
  | .groupCount n => "invalid group count: expected 5, found " ++ natText n
  | .groupLength g e n =>
    "invalid group length in group " ++ natText g ++ ": expected " ++ natText e ++
      ", found " ++ natText n

def hexValue? (c : Char) : Option (Fin 16) :=
  let n := c.toNat
  if 48 ≤ n && n ≤ 57 then some (Fin.ofNat 16 (n - 48))
  else if 97 ≤ n && n ≤ 102 then some (Fin.ofNat 16 (n - 87))
  else if 65 ≤ n && n ≤ 70 then some (Fin.ofNat 16 (n - 55))
  else none

/-- Reads plain digits. -/
def readPlain (s : List Char) : Option Uuid :=
  match s.mapM hexValue? with
  | some ds => if h : ds.length = 32 then some ⟨ds, h⟩ else none
  | none => none

/-- Cuts a text into parts of given lengths with a hyphen between two parts. -/
def cutGroups : List Nat → List Char → Option (List Char)
  | [], s => if s.isEmpty then some [] else none
  | [n], s => if s.length = n then some s else none
  | n :: more, s =>
    match s.drop n with
    | '-' :: rest => (cutGroups more rest).map (s.take n ++ ·)
    | _ => none

def readGroups (s : List Char) : Option Uuid :=
  (cutGroups groups s).bind readPlain

def urnName : List Char := "urn:uuid:".toList

/-- What is between the braces around a text, if it has them. -/
def withoutBraces (s : List Char) : Option (List Char) :=
  if s.head? == some '\x7b' && s.getLast? == some '\x7d' && 2 ≤ s.length then
    some (s.drop 1).dropLast
  else none

/-- What is behind the URN name at the front of a text, if it has it. -/
def withoutUrnName (s : List Char) : Option (List Char) :=
  if (s.take urnName.length).map lowerAscii == urnName then some (s.drop urnName.length)
  else none

/-- The groups in a text whose size is the size of a UUID written in groups:
the text itself, or what is in its braces or behind its URN name. -/
def grouped? (s : List Char) : Option (List Char) :=
  match Utf8.size s with
  | 36 => some s
  | 38 => withoutBraces s
  | 45 => withoutUrnName s
  | _ => none

/-- The first character that is neither a digit nor a hyphen, and its offset. -/
def firstForeign (offset : Nat) : List Char → Option (Char × Nat)
  | [] => none
  | c :: rest =>
    if (hexValue? c).isSome || c == '-' then firstForeign (offset + c.utf8Size) rest
    else some (c, offset)

/-- The first of the groups that has the wrong length. -/
def wrongGroup (index : Nat) : List Nat → List (List Char) → Option (Nat × Nat × Nat)
  | expected :: more, group :: rest =>
    if group.length = expected then wrongGroup (index + 1) more rest
    else some (index, expected, group.length)
  | _, _ => none

/-- What is wrong with groups that start at an offset in a text. The last group
is measured by the size of the whole text. -/
def groupFault (size offset : Nat) (s : List Char) : Fault :=
  match firstForeign offset s with
  | some (c, i) => .character c i
  | none =>
    let parts := splitAt '-' s
    if parts.length ≠ 5 then .groupCount parts.length
    else match wrongGroup 0 (groups.take 4) (parts.take 4) with
      | some (group, expected, found) => .groupLength group expected found
      | none => .groupLength 4 12 (size - 24)

/-- What is wrong with a text that has neither braces nor a URN name. Without a
hyphen it counts as plain digits. -/
def bareFault (size : Nat) (s : List Char) : Fault :=
  if (firstForeign 0 s).isNone && !s.contains '-' then .length size
  else groupFault size 0 s

/-- What is wrong with a text that is no UUID. In a text of the right size the
offsets are those of the groups alone. -/
def fault (s : List Char) : Fault :=
  let size := Utf8.size s
  match grouped? s with
  | some inner => groupFault size 0 inner
  | none =>
    if size == 0 || size > 45 then .length size
    else match withoutBraces s, withoutUrnName s with
      | some inner, _ => groupFault size 1 inner
      | none, some inner => groupFault size urnName.length inner
      | none, none => bareFault size s

def read (s : List Char) : Except Fault Uuid :=
  let found := if Utf8.size s = 32 then readPlain s else (grouped? s).bind readGroups
  match found with
  | some id => .ok id
  | none => .error (fault s)

/-- The digits from left to right, in groups of the given lengths. -/
def writeGroups : List Nat → List Char → List Char
  | [], _ => []
  | [n], s => s.take n
  | n :: more, s => s.take n ++ '-' :: writeGroups more (s.drop n)

def plain (id : Uuid) : List Char :=
  id.digits.map fun d => hexDigit d.val

def text (id : Uuid) : List Char :=
  writeGroups groups id.plain

end Uuid

end Wiring
