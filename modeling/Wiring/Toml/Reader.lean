import Wiring.Toml.Document
import Wiring.Toml.Lexeme

/-!
# Reading TOML text

Values nest in arrays and inline tables; a document is a list of lines, each
with a header, a key and its value, or nothing. Readers that repeat carry a
bound, which the length of the text provides.
-/

namespace Wiring.Toml

open Wiring.Number

/-- Reads a value that contains no others. -/
def readScalar (s : List Char) : Option (Value × List Char) :=
  match s with
  | '"' :: _ => (readString s).map fun (t, rest) => (.string (String.ofList t), rest)
  | '\'' :: _ => (readString s).map fun (t, rest) => (.string (String.ofList t), rest)
  | 't' :: 'r' :: 'u' :: 'e' :: rest => some (.bool true, rest)
  | 'f' :: 'a' :: 'l' :: 's' :: 'e' :: rest => some (.bool false, rest)
  | s =>
    match readStamp s with
    | some (t, rest) => some (.stamp t, rest)
    | none =>
      match readTomlFloat s with
      | some (x, rest) => some (.float x, rest)
      | none => (readTomlInteger s).map fun (i, rest) => (.integer i, rest)

mutual

/-- Reads a value; `depth` more arrays and inline tables may be entered. -/
def readValue : Nat → Nat → List Char → Option (Node × List Char)
  | 0, _, _ => none
  | fuel + 1, depth, s =>
    match s, depth with
    | '[' :: _, 0 => none
    | '\x7b' :: _, 0 => none
    | '[' :: rest, depth + 1 =>
      (readItems fuel depth rest).map fun (items, rest) => (.array items, rest)
    | '\x7b' :: rest, depth + 1 =>
      match skipSpaces rest with
      | '\x7d' :: rest => some (.inlineTable [], rest)
      | rest =>
        (readPairs fuel depth [] rest).map fun (entries, rest) => (.inlineTable entries, rest)
    | s, _ => (readScalar s).map fun (v, rest) => (.scalar v, rest)

/-- Reads the items of an array up to its closing bracket. -/
def readItems : Nat → Nat → List Char → Option (List Node × List Char)
  | 0, _, _ => none
  | fuel + 1, depth, s =>
    match skipFiller s.length s with
    | ']' :: rest => some ([], rest)
    | s =>
      match readValue fuel depth s with
      | none => none
      | some (n, rest) =>
        match skipFiller rest.length rest with
        | ',' :: rest => (readItems fuel depth rest).map fun (ns, rest) => (n :: ns, rest)
        | ']' :: rest => some ([n], rest)
        | _ => none

/-- Reads the keys and values of an inline table up to its closing brace. -/
def readPairs : Nat → Nat → Entries → List Char → Option (Entries × List Char)
  | 0, _, _, _ => none
  | fuel + 1, depth, entries, s =>
    match readKey s with
    | some (path, key, '=' :: rest) =>
      match readValue fuel depth (skipSpaces rest) with
      | none => none
      | some (n, rest) =>
        match entries.addValue path key n with
        | none => none
        | some entries =>
          match skipSpaces rest with
          | ',' :: rest => readPairs fuel depth entries rest
          | '\x7d' :: rest => some (entries, rest)
          | _ => none
    | _ => none

end

/-- Reads one line that starts behind its leading spaces. -/
def readLine (d : Document) (s : List Char) : Option (Document × List Char) :=
  match s with
  | '[' :: '[' :: rest =>
    match readKey rest with
    | some (path, key, ']' :: ']' :: rest) => do
      let rest ← readLineEnd rest
      let d ← d.arrayHeader path key
      some (d, rest)
    | _ => none
  | '[' :: rest =>
    match readKey rest with
    | some (path, key, ']' :: rest) => do
      let rest ← readLineEnd rest
      let d ← d.header path key
      some (d, rest)
    | _ => none
  | '#' :: _ => (readLineEnd s).map fun rest => (d, rest)
  | '\n' :: _ => (readNewline s).map fun rest => (d, rest)
  | '\r' :: _ => (readNewline s).map fun rest => (d, rest)
  | s =>
    match readKey s with
    | some (path, key, '=' :: rest) => do
      let text := skipSpaces rest
      let (n, rest) ← readValue (2 * text.length + 2) (nestingLimit - 1) text
      let rest ← readLineEnd rest
      let d ← d.add path key n
      some (d, rest)
    | _ => none

def readLines : Nat → Document → List Char → Option Document
  | 0, _, _ => none
  | fuel + 1, d, s =>
    match skipSpaces s with
    | [] => some d
    | s =>
      match readLine d s with
      | some (d, rest) => readLines fuel d rest
      | none => none

/-- A byte order mark at the start is dropped. -/
def dropMark (s : List Char) : List Char :=
  match s with
  | '\uFEFF' :: rest => rest
  | s => s

/-- The table that a TOML text denotes, or nothing when it is no TOML. -/
def parse (s : String) : Option Table :=
  let text := dropMark s.toList
  (readLines (text.length + 1) Document.empty text).bind (·.toTable?)

end Wiring.Toml
