import Wiring.Toml.Basic

/-!
# Building a document

A document is built expression by expression. A table remembers how it came
about: by a header of its own, as a step on the way to another header, or as a
step of a dotted key. A header may open a table that was only a step of
headers, once; dotted keys may add to what dotted keys began, and nothing is
ever added to a value.

Keys stay in the order in which they came, and a table that is opened late
moves behind its siblings. The order counts where a table stands for a stamp.
-/

namespace Wiring.Toml

/-- How a table came about. -/
inductive Origin
  | header
  | step
  | dotted
deriving DecidableEq, Repr

inductive Node
  | scalar (v : Value)
  | array (items : List Node)
  | inlineTable (entries : List (String × Node))
  | table (origin : Origin) (entries : List (String × Node))
  | tables (items : List (List (String × Node)))

abbrev Entries := List (String × Node)

namespace Entries

def get? (key : String) (es : Entries) : Option Node :=
  es.lookup key

def put (key : String) (n : Node) : Entries → Entries
  | [] => [(key, n)]
  | (k, m) :: rest => if k = key then (key, n) :: rest else (k, m) :: put key n rest

/-- Goes down a path and changes the entries at its end. The tables that are
missing are made with the origin `made`; dotted keys do not enter a table that
has a header. -/
def change (made : Origin) (f : Origin → Entries → Option Entries) (here : Origin) :
    List String → Entries → Option Entries
  | [], es => f here es
  | key :: path, es =>
    match es.get? key with
    | none => (change made f made path []).map fun inner => es.put key (.table made inner)
    | some (.scalar _) | some (.array _) | some (.inlineTable _) => none
    | some (.table origin inner) =>
      if made = .dotted && origin = .header then none
      else (change made f origin path inner).map fun inner => es.put key (.table origin inner)
    | some (.tables items) =>
      match items.getLast? with
      | none => none
      | some inner =>
        (change made f .header path inner).map fun inner =>
          es.put key (.tables (items.dropLast ++ [inner]))

/-- Adds a value under a key that must be new. A dotted key ends in a table
made by dotted keys. -/
def addNew (dottedKey : Bool) (key : String) (n : Node) (here : Origin) (es : Entries) :
    Option Entries :=
  if dottedKey && here ≠ .dotted then none
  else match es.get? key with
    | none => some (es.put key n)
    | some _ => none

/-- Adds a value under a dotted key. -/
def addValue (path : List String) (key : String) (n : Node) (es : Entries) : Option Entries :=
  change .dotted (addNew (!path.isEmpty) key n) .header path es

/-- Opens the table of a header, as the last of the entries. -/
def openTable (key : String) (_ : Origin) (es : Entries) : Option Entries :=
  match es.get? key with
  | none => some (es.put key (.table .header []))
  | some (.table .step inner) =>
    some (es.filter (fun e => e.1 ≠ key) ++ [(key, .table .header inner)])
  | some _ => none

/-- Opens the next table of an array of tables. -/
def openItem (key : String) (_ : Origin) (es : Entries) : Option Entries :=
  match es.get? key with
  | none => some (es.put key (.tables [[]]))
  | some (.tables items) => some (es.put key (.tables (items ++ [[]])))
  | some _ => none

end Entries

def Node.stamp? : Node → Option Stamp
  | .scalar (.string s) => Stamp.ofText? s.toList
  | _ => none

/-- What entries are inside a document: a stamp when the first key says so,
whatever else there is, and otherwise the table that they make. -/
def Entries.valueOr (table : Option Table) : Entries → Option Value
  | (key, n) :: _ => if key = stampKey then n.stamp?.map .stamp else table.map .table
  | [] => table.map .table

mutual

/-- The value that a node stands for. -/
def Node.toValue? : Node → Option Value
  | .scalar v => some v
  | .array items => (Node.toItems? items).map .array
  | .inlineTable entries => Entries.valueOr (Node.toTable? entries) entries
  | .table _ entries => Entries.valueOr (Node.toTable? entries) entries
  | .tables items => (Node.toTables? items).map .array

def Node.toItems? : List Node → Option (List Value)
  | [] => some []
  | n :: rest =>
    match n.toValue? with
    | some v => (Node.toItems? rest).map (v :: ·)
    | none => none

def Node.toTable? : List (String × Node) → Option Table
  | [] => some []
  | (key, n) :: rest =>
    match n.toValue? with
    | some v => (Node.toTable? rest).map fun t => t.put key v
    | none => none

def Node.toTables? : List (List (String × Node)) → Option (List Value)
  | [] => some []
  | entries :: rest =>
    match Entries.valueOr (Node.toTable? entries) entries with
    | some v => (Node.toTables? rest).map (v :: ·)
    | none => none

end

/-- A document under construction: all entries, and the path of the table that
the last header opened. -/
structure Document where
  entries : Entries
  current : List String

namespace Document

def empty : Document := ⟨[], []⟩

/-- A header names the path of its table; the last step is the table itself. -/
def header (d : Document) (path : List String) (key : String) : Option Document :=
  (Entries.change .step (Entries.openTable key) .header path d.entries).map
    fun es => ⟨es, path ++ [key]⟩

def arrayHeader (d : Document) (path : List String) (key : String) : Option Document :=
  (Entries.change .step (Entries.openItem key) .header path d.entries).map
    fun es => ⟨es, path ++ [key]⟩

/-- Adds a value to the table that is open. -/
def add (d : Document) (path : List String) (key : String) (n : Node) : Option Document :=
  (Entries.change .step (fun _ es => es.addValue path key n) .header d.current d.entries).map
    fun es => { d with entries := es }

/-- The table that the document denotes. The whole document is never a stamp. -/
def toTable? (d : Document) : Option Table :=
  Node.toTable? d.entries

end Document

end Wiring.Toml
