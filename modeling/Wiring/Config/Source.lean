import Wiring.Config.Placeholder
import Wiring.Config.Variables
import Wiring.Text.Utf8
import Wiring.Toml.Reader

/-!
# Sources

A source contributes entries to a configuration. The sources are taken in
order, each over what came before, and placeholders are expanded at the end.
-/

namespace Wiring.Config

open Wiring.Text Wiring.Toml

/-- What reading a file gives. -/
inductive FileReading
  | missing
  | unreadable
  | contents (bytes : List UInt8)

inductive Source
  | text (contents : String)
  | file (path : String) (required : Bool) (reading : FileReading)
  | variables (vs : Variables)
  | entries (es : List Entry)

/-- A table laid over the whole. -/
def rootEntry (t : Table) : Entry :=
  ⟨[], .table t⟩

def fileEntries (path : String) (required : Bool) : FileReading → Except ConfigError (List Entry)
  | .missing => if required then .error (.fileNotFound path) else .ok []
  | .unreadable => .error (.unreadable path)
  | .contents bytes =>
    match Utf8.decode bytes with
    | .error _ => .error (.unreadable path)
    | .ok s =>
      match parse (String.ofList s) with
      | some t => .ok [rootEntry t]
      | none => .error (.malformedFile path)

def textEntries (contents : String) : Except ConfigError (List Entry) :=
  match parse contents with
  | some t => .ok [rootEntry t]
  | none => .error .malformedText

def Source.load : Source → Except ConfigError (List Entry)
  | .text contents => textEntries contents
  | .file path required reading => fileEntries path required reading
  | .variables vs => .ok vs.entries
  | .entries es => .ok es

/-- Merges the sources into a table. -/
def mergeSources (t : Table) : List Source → Except ConfigError Table
  | [] => .ok t
  | s :: rest =>
    match s.load with
    | .ok es => mergeSources (applyAll t es) rest
    | .error e => .error e

/-- Merges the sources and expands the placeholders. -/
def loadSources (sources : List Source) : Except ConfigError Table :=
  (mergeSources [] sources).bind resolve

/-- Variables with a separator given as text, which must not be empty. -/
def variables? (lead separator : String) (assignments : List (String × String)) :
    Except ConfigError Source :=
  match Separator.ofList? separator.toList with
  | some sep => .ok (.variables ⟨lead, sep, assignments⟩)
  | none => .error .emptySeparator

/-- What reading a path gives in a directory without files. A path that only
steps through the directory itself and those above it is no file, and neither
is one that the file system cannot hold. -/
def readingInEmptyDirectory (path : String) : FileReading :=
  let steps := splitAt '/' path.toList
  let named := steps.filter fun step => !(step == [] || step == ['.'] || step == ['.', '.'])
  if path.toList.contains '\x00' || 4096 ≤ Utf8.size path.toList then .unreadable
  else if path.isEmpty then .missing
  else match named with
    | [] => .unreadable
    | first :: _ => if 255 < Utf8.size first then .unreadable else .missing

end Wiring.Config
