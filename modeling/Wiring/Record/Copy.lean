import Wiring.Record.Access

/-!
# Copying records

Fields are matched by name. A copy first converts every accepted value to the
kind of the target's field, and writes only when all of them can be converted.
Writing may still fail; then what was written is put back, last first.

Instances are also flattened to a list of named values, and lists of instances
to a map from one field's text to another field.
-/

namespace Wiring

/-- Which fields a copy overwrites. -/
inductive CopyMode
  /-- Every shared field, with null too. -/
  | all
  /-- Where the source is not null. -/
  | notNull
  /-- Where the target is null. -/
  | isNull
deriving DecidableEq, Repr

def CopyMode.accepts (mode : CopyMode) (incoming current : Value) : Bool :=
  match mode with
  | .all => true
  | .notNull => !incoming.isNull
  | .isNull => current.isNull

/-- A write that is prepared: the converted value and the one it replaces. -/
structure Staged where
  name : String
  value : Value
  previous : Value
deriving DecidableEq

namespace Record

variable {σ : Type} (r : Record σ) (d : Descriptor)

/-- Prepares the writes of a copy in the order of the fields. -/
def stage (mode : CopyMode) (source : String → Option Value) (target : σ) :
    List Field → Except AccessError (List Staged)
  | [] => .ok []
  | f :: rest =>
    match source f.name with
    | none => stage mode source target rest
    | some incoming =>
      let current := (r.get target f.name).getD .null
      if mode.accepts incoming current then
        match f.type.coerce incoming with
        | .ok v => (stage mode source target rest).map (⟨f.name, v, current⟩ :: ·)
        | .error e => .error (.coercion r.type f.name e)
      else stage mode source target rest

/-- Writes previous values back; a name that refuses keeps what it has. -/
def undo (x : σ) : List Staged → σ
  | [] => x
  | s :: rest =>
    match r.set x s.name s.previous with
    | some (.ok y) => undo y rest
    | _ => undo x rest

/-- Writes what is staged; `written` holds what is written already, last first. -/
def write (x : σ) (written : List Staged) : List Staged → Except AccessError Unit × σ
  | [] => (.ok (), x)
  | s :: rest =>
    match r.setValue d x s.name s.value with
    | .ok y => write y (s :: written) rest
    | .error e => (.error e, r.undo x written)

/-- Copies into a target whatever a source has under the target's names. -/
def copyFrom (mode : CopyMode) (source : String → Option Value) (target : σ) :
    Except AccessError Unit × σ :=
  match r.stage mode source target d.accessible with
  | .ok staged => r.write d target [] staged
  | .error e => (.error e, target)

/-- Copies several sources one after the other. -/
def copyAll (target : σ) : List (String → Option Value) → Except AccessError σ
  | [] => .ok target
  | source :: rest =>
    match r.copyFrom d .all source target with
    | (.ok _, y) => copyAll y rest
    | (.error e, _) => .error e

/-- A new instance with the values of `primary`, overlaid by others in order. -/
def cloneFrom (blank primary : σ) (others : List (String → Option Value)) :
    Except AccessError σ :=
  r.copyAll d blank ((r.get primary) :: others)

/-- The values of the accessible fields in order. -/
def toPairs (x : σ) : List (String × Value) :=
  d.accessible.map fun f => (f.name, (r.get x f.name).getD .null)

end Record

/-- Sets the value of a key in a list of pairs, keeping its place. -/
def putPair (key : String) (v : Value) : List (String × Value) → List (String × Value)
  | [] => [(key, v)]
  | (k, w) :: rest => if k = key then (k, v) :: rest else (k, w) :: putPair key v rest

namespace Record

variable {σ : Type} (r : Record σ) (d : Descriptor)

/-- Maps the text of one field to the value of another; of items with the same
key text the last counts. -/
def keyedFrom (key value : String) (map : List (String × Value)) :
    List σ → Except AccessError (List (String × Value))
  | [] => .ok map
  | x :: rest =>
    match r.getValue d x key with
    | .error e => .error e
    | .ok k =>
      if k.isNull then .error (.nullKey r.type key)
      else
        match r.getValue d x value with
        | .error e => .error e
        | .ok v => keyedFrom key value (putPair k.toText v map) rest

def keyed (key value : String) (items : List σ) : Except AccessError (List (String × Value)) :=
  r.keyedFrom d key value [] items

end Record

end Wiring
