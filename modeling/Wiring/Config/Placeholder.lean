import Wiring.Config.Error
import Wiring.Config.Lookup

/-!
# Placeholders

In a string, `$$` stands for a dollar sign and a path in braces behind a
dollar sign for the value at that path; behind a colon in the braces stands a
fallback for a path that has no value. A string that is referred to is itself
expanded, with the path remembered; meeting a remembered path again is a
circle. Every other scalar is written as text.

Each expansion of a string at a path remembers one more path that leads to a
string, and everything else expands a shorter text.
-/

namespace Wiring.Config

open Wiring.Text Wiring.Toml

mutual

/-- The dotted names, behind a leading part, under which strings are found in
the entries of a table. -/
def stringNames (lead : List Char) : List (String × Value) → List String
  | [] => []
  | (key, v) :: rest => stringNamesOf (lead ++ key.toList) v ++ stringNames lead rest

def stringNamesOf (name : List Char) : Value → List String
  | .string _ => [String.ofList name]
  | .table entries => stringNames (name ++ ['.']) entries
  | _ => []

end

theorem mem_stringNames {key : String} {v : Value} {t : Table} {lead : List Char}
    (h : t.get? key = some v) {n : String} (hn : n ∈ stringNamesOf (lead ++ key.toList) v) :
    n ∈ stringNames lead t := by
  induction t with
  | nil => simp [Table.get?] at h
  | cons e rest ih =>
    obtain ⟨k, w⟩ := e
    simp only [Table.get?] at h
    simp only [stringNames, List.mem_append]
    split at h
    · rename_i hk
      simp only [Option.some.injEq] at h
      subst hk h
      exact Or.inl hn
    · exact Or.inr (ih h)

theorem follow_mem_stringNames {s : String} (keys : List String) (t : Table) (lead : List Char)
    (h : follow t keys = some (.string s)) :
    String.ofList (lead ++ join ['.'] (keys.map String.toList)) ∈ stringNames lead t := by
  induction keys generalizing t lead with
  | nil => simp [follow] at h
  | cons key rest ih =>
    cases rest with
    | nil =>
      simp only [follow] at h
      exact mem_stringNames h (by simp [stringNamesOf, join])
    | cons next rest =>
      simp only [follow] at h
      split at h
      · rename_i inner hinner
        refine mem_stringNames hinner ?_
        simp only [stringNamesOf]
        have := ih inner (lead ++ key.toList ++ ['.']) h
        simpa [join, List.append_assoc] using this
      · simp at h

/-- A path that leads to a string is one of the listed names. -/
theorem lookup_mem_stringNames {root : Table} {path s : String}
    (h : lookup root path = some (.string s)) : path ∈ stringNames [] root := by
  have := follow_mem_stringNames (keysOf path) root [] h
  simpa [keysOf, Function.comp_def, join_splitAt] using this

/-- The number of paths to strings that are not remembered yet. -/
def freshNames (root : Table) (stack : List String) : Nat :=
  (stringNames [] root).countP fun name => !stack.contains name

theorem countP_lt_of_mem {names stack : List String} {path : String} (hmem : path ∈ names)
    (hfresh : stack.contains path = false) :
    names.countP (fun name => !(path :: stack).contains name) <
      names.countP (fun name => !stack.contains name) := by
  induction names with
  | nil => simp at hmem
  | cons n rest ih =>
    simp only [List.countP_cons]
    have hle : rest.countP (fun name => !(path :: stack).contains name) ≤
        rest.countP (fun name => !stack.contains name) := by
      refine List.countP_mono_left fun x _ hx => ?_
      simp only [List.contains_cons, Bool.not_or, Bool.and_eq_true] at hx
      exact hx.2
    by_cases hn : n = path
    · subst hn
      have h1 : (n :: stack).contains n = true := by simp
      rw [h1, hfresh]
      simp only [Bool.not_true, Bool.not_false, if_true]
      simp only [Bool.false_eq_true, if_false]
      omega
    · have hrest : path ∈ rest := by
        rcases List.mem_cons.mp hmem with h | h
        · exact absurd h.symm hn
        · exact h
      have := ih hrest
      have h2 : (path :: stack).contains n = stack.contains n := by
        simp [hn]
      rw [h2]
      omega

theorem freshNames_lt {root : Table} {stack : List String} {path s : String}
    (h : lookup root path = some (.string s)) (hfresh : stack.contains path = false) :
    freshNames root (path :: stack) < freshNames root stack :=
  countP_lt_of_mem (lookup_mem_stringNames h) hfresh

/-- The path of a placeholder and its fallback. -/
structure Reference where
  path : List Char
  fallback : Option (List Char)
deriving DecidableEq, Repr

/-- Reads what stands between the braces. -/
def Reference.ofBody (body : List Char) : Reference :=
  match cutFirst ':' body with
  | some (path, fallback) => ⟨path, some fallback⟩
  | none => ⟨body, none⟩

theorem Reference.length_fallback {body fallback : List Char}
    (h : (Reference.ofBody body).fallback = some fallback) : fallback.length < body.length := by
  unfold Reference.ofBody at h
  split at h
  · rename_i path fb hcut
    simp only [Option.some.injEq] at h
    subst h
    have := length_of_cutFirst hcut
    omega
  · simp at h

def Reference.name (r : Reference) : String :=
  String.ofList r.path

/-- A path must not have an empty step. -/
def Reference.isValid (r : Reference) : Bool :=
  (splitAt '.' r.path).all fun step => !step.isEmpty

/-- Expands a text; `stack` remembers the paths being expanded, innermost first. -/
def expand (root : Table) (stack : List String) (s : List Char) :
    Except ConfigError (List Char) :=
  match s with
  | [] => .ok []
  | '$' :: '$' :: rest => (expand root stack rest).map ('$' :: ·)
  | '$' :: '\x7b' :: rest =>
    match _cut : cutFirst '\x7d' rest with
    | none => .error .unclosedReference
    | some (body, after) =>
      let r := Reference.ofBody body
      if !r.isValid then .error (.invalidReferencePath r.name)
      else
        let replaced : Except ConfigError (List Char) :=
          match _target : lookup root r.name with
          | none =>
            match _fallback : r.fallback with
            | some fallback => expand root stack fallback
            | none => .error (.referenceNotFound r.name)
          | some (.string t) =>
            if _circle : stack.contains r.name then .error .circularReference
            else expand root (r.name :: stack) t.toList
          | some v =>
            match v.scalarText? with
            | some text => .ok text
            | none => .error (.nonScalarReference r.name)
        match replaced with
        | .ok front => (expand root stack after).map (front ++ ·)
        | .error e => .error e
  | c :: rest => (expand root stack rest).map (c :: ·)
termination_by (freshNames root stack, s.length)
decreasing_by
  · apply Prod.Lex.right
    simp only [List.length_cons]
    omega
  · apply Prod.Lex.right
    have h1 := length_of_cutFirst _cut
    have h2 := Reference.length_fallback _fallback
    simp only [List.length_cons]
    omega
  · apply Prod.Lex.left
    exact freshNames_lt _target (by simpa using _circle)
  · apply Prod.Lex.right
    have h1 := length_of_cutFirst _cut
    simp only [List.length_cons]
    omega
  · apply Prod.Lex.right
    simp

mutual

/-- Expands every string of a value, in order, against the root as it was. -/
def resolveValue (root : Table) : Value → Except ConfigError Value
  | .string s => (expand root [] s.toList).map fun t => .string (String.ofList t)
  | .array items => (resolveItems root items).map .array
  | .table entries => (resolveEntries root entries).map .table
  | v => .ok v

def resolveItems (root : Table) : List Value → Except ConfigError (List Value)
  | [] => .ok []
  | v :: rest =>
    match resolveValue root v with
    | .ok v => (resolveItems root rest).map (v :: ·)
    | .error e => .error e

def resolveEntries (root : Table) : List (String × Value) → Except ConfigError Table
  | [] => .ok []
  | (key, v) :: rest =>
    match resolveValue root v with
    | .ok v => (resolveEntries root rest).map ((key, v) :: ·)
    | .error e => .error e

end

/-- Expands every placeholder of a table. -/
def resolve (t : Table) : Except ConfigError Table :=
  resolveEntries t t

end Wiring.Config
