/-!
# Segments of text

Splitting at a separator keeps every segment, empty ones included, so a text
without a separator is one segment and joining the segments gives the text
back. Code points order text.
-/

namespace Wiring.Text

/-- The segments between the occurrences of one character. -/
def splitAt (sep : Char) : List Char → List (List Char)
  | [] => [[]]
  | c :: rest =>
    if c = sep then [] :: splitAt sep rest
    else match splitAt sep rest with
      | [] => [[c]]
      | s :: more => (c :: s) :: more

/-- Segments joined by a separator. -/
def join (sep : List Char) : List (List Char) → List Char
  | [] => []
  | [s] => s
  | s :: more => s ++ sep ++ join sep more

theorem splitAt_ne_nil (sep : Char) (s : List Char) : splitAt sep s ≠ [] := by
  cases s with
  | nil => simp [splitAt]
  | cons c rest =>
    simp only [splitAt]
    split
    · simp
    · split <;> simp

theorem join_cons_cons (sep s t : List Char) (more : List (List Char)) :
    join sep (s :: t :: more) = s ++ sep ++ join sep (t :: more) := rfl

theorem join_cons_char (sep : List Char) (c : Char) (s : List Char) (more : List (List Char)) :
    join sep ((c :: s) :: more) = c :: join sep (s :: more) := by
  cases more <;> simp [join]

theorem join_splitAt (sep : Char) (s : List Char) : join [sep] (splitAt sep s) = s := by
  induction s with
  | nil => rfl
  | cons c rest ih =>
    simp only [splitAt]
    cases hs : splitAt sep rest with
    | nil => exact absurd hs (splitAt_ne_nil sep rest)
    | cons seg more =>
      rw [hs] at ih
      split
      · rename_i hc
        rw [join_cons_cons, ih, hc]
        rfl
      · rw [join_cons_char, ih]

theorem splitAt_append_cons {sep : Char} {s : List Char} (h : sep ∉ s) (rest : List Char) :
    splitAt sep (s ++ sep :: rest) = s :: splitAt sep rest := by
  induction s with
  | nil => simp [splitAt]
  | cons c s ih =>
    simp only [List.mem_cons, not_or] at h
    simp only [List.cons_append, splitAt, if_neg (Ne.symm h.1), ih h.2]

theorem splitAt_eq_singleton {sep : Char} {s : List Char} (h : sep ∉ s) : splitAt sep s = [s] := by
  induction s with
  | nil => rfl
  | cons c s ih =>
    simp only [List.mem_cons, not_or] at h
    simp only [splitAt, if_neg (Ne.symm h.1), ih h.2]

theorem splitAt_join {sep : Char} {segments : List (List Char)} (h : ∀ s ∈ segments, sep ∉ s)
    (hne : segments ≠ []) : splitAt sep (join [sep] segments) = segments := by
  induction segments with
  | nil => exact absurd rfl hne
  | cons s more ih =>
    have hs := h s (List.mem_cons_self ..)
    cases more with
    | nil => exact splitAt_eq_singleton hs
    | cons t more =>
      have htail := ih (fun u hu => h u (List.mem_cons_of_mem _ hu)) (List.cons_ne_nil t more)
      rw [join_cons_cons, List.append_assoc, List.singleton_append, splitAt_append_cons hs, htail]

/-- What lies before and after the first occurrence of a character. -/
def cutFirst (sep : Char) : List Char → Option (List Char × List Char)
  | [] => none
  | c :: rest =>
    if c = sep then some ([], rest)
    else (cutFirst sep rest).map fun (front, back) => (c :: front, back)

theorem length_of_cutFirst {sep : Char} {s front back : List Char}
    (h : cutFirst sep s = some (front, back)) : front.length + back.length + 1 = s.length := by
  induction s generalizing front back with
  | nil => simp [cutFirst] at h
  | cons c rest ih =>
    simp only [cutFirst] at h
    split at h
    · simp only [Option.some.injEq, Prod.mk.injEq] at h
      obtain ⟨rfl, rfl⟩ := h
      simp
    · simp only [Option.map_eq_some_iff, Prod.mk.injEq, Prod.exists] at h
      obtain ⟨f, b, hfb, rfl, rfl⟩ := h
      have := ih hfb
      simp only [List.length_cons]
      omega

theorem cutFirst_eq_some_iff {sep : Char} {s front back : List Char} :
    cutFirst sep s = some (front, back) ↔ s = front ++ sep :: back ∧ sep ∉ front := by
  induction s generalizing front with
  | nil => simp [cutFirst]
  | cons c rest ih =>
    by_cases hc : c = sep
    · subst hc
      cases front with
      | nil => simp [cutFirst, eq_comm]
      | cons d front =>
        simp only [cutFirst, if_true, Option.some.injEq, Prod.mk.injEq, List.cons_append,
          List.cons.injEq, List.mem_cons, not_or]
        constructor
        · rintro ⟨h, -⟩
          simp at h
        · rintro ⟨⟨rfl, -⟩, h, -⟩
          exact absurd rfl h
    · cases front with
      | nil => simp [cutFirst, hc]
      | cons d front =>
        simp only [cutFirst, if_neg hc, Option.map_eq_some_iff, Prod.mk.injEq, Prod.exists,
          List.cons.injEq, List.cons_append, List.mem_cons, not_or]
        constructor
        · rintro ⟨f, b, hfb, ⟨rfl, rfl⟩, rfl⟩
          obtain ⟨rfl, hmem⟩ := ih.mp hfb
          exact ⟨⟨rfl, rfl⟩, fun h => hc h.symm, hmem⟩
        · rintro ⟨⟨rfl, rfl⟩, -, hmem⟩
          exact ⟨front, back, ih.mpr ⟨rfl, hmem⟩, ⟨rfl, rfl⟩, rfl⟩

theorem cutFirst_eq_none_iff {sep : Char} {s : List Char} :
    cutFirst sep s = none ↔ sep ∉ s := by
  induction s with
  | nil => simp [cutFirst]
  | cons c rest ih =>
    by_cases hc : c = sep
    · simp [cutFirst, hc]
    · simp [cutFirst, hc, ih, Ne.symm hc]

/-- The rest of a text after a leading part that it must start with. -/
def dropLeading : List Char → List Char → Option (List Char)
  | [], s => some s
  | _ :: _, [] => none
  | p :: ps, c :: cs => if p = c then dropLeading ps cs else none

theorem length_of_dropLeading {p s rest : List Char} (h : dropLeading p s = some rest) :
    p.length + rest.length = s.length := by
  induction p generalizing s with
  | nil => simp only [dropLeading, Option.some.injEq] at h; simp [h]
  | cons a p ih =>
    cases s with
    | nil => simp [dropLeading] at h
    | cons c cs =>
      simp only [dropLeading] at h
      split at h
      · have := ih h
        simp only [List.length_cons]
        omega
      · simp at h

theorem dropLeading_eq_some_iff {p s rest : List Char} :
    dropLeading p s = some rest ↔ s = p ++ rest := by
  induction p generalizing s with
  | nil => simp [dropLeading]
  | cons a p ih =>
    cases s with
    | nil => simp [dropLeading]
    | cons c cs =>
      by_cases hac : a = c
      · simp [dropLeading, hac, ih]
      · simp [dropLeading, hac, Ne.symm hac]

theorem dropLeading_eq_none_iff {p s : List Char} : dropLeading p s = none ↔ ¬ p <+: s := by
  rw [← Option.not_isSome_iff_eq_none, Option.isSome_iff_exists]
  simp only [dropLeading_eq_some_iff, @eq_comm _ s, List.IsPrefix]

/-- A separator of several characters; it is never empty. -/
structure Separator where
  first : Char
  others : List Char
deriving DecidableEq, Repr

def Separator.chars (sep : Separator) : List Char :=
  sep.first :: sep.others

def Separator.ofList? : List Char → Option Separator
  | [] => none
  | c :: cs => some ⟨c, cs⟩

/-- The segments between the occurrences of a separator, found from the left
and without overlap. -/
def splitOn (sep : Separator) (s : List Char) : List (List Char) :=
  match s with
  | [] => [[]]
  | c :: rest =>
    match _found : dropLeading sep.chars (c :: rest) with
    | some after => [] :: splitOn sep after
    | none =>
      match splitOn sep rest with
      | [] => [[c]]
      | seg :: more => (c :: seg) :: more
termination_by s.length
decreasing_by
  · have := length_of_dropLeading _found
    simp only [Separator.chars, List.length_cons] at this ⊢
    omega
  · simp

theorem splitOn_ne_nil (sep : Separator) (s : List Char) : splitOn sep s ≠ [] := by
  cases s with
  | nil => simp [splitOn]
  | cons c rest =>
    rw [splitOn]
    split
    · simp
    · split <;> simp

/-- What lies before and after the last occurrence of a separator. -/
def cutLast (sep : Separator) : List Char → Option (List Char × List Char)
  | [] => none
  | c :: rest =>
    match cutLast sep rest with
    | some (front, back) => some (c :: front, back)
    | none => (dropLeading sep.chars (c :: rest)).map fun back => ([], back)

/-- Whether a text comes strictly before another, code point by code point. -/
def precedes : List Char → List Char → Bool
  | _, [] => false
  | [], _ :: _ => true
  | a :: as, b :: bs => a.toNat < b.toNat || (a == b && precedes as bs)

end Wiring.Text
