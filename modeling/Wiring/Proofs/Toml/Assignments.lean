import Wiring.Toml.Reader

/-!
# Assignments

An assignment is a line with a value under a dotted path of bare keys. As a document it denotes
the table that has nothing but the value under the path: the keys in front of the last one make
tables where there are none, and no bare key is the one that would make a stamp of a table.
-/

namespace Wiring.Toml

open Wiring.Text

/-- The table whose only content is a value under a path of keys. Under no key at all a table
stands for itself, and there is no place for any other value. -/
def branch (v : Value) : List String → Table
  | [] => v.table?.getD []
  | [key] => [(key, v)]
  | key :: next :: rest => [(key, .table (branch v (next :: rest)))]

theorem branch_cons (v : Value) (key : String) {path : List String} (h : path ≠ []) :
    branch v (key :: path) = [(key, .table (branch v path))] := by
  cases path with
  | nil => exact absurd rfl h
  | cons next rest => rfl

/-- A key that is written without quotes. -/
def IsBare (key : String) : Prop :=
  key.toList ≠ [] ∧ ∀ c ∈ key.toList, isBareKeyChar c = true

instance (key : String) : Decidable (IsBare key) :=
  decidable_of_iff (key.toList ≠ [] ∧ key.toList.all isBareKeyChar = true)
    (and_congr_right' List.all_eq_true)

/-- The line that puts a value, given by its text, under a path of bare keys. -/
def assignment (path : List String) (text : List Char) : List Char :=
  join ['.'] (path.map String.toList) ++ ' ' :: '=' :: ' ' :: text

/-- The text denotes the value, behind the equals sign of a line. -/
def Denotes (text : List Char) (v : Value) : Prop :=
  ∃ n, readValue (2 * (skipSpaces text).length + 2) (nestingLimit - 1) (skipSpaces text) =
    some (n, []) ∧ n.toValue? = some v

variable {c d : Char} {s text : List Char} {key : String} {front path : List String}

/-! ## Bare keys -/

theorem ne_of_isBareKeyChar (hc : isBareKeyChar c = true) (hd : isBareKeyChar d = false) :
    c ≠ d := by
  rintro rfl
  rw [hc] at hd
  cases hd

theorem IsBare.ne_stampKey (h : IsBare key) : key ≠ stampKey := by
  rintro rfl
  exact absurd (h.2 '$' (by decide)) (by decide)

theorem skipSpaces_cons (h : c ≠ ' ') (h' : c ≠ '\t') : skipSpaces (c :: s) = c :: s := by
  simp [skipSpaces, h, h']

theorem skipSpaces_cons_bare (h : isBareKeyChar c = true) : skipSpaces (c :: s) = c :: s :=
  skipSpaces_cons (ne_of_isBareKeyChar h (by decide)) (ne_of_isBareKeyChar h (by decide))

theorem IsBare.exists_head (h : IsBare key) :
    ∃ c tail, key.toList = c :: tail ∧ isBareKeyChar c = true := by
  obtain ⟨c, tail, htail⟩ := List.exists_cons_of_ne_nil h.1
  exact ⟨c, tail, htail, h.2 c (by rw [htail]; exact List.mem_cons_self)⟩

/-- A bare key is read up to a character that cannot be in one. -/
theorem readSimpleKey_append (h : IsBare key) (hd : isBareKeyChar d = false) (rest : List Char) :
    readSimpleKey (key.toList ++ d :: rest) = some (key, d :: rest) := by
  have htake : (key.toList ++ d :: rest).takeWhile isBareKeyChar = key.toList := by
    rw [List.takeWhile_append_of_pos h.2, List.takeWhile_cons_of_neg (by simp [hd]),
      List.append_nil]
  have hdrop : (key.toList ++ d :: rest).dropWhile isBareKeyChar = d :: rest := by
    rw [List.dropWhile_append_of_pos h.2, List.dropWhile_cons_of_neg (by simp [hd])]
  have hhead : ∀ {q tail}, key.toList ++ d :: rest = q :: tail → isBareKeyChar q = true := by
    intro q tail heq
    obtain ⟨c, cs, hcs, hc⟩ := h.exists_head
    rw [hcs, List.cons_append, List.cons.injEq] at heq
    exact heq.1 ▸ hc
  unfold readSimpleKey
  dsimp only
  split
  · exact absurd (hhead ‹_›) (by decide)
  · exact absurd (hhead ‹_›) (by decide)
  · simp [htake, hdrop, h.1]

/-- The keys of a line are read up to its equals sign. -/
theorem readKeySteps_join (hbare : ∀ k ∈ path, IsBare k) (hne : path ≠ []) {fuel : Nat}
    (hfuel : path.length ≤ fuel) (rest : List Char) :
    readKeySteps fuel (join ['.'] (path.map String.toList) ++ ' ' :: '=' :: rest) =
      some (path, '=' :: rest) := by
  induction path generalizing fuel with
  | nil => exact absurd rfl hne
  | cons key path ih =>
    obtain ⟨hkey, hpath⟩ := List.forall_mem_cons.mp hbare
    have hskip : ∀ s, skipSpaces (key.toList ++ s) = key.toList ++ s := by
      intro s
      obtain ⟨c, tail, htail, hc⟩ := hkey.exists_head
      rw [htail, List.cons_append, skipSpaces_cons_bare hc]
    cases fuel with
    | zero => cases hfuel
    | succ fuel =>
      cases path with
      | nil =>
        have hspace : isBareKeyChar ' ' = false := by decide
        rw [List.map_singleton, join, readKeySteps, hskip, readSimpleKey_append hkey hspace]
        rfl
      | cons next more =>
        have hdot : isBareKeyChar '.' = false := by decide
        have hmore := ih hpath (List.cons_ne_nil next more) (Nat.le_of_succ_le_succ hfuel)
        rw [List.map_cons, List.map_cons, join_cons_cons, ← List.map_cons, List.append_assoc,
          List.append_assoc, List.singleton_append, readKeySteps, hskip,
          readSimpleKey_append hkey hdot]
        dsimp only
        rw [skipSpaces_cons (by decide) (by decide)]
        simp only [hmore, Option.map_some]

theorem readKey_assignment (hbare : ∀ k ∈ front ++ [key], IsBare k)
    (hlength : (front ++ [key]).length < nestingLimit) (text : List Char) :
    readKey (assignment (front ++ [key]) text) = some (front, key, '=' :: ' ' :: text) := by
  have hsteps := readKeySteps_join hbare (by simp) (Nat.le_sub_one_of_lt hlength) (' ' :: text)
  rw [readKey, assignment, hsteps]
  simp

/-! ## The entries of one line -/

/-- The entries that a value under a dotted key makes where there is nothing. -/
def dottedEntries (n : Node) (key : String) : List String → Entries
  | [] => [(key, n)]
  | k :: front => [(k, .table .dotted (dottedEntries n key front))]

theorem change_nil {made here : Origin} {f : Origin → Entries → Option Entries} :
    Entries.change made f here (key :: front) [] =
      (Entries.change made f made front []).map fun inner => [(key, .table made inner)] := rfl

theorem addValue_nil (n : Node) (key : String) (front : List String) :
    Entries.addValue front key n [] = some (dottedEntries n key front) := by
  -- Below the first key every table is made by the dotted key.
  have hbelow : ∀ front, Entries.change .dotted (Entries.addNew true key n) .dotted front [] =
      some (dottedEntries n key front) := by
    intro front
    induction front with
    | nil => rfl
    | cons k front ih =>
      rw [change_nil, ih]
      rfl
  cases front with
  | nil => rfl
  | cons k front =>
    rw [Entries.addValue, List.isEmpty_cons, Bool.not_false, change_nil, hbelow]
    rfl

theorem toTable?_dottedEntries {n : Node} {v : Value} (hv : n.toValue? = some v)
    (hfront : ∀ k ∈ front, k ≠ stampKey) (hkey : key ≠ stampKey) :
    Node.toTable? (dottedEntries n key front) = some (branch v (front ++ [key])) := by
  induction front with
  | nil =>
    rw [dottedEntries, Node.toTable?, hv]
    rfl
  | cons k front ih =>
    obtain ⟨-, hfront⟩ := List.forall_mem_cons.mp hfront
    have hinner : Entries.valueOr (Node.toTable? (dottedEntries n key front))
        (dottedEntries n key front) = some (.table (branch v (front ++ [key]))) := by
      rw [ih hfront]
      cases front with
      | nil =>
        rw [dottedEntries, Entries.valueOr, if_neg hkey]
        rfl
      | cons next front =>
        rw [dottedEntries, Entries.valueOr, if_neg (List.forall_mem_cons.mp hfront).1]
        rfl
    rw [dottedEntries, Node.toTable?, Node.toValue?, hinner, List.cons_append,
      branch_cons v k (by simp)]
    rfl

/-! ## Reading the line -/

theorem exists_head_assignment (hbare : ∀ k ∈ path, IsBare k) (hne : path ≠ [])
    (text : List Char) : ∃ c tail, assignment path text = c :: tail ∧ isBareKeyChar c = true := by
  obtain ⟨key, more, rfl⟩ := List.exists_cons_of_ne_nil hne
  obtain ⟨c, tail, htail, hc⟩ := (List.forall_mem_cons.mp hbare).1.exists_head
  rw [assignment, List.map_cons, htail, join_cons_char]
  exact ⟨c, _, rfl, hc⟩

/-- A line that starts with a bare key is read as a key and its value. -/
theorem readLine_of_readKey {document changed : Document} {n : Node} (hc : isBareKeyChar c = true)
    (hkey : readKey (c :: s) = some (front, key, '=' :: text))
    (hvalue : readValue (2 * (skipSpaces text).length + 2) (nestingLimit - 1) (skipSpaces text) =
      some (n, []))
    (hadd : document.add front key n = some changed) :
    readLine document (c :: s) = some (changed, []) := by
  have hhead : ∀ {d tail}, c :: s = d :: tail → isBareKeyChar d = true := by
    rintro d tail ⟨⟩
    exact hc
  unfold readLine
  split
  · exact absurd (hhead ‹_›) (by decide)
  · exact absurd (hhead ‹_›) (by decide)
  · exact absurd (hhead ‹_›) (by decide)
  · exact absurd (hhead ‹_›) (by decide)
  · exact absurd (hhead ‹_›) (by decide)
  · simp only [hkey, hvalue, hadd, Option.bind_eq_bind, Option.bind_some]
    rfl

theorem dropMark_cons (hc : isBareKeyChar c = true) : dropMark (c :: s) = c :: s := by
  unfold dropMark
  split
  · rename_i heq
    rw [(List.cons.inj heq).1] at hc
    exact absurd hc (by decide)
  · rfl

/-- **Assignments.** A value under a path of bare keys, alone on a line, denotes the table whose
only content it is. -/
theorem parse_assignment {v : Value} (hbare : ∀ k ∈ path, IsBare k) (hne : path ≠ [])
    (hlength : path.length < nestingLimit) (htext : Denotes text v) :
    parse (String.ofList (assignment path text)) = some (branch v path) := by
  obtain ⟨n, hread, hv⟩ := htext
  obtain ⟨front, key, rfl⟩ : ∃ front key, path = front ++ [key] :=
    ⟨_, _, (List.dropLast_concat_getLast hne).symm⟩
  obtain ⟨c, tail, hline, hc⟩ := exists_head_assignment hbare hne text
  have hkey := readKey_assignment hbare hlength text
  rw [hline] at hkey
  have hadd : Document.empty.add front key n = some ⟨dottedEntries n key front, []⟩ := by
    rw [Document.add, Document.empty, Entries.change, addValue_nil]
    rfl
  have hreadLine := readLine_of_readKey hc hkey hread hadd
  have hstamp : ∀ k ∈ front ++ [key], k ≠ stampKey := fun k hk => (hbare k hk).ne_stampKey
  obtain ⟨hfront, hlast⟩ := List.forall_mem_append.mp hstamp
  have htable := toTable?_dottedEntries hv hfront (hlast key (List.mem_singleton_self key))
  rw [parse, String.toList_ofList, hline, dropMark_cons hc, readLines, skipSpaces_cons_bare hc]
  simp only [hreadLine, List.length_cons]
  exact htable

end Wiring.Toml
