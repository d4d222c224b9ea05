import Wiring.Proofs.Calendar.Written

/-!
# Marks

The marks of a text are its colons and the letters T and Z in it, in either case. Numbers,
signs, blanks and fractions have none, so the marks of a text that fits a pattern are those
that the pattern spells out. The six ways to write a date-time differ in their marks: a date
has none, minutes have one colon and seconds two, the letter T stands for itself, and an
offset adds a letter Z or one more colon. So a text fits one of them at most.
-/

namespace Wiring.Calendar

open Wiring.Number Wiring.Text

def isMark (c : Char) : Bool :=
  c ∈ [':', 'T', 't', 'Z', 'z']

def marks (s : List Char) : List Char :=
  s.filter isMark

section

variable {s t rest : List Char} {c : Char} {n low high width : Nat}

@[simp]
theorem marks_append : marks (s ++ t) = marks s ++ marks t :=
  List.filter_append ..

theorem marks_cons (c : Char) (s : List Char) : marks (c :: s) = marks [c] ++ marks s :=
  marks_append (s := [c])

/-- Where no mark passes a test, a text that passes it has no marks. -/
theorem marks_of_all {p : Char → Bool} (hp : [':', 'T', 't', 'Z', 'z'].any p = false)
    (h : ∀ c ∈ s, p c = true) : marks s = [] := by
  rw [marks, List.filter_eq_nil_iff]
  intro c hc hmark
  exact List.any_eq_false.mp hp c (of_decide_eq_true hmark) (h c hc)

theorem marks_dropWhile {p : Char → Bool} (hp : [':', 'T', 't', 'Z', 'z'].any p = false)
    (s : List Char) : marks (s.dropWhile p) = marks s := by
  have htaken : marks (s.takeWhile p) = [] := marks_of_all hp fun _ => List.mem_takeWhile_imp
  conv => rhs; rw [← List.takeWhile_append_dropWhile (p := p) (l := s)]
  rw [marks_append, htaken, List.nil_append]

/-! ## What the readers of numbers leave over -/

theorem marks_trimStart (s : List Char) : marks (trimStart s) = marks s :=
  marks_dropWhile rfl s

theorem marks_spanDigits (width : Nat) (s : List Char) :
    marks (spanDigits width s).2 = marks s := by
  induction width generalizing s with
  | zero => rw [spanDigits]
  | succ width ih =>
    cases s with
    | nil => rfl
    | cons c s =>
      rw [spanDigits]
      split
      · rename_i hc
        have hdigit : marks [c] = [] := marks_of_all rfl (List.forall_mem_singleton.mpr hc)
        rw [marks_cons c s, hdigit, List.nil_append]
        exact ih s
      · rfl

theorem marks_readNumber (h : readNumber width s = .ok (n, rest)) : marks s = marks rest := by
  unfold readNumber at h
  split at h
  · cases h
  · split at h
    · cases h
      exact (marks_spanDigits width _).symm
    · cases h

theorem marks_readFraction (h : readFraction s = .ok (n, rest)) : marks s = marks rest := by
  unfold readFraction at h
  split at h
  · cases h
  · split at h
    · cases h
      exact (marks_dropWhile rfl _).symm
    · cases h

/-! What is left over stays as it is, whatever is made of the part that was read. -/

theorem exists_of_map {α β : Type} {x : Except ReadFault (α × List Char)}
    {f : α × List Char → β × List Char} {b : β} (h : x.map f = .ok (b, rest))
    (hf : ∀ a, (f a).2 = a.2) : ∃ a, x = .ok (a, rest) := by
  cases x with
  | error fault => cases h
  | ok read =>
    obtain ⟨a, rest'⟩ := read
    have hrest : (f (a, rest')).2 = rest := congrArg Prod.snd (Except.ok.inj h)
    exact ⟨a, by rw [← hrest, hf]⟩

theorem exists_of_bind {α β : Type} {x : Except ReadFault (α × List Char)}
    {f : α × List Char → Except ReadFault (β × List Char)} {b : β} (h : x >>= f = .ok (b, rest))
    (hf : ∀ a rest' b, f (a, rest') = .ok (b, rest) → rest' = rest) : ∃ a, x = .ok (a, rest) := by
  cases x with
  | error fault => cases h
  | ok read =>
    obtain ⟨a, rest'⟩ := read
    exact ⟨a, by rw [← hf a rest' b h]⟩

theorem eq_of_bounded {α : Type} {a b : α} {inside : Bool} {rest' : List Char}
    (h : (if inside then .ok (a, rest') else .error .outOfRange : Except ReadFault _) =
      .ok (b, rest)) : rest' = rest := by
  split at h
  · cases h
    rfl
  · cases h

theorem marks_readBetween (h : readBetween low high s = .ok (n, rest)) : marks s = marks rest := by
  obtain ⟨m, hread⟩ := exists_of_bind h fun _ _ _ => eq_of_bounded
  rw [← marks_trimStart, marks_readNumber hread]

theorem marks_readYear {year : Int} (h : readYear s = .ok (year, rest)) : marks s = marks rest := by
  unfold readYear at h
  split at h
  all_goals
    obtain ⟨y, hyear⟩ := exists_of_bind h fun _ _ _ => eq_of_bounded
    obtain ⟨n, hread⟩ := exists_of_map hyear fun _ => rfl
  · exact (marks_cons '-' _).trans (marks_readNumber hread)
  · exact (marks_cons '+' _).trans (marks_readNumber hread)
  · exact marks_readNumber hread

end

/-! ## Patterns -/

section

variable {fields fields' : Fields} {s rest : List Char}

/-- The marks that an item of a pattern stands for. -/
def Item.marks : Item → List Char
  | .literal c => Calendar.marks [c]
  | _ => []

theorem marks_readItem {item : Item} (h : readItem fields s item = .ok (fields', rest)) :
    marks s = item.marks ++ marks rest := by
  cases item with
  | year =>
    rw [readItem] at h
    obtain ⟨n, hread⟩ := exists_of_map h fun _ => rfl
    exact (marks_trimStart s).symm.trans (marks_readYear hread)
  | month | day | hour | minute | second =>
    rw [readItem] at h
    obtain ⟨n, hread⟩ := exists_of_map h fun _ => rfl
    exact marks_readBetween hread
  | fraction =>
    unfold readItem at h
    dsimp only at h
    split at h
    · obtain ⟨n, hread⟩ := exists_of_map h fun _ => rfl
      exact (marks_cons '.' _).trans (marks_readFraction hread)
    · cases h
      rfl
  | literal c =>
    unfold readItem at h
    dsimp only at h
    split at h
    · cases h
    · split at h
      · rename_i hc
        cases h
        rw [hc]
        exact marks_cons c _
      · cases h
  | gap =>
    cases h
    exact (marks_trimStart s).symm

/-- **Reading by a pattern** takes the marks away that the pattern spells out. -/
theorem marks_readItems {items : List Item} (h : readItems fields s items = .ok (fields', rest)) :
    marks s = items.flatMap Item.marks ++ marks rest := by
  induction items generalizing fields s with
  | nil =>
    cases h
    rfl
  | cons item items ih =>
    cases hitem : readItem fields s item with
    | error fault =>
      rw [readItems, hitem] at h
      cases h
    | ok read =>
      obtain ⟨fields'', rest'⟩ := read
      rw [readItems_cons hitem] at h
      rw [marks_readItem hitem, ih h, List.flatMap_cons, List.append_assoc]

theorem marks_readPattern {pattern : List Item} {f : Fields}
    (h : readPattern pattern s = .ok f) : marks s = pattern.flatMap Item.marks := by
  rw [readPattern] at h
  cases hread : readItems Fields.start s pattern with
  | error fault =>
    rw [hread] at h
    cases h
  | ok read =>
    obtain ⟨fields, rest⟩ := read
    rw [hread] at h
    replace h : (if rest.isEmpty then _ else _) = _ := h
    split at h
    · rename_i hempty
      rw [marks_readItems hread, List.isEmpty_iff.mp hempty]
      exact List.append_nil _
    · cases h

theorem eq_ok_of_toOption {α : Type} {x : Except ReadFault α} {a : α} (h : x.toOption = some a) :
    x = .ok a := by
  cases x with
  | error fault => cases h
  | ok b =>
    cases h
    rfl

theorem marks_readDateTimeBy {pattern : List Item} {t : DateTime}
    (h : readDateTimeBy pattern s = some t) : marks s = pattern.flatMap Item.marks := by
  obtain ⟨f, hread, -⟩ := Option.bind_eq_some_iff.mp h
  exact marks_readPattern (eq_ok_of_toOption hread)

theorem marks_readMidnight {t : DateTime} (h : readMidnight s = some t) : marks s = [] := by
  obtain ⟨d, hread, -⟩ := Option.bind_eq_some_iff.mp h
  have hdate := eq_ok_of_toOption hread
  rw [readDate] at hdate
  cases hpattern : readPattern datePattern s with
  | error fault =>
    rw [hpattern] at hdate
    cases hdate
  | ok f => exact marks_readPattern hpattern

end

/-! ## Offsets -/

section

variable {s rest : List Char} {n low high width : Nat}

theorem marks_readExactly (h : readExactly width s = some (n, rest)) : marks s = marks rest := by
  rw [readExactly] at h
  replace h : (if _ then _ else _) = _ := h
  split at h
  · cases h
    exact (marks_spanDigits width s).symm
  · cases h

theorem marks_readTwo (h : readTwo low high s = some (n, rest)) : marks s = marks rest := by
  obtain ⟨⟨m, rest'⟩, hread, h⟩ := Option.bind_eq_some_iff.mp h
  replace h : (if _ then _ else _) = _ := h
  split at h
  · cases h
    exact marks_readExactly hread
  · cases h

theorem marks_readChar {c : Char} (h : readChar c s = some rest) :
    marks s = marks [c] ++ marks rest := by
  unfold readChar at h
  split at h
  · cases h
  · split at h
    · rename_i hc
      cases h
      rw [hc, marks_cons]
    · cases h

/-- An offset is a letter Z, or hours and minutes with a colon between them. -/
theorem marks_readOffset {minutes : Int} (h : readOffset s = some (minutes, rest)) :
    ∃ c ∈ [':', 'Z', 'z'], marks s = c :: marks rest := by
  unfold readOffset at h
  split at h
  · cases h
  rename_i c more
  split at h
  · rename_i hc
    cases h
    simp only [Bool.or_eq_true, decide_eq_true_eq] at hc
    rcases hc with rfl | rfl
    · exact ⟨'Z', by decide, rfl⟩
    · exact ⟨'z', by decide, rfl⟩
  split at h
  · rename_i hc
    obtain ⟨⟨hours, s₁⟩, hhours, h⟩ := Option.bind_eq_some_iff.mp h
    obtain ⟨s₂, hcolon, h⟩ := Option.bind_eq_some_iff.mp h
    obtain ⟨⟨mins, s₃⟩, hmins, h⟩ := Option.bind_eq_some_iff.mp h
    replace h : (if _ then _ else _) = _ := h
    split at h
    · cases h
      refine ⟨':', by decide, ?_⟩
      have hsign : marks [c] = [] := by
        simp only [Bool.or_eq_true, decide_eq_true_eq, or_assoc] at hc
        rcases hc with rfl | rfl | rfl <;> rfl
      rw [marks_cons, hsign, List.nil_append, marks_readExactly hhours, marks_readChar hcolon,
        marks_readExactly hmins]
      rfl
    · cases h
  · cases h

theorem marks_of_readOffset_end {α : Type} {minutes : Int} {x : Option α} {a : α}
    (h : readOffset s = some (minutes, rest)) (hend : (if rest.isEmpty then x else none) = some a) :
    ∃ c ∈ [':', 'Z', 'z'], marks s = [c] := by
  obtain ⟨c, hc, hmarks⟩ := marks_readOffset h
  split at hend
  · rename_i hempty
    refine ⟨c, hc, ?_⟩
    rw [hmarks, List.isEmpty_iff.mp hempty]
    rfl
  · cases hend

/-- The marks of a date-time with an offset. -/
def zonedMarks : List (List Char) :=
  [[], ['T'], ['t']].flatMap fun separator =>
    [':', 'Z', 'z'].map fun c => separator ++ [':', ':', c]

theorem marks_readZoned {t : DateTime} (h : readZoned s = some t) : marks s ∈ zonedMarks := by
  obtain ⟨⟨year, s₁⟩, hyear, h⟩ := Option.bind_eq_some_iff.mp h
  obtain ⟨s₂, hhyphen, h⟩ := Option.bind_eq_some_iff.mp h
  obtain ⟨⟨month, s₃⟩, hmonth, h⟩ := Option.bind_eq_some_iff.mp h
  obtain ⟨s₄, hhyphen', h⟩ := Option.bind_eq_some_iff.mp h
  obtain ⟨⟨day, s₅⟩, hday, h⟩ := Option.bind_eq_some_iff.mp h
  have hdate : marks s = marks s₅ := by
    rw [marks_readExactly hyear, marks_readChar hhyphen, marks_readTwo hmonth,
      marks_readChar hhyphen', marks_readTwo hday]
    rfl
  cases s₅ with
  | nil => cases h
  | cons separator s₆ =>
    by_cases hseparator : (separator = 'T' || separator = 't' || separator = ' ') = true
    · replace h := eq_of_bind ((if_pos hseparator).symm.trans h) rfl
      obtain ⟨⟨hour, s₇⟩, hhour, h⟩ := Option.bind_eq_some_iff.mp h
      obtain ⟨s₈, hcolon, h⟩ := Option.bind_eq_some_iff.mp h
      obtain ⟨⟨minute, s₉⟩, hminute, h⟩ := Option.bind_eq_some_iff.mp h
      obtain ⟨s₁₀, hcolon', h⟩ := Option.bind_eq_some_iff.mp h
      obtain ⟨⟨second, s₁₁⟩, hsecond, h⟩ := Option.bind_eq_some_iff.mp h
      have htime : marks s₆ = [':', ':'] ++ marks s₁₁ := by
        rw [marks_readTwo hhour, marks_readChar hcolon, marks_readTwo hminute,
          marks_readChar hcolon', marks_readTwo hsecond]
        rfl
      have hoffset : ∃ c ∈ [':', 'Z', 'z'], marks s₁₁ = [c] := by
        dsimp only at h
        split at h
        · obtain ⟨⟨nano, s₁₂⟩, hnano, h⟩ := Option.bind_eq_some_iff.mp h
          obtain ⟨⟨offset, s₁₃⟩, hoffset, h⟩ := Option.bind_eq_some_iff.mp h
          rw [marks_cons, marks_readFraction (eq_ok_of_toOption hnano)]
          exact marks_of_readOffset_end hoffset h
        · replace h := eq_of_bind h rfl
          obtain ⟨⟨offset, s₁₃⟩, hoffset, h⟩ := Option.bind_eq_some_iff.mp h
          exact marks_of_readOffset_end hoffset h
      have hmark : marks [separator] ∈ [[], ['T'], ['t']] := by
        simp only [Bool.or_eq_true, decide_eq_true_eq, or_assoc] at hseparator
        rcases hseparator with rfl | rfl | rfl <;> decide
      obtain ⟨c, hc, hlast⟩ := hoffset
      rw [hdate, marks_cons, htime, hlast]
      exact List.mem_flatMap.mpr ⟨_, hmark, List.mem_map.mpr ⟨c, hc, rfl⟩⟩
    · replace h := (if_neg hseparator).symm.trans h
      cases h

end

/-! ## The readings of a date-time -/

/-- The readings of a date-time, and the marks that a text may have that one of them accepts. -/
def markedReadings : List ((List Char → Option DateTime) × List (List Char)) :=
  (readZoned, zonedMarks) ::
    dateTimePatterns.map (fun pattern => (readDateTimeBy pattern, [pattern.flatMap Item.marks])) ++
    [(readMidnight, [[]])]

theorem map_fst_markedReadings : markedReadings.map Prod.fst = dateTimeReadings := rfl

theorem marks_mem_of_mem_markedReadings {p : (List Char → Option DateTime) × List (List Char)}
    (hp : p ∈ markedReadings) {s : List Char} {t : DateTime} (h : p.1 s = some t) :
    marks s ∈ p.2 := by
  simp only [markedReadings, List.cons_append, List.mem_cons, List.mem_append, List.mem_map,
    List.not_mem_nil, or_false] at hp
  rcases hp with rfl | ⟨pattern, -, rfl⟩ | rfl
  · exact marks_readZoned h
  · exact List.mem_singleton.mpr (marks_readDateTimeBy h)
  · exact List.mem_singleton.mpr (marks_readMidnight h)

/-- **No two readings accept one text.** Its marks tell which of them may. -/
theorem dateTimeReadings_exclusive :
    dateTimeReadings.Pairwise fun read read' => ∀ s t t', read s = some t → read' s ≠ some t' := by
  have hmarks : (markedReadings.map Prod.snd).Pairwise fun l l' => ∀ m ∈ l, m ∉ l' := by decide
  rw [← map_fst_markedReadings, List.pairwise_map]
  refine (List.pairwise_map.mp hmarks).imp_of_mem ?_
  intro p q hp hq hdisjoint s t t' ht ht'
  exact hdisjoint _ (marks_mem_of_mem_markedReadings hp ht) (marks_mem_of_mem_markedReadings hq ht')

/-- At most one reading finds anything in a text. -/
theorem length_filterMap_dateTimeReadings (s : List Char) :
    (dateTimeReadings.filterMap fun read => read s).length ≤ 1 := by
  have hnone : (dateTimeReadings.filterMap fun read => read s).Pairwise fun _ _ => False :=
    dateTimeReadings_exclusive.filterMap _ fun read read' h t ht t' ht' => h s t t' ht ht'
  rw [← Nat.not_lt]
  intro hlong
  exact List.pairwise_iff_getElem.mp hnone 0 1 (Nat.lt_of_succ_lt hlong) hlong Nat.zero_lt_one

/-- **The order of the readings is immaterial.** -/
theorem findSome?_eq_readDateTime {readings : List (List Char → Option DateTime)}
    (h : readings.Perm dateTimeReadings) (s : List Char) :
    (readings.findSome? fun read => read s) = readDateTime s := by
  have hperm := h.filterMap fun read => read s
  rw [readDateTime, ← List.head?_filterMap, ← List.head?_filterMap]
  rcases Nat.le_one_iff_eq_zero_or_eq_one.mp (length_filterMap_dateTimeReadings s) with hnone | hone
  · rw [List.length_eq_zero_iff] at hnone
    rw [hnone] at hperm ⊢
    rw [hperm.eq_nil]
  · obtain ⟨t, ht⟩ := List.length_eq_one_iff.mp hone
    rw [ht] at hperm ⊢
    rw [hperm.eq_singleton]

end Wiring.Calendar
