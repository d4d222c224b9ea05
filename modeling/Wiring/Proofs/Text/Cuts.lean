import Wiring.Text.Segments

/-!
# Where texts are cut

The segments between the occurrences of a character, what stands before a character, and what
stands before the last occurrence of a separator and before its first one. Occurrences of a
separator of several characters may overlap, so the text behind the last occurrence does not
tell alone that it is the last one: the separator must not begin again inside the occurrence
that is cut out, and likewise for the first one.
-/

namespace Wiring.Text

variable {sep : Separator} {c : Char} {s front back : List Char}

/-! ## At a character -/

theorem splitAt_append (sep : Char) (s t : List Char) :
    splitAt sep (s ++ sep :: t) = splitAt sep s ++ splitAt sep t := by
  induction s with
  | nil => simp [splitAt]
  | cons c s ih =>
    obtain ⟨first, more, hs⟩ := List.exists_cons_of_ne_nil (splitAt_ne_nil sep s)
    simp only [List.cons_append, splitAt, ih, hs]
    split <;> rfl

theorem not_mem_of_mem_splitAt {sep : Char} {s segment : List Char}
    (h : segment ∈ splitAt sep s) : sep ∉ segment := by
  induction s generalizing segment with
  | nil =>
    obtain rfl : segment = [] := by simpa [splitAt] using h
    exact List.not_mem_nil
  | cons c rest ih =>
    cases hs : splitAt sep rest with
    | nil => exact absurd hs (splitAt_ne_nil sep rest)
    | cons first more =>
      rw [hs] at ih
      simp only [splitAt, hs] at h
      by_cases hc : c = sep
      · rw [if_pos hc] at h
        rcases List.mem_cons.mp h with rfl | h
        · exact List.not_mem_nil
        · exact ih h
      · rw [if_neg hc] at h
        rcases List.mem_cons.mp h with rfl | h
        · simpa [Ne.symm hc] using ih (List.mem_cons_self ..)
        · exact ih (List.mem_cons_of_mem _ h)

/-! ## Up to a character -/

theorem takeWhile_ne_of_not_mem (hc : c ∉ front)
    (hs : s = front ∨ ∃ back, s = front ++ c :: back) : s.takeWhile (· ≠ c) = front := by
  have hfront : ∀ d ∈ front, decide (d ≠ c) = true := fun d hd =>
    decide_eq_true fun heq => hc (heq ▸ hd)
  rcases hs with rfl | ⟨back, rfl⟩
  · rw [← List.append_nil s, List.takeWhile_append_of_pos (by simpa using hfront),
      List.takeWhile_nil]
  · rw [List.takeWhile_append_of_pos hfront, List.takeWhile_cons_of_neg (by simp),
      List.append_nil]

theorem takeWhile_ne_eq_iff : s.takeWhile (· ≠ c) = front ↔
    c ∉ front ∧ (s = front ∨ ∃ back, s = front ++ c :: back) := by
  refine ⟨?_, fun ⟨hc, hs⟩ => takeWhile_ne_of_not_mem hc hs⟩
  rintro rfl
  cases hcut : cutFirst c s with
  | none =>
    have hc := cutFirst_eq_none_iff.mp hcut
    rw [takeWhile_ne_of_not_mem hc (.inl rfl)]
    exact ⟨hc, .inl rfl⟩
  | some parts =>
    obtain ⟨hs, hc⟩ := cutFirst_eq_some_iff.mp hcut
    rw [takeWhile_ne_of_not_mem hc (.inr ⟨_, hs⟩)]
    exact ⟨hc, .inr ⟨_, hs⟩⟩

/-! ## The last occurrence -/

theorem cutLast_eq_none_iff : cutLast sep s = none ↔ ¬ sep.chars <:+: s := by
  induction s with
  | nil => simp [cutLast, Separator.chars]
  | cons c rest ih =>
    rw [cutLast, List.infix_cons_iff, not_or]
    cases hrest : cutLast sep rest with
    | some parts =>
      refine iff_of_false nofun fun h => ?_
      rw [ih.mpr h.2] at hrest
      cases hrest
    | none => simp [ih.mp hrest, dropLeading_eq_none_iff]

theorem cutLast_append (h : ¬ sep.chars <:+: sep.others ++ back) (front : List Char) :
    cutLast sep (front ++ sep.chars ++ back) = some (front, back) := by
  induction front with
  | nil =>
    have hlater : cutLast sep (sep.others ++ back) = none := cutLast_eq_none_iff.mpr h
    have hhere : dropLeading sep.chars (sep.first :: (sep.others ++ back)) = some back :=
      dropLeading_eq_some_iff.mpr rfl
    simp only [List.nil_append, Separator.chars, List.cons_append, cutLast] at hhere ⊢
    rw [hlater, hhere]
    rfl
  | cons c front ih => simp only [List.cons_append, cutLast, ih]

/-- The occurrence that is cut out is the last one: from its second character on the separator
does not begin any more. -/
theorem cutLast_eq_some_iff : cutLast sep s = some (front, back) ↔
    s = front ++ sep.chars ++ back ∧ ¬ sep.chars <:+: sep.others ++ back := by
  refine ⟨fun h => ?_, fun ⟨hs, hlast⟩ => hs ▸ cutLast_append hlast front⟩
  induction s generalizing front with
  | nil => cases h
  | cons c rest ih =>
    rw [cutLast] at h
    split at h
    · rename_i f b hrest
      cases h
      obtain ⟨rfl, hlast⟩ := ih hrest
      exact ⟨rfl, hlast⟩
    · rename_i hrest
      obtain ⟨b, hdrop, hparts⟩ := Option.map_eq_some_iff.mp h
      cases hparts
      have happend := dropLeading_eq_some_iff.mp hdrop
      obtain ⟨rfl, rfl⟩ := List.cons.inj happend
      exact ⟨rfl, cutLast_eq_none_iff.mp hrest⟩

/-! ## The first occurrence -/

theorem splitOn_chars_append (sep : Separator) (back : List Char) :
    splitOn sep (sep.chars ++ back) = [] :: splitOn sep back := by
  have hdrop : dropLeading sep.chars (sep.first :: (sep.others ++ back)) = some back :=
    dropLeading_eq_some_iff.mpr rfl
  rw [Separator.chars, List.cons_append, splitOn]
  split
  · rename_i after hafter
    rw [hdrop] at hafter
    cases hafter
    rfl
  · rename_i hnone
    rw [hdrop] at hnone
    cases hnone

/-- Where no separator begins, a character belongs to the first segment. -/
theorem splitOn_cons {first : List Char} {more : List (List Char)}
    (h : ¬ sep.chars <+: c :: s) (hs : splitOn sep s = first :: more) :
    splitOn sep (c :: s) = (c :: first) :: more := by
  have hdrop : dropLeading sep.chars (c :: s) = none := dropLeading_eq_none_iff.mpr h
  rw [splitOn]
  split
  · rename_i after hafter
    rw [hdrop] at hafter
    cases hafter
  · rw [hs]

theorem splitOn_eq_singleton (h : ¬ sep.chars <:+: s) : splitOn sep s = [s] := by
  induction s with
  | nil => rw [splitOn]
  | cons c s ih =>
    rw [List.infix_cons_iff, not_or] at h
    exact splitOn_cons h.1 (ih h.2)

/-- The first segment ends at the first occurrence: before its last character no separator
is complete. -/
theorem splitOn_append (h : ¬ sep.chars <:+: front ++ sep.chars.dropLast) (back : List Char) :
    splitOn sep (front ++ sep.chars ++ back) = front :: splitOn sep back := by
  induction front with
  | nil => exact splitOn_chars_append sep back
  | cons c front ih =>
    rw [List.cons_append, List.infix_cons_iff, not_or] at h
    have hshort : front ++ sep.chars.dropLast <+: front ++ sep.chars ++ back := by
      rw [List.append_assoc, List.prefix_append_right_inj]
      exact (List.dropLast_prefix sep.chars).trans (List.prefix_append _ _)
    refine splitOn_cons (fun hbegins => h.1 ?_) (ih h.2)
    -- A separator that begins here ends before the last character of the one that follows.
    refine List.prefix_of_prefix_length_le hbegins (List.cons_prefix_cons.mpr ⟨rfl, hshort⟩) ?_
    simp only [List.length_cons, List.length_append, List.length_dropLast]
    omega

end Wiring.Text
