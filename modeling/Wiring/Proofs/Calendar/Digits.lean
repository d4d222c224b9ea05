import Wiring.Calendar.Reading
import Wiring.Proofs.Number.Numerals

/-!
# Reading written digits

A number in a date is read up to its width or to the first character that is
no digit. Where a written number ends at one of these, it is read as it was
written, and what follows it is left over.
-/

namespace Wiring.Calendar

open Wiring.Number Wiring.Text

/-- No digit is at the front of a text. -/
def Stops (s : List Char) : Prop :=
  ∀ c rest, s = c :: rest → isDigit c = false

variable {ds rest : List Char} {width n low high : Nat}

theorem stops_nil : Stops [] := by
  intro c rest h
  cases h

theorem stops_cons {c : Char} (h : isDigit c = false) : Stops (c :: rest) := by
  intro c' rest' heq
  cases heq
  exact h

theorem spanDigits_append (hds : Digits ds) (hwidth : ds.length ≤ width)
    (hstop : ds.length = width ∨ Stops rest) : spanDigits width (ds ++ rest) = (ds, rest) := by
  induction ds generalizing width with
  | nil =>
    cases width with
    | zero => rw [List.nil_append, spanDigits]
    | succ width =>
      have hrest : Stops rest := hstop.resolve_left (Nat.succ_ne_zero width).symm
      cases rest with
      | nil => rfl
      | cons c rest =>
        rw [List.nil_append, spanDigits, hrest c rest rfl, if_neg Bool.false_ne_true]
  | cons c ds ih =>
    cases width with
    | zero => exact absurd hwidth (Nat.not_succ_le_zero _)
    | succ width =>
      have hc : isDigit c = true := hds c (List.mem_cons_self ..)
      have hspan : spanDigits width (ds ++ rest) = (ds, rest) :=
        ih (fun d hd => hds d (List.mem_cons_of_mem _ hd)) (Nat.le_of_succ_le_succ hwidth)
          (hstop.imp_left Nat.succ.inj)
      rw [List.cons_append, spanDigits, if_pos hc, hspan]

theorem readNumber_append (hds : Digits ds) (hne : ds ≠ []) (hwidth : ds.length ≤ width)
    (hstop : ds.length = width ∨ Stops rest) :
    readNumber width (ds ++ rest) = .ok (digitsValue 0 ds, rest) := by
  have hspan := spanDigits_append hds hwidth hstop
  cases ds with
  | nil => exact absurd rfl hne
  | cons c ds =>
    have hc : isDigit c = true := hds c (List.mem_cons_self ..)
    rw [List.cons_append] at hspan ⊢
    rw [readNumber, if_pos hc, hspan]

theorem readNumber_writePadded (hwidth : 0 < width) (hn : n < 10 ^ width) :
    readNumber width (writePadded width n ++ rest) = .ok (n, rest) := by
  have hlength := length_writePadded hwidth hn
  rw [readNumber_append (digits_writePadded width n) (writePadded_ne_nil width n)
    (Nat.le_of_eq hlength) (.inl hlength), digitsValue_writePadded]

theorem readExactly_writePadded (hwidth : 0 < width) (hn : n < 10 ^ width) :
    readExactly width (writePadded width n ++ rest) = some (n, rest) := by
  have hlength := length_writePadded hwidth hn
  rw [readExactly, spanDigits_append (digits_writePadded width n) (Nat.le_of_eq hlength)
    (.inl hlength)]
  simp only [hlength, if_true, digitsValue_writePadded]

/-! ## Two digits between two bounds -/

theorem within_bounds (hlow : low ≤ n) (hhigh : n ≤ high) :
    (decide (low ≤ n) && decide (n ≤ high)) = true := by
  rw [decide_eq_true hlow, decide_eq_true hhigh, Bool.and_self]

theorem readBetween_writePadded (hlow : low ≤ n) (hhigh : n ≤ high) (hn : n < 100) :
    readBetween low high (writePadded 2 n ++ rest) = .ok (n, rest) := by
  rw [readBetween, trimStart_append_of_graphic (digits_writePadded 2 n).graphic
    (writePadded_ne_nil 2 n), readNumber_writePadded (by decide) hn]
  exact if_pos (within_bounds hlow hhigh)

theorem readTwo_writePadded (hlow : low ≤ n) (hhigh : n ≤ high) (hn : n < 100) :
    readTwo low high (writePadded 2 n ++ rest) = some (n, rest) := by
  rw [readTwo, readExactly_writePadded (by decide) hn]
  exact if_pos (within_bounds hlow hhigh)

/-! ## Years -/

theorem yearText_of_plain {year : Int} (h : 0 ≤ year ∧ year ≤ 9999) :
    yearText year = writePadded 4 year.natAbs := by
  rw [yearText, if_pos]
  rw [decide_eq_true h.1, decide_eq_true h.2, Bool.and_self]

theorem yearText_of_not_plain {year : Int} (h : ¬(0 ≤ year ∧ year ≤ 9999)) :
    yearText year = (if year < 0 then '-' else '+') :: writePadded 4 year.natAbs := by
  rw [yearText, if_neg]
  rwa [Bool.and_eq_true, decide_eq_true_eq, decide_eq_true_eq]

theorem exists_sign_of_not_plain {year : Int} (h : ¬(0 ≤ year ∧ year ≤ 9999)) :
    ∃ c, isDigit c = false ∧ yearText year = c :: writePadded 4 year.natAbs := by
  refine ⟨_, ?_, yearText_of_not_plain h⟩
  split <;> rfl

theorem graphic_yearText (year : Int) : Graphic (yearText year) := by
  have hdigits := (digits_writePadded 4 year.natAbs).graphic
  by_cases h : 0 ≤ year ∧ year ≤ 9999
  · rwa [yearText_of_plain h]
  · rw [yearText_of_not_plain h]
    refine graphic_cons.mpr ⟨?_, hdigits⟩
    split <;> rfl

theorem yearText_ne_nil (year : Int) : yearText year ≠ [] := by
  by_cases h : 0 ≤ year ∧ year ≤ 9999
  · rw [yearText_of_plain h]
    exact writePadded_ne_nil 4 _
  · rw [yearText_of_not_plain h]
    exact List.cons_ne_nil _ _

/-- A text with a digit in front is no signed year. -/
theorem readYear_of_digit {c : Char} {s : List Char} {year : Nat} (hc : isDigit c = true)
    (hread : readNumber 4 (c :: s) = .ok (year, rest)) (hyear : year ≤ 2147483647) :
    readYear (c :: s) = .ok ((year : Int), rest) := by
  have hbounds : (decide (-2147483648 ≤ (year : Int)) && decide ((year : Int) ≤ 2147483647)) =
      true := by
    simp only [Bool.and_eq_true, decide_eq_true_eq]
    omega
  unfold readYear
  split
  · rename_i heq
    cases heq
    cases hc
  · rename_i heq
    cases heq
    cases hc
  · rw [hread]
    exact if_pos hbounds

/-- A year is read with its sign, or up to its fourth digit. -/
theorem readYear_yearText {year : Int} (hlow : minYear ≤ year) (hhigh : year ≤ maxYear)
    (hrest : Stops rest) : readYear (yearText year ++ rest) = .ok (year, rest) := by
  have hbounds : (decide (-2147483648 ≤ year) && decide (year ≤ 2147483647)) = true := by
    simp only [minYear, maxYear, Bool.and_eq_true, decide_eq_true_eq] at *
    omega
  have hsigned : readNumber (writePadded 4 year.natAbs ++ rest).length
      (writePadded 4 year.natAbs ++ rest) = .ok (year.natAbs, rest) := by
    rw [readNumber_append (digits_writePadded 4 _) (writePadded_ne_nil 4 _)
      (by rw [List.length_append]; omega) (.inr hrest), digitsValue_writePadded]
  by_cases hplain : 0 ≤ year ∧ year ≤ 9999
  · have hread : readNumber 4 (writePadded 4 year.natAbs ++ rest) = .ok (year.natAbs, rest) :=
      readNumber_writePadded (by decide) (by omega)
    have hdigits := digits_writePadded 4 year.natAbs
    rw [yearText_of_plain hplain]
    cases htext : writePadded 4 year.natAbs with
    | nil => exact absurd htext (writePadded_ne_nil 4 _)
    | cons c ds =>
      rw [htext] at hread hdigits
      rw [List.cons_append] at hread ⊢
      rw [readYear_of_digit (hdigits c (List.mem_cons_self ..)) hread (by omega),
        Int.natAbs_of_nonneg hplain.1]
  · rw [yearText_of_not_plain hplain]
    split
    · have hvalue : -(year.natAbs : Int) = year := by omega
      rw [List.cons_append, readYear, hsigned]
      simp only [Except.map, hvalue]
      exact if_pos hbounds
    · have hvalue : (year.natAbs : Int) = year := by omega
      rw [List.cons_append, readYear, hsigned]
      simp only [Except.map, hvalue]
      exact if_pos hbounds

end Wiring.Calendar
