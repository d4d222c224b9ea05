import Wiring.Proofs.Value.Outcomes
import Wiring.Proofs.Value.Texts

/-!
# Integers from text

A field of integers takes the texts that spell a number of its range, and no other text.
The number is checked twice on the way, against 64 bits when it is read and against the
type when it is stored; each check names what it refuses.
-/

namespace Wiring

open Wiring.Number Wiring.Text

/-- A text is a numeral with blanks around it. -/
def Spells (s : List Char) (n : Int) : Prop :=
  ∃ before numeral after, Blank before ∧ Blank after ∧ s = before ++ numeral ++ after ∧
    Numeral numeral n

theorem spells_iff {s : List Char} {n : Int} : Spells s n ↔ Numeral (trim s) n := by
  constructor
  · rintro ⟨before, numeral, after, hbefore, hafter, rfl, h⟩
    rwa [trim_of_blanks_around hbefore hafter h.graphic.1 h.graphic.2]
  · intro h
    obtain ⟨before, after, hbefore, hafter, hs⟩ := exists_blanks_around_trim s
    exact ⟨before, trim s, after, hbefore, hafter, hs, h⟩

theorem Spells.unique {s : List Char} {n m : Int} (h : Spells s n) (h' : Spells s m) : n = m :=
  (spells_iff.mp h).unique (spells_iff.mp h')

theorem Width.bounds (w : Width) :
    -9223372036854775808 ≤ w.low ∧ w.high ≤ 9223372036854775807 := by
  cases w <;> decide

namespace Value

variable {s : String} {v : Value}

theorem parse_integer (s : String) : parse s .integer =
    match readInteger (trim s.toList) with
    | .ok n => .ok (integer (Int64.ofInt n))
    | .error f => .error ⟨text s, .integer, .numeral f⟩ := by
  simp only [parse, keepsBlanks, Bool.false_eq_true, if_false, readTrimmed]
  cases readInteger (trim s.toList) <;> rfl

/-- A text is read as an integer just when it spells one of 64 bits. -/
theorem parse_integer_eq_ok_iff :
    parse s .integer = .ok v ↔ ∃ i, v = integer i ∧ Spells s.toList i.toInt := by
  rw [parse_integer]
  constructor
  · intro h
    split at h
    · rename_i n hread
      cases h
      obtain ⟨hnumeral, hlow, hhigh⟩ := readInteger_eq_ok_iff.mp hread
      refine ⟨Int64.ofInt n, rfl, spells_iff.mpr ?_⟩
      rwa [Int64.toInt_ofInt_of_le hlow (Int.lt_add_one_of_le hhigh)]
    · cases h
  · rintro ⟨i, rfl, h⟩
    rw [readInteger_eq_ok_iff.mpr ⟨spells_iff.mp h, i.le_toInt, Int.le_of_lt_add_one i.toInt_lt⟩]
    exact congrArg (fun i => Except.ok (integer i)) (Int64.ofInt_toInt i)

/-- What is refused as an integer of 64 bits spells none. -/
theorem parse_integer_eq_error {e : CoercionError} (h : parse s .integer = .error e) :
    (∃ f, e = ⟨text s, .integer, .numeral f⟩) ∧ ∀ n, Spells s.toList n →
      ¬ (-9223372036854775808 ≤ n ∧ n ≤ 9223372036854775807) := by
  rw [parse_integer] at h
  cases hread : readInteger (trim s.toList) with
  | ok n =>
    rw [hread] at h
    cases h
  | error f =>
    rw [hread] at h
    refine ⟨⟨f, (Except.error.inj h).symm⟩, fun n hn hbounds => ?_⟩
    rw [readInteger_eq_ok_iff.mpr ⟨spells_iff.mp hn, hbounds⟩] at hread
    cases hread

end Value

namespace FieldType

variable {t : FieldType} {w : Width} {s : String}

theorem store_text (t : FieldType) (s : String) :
    t.store (.text s) = (Value.parse s t.kind).bind t.base.fit := by
  rw [store_eq, Value.coerce_text]
  rfl

theorem fit_integer (ht : t.base = int w) (i : Int64) : t.base.fit (.integer i) =
    if w.low ≤ i.toInt ∧ i.toInt ≤ w.high then .ok (.integer i)
    else .error ⟨.integer i, .integer, .outOfRange w.name⟩ := by
  simp only [ht, fit, Width.holds, Bool.and_eq_true, decide_eq_true_eq]

/-- **Integer fields take the numerals of their range.** For a field of integers of any width, or
an option of one, a text is stored as a number just when it spells this number and the number is
in the range of the type. Any other text is refused: if it spells no integer of 64 bits, the error
names the text, and else the integer and the type that is too narrow for it. -/
theorem integers_from_text (t : FieldType) (w : Width) (ht : t.base = int w) (s : String) :
    (∀ n : Int, (∃ i, t.store (.text s) = .ok (.integer i) ∧ i.toInt = n) ↔
      Spells s.toList n ∧ w.low ≤ n ∧ n ≤ w.high) ∧
    ((∀ n, Spells s.toList n → ¬ (w.low ≤ n ∧ n ≤ w.high)) →
      (∃ f, t.store (.text s) = .error ⟨.text s, .integer, .numeral f⟩ ∧
        ∀ n, Spells s.toList n → ¬ (-9223372036854775808 ≤ n ∧ n ≤ 9223372036854775807)) ∨
      ∃ i, t.store (.text s) = .error ⟨.integer i, .integer, .outOfRange w.name⟩ ∧
        Spells s.toList i.toInt) := by
  have hkind : t.kind = .integer := by
    rw [← kind_base, ht]
    rfl
  rw [store_text, hkind]
  cases hparse : Value.parse s .integer with
  | error e =>
    obtain ⟨⟨f, rfl⟩, hnone⟩ := Value.parse_integer_eq_error hparse
    refine ⟨fun n => ?_, fun _ => .inl ⟨f, rfl, hnone⟩⟩
    refine iff_of_false (by rintro ⟨i, ⟨⟩, -⟩) ?_
    rintro ⟨hn, hlow, hhigh⟩
    have hbounds := w.bounds
    exact hnone n hn (by omega)
  | ok v =>
    obtain ⟨i, rfl, hi⟩ := Value.parse_integer_eq_ok_iff.mp hparse
    have hstore : (Except.ok (.integer i)).bind t.base.fit = t.base.fit (.integer i) := rfl
    rw [hstore, fit_integer ht]
    -- A text spells one number at most, so the one that was read decides.
    by_cases hrange : w.low ≤ i.toInt ∧ i.toInt ≤ w.high
    · rw [if_pos hrange]
      refine ⟨fun n => ⟨?_, ?_⟩, fun hnone => absurd hrange (hnone _ hi)⟩
      · rintro ⟨j, ⟨⟩, rfl⟩
        exact ⟨hi, hrange⟩
      · rintro ⟨hn, -⟩
        exact ⟨i, rfl, hi.unique hn⟩
    · rw [if_neg hrange]
      refine ⟨fun n => iff_of_false (by rintro ⟨j, ⟨⟩, -⟩) ?_, fun _ => .inr ⟨i, rfl, hi⟩⟩
      rintro ⟨hn, hbounds⟩
      rw [hn.unique hi] at hbounds
      exact hrange hbounds

/-- Zeros in front of a number do not make it too large, and a number past the end of a type is
refused, not wrapped. -/
theorem padded_byte_from_text :
    (option (int .u8)).base = int .u8 ∧
    (∃ i, (option (int .u8)).store (.text " +000255\n") = .ok (.integer i) ∧
      i.toInt = 255) ∧
    ∀ i, (option (int .u8)).store (.text "-1") ≠ .ok (.integer i) := by
  have hrange := (integers_from_text (option (int .u8)) .u8 rfl
    " +000255\n").1 255
  refine ⟨rfl, hrange.mpr ⟨?_, by decide⟩, fun i hi => ?_⟩
  · refine ⟨[' '], ['+', '0', '0', '0', '2', '5', '5'], ['\n'], by decide, by decide, by decide, ?_⟩
    exact numeral_plus_iff.mpr ⟨by decide, by decide, by decide⟩
  · obtain ⟨hspells, hlow, -⟩ :=
      ((integers_from_text (option (int .u8)) .u8 rfl "-1").1 i.toInt).mp ⟨i, hi, rfl⟩
    have hminus : Spells "-1".toList (-1) :=
      ⟨[], ['-', '1'], [], by decide, by decide, rfl, numeral_minus_iff.mpr (by decide)⟩
    rw [hspells.unique hminus] at hlow
    exact absurd hlow (by decide)

end FieldType

end Wiring
