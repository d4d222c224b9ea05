import Wiring.Proofs.Number.Nearest
import Wiring.Proofs.Value.Storing

/-!
# Numbers between fields

Integers and floats turn into each other. What a float is turned into is exact, with one
exception at the end of the integers. What is put into a field for floats is never
refused, so it is exact only where the field can be.
-/

namespace Wiring

open Wiring.Number

/-! ## Floats to integers -/

namespace Value

theorem integerOfFloat?_of_value? {x : Binary64} {i : Int64} (h : x.value? = some (i.toInt : ℚ)) :
    integerOfFloat? x = some i := by
  have hle := i.le_toInt
  have hlt := i.toInt_lt
  rw [integerOfFloat?, Binary64.whole?_eq_some_iff.mpr h]
  dsimp only
  rw [if_pos (by simp; omega), min_eq_left (by omega), Int64.ofInt_toInt]

theorem integerOfFloat?_end {x : Binary64} (h : x.value? = some (2 ^ 63)) :
    integerOfFloat? x = some Int64.maxValue := by
  have hwhole : x.whole? = some 9223372036854775808 := by
    rw [Binary64.whole?_eq_some_iff, h]
    norm_num
  rw [integerOfFloat?, hwhole]
  rfl

theorem integerOfFloat?_of_ne {x : Binary64} (hfits : ∀ i : Int64, x.value? ≠ some (i.toInt : ℚ))
    (hend : x.value? ≠ some (2 ^ 63)) : integerOfFloat? x = none := by
  rw [integerOfFloat?]
  cases hwhole : x.whole? with
  | none => rfl
  | some n =>
    have hvalue := Binary64.whole?_eq_some_iff.mp hwhole
    dsimp only
    rw [if_neg]
    simp only [Bool.and_eq_true, decide_eq_true_eq, not_and, not_le]
    intro hlow
    by_contra hhigh
    rcases (not_lt.mp hhigh).lt_or_eq with hlt | rfl
    · apply hfits (Int64.ofInt n)
      rw [Int64.toInt_ofInt_of_le hlow hlt, hvalue]
    · apply hend
      rw [hvalue]
      norm_num

theorem coerce_float_of_some {x : Binary64} {i : Int64} (h : integerOfFloat? x = some i) :
    coerce (.float x) .integer = .ok (.integer i) := by
  simp [coerce, kind?, convert, h]

theorem coerce_float_of_none {x : Binary64} (h : integerOfFloat? x = none) :
    coerce (.float x) .integer = .error ⟨.float x, .integer, .notWhole⟩ := by
  simp [coerce, kind?, convert, h]

theorem toInt_inj_of_cast {i j : Int64} (h : (i.toInt : ℚ) = j.toInt) : i = j :=
  Int64.toInt_inj.mp (by exact_mod_cast h)

theorem toInt_ne_end (i : Int64) : (i.toInt : ℚ) ≠ 2 ^ 63 := by
  have hlt := i.toInt_lt
  intro h
  have h : i.toInt = 2 ^ 63 := by exact_mod_cast h
  omega

/-- **Floats to integers.** A float becomes an integer just when it is equal to it, or when
it is the number behind the last integer and becomes the last one. Everything else is
refused as not whole. -/
theorem float_to_integer (x : Binary64) :
    (∀ v, coerce (.float x) .integer = .ok v ↔
      (∃ i : Int64, v = .integer i ∧ x.value? = some (i.toInt : ℚ)) ∨
        (v = .integer Int64.maxValue ∧ x.value? = some (2 ^ 63))) ∧
    (∀ e, coerce (.float x) .integer = .error e → e = ⟨.float x, .integer, .notWhole⟩) := by
  by_cases hfits : ∃ i : Int64, x.value? = some (i.toInt : ℚ)
  · obtain ⟨i, hi⟩ := hfits
    rw [coerce_float_of_some (integerOfFloat?_of_value? hi), hi]
    refine ⟨fun v => ?_, fun e he => by cases he⟩
    constructor
    · rintro ⟨⟩
      exact .inl ⟨i, rfl, rfl⟩
    · rintro (⟨j, rfl, hj⟩ | ⟨-, hend⟩)
      · rw [toInt_inj_of_cast (Option.some.inj hj)]
      · exact absurd (Option.some.inj hend) (toInt_ne_end i)
  by_cases hend : x.value? = some (2 ^ 63)
  · rw [coerce_float_of_some (integerOfFloat?_end hend)]
    refine ⟨fun v => ?_, fun e he => by cases he⟩
    constructor
    · rintro ⟨⟩
      exact .inr ⟨rfl, hend⟩
    · rintro (⟨j, -, hj⟩ | ⟨rfl, -⟩)
      · exact absurd ⟨j, hj⟩ hfits
      · rfl
  · rw [coerce_float_of_none (integerOfFloat?_of_ne (not_exists.mp hfits) hend)]
    refine ⟨fun v => ?_, fun e he => by cases he; rfl⟩
    constructor
    · rintro ⟨⟩
    · rintro (⟨j, -, hj⟩ | ⟨-, h⟩)
      · exact absurd ⟨j, hj⟩ hfits
      · exact absurd h hend

/-- The number behind the last integer is a float, and no integer is equal to it. It is
not refused but becomes the last integer. -/
theorem end_of_integers_accepted :
    (⟨0x43E0000000000000⟩ : Binary64).value? = some (2 ^ 63) ∧
    (∀ i : Int64, (⟨0x43E0000000000000⟩ : Binary64).value? ≠ some (i.toInt : ℚ)) ∧
    coerce (.float ⟨0x43E0000000000000⟩) .integer = .ok (.integer 9223372036854775807) := by
  have hvalue : (⟨0x43E0000000000000⟩ : Binary64).value? = some (2 ^ 63) := by
    have hnegative : (⟨0x43E0000000000000⟩ : Binary64).negative = false := by decide
    have hmagnitude : (⟨0x43E0000000000000⟩ : Binary64).magnitude = 1086 * 2 ^ 52 := by decide
    rw [Binary64.value?_eq_some_iff, hnegative, hmagnitude]
    exact ⟨by decide, Format.value_two_pow_63⟩
  refine ⟨hvalue, fun i hi => ?_, coerce_float_of_some (integerOfFloat?_end hvalue)⟩
  rw [hvalue] at hi
  exact toInt_ne_end i (Option.some.inj hi).symm

/-- The number that a value is, if it is one. -/
def number? : Value → Option ℚ
  | integer i => some i.toInt
  | float x => x.value?
  | _ => none

end Value

/-! ## Numbers in fields for floats -/

namespace FieldType

/-- The format of the floats that a field holds, if it holds floats. -/
def format? : FieldType → Option Format
  | single => some .single
  | double => some .double
  | option t => t.format?
  | _ => none

theorem base_of_format? {t : FieldType} {f : Format} (h : t.format? = some f) :
    (f = .double ∧ t.base = double) ∨ (f = .single ∧ t.base = single) := by
  induction t with
  | option t ih => exact ih h
  | single =>
    cases h
    exact .inr ⟨rfl, rfl⟩
  | double =>
    cases h
    exact .inl ⟨rfl, rfl⟩
  | int | bool | text | uuid | date | dateTime | bytes => cases h

/-- A number becomes a double before it is fitted into a field for floats. -/
theorem exists_coerce_of_number? {v : Value} {q : ℚ} (h : v.number? = some q) :
    v.isNull = false ∧ ∃ x d, v.coerce .float = .ok (.float x) ∧ x.value? = some d ∧
      Format.double.IsNearest q d := by
  cases v with
  | integer i =>
    refine ⟨rfl, Binary64.ofInt i.toInt, ?_⟩
    cases h
    rcases Binary64.rounds_ofInt i.toInt with ⟨d, hd, hnearest⟩ | ⟨-, hexceeded⟩
    · exact ⟨d, rfl, hd, hnearest⟩
    · have hend := hexceeded (2 ^ 63)
        ⟨1086 * 2 ^ 52, by decide, by rw [Format.value_two_pow_63]; norm_num⟩
      have hlow : (-2 ^ 63 : ℚ) ≤ i.toInt := by exact_mod_cast i.le_toInt
      have hhigh : (i.toInt : ℚ) < 2 ^ 63 := by exact_mod_cast i.toInt_lt
      rw [abs_of_pos (by positivity), lt_abs] at hend
      rcases hend with h | h <;> linarith
  | float x => exact ⟨rfl, x, q, rfl, h, Format.isNearest_self (Binary64.represents_of_value? h)⟩
  | null | bool | text | uuid | date | dateTime | bytes => cases h

/-- **Numbers in fields for floats.** A number is never refused by a field for floats. It is
rounded to double precision and then, in a field of single precision, to that, to the
nearest number or to an infinity. So it is stored as it is just when the field's format
represents it. -/
theorem number_into_float_field {t : FieldType} {f : Format} {v : Value} {q : ℚ}
    (ht : t.format? = some f) (hv : v.number? = some q) :
    ∃ x d, t.store v = .ok (.float x) ∧ Format.double.IsNearest q d ∧ Binary64.Rounds f d x ∧
      (x.value? = some q ↔ f.Represents q) := by
  obtain ⟨hnull, x, d, hcoerce, hx, hnearest⟩ := exists_coerce_of_number? hv
  have hkind : t.kind = .float := by
    rw [← kind_base]
    rcases base_of_format? ht with ⟨-, hbase⟩ | ⟨-, hbase⟩ <;> rw [hbase] <;> rfl
  have hstore : t.store v = t.base.fit (.float x) := by
    rw [store_eq, hnull, hkind, hcoerce]
    rfl
  have hexact : f.Represents q → d = q := by
    intro hq
    apply hnearest.eq_iff.mpr
    rcases base_of_format? ht with ⟨rfl, -⟩ | ⟨rfl, -⟩
    · exact hq
    · exact hq.double
  obtain ⟨y, hfit, hrounds⟩ : ∃ y, t.base.fit (.float x) = .ok (.float y) ∧
      Binary64.Rounds f d y := by
    rcases base_of_format? ht with ⟨rfl, hbase⟩ | ⟨rfl, hbase⟩
    · rw [hbase]
      exact ⟨x, rfl, .inl ⟨d, hx, Format.isNearest_self (Binary64.represents_of_value? hx)⟩⟩
    · rw [hbase]
      exact ⟨x.narrow, rfl, Binary64.rounds_narrow hx⟩
  refine ⟨y, d, hstore.trans hfit, hnearest, hrounds, hrounds.represents, ?_⟩
  intro hq
  rw [hexact hq] at hrounds
  exact hrounds.value?_eq hq

theorem number?_odd_integer :
    (Value.integer 9007199254740993).number? = some 9007199254740993 := by
  have h : (9007199254740993 : Int64).toInt = 9007199254740993 := by decide
  rw [Value.number?, h]
  norm_num

/-- An integer of 54 bits that is odd, in a nullable field of double precision. -/
theorem odd_integer_into_float_field :
    (option double).format? = some .double ∧
      (Value.integer 9007199254740993).number? = some 9007199254740993 ∧
      ∃ x d, (option double).store (.integer 9007199254740993) = .ok (.float x) ∧
        Format.double.IsNearest 9007199254740993 d ∧ Binary64.Rounds .double d x ∧
        (x.value? = some 9007199254740993 ↔ Format.double.Represents 9007199254740993) :=
  ⟨rfl, number?_odd_integer, number_into_float_field rfl number?_odd_integer⟩

/-- It is not refused but loses one, and a number past single precision becomes infinite
in a field of single precision. -/
theorem numbers_rounded_by_fields :
    double.store (.integer 9007199254740993) = .ok (.float ⟨0x4340000000000000⟩) ∧
    (Value.integer 9007199254740993).number? = some 9007199254740993 ∧
    (⟨0x4340000000000000⟩ : Binary64).value? = some 9007199254740992 ∧
    single.store (.float ⟨0x7E37E43C8800759C⟩) = .ok (.float (Binary64.infinite false)) ∧
    (⟨0x7E37E43C8800759C⟩ : Binary64).isFinite = true := by
  have hnegative : (⟨0x4340000000000000⟩ : Binary64).negative = false := by decide
  have hmagnitude : (⟨0x4340000000000000⟩ : Binary64).magnitude = 1076 * 2 ^ 52 := by decide
  refine ⟨by decide +kernel, number?_odd_integer, ?_, by decide +kernel, by decide⟩
  rw [Binary64.value?_eq_some_iff, hnegative, hmagnitude]
  refine ⟨by decide, ?_⟩
  norm_num [signed, Format.value, Format.double, Format.bias]

end FieldType

end Wiring
