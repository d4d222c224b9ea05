import Mathlib.Algebra.Order.Field.Power
import Mathlib.Data.Rat.Cast.Order
import Mathlib.Tactic.FieldSimp
import Mathlib.Tactic.Positivity
import Mathlib.Tactic.Ring
import Wiring.Proofs.Number.Exact

/-!
# The numbers that bits stand for

A finite magnitude has an exponent and a fraction, and the number that it stands for is
a rational. Counting in units of the smallest magnitude is exact: the number is the count
times the unit.
-/

namespace Wiring.Number

/-! ## Magnitudes -/

/-- What is added to an exponent so that it is not negative. -/
def Format.bias (f : Format) : Nat :=
  f.unitPower + 2 - f.precision

example : Format.double.bias = 1023 ∧ Format.single.bias = 127 := by decide

/-- The number that a finite magnitude stands for. With the lowest exponent the leading bit
of the significand is zero, else it is one. -/
def Format.value (f : Format) (n : Nat) : ℚ :=
  let exponent : Nat := n / 2 ^ (f.precision - 1)
  let fraction : ℚ := (n % 2 ^ (f.precision - 1) : Nat) / 2 ^ (f.precision - 1)
  if exponent = 0 then fraction * 2 ^ (1 - f.bias : ℤ)
  else (1 + fraction) * 2 ^ (exponent - f.bias : ℤ)

theorem Format.value_eq_units {f : Format} (hp : 0 < f.precision)
    (hu : f.precision ≤ f.unitPower + 2) (n : Nat) :
    f.value n = f.units n / 2 ^ f.unitPower := by
  obtain ⟨k, hk⟩ : ∃ k, f.precision = k + 1 := Nat.exists_eq_succ_of_ne_zero hp.ne'
  have hbias : (f.bias : ℤ) = f.unitPower + 1 - k := by
    rw [Format.bias]
    omega
  have hk' : f.precision - 1 = k := by omega
  simp only [Format.value, hk', hbias]
  by_cases he : n / 2 ^ k = 0
  · rw [if_pos he, Format.units_eq_self (by rw [hk', he])]
    have hn : n % 2 ^ k = n := Nat.mod_eq_of_lt ((Nat.div_eq_zero_iff_lt (by positivity)).mp he)
    have hpow : (2 : ℚ) ^ (1 - (f.unitPower + 1 - k) : ℤ) = 2 ^ k / 2 ^ f.unitPower := by
      rw [show (1 - (f.unitPower + 1 - k) : ℤ) = k - f.unitPower by ring,
        zpow_sub₀ two_ne_zero, zpow_natCast, zpow_natCast]
    rw [hn, hpow]
    field_simp
  · obtain ⟨e, hedef⟩ : ∃ e, n / 2 ^ k = e + 1 := Nat.exists_eq_succ_of_ne_zero he
    have hpow : (2 : ℚ) ^ ((e + 1 : Nat) - (f.unitPower + 1 - k) : ℤ) =
        2 ^ k * 2 ^ e / 2 ^ f.unitPower := by
      rw [show ((e + 1 : Nat) - (f.unitPower + 1 - k) : ℤ) = (k + e : Nat) - f.unitPower by
          push_cast; ring,
        zpow_sub₀ two_ne_zero, zpow_natCast, zpow_natCast, pow_add]
    rw [if_neg he, Format.units_eq_mul (by rwa [hk']), hk', hedef, hpow, Nat.add_sub_cancel]
    push_cast
    field_simp

theorem two_pow_pos (k : Nat) : 0 < Nat.pow 2 k :=
  Nat.two_pow_pos k

theorem cast_two_pow (k : Nat) : ((Nat.pow 2 k : Nat) : ℚ) = 2 ^ k := by
  rw [Nat.pow_eq, Nat.cast_pow, Nat.cast_ofNat]

theorem Format.value_nonneg (f : Format) (n : Nat) : 0 ≤ f.value n := by
  simp only [Format.value]
  split <;> positivity

theorem Format.value_double (n : Nat) :
    Format.double.value n = Format.double.units n / 2 ^ 1074 :=
  Format.value_eq_units (by decide) (by decide) n

theorem Format.value_single (n : Nat) :
    Format.single.value n = Format.single.units n / 2 ^ 149 :=
  Format.value_eq_units (by decide) (by decide) n

/-- The double with the exponent 63 and no fraction. -/
theorem Format.value_two_pow_63 : Format.double.value (1086 * 2 ^ 52) = 2 ^ 63 := by
  simp [Format.value, Format.double, Format.bias]

/-- A ratio that is the number of a magnitude rounds to that magnitude. -/
theorem Format.round_of_value {f : Format} (hp : 0 < f.precision)
    (hu : f.precision ≤ f.unitPower + 2) {num den n : Nat} (hden : 0 < den)
    (hn : n < f.infinity) (h : (num : ℚ) / den = f.value n) : f.round num den = n := by
  refine Format.round_eq hp hden hn ?_
  have hden' : (den : ℚ) ≠ 0 := by exact_mod_cast hden.ne'
  rw [Format.value_eq_units hp hu, div_eq_div_iff hden' (by positivity)] at h
  exact_mod_cast h

/-- A format represents a number if a finite magnitude has its size. -/
def Format.Represents (f : Format) (q : ℚ) : Prop :=
  ∃ n < f.infinity, |q| = f.value n

theorem Format.exists_double_value {n : Nat} (hn : n < Format.single.infinity) :
    ∃ k < Format.double.infinity, Format.double.value k = Format.single.value n := by
  obtain ⟨k, hk, hunits⟩ := Format.exists_double hn
  refine ⟨k, hk, ?_⟩
  have hpow : (2 : ℚ) ^ 1074 = 2 ^ 149 * 2 ^ 925 := by rw [← pow_add]
  have hne : (2 : ℚ) ^ 925 ≠ 0 := pow_ne_zero _ two_ne_zero
  rw [Format.value_double, Format.value_single, hunits, hpow, Nat.cast_mul, Nat.cast_pow]
  exact mul_div_mul_right _ _ hne

/-- What single precision represents, double precision represents. -/
theorem Format.Represents.double {q : ℚ} (h : Format.single.Represents q) :
    Format.double.Represents q := by
  obtain ⟨n, hn, hq⟩ := h
  obtain ⟨k, hk, hvalue⟩ := Format.exists_double_value hn
  exact ⟨k, hk, hq.trans hvalue.symm⟩

/-! ## Numbers with a sign -/

/-- A size with a sign. -/
def signed (negative : Bool) (size : ℚ) : ℚ :=
  if negative then -size else size

theorem abs_signed (negative : Bool) (size : ℚ) : |signed negative size| = |size| := by
  cases negative with
  | false => rfl
  | true => exact abs_neg size

theorem abs_signed_sub_signed (negative : Bool) (a b : ℚ) :
    |signed negative a - signed negative b| = |a - b| := by
  cases negative with
  | false => rfl
  | true =>
    rw [signed, signed, if_pos rfl, if_pos rfl, neg_sub_neg]
    exact abs_sub_comm b a

/-- A number is what its sign makes of its size, whatever sign zero is given. -/
theorem signed_abs {negative : Bool} {q : ℚ} (hneg : negative = true → q ≤ 0)
    (hpos : negative = false → 0 ≤ q) : signed negative |q| = q := by
  cases negative with
  | false => exact abs_of_nonneg (hpos rfl)
  | true =>
    rw [abs_of_nonpos (hneg rfl)]
    exact neg_neg q

namespace Binary64

/-- The number that a double-precision number stands for, if it is finite. -/
def value? (x : Binary64) : Option ℚ :=
  if x.isFinite then some (signed x.negative (Format.double.value x.magnitude)) else none

theorem value?_eq_some_iff {x : Binary64} {q : ℚ} :
    x.value? = some q ↔
      x.isFinite = true ∧ signed x.negative (Format.double.value x.magnitude) = q := by
  rw [value?]
  cases x.isFinite <;> simp

theorem isFinite_iff {x : Binary64} : x.isFinite = true ↔ x.magnitude < Format.double.infinity := by
  rw [isFinite, decide_eq_true_iff]

theorem value_magnitude (x : Binary64) {d : Nat} (hd : (d : ℚ) = 2 ^ 1074) :
    Format.double.value x.magnitude = x.units / d := by
  rw [Format.value_double, hd, units]

theorem represents_of_value? {x : Binary64} {q : ℚ} (h : x.value? = some q) :
    Format.double.Represents q := by
  obtain ⟨hfinite, rfl⟩ := value?_eq_some_iff.mp h
  refine ⟨x.magnitude, isFinite_iff.mp hfinite, ?_⟩
  rw [abs_signed, abs_of_nonneg (Format.value_nonneg _ _)]

theorem value?_ofMagnitude (negative : Bool) {n : Nat} (hn : n < Format.double.infinity) :
    (ofMagnitude negative n).value? = some (signed negative (Format.double.value n)) := by
  have hn' : n < 2 ^ 63 := hn.trans infinity_lt
  rw [value?_eq_some_iff, isFinite_iff, magnitude_ofMagnitude hn', negative_ofMagnitude hn']
  exact ⟨hn, rfl⟩

/-! ## Single precision -/

theorem value?_ofSingle (negative : Bool) {n : Nat} (hn : n < Format.single.infinity) :
    (ofSingle negative n).value? = some (signed negative (Format.single.value n)) := by
  obtain ⟨k, hk, hvalue⟩ := Format.exists_double_value hn
  have hsize : (Format.single.units n : ℚ) / (Nat.pow 2 149 : Nat) = Format.double.value k := by
    rw [hvalue, Format.value_single, cast_two_pow]
  rw [ofSingle, if_pos hn, ofRatio, Format.round_of_value (by decide) (by decide)
    (two_pow_pos 149) hk hsize, value?_ofMagnitude negative hk, hvalue]

/-! ## Integers -/

/-- A count divided by the units of one is an integer just when nothing is left over. -/
theorem signed_div_eq_intCast_iff {negative : Bool} {u d : Nat} (hd : 0 < d) {i : Int} :
    signed negative ((u : ℚ) / d) = i ↔
      u % d = 0 ∧ (if negative then -((u : Int) / d) else (u : Int) / d) = i := by
  have hd' : (d : ℚ) ≠ 0 := by exact_mod_cast hd.ne'
  have hmod : u % d = 0 ↔ (d : Int) ∣ u := by rw [Int.natCast_dvd_natCast, Nat.dvd_iff_mod_eq_zero]
  have hquotient : ∀ j : Int, (u : ℚ) / d = j ↔ (d : Int) ∣ u ∧ (u : Int) / d = j := by
    intro j
    rw [div_eq_iff hd']
    constructor
    · intro h
      have h : (u : Int) = j * d := by exact_mod_cast h
      rw [h]
      exact ⟨Int.dvd_mul_left _ _, Int.mul_ediv_cancel _ (by exact_mod_cast hd.ne')⟩
    · rintro ⟨hdvd, rfl⟩
      exact_mod_cast (Int.ediv_mul_cancel hdvd).symm
  rw [hmod, signed]
  cases negative with
  | false => simpa using hquotient i
  | true =>
    have hneg := hquotient (-i)
    rw [Int.cast_neg, ← neg_eq_iff_eq_neg, ← neg_eq_iff_eq_neg] at hneg
    simpa using hneg

theorem whole?_eq_some_iff {x : Binary64} {i : Int} :
    x.whole? = some i ↔ x.value? = some (i : ℚ) := by
  have hpos := two_pow_pos 1074
  rw [value?_eq_some_iff, value_magnitude x (cast_two_pow 1074), whole?]
  generalize Nat.pow 2 1074 = d at hpos
  rw [signed_div_eq_intCast_iff hpos]
  cases x.isFinite <;> simp

end Binary64

end Wiring.Number
