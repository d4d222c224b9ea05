import Mathlib.Tactic.Linarith
import Wiring.Proofs.Number.Values

/-!
# Rounding is to the nearest

A ratio is scaled so that its quotient has the length of a significand, the quotient is
rounded to an integer, and no magnitude lies nearer than the one that comes out: those with
larger exponents are multiples of the same power of two, and those with smaller ones lie
below the smallest significand of full length. Of two that are equally near it is the even
one, so a number alone says what it is rounded to.
-/

namespace Wiring.Number

/-! ## Quotients -/

theorem divNearestEven_cases (num den : Nat) :
    (divNearestEven num den = num / den ∧ 2 * (num % den) ≤ den) ∨
      (divNearestEven num den = num / den + 1 ∧ den ≤ 2 * (num % den)) := by
  simp only [divNearestEven]
  split
  · rename_i h
    simp only [Bool.or_eq_true, decide_eq_true_eq, Bool.and_eq_true, beq_iff_eq] at h
    exact .inr ⟨rfl, by omega⟩
  · rename_i h
    simp only [Bool.or_eq_true, decide_eq_true_eq, Bool.and_eq_true, beq_iff_eq] at h
    exact .inl ⟨rfl, by omega⟩

/-- No natural number is nearer to a quotient than the one it is rounded to. -/
theorem divNearestEven_nearest (num : Nat) {den : Nat} (hden : 0 < den) (c : Nat) :
    |(divNearestEven num den : ℚ) - num / den| ≤ |(c : ℚ) - num / den| := by
  have hden' : (0 : ℚ) < den := by exact_mod_cast hden
  obtain ⟨q, r, hq, hr, hnum⟩ : ∃ q r, num / den = q ∧ num % den = r ∧ num = den * q + r :=
    ⟨_, _, rfl, rfl, (Nat.div_add_mod num den).symm⟩
  have hlt : r < den := hr ▸ Nat.mod_lt num hden
  have hx : (num : ℚ) / den = q + r / den := by
    rw [hnum]
    push_cast
    field_simp
  have hpart : (0 : ℚ) ≤ r / den := by positivity
  have hpart' : (r : ℚ) / den < 1 := (div_lt_one hden').mpr (by exact_mod_cast hlt)
  -- Both neighbours lie within one unit, and every other number lies behind one of them.
  have hside : (c : ℚ) ≤ q ∨ (q : ℚ) + 1 ≤ c := by
    rcases Nat.lt_or_ge q c with h | h
    · exact .inr (by exact_mod_cast h)
    · exact .inl (by exact_mod_cast h)
  have hother : (r : ℚ) / den ≤ |(c : ℚ) - (q + r / den)| ∨
      1 - (r : ℚ) / den ≤ |(c : ℚ) - (q + r / den)| := by
    rcases hside with h | h
    · exact .inl (le_abs.mpr (.inr (by linarith)))
    · exact .inr (le_abs.mpr (.inl (by linarith)))
  have hhalf : ∀ a : ℚ, 2 * a ≤ 1 ↔ a ≤ 1 - a := fun a => by constructor <;> intro h <;> linarith
  rw [hx]
  rcases divNearestEven_cases num den with ⟨heq, hle⟩ | ⟨heq, hle⟩
  · have hle : 2 * ((r : ℚ) / den) ≤ 1 := by
      rw [← mul_div_assoc, div_le_one hden']
      rw [hr] at hle
      exact_mod_cast hle
    rw [heq, hq, show (q : ℚ) - (q + r / den) = -(r / den) by ring, abs_neg, abs_of_nonneg hpart]
    rcases hother with h | h <;> linarith
  · have hle : 1 ≤ 2 * ((r : ℚ) / den) := by
      rw [← mul_div_assoc, one_le_div hden']
      rw [hr] at hle
      exact_mod_cast hle
    rw [heq, hq, Nat.cast_add, Nat.cast_one,
      show (q : ℚ) + 1 - (q + r / den) = 1 - r / den by ring, abs_of_nonneg (by linarith)]
    rcases hother with h | h <;> linarith

/-- Another number is as near only when nothing but one half is left over. -/
theorem half_of_tie {num den c : Nat} (hden : 0 < den) (hne : c ≠ divNearestEven num den)
    (htie : |(c : ℚ) - num / den| = |(divNearestEven num den : ℚ) - num / den|) :
    2 * (num % den) = den := by
  have hden' : (den : ℚ) ≠ 0 := by exact_mod_cast hden.ne'
  have hcases := divNearestEven_cases num den
  generalize divNearestEven num den = d at hne htie hcases
  obtain ⟨q, r, hq, hr, hnum⟩ : ∃ q r, num / den = q ∧ num % den = r ∧ num = den * q + r :=
    ⟨_, _, rfl, rfl, (Nat.div_add_mod num den).symm⟩
  have hlt : r < den := hr ▸ Nat.mod_lt num hden
  rw [hq, hr] at hcases
  rw [hr]
  -- The quotient is the middle between the two numbers, ...
  have hmiddle : den * (c + d) = den * (2 * q) + 2 * r := by
    have hsum : (c : ℚ) + d = 2 * (num / den) := by
      rcases abs_eq_abs.mp htie with h | h
      · exact absurd (by exact_mod_cast sub_left_injective h) hne
      · linarith
    rw [mul_div_assoc', eq_div_iff hden'] at hsum
    have hsum : (c + d) * den = 2 * num := by exact_mod_cast hsum
    rw [Nat.mul_comm, hsum, hnum]
    ring
  -- ... so twice the remainder is a multiple of the divisor, which it is not larger than.
  obtain ⟨j, hj⟩ : den ∣ 2 * r :=
    (Nat.dvd_add_right (Nat.dvd_mul_right _ _)).mp ⟨c + d, hmiddle.symm⟩
  have hj2 : j < 2 := Nat.lt_of_mul_lt_mul_left (a := den) (by omega)
  have hsum : c + d = 2 * q + j := by
    rw [hj, ← Nat.mul_add] at hmiddle
    exact Nat.eq_of_mul_eq_mul_left hden hmiddle
  obtain rfl | rfl : j = 0 ∨ j = 1 := by omega
  · omega
  · omega

/-- A tie goes to the even number. -/
theorem even_divNearestEven {num den : Nat} (h : 2 * (num % den) = den) :
    divNearestEven num den % 2 = 0 := by
  simp only [divNearestEven, h, gt_iff_lt, Nat.lt_irrefl, decide_false, Bool.false_or,
    beq_self_eq_true, Bool.true_and, beq_iff_eq]
  split
  · omega
  · omega

/-! ## Units -/

namespace Format

variable {f : Format}

/-- The units of a magnitude with a whole exponent, by its fields. -/
theorem units_of_fields (f : Format) (e : Nat) {j : Nat} (hj : j < 2 ^ (f.precision - 1)) :
    f.units ((e + 1) * 2 ^ (f.precision - 1) + j) = (2 ^ (f.precision - 1) + j) * 2 ^ e := by
  have hB : 0 < 2 ^ (f.precision - 1) := by positivity
  have hdiv : ((e + 1) * 2 ^ (f.precision - 1) + j) / 2 ^ (f.precision - 1) = e + 1 := by
    rw [Nat.add_comm, Nat.add_mul_div_right _ _ hB, Nat.div_eq_of_lt hj, Nat.zero_add]
  have hmod : ((e + 1) * 2 ^ (f.precision - 1) + j) % 2 ^ (f.precision - 1) = j := by
    rw [Nat.add_comm, Nat.add_mul_mod_self_right, Nat.mod_eq_of_lt hj]
  rw [units_eq_mul (by rw [hdiv]; omega), hdiv, hmod, Nat.add_sub_cancel]

theorem units_of_lt {n : Nat} (hn : n < 2 ^ (f.precision - 1)) : f.units n = n :=
  units_eq_self (Nat.div_eq_of_lt hn)

/-- A significand that is not longer than it may be, or just so long that it is rounded up
to the next power of two, is that of a magnitude. -/
theorem units_of_significand (f : Format) {k m : Nat} (hlow : k = 0 ∨ 2 ^ (f.precision - 1) ≤ m)
    (hhigh : m ≤ 2 ^ (f.precision - 1) + 2 ^ (f.precision - 1)) :
    f.units (k * 2 ^ (f.precision - 1) + m) = m * 2 ^ k := by
  rcases Nat.lt_or_ge m (2 ^ (f.precision - 1)) with hm | hm
  · have hk : k = 0 := hlow.resolve_right (by omega)
    rw [hk, Nat.zero_mul, Nat.zero_add, units_of_lt hm, pow_zero, Nat.mul_one]
  obtain ⟨j, rfl⟩ : ∃ j, m = 2 ^ (f.precision - 1) + j := ⟨m - 2 ^ (f.precision - 1), by omega⟩
  rcases Nat.lt_or_ge j (2 ^ (f.precision - 1)) with hj | hj
  · rw [← Nat.add_assoc, ← Nat.succ_mul, units_of_fields f k hj]
  · obtain rfl : j = 2 ^ (f.precision - 1) := by omega
    rw [← Nat.add_assoc, ← Nat.succ_mul, ← Nat.succ_mul]
    have hnext := units_of_fields f (k + 1) (j := 0) (by positivity)
    rw [Nat.add_zero, Nat.add_zero] at hnext
    rw [hnext]
    ring

theorem units_strictMono (f : Format) : StrictMono f.units := by
  apply strictMono_nat_of_lt_succ
  intro n
  have hB : 0 < 2 ^ (f.precision - 1) := by positivity
  obtain ⟨e, j, hj, rfl⟩ : ∃ e j, j < 2 ^ (f.precision - 1) ∧ n = e * 2 ^ (f.precision - 1) + j :=
    ⟨n / 2 ^ (f.precision - 1), n % 2 ^ (f.precision - 1), Nat.mod_lt _ hB,
      (Nat.div_add_mod' n _).symm⟩
  cases e with
  | zero =>
    have hnext := units_of_significand f (k := 0) (m := j + 1) (.inl rfl) (by omega)
    rw [Nat.zero_mul, Nat.zero_add] at hnext ⊢
    rw [units_of_lt hj, hnext]
    omega
  | succ e =>
    have hnext := units_of_significand f (k := e) (m := 2 ^ (f.precision - 1) + j + 1)
      (.inr (by omega)) (by omega)
    rw [show (e + 1) * 2 ^ (f.precision - 1) + j + 1 =
      e * 2 ^ (f.precision - 1) + (2 ^ (f.precision - 1) + j + 1) by ring, hnext,
      units_of_fields f e hj]
    exact Nat.mul_lt_mul_of_pos_right (by omega) (by positivity)

/-- Past the exponents of a power of two only its multiples are left. -/
theorem units_eq_mul_or_lt (f : Format) (n k : Nat) :
    (∃ c, f.units n = c * 2 ^ k) ∨ f.units n < 2 ^ (f.precision - 1) * 2 ^ k := by
  have hB : 0 < 2 ^ (f.precision - 1) := by positivity
  have hm : n % 2 ^ (f.precision - 1) < 2 ^ (f.precision - 1) := Nat.mod_lt _ hB
  by_cases he : n / 2 ^ (f.precision - 1) = 0
  · refine .inr ?_
    rw [units_eq_self he]
    exact ((Nat.div_eq_zero_iff_lt hB).mp he).trans_le (Nat.le_mul_of_pos_right _ (by positivity))
  · obtain ⟨e, hedef⟩ : ∃ e, n / 2 ^ (f.precision - 1) = e + 1 :=
      Nat.exists_eq_succ_of_ne_zero he
    rw [units_eq_mul he, hedef, Nat.add_sub_cancel]
    rcases Nat.lt_or_ge e k with hlt | hge
    · refine .inr ?_
      calc (2 ^ (f.precision - 1) + n % 2 ^ (f.precision - 1)) * 2 ^ e
          < (2 ^ (f.precision - 1) + 2 ^ (f.precision - 1)) * 2 ^ e :=
            Nat.mul_lt_mul_of_pos_right (by omega) (by positivity)
        _ = 2 ^ (f.precision - 1) * 2 ^ (e + 1) := by ring
        _ ≤ 2 ^ (f.precision - 1) * 2 ^ k :=
            Nat.mul_le_mul_left _ (Nat.pow_le_pow_right two_pos hlt)
    · refine .inl ⟨(2 ^ (f.precision - 1) + n % 2 ^ (f.precision - 1)) * 2 ^ (e - k), ?_⟩
      rw [Nat.mul_assoc, ← pow_add, Nat.sub_add_cancel hge]

/-! ## Rounding -/

/-- The quotient is shifted until it is no longer than a significand, and no further. -/
theorem shift_bounds (f : Format) (hp : 0 < f.precision) (t : Nat) :
    t < 2 ^ (f.precision - 1) * 2 ^ (t.log2 + 1 - f.precision) * 2 ∧
      (t.log2 + 1 - f.precision = 0 ∨
        2 ^ (f.precision - 1) * 2 ^ (t.log2 + 1 - f.precision) ≤ t) := by
  have hlt := Nat.lt_log2_self (n := t)
  rw [← pow_add, ← pow_succ]
  refine ⟨hlt.trans_le (Nat.pow_le_pow_right two_pos (by omega)), ?_⟩
  by_cases hshift : t.log2 + 1 - f.precision = 0
  · exact .inl hshift
  · have ht : t ≠ 0 := by
      rintro rfl
      rw [Nat.log2_zero] at hshift
      omega
    refine .inr ?_
    rw [show f.precision - 1 + (t.log2 + 1 - f.precision) = t.log2 by omega]
    exact Nat.log2_self_le ht

/-- What comes out of rounding before it is cut off at infinity: a significand that is the
nearest to the shifted quotient. -/
theorem exists_round_eq (f : Format) (hp : 0 < f.precision) (num : Nat) {den : Nat}
    (hden : 0 < den) :
    ∃ k m, f.round num den = min (k * 2 ^ (f.precision - 1) + m) f.infinity ∧
      m = divNearestEven (num * 2 ^ f.unitPower) (den * 2 ^ k) ∧
      (k = 0 ∨ 2 ^ (f.precision - 1) * 2 ^ k * den ≤ num * 2 ^ f.unitPower) ∧
      (k = 0 ∨ 2 ^ (f.precision - 1) ≤ m) ∧
      m ≤ 2 ^ (f.precision - 1) + 2 ^ (f.precision - 1) := by
  obtain ⟨s, hs⟩ : ∃ s, s = num * 2 ^ f.unitPower := ⟨_, rfl⟩
  obtain ⟨hhigh, hlow⟩ := f.shift_bounds hp (s / den)
  obtain ⟨k, hk⟩ : ∃ k, k = (s / den).log2 + 1 - f.precision := ⟨_, rfl⟩
  rw [← hk] at hhigh hlow
  have hquotient : s / (den * 2 ^ k) = s / den / 2 ^ k := (Nat.div_div_eq_div_mul s den _).symm
  have hupper : s / (den * 2 ^ k) < 2 ^ (f.precision - 1) + 2 ^ (f.precision - 1) := by
    rw [hquotient, Nat.div_lt_iff_lt_mul (by positivity)]
    calc s / den < 2 ^ (f.precision - 1) * 2 ^ k * 2 := hhigh
      _ = (2 ^ (f.precision - 1) + 2 ^ (f.precision - 1)) * 2 ^ k := by ring
  have hm := divNearestEven_cases s (den * 2 ^ k)
  refine ⟨k, divNearestEven s (den * 2 ^ k), ?_, by rw [hs], ?_, ?_, by omega⟩
  · simp only [round, Nat.pow_eq, ← hs, ← hk]
  · refine hlow.imp_right fun h => ?_
    rw [← hs]
    exact (Nat.le_div_iff_mul_le hden).mp h
  · refine hlow.imp_right fun h => ?_
    have : 2 ^ (f.precision - 1) ≤ s / (den * 2 ^ k) := by
      rw [hquotient]
      exact (Nat.le_div_iff_mul_le (by positivity)).mpr h
    omega

/-- Multiples of a power of two are as far from a ratio as their factors say. -/
theorem abs_mul_two_pow_sub (s k c : Nat) {den : Nat} (hden : 0 < den) :
    |((c * 2 ^ k : Nat) : ℚ) - s / den| = |(c : ℚ) - s / (den * 2 ^ k : Nat)| * 2 ^ k := by
  have hden' : (den : ℚ) ≠ 0 := by exact_mod_cast hden.ne'
  have hsplit : ((c * 2 ^ k : Nat) : ℚ) - s / den = (c - s / (den * 2 ^ k : Nat)) * 2 ^ k := by
    push_cast
    field_simp
  rw [hsplit, abs_mul, abs_of_pos (by positivity : (0 : ℚ) < 2 ^ k)]

/-- What lies below the smallest full significand is farther from a ratio above it. -/
theorem abs_full_sub_lt {s den a b : Nat} (hden : 0 < den) (hlow : b * den ≤ s) (hlt : a < b) :
    |(b : ℚ) - s / den| < |(a : ℚ) - s / den| := by
  have hden' : (0 : ℚ) < den := by exact_mod_cast hden
  have hle : (b : ℚ) ≤ s / den := by
    rw [le_div_iff₀ hden']
    exact_mod_cast hlow
  have hlt : (a : ℚ) < b := by exact_mod_cast hlt
  rw [abs_of_nonpos (by linarith), abs_of_nonpos (by linarith)]
  linarith

/-- Among the multiples of a power of two the nearest quotient decides. -/
theorem abs_multiple_sub_le (s k c : Nat) {den : Nat} (hden : 0 < den) :
    |((divNearestEven s (den * 2 ^ k) * 2 ^ k : Nat) : ℚ) - s / den| ≤
      |((c * 2 ^ k : Nat) : ℚ) - s / den| := by
  rw [abs_mul_two_pow_sub s k _ hden, abs_mul_two_pow_sub s k c hden]
  exact mul_le_mul_of_nonneg_right (divNearestEven_nearest s (by positivity) c) (by positivity)

/-- A magnitude that is not among the multiples lies below the smallest full significand,
which is one of them, so it is farther than the nearest. -/
theorem exists_multiple_or_farther (f : Format) {s k den : Nat} (hden : 0 < den)
    (hlow : k = 0 ∨ 2 ^ (f.precision - 1) * 2 ^ k * den ≤ s) (n : Nat) :
    (∃ c, f.units n = c * 2 ^ k) ∨
      |((divNearestEven s (den * 2 ^ k) * 2 ^ k : Nat) : ℚ) - s / den| <
        |(f.units n : ℚ) - s / den| := by
  rcases f.units_eq_mul_or_lt n k with hc | hlt
  · exact .inl hc
  · rcases hlow with rfl | hlow
    · exact .inl ⟨f.units n, (Nat.mul_one _).symm⟩
    · exact .inr ((abs_multiple_sub_le s k _ hden).trans_lt (abs_full_sub_lt hden hlow hlt))

/-- **Rounding is to the nearest, ties to even.** What comes out is cut off at infinity, no
magnitude has units nearer to the ratio, and if another one is as near, it is odd. -/
theorem exists_nearest (f : Format) (hp : 1 < f.precision) (num : Nat) {den : Nat}
    (hden : 0 < den) :
    ∃ r, f.round num den = min r f.infinity ∧
      (∀ n, |(f.units r : ℚ) - (num * 2 ^ f.unitPower : Nat) / den| ≤
        |(f.units n : ℚ) - (num * 2 ^ f.unitPower : Nat) / den|) ∧
      ∀ n, n ≠ r → |(f.units n : ℚ) - (num * 2 ^ f.unitPower : Nat) / den| =
        |(f.units r : ℚ) - (num * 2 ^ f.unitPower : Nat) / den| → r % 2 = 0 := by
  obtain ⟨k, m, hround, rfl, hlow, hfull, hhigh⟩ :=
    f.exists_round_eq (Nat.zero_lt_of_lt hp) num hden
  have hunits := units_of_significand f hfull hhigh
  have hother := f.exists_multiple_or_farther hden hlow
  generalize num * 2 ^ f.unitPower = s at hround hunits hother ⊢
  refine ⟨_, hround, fun n => ?_, fun n hne htie => ?_⟩
  · rw [hunits]
    rcases hother n with ⟨c, hc⟩ | hlt
    · rw [hc]
      exact abs_multiple_sub_le s k c hden
    · exact hlt.le
  · rw [hunits] at htie
    rcases hother n with ⟨c, hc⟩ | hlt
    · have hcm : c ≠ divNearestEven s (den * 2 ^ k) := by
        rintro rfl
        exact hne (f.units_strictMono.injective (hc.trans hunits.symm))
      rw [hc, abs_mul_two_pow_sub s k c hden, abs_mul_two_pow_sub s k _ hden] at htie
      have hhalf := half_of_tie (by positivity) hcm (mul_right_cancel₀ (by positivity) htie)
      -- A full significand is even, so the number of the magnitude is even with the quotient.
      have hfull : 2 ∣ 2 ^ (f.precision - 1) := dvd_pow_self 2 (by omega)
      exact Nat.mod_eq_zero_of_dvd
        ((hfull.mul_left k).add (Nat.dvd_of_mod_eq_zero (even_divNearestEven hhalf)))
    · exact absurd htie hlt.ne'

/-! ## What a number is rounded to -/

/-- No number that the format represents is nearer. -/
def IsNearest (f : Format) (q y : ℚ) : Prop :=
  f.Represents y ∧ ∀ z, f.Represents z → |y - q| ≤ |z - q|

/-- The number is larger, by its size, than all that the format represents. -/
def Exceeded (f : Format) (q : ℚ) : Prop :=
  ∀ z, f.Represents z → |z| < |q|

/-- A number is its own nearest just when it is represented. -/
theorem IsNearest.eq_iff {q y : ℚ} (h : f.IsNearest q y) : y = q ↔ f.Represents q := by
  constructor
  · rintro rfl
    exact h.1
  · intro hq
    have hle := h.2 q hq
    rw [sub_self, abs_zero, abs_nonpos_iff, sub_eq_zero] at hle
    exact hle

theorem Exceeded.not_represents {q : ℚ} (h : f.Exceeded q) : ¬ f.Represents q :=
  fun hq => lt_irrefl _ (h q hq)

theorem isNearest_self {q : ℚ} (h : f.Represents q) : f.IsNearest q q := by
  refine ⟨h, fun z _ => ?_⟩
  rw [sub_self, abs_zero]
  exact abs_nonneg _

theorem value_sub_eq (hp : 0 < f.precision) (hu : f.precision ≤ f.unitPower + 2)
    {num den : Nat} (n : Nat) :
    f.value n - num / den =
      ((f.units n : ℚ) - (num * 2 ^ f.unitPower : Nat) / den) / 2 ^ f.unitPower := by
  rw [value_eq_units hp hu]
  push_cast
  field_simp

/-- A size is rounded to the nearest, or it exceeds the format and becomes infinity. -/
theorem round_cases (hp : 1 < f.precision) (hu : f.precision ≤ f.unitPower + 2)
    {num den : Nat} (hden : 0 < den) {negative : Bool} {q : ℚ} (hsize : (num : ℚ) / den = |q|)
    (hsign : signed negative |q| = q) :
    (f.round num den < f.infinity ∧
      f.IsNearest q (signed negative (f.value (f.round num den)))) ∨
    (f.round num den = f.infinity ∧ f.Exceeded q) := by
  have hp' := Nat.zero_lt_of_lt hp
  obtain ⟨r, hround, hnearest, -⟩ := f.exists_nearest hp num hden
  rcases Nat.lt_or_ge r f.infinity with hr | hr
  · rw [Nat.min_eq_left hr.le] at hround
    refine .inl ⟨hround ▸ hr, ⟨r, hr, ?_⟩, ?_⟩
    · rw [hround, abs_signed, abs_of_nonneg (value_nonneg f r)]
    · rintro z ⟨n, -, hz⟩
      have hle : |f.value r - num / den| ≤ |f.value n - num / den| := by
        rw [value_sub_eq hp' hu, value_sub_eq hp' hu, abs_div, abs_div]
        exact div_le_div_of_nonneg_right (hnearest n) (abs_nonneg _)
      calc |signed negative (f.value (f.round num den)) - q|
          = |f.value r - (|q|)| := by
            conv_lhs => rw [hround, ← hsign, abs_signed_sub_signed]
        _ ≤ |(|z|) - (|q|)| := by rwa [hz, ← hsize]
        _ ≤ |z - q| := abs_abs_sub_abs_le z q
  · rw [Nat.min_eq_right hr] at hround
    refine .inr ⟨hround, ?_⟩
    rintro z ⟨n, hn, hz⟩
    rw [hz, ← hsize]
    by_contra hle
    -- A ratio that does not exceed the magnitude is nearer to it than to one past infinity.
    have hunits : (f.units n : ℚ) < f.units r := by
      exact_mod_cast f.units_strictMono (hn.trans_le hr)
    have hbelow : (num * 2 ^ f.unitPower : Nat) / den ≤ (f.units n : ℚ) := by
      have hneg := sub_nonneg.mpr (not_lt.mp hle)
      rw [value_sub_eq hp' hu, div_nonneg_iff] at hneg
      have hpow : (0 : ℚ) < 2 ^ f.unitPower := by positivity
      rcases hneg with ⟨h, -⟩ | ⟨-, h⟩ <;> linarith
    have hcontra := hnearest n
    rw [abs_of_nonneg (by linarith), abs_of_nonneg (by linarith)] at hcontra
    linarith

/-! ## Ties -/

/-- The magnitude is the nearest to a size, and the even one of two that are equally near.
Magnitudes past infinity are counted as well. -/
structure NearestEven (f : Format) (q : ℚ) (n : Nat) : Prop where
  nearest : ∀ k, |f.value n - q| ≤ |f.value k - q|
  even : ∀ k, k ≠ n → |f.value k - q| = |f.value n - q| → n % 2 = 0

theorem exists_nearestEven (hp : 1 < f.precision) (hu : f.precision ≤ f.unitPower + 2) (num : Nat)
    {den : Nat} (hden : 0 < den) :
    ∃ n, f.round num den = min n f.infinity ∧ f.NearestEven (num / den) n := by
  obtain ⟨r, hround, hnearest, heven⟩ := f.exists_nearest hp num hden
  have hpow : (0 : ℚ) < |2 ^ f.unitPower| := abs_pos.mpr (by positivity)
  have hp' := Nat.zero_lt_of_lt hp
  refine ⟨r, hround, fun k => ?_, fun k hk htie => heven k hk ?_⟩
  · rw [value_sub_eq hp' hu, value_sub_eq hp' hu, abs_div, abs_div]
    exact div_le_div_of_nonneg_right (hnearest k) hpow.le
  · rw [value_sub_eq hp' hu, value_sub_eq hp' hu, abs_div, abs_div] at htie
    exact (div_left_inj' hpow.ne').mp htie

theorem value_strictMono (hp : 0 < f.precision) (hu : f.precision ≤ f.unitPower + 2) :
    StrictMono f.value := by
  intro n m hlt
  rw [value_eq_units hp hu, value_eq_units hp hu]
  have hunits : (f.units n : ℚ) < f.units m := by exact_mod_cast f.units_strictMono hlt
  exact div_lt_div_of_pos_right hunits (by positivity)

/-- Two even magnitudes are not equally near: one between them is nearer. -/
theorem NearestEven.le {q : ℚ} {n m : Nat} (hp : 0 < f.precision)
    (hu : f.precision ≤ f.unitPower + 2) (h : f.NearestEven q n) (h' : f.NearestEven q m) :
    m ≤ n := by
  by_contra hlt
  have hlt : n < m := not_le.mp hlt
  have htie := le_antisymm (h.nearest m) (h'.nearest n)
  have hn := h.even m hlt.ne' htie.symm
  have hm := h'.even n hlt.ne htie
  have hbelow : f.value n < f.value (n + 1) := value_strictMono hp hu (Nat.lt_succ_self n)
  have habove : f.value (n + 1) < f.value m := value_strictMono hp hu (by omega)
  have hbetween := h.nearest (n + 1)
  rcases abs_eq_abs.mp htie with heq | heq
  · linarith
  · rw [abs_of_nonpos (by linarith), le_abs] at hbetween
    rcases hbetween with hle | hle <;> linarith

theorem NearestEven.unique {q : ℚ} {n m : Nat} (hp : 0 < f.precision)
    (hu : f.precision ≤ f.unitPower + 2) (h : f.NearestEven q n) (h' : f.NearestEven q m) :
    n = m :=
  le_antisymm (h'.le hp hu h) (h.le hp hu h')

end Format

namespace Binary64

/-- A float is what a number is rounded to in a format: the nearest that the format
represents, or an infinity if the number exceeds the format. -/
def Rounds (f : Format) (q : ℚ) (x : Binary64) : Prop :=
  (∃ y, x.value? = some y ∧ f.IsNearest q y) ∨ (x.isInfinite = true ∧ f.Exceeded q)

theorem Rounds.represents {f : Format} {q y : ℚ} {x : Binary64} (h : Rounds f q x)
    (hx : x.value? = some y) : f.Represents y := by
  rcases h with ⟨z, hz, hnearest⟩ | ⟨hinfinite, -⟩
  · rw [hx, Option.some.injEq] at hz
    exact hz ▸ hnearest.1
  · have hfinite := isFinite_iff.mp (value?_eq_some_iff.mp hx).1
    rw [isInfinite, beq_iff_eq] at hinfinite
    omega

/-- A number that is represented is rounded to itself. -/
theorem Rounds.value?_eq {f : Format} {q : ℚ} {x : Binary64} (h : Rounds f q x)
    (hq : f.Represents q) : x.value? = some q := by
  rcases h with ⟨y, hy, hnearest⟩ | ⟨-, hexceeded⟩
  · rw [hy, hnearest.eq_iff.mpr hq]
  · exact absurd hq hexceeded.not_represents

theorem isInfinite_infinite (negative : Bool) : (infinite negative).isInfinite = true := by
  rw [isInfinite, infinite, magnitude_ofMagnitude infinity_lt, beq_iff_eq]

theorem rounds_ofRatio {num den : Nat} (hden : 0 < den) {negative : Bool} {q : ℚ}
    (hsize : (num : ℚ) / den = |q|) (hsign : signed negative |q| = q) :
    Rounds .double q (ofRatio negative num den) := by
  rw [ofRatio]
  rcases Format.round_cases (f := .double) (by decide) (by decide) hden hsize hsign with
    ⟨hlt, hnearest⟩ | ⟨heq, hexceeded⟩
  · exact .inl ⟨_, value?_ofMagnitude negative hlt, hnearest⟩
  · rw [heq]
    exact .inr ⟨isInfinite_infinite negative, hexceeded⟩

/-- An integer is rounded to double precision. -/
theorem rounds_ofInt (i : Int) : Rounds .double i (ofInt i) := by
  apply rounds_ofRatio Nat.one_pos
  · rw [Nat.cast_one, div_one, ← Int.cast_abs, Int.abs_eq_natAbs, Int.cast_natCast]
  · apply signed_abs
    · intro hneg
      exact_mod_cast (of_decide_eq_true hneg).le
    · intro hpos
      exact_mod_cast not_lt.mp (of_decide_eq_false hpos)

/-- A double is rounded to single precision. -/
theorem rounds_narrow {x : Binary64} {q : ℚ} (hx : x.value? = some q) :
    Rounds .single q x.narrow := by
  obtain ⟨hfinite, hq⟩ := value?_eq_some_iff.mp hx
  have habs : |q| = Format.double.value x.magnitude := by
    rw [← hq, abs_signed, abs_of_nonneg (Format.value_nonneg _ _)]
  have hsize := (value_magnitude x (cast_two_pow 1074)).symm.trans habs.symm
  have hsign : signed x.negative |q| = q := by rw [habs, hq]
  rw [narrow, if_pos hfinite]
  rcases Format.round_cases (f := .single) (by decide) (by decide) (two_pow_pos 1074) hsize hsign
    with ⟨hlt, hnearest⟩ | ⟨heq, hexceeded⟩
  · exact .inl ⟨_, value?_ofSingle x.negative hlt, hnearest⟩
  · rw [heq, ofSingle, if_neg (lt_irrefl _)]
    exact .inr ⟨isInfinite_infinite _, hexceeded⟩

end Binary64

end Wiring.Number
