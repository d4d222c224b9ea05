import Mathlib.Tactic.Positivity
import Mathlib.Tactic.Ring
import Wiring.Number.Binary

/-!
# Rounding what needs no rounding

A ratio that is the value of a magnitude rounds to that magnitude. Every
single-precision number is a double-precision number, so narrowing a second
time changes nothing.
-/

namespace Wiring.Number

/-! ## Rounding is exact on magnitudes -/

theorem divNearestEven_mul {q den : Nat} (hden : 0 < den) : divNearestEven (q * den) den = q := by
  simp only [divNearestEven, Nat.mul_div_cancel q hden, Nat.mul_mod_left]
  rw [if_neg]
  simp only [Nat.mul_zero, Bool.or_eq_true, decide_eq_true_eq, Bool.and_eq_true, beq_iff_eq]
  omega

/-- A magnitude with a whole exponent is a significand of full length times a power of two. -/
theorem Format.units_eq_mul {f : Format} {n : Nat} (h : n / 2 ^ (f.precision - 1) ≠ 0) :
    f.units n = (2 ^ (f.precision - 1) + n % 2 ^ (f.precision - 1)) *
      2 ^ (n / 2 ^ (f.precision - 1) - 1) := by
  simp only [Format.units, Nat.pow_eq, if_neg h]

theorem Format.units_eq_self {f : Format} {n : Nat} (h : n / 2 ^ (f.precision - 1) = 0) :
    f.units n = n := by
  simp only [Format.units, Nat.pow_eq, if_pos h]
  exact Nat.mod_eq_of_lt ((Nat.div_eq_zero_iff_lt (by positivity)).mp h)

/-- The power of two that `round` scales by: what the exponent of a magnitude says. -/
theorem Format.log2_units {f : Format} (hp : 0 < f.precision) (n : Nat) :
    Nat.log2 (f.units n) + 1 - f.precision = n / 2 ^ (f.precision - 1) - 1 := by
  have hB : 0 < 2 ^ (f.precision - 1) := by positivity
  by_cases he : n / 2 ^ (f.precision - 1) = 0
  · rw [Format.units_eq_self he, he]
    have hn : n < 2 ^ (f.precision - 1) := (Nat.div_eq_zero_iff_lt hB).mp he
    by_cases h0 : n = 0
    · subst h0
      rw [Nat.log2_zero]
      omega
    · have := (Nat.log2_lt h0).mpr hn
      omega
  · rw [Format.units_eq_mul he]
    set B := 2 ^ (f.precision - 1) with hBdef
    set e := n / B
    have hm : n % B < B := Nat.mod_lt _ hB
    -- The significand lies between `B` and `2 * B`, so it adds nothing to the exponent.
    have hlog : Nat.log2 ((B + n % B) * 2 ^ (e - 1)) = f.precision - 1 + (e - 1) := by
      rw [Nat.log2_eq_iff (by positivity)]
      constructor
      · rw [pow_add, ← hBdef]
        exact Nat.mul_le_mul_right _ (Nat.le_add_right _ _)
      · calc (B + n % B) * 2 ^ (e - 1) < (B + B) * 2 ^ (e - 1) :=
              Nat.mul_lt_mul_of_pos_right (by omega) (by positivity)
          _ = 2 ^ (f.precision - 1 + (e - 1) + 1) := by rw [hBdef]; ring
    rw [hlog]
    omega

/-- **Exact rounding.** A ratio that is the value of a magnitude rounds to it. -/
theorem Format.round_eq {f : Format} (hp : 0 < f.precision) {num den n : Nat} (hden : 0 < den)
    (hn : n < f.infinity) (h : num * 2 ^ f.unitPower = f.units n * den) :
    f.round num den = n := by
  have hB : 0 < 2 ^ (f.precision - 1) := by positivity
  have hdiv : f.units n * den / den = f.units n := Nat.mul_div_cancel _ hden
  simp only [Format.round, Nat.pow_eq, h, hdiv, Format.log2_units hp]
  have hsplit := Nat.div_add_mod n (2 ^ (f.precision - 1))
  by_cases he : n / 2 ^ (f.precision - 1) = 0
  · rw [he, Format.units_eq_self he]
    simp only [Nat.zero_sub, pow_zero, Nat.mul_one, divNearestEven_mul hden, Nat.zero_mul,
      Nat.zero_add]
    exact Nat.min_eq_left hn.le
  · rw [Format.units_eq_mul he]
    set B := 2 ^ (f.precision - 1)
    set e := n / B
    have hmul : (B + n % B) * 2 ^ (e - 1) * den = (B + n % B) * (den * 2 ^ (e - 1)) := by ring
    rw [hmul, divNearestEven_mul (by positivity)]
    have hsum : (e - 1) * B + (B + n % B) = n := by
      obtain ⟨k, hk⟩ : ∃ k, e = k + 1 := Nat.exists_eq_succ_of_ne_zero he
      rw [hk] at hsplit
      rw [hk, Nat.add_sub_cancel]
      calc k * B + (B + n % B) = B * (k + 1) + n % B := by ring
        _ = n := hsplit
    rw [hsum]
    exact Nat.min_eq_left hn.le

theorem Format.round_pow_eq {f : Format} (hp : 0 < f.precision) {num n : Nat} (j : Nat)
    (hn : n < f.infinity) (h : num * 2 ^ f.unitPower = f.units n * 2 ^ j) :
    f.round num (Nat.pow 2 j) = n :=
  round_eq hp (Nat.two_pow_pos j) hn h

/-! ## Single precision within double precision -/

/-- A normal single-precision number keeps its significand, 29 bits further up. -/
theorem Format.exists_double_of_normal {n : Nat} (hn : n < Format.single.infinity)
    (he : n / 2 ^ 23 ≠ 0) :
    ∃ k < Format.double.infinity, Format.double.units k = Format.single.units n * 2 ^ 925 := by
  have hn' : n < 255 * 2 ^ 23 := hn
  have hm : n % 2 ^ 23 < 2 ^ 23 := Nat.mod_lt _ (by positivity)
  have hlt : n / 2 ^ 23 < 255 := (Nat.div_lt_iff_lt_mul (by positivity)).mpr hn'
  obtain ⟨e, hedef⟩ : ∃ e, n / 2 ^ 23 = e + 1 := Nat.exists_eq_succ_of_ne_zero he
  set m := n % 2 ^ 23
  refine ⟨(e + 897) * 2 ^ 52 + m * 2 ^ 29, ?_, ?_⟩
  · show (e + 897) * 2 ^ 52 + m * 2 ^ 29 < 2047 * 2 ^ 52
    omega
  · have hk : ((e + 897) * 2 ^ 52 + m * 2 ^ 29) / 2 ^ 52 = e + 897 := by omega
    have hmod : ((e + 897) * 2 ^ 52 + m * 2 ^ 29) % 2 ^ 52 = m * 2 ^ 29 := by omega
    have hdouble := Format.units_eq_mul (f := Format.double) (n := (e + 897) * 2 ^ 52 + m * 2 ^ 29)
      (show _ / 2 ^ 52 ≠ 0 by omega)
    have hsingle := Format.units_eq_mul (f := Format.single) (n := n) he
    rw [hdouble, hsingle]
    show (2 ^ 52 + _ % 2 ^ 52) * 2 ^ (_ / 2 ^ 52 - 1) =
      (2 ^ 23 + m) * 2 ^ (n / 2 ^ 23 - 1) * 2 ^ 925
    have hpow : 2 ^ e * 2 ^ 925 = 2 ^ 29 * 2 ^ (e + 896) := by
      rw [← pow_add, ← pow_add, show e + 925 = 29 + (e + 896) by omega]
    rw [hk, hmod, hedef, Nat.add_sub_cancel, show e + 897 - 1 = e + 896 by omega, Nat.mul_assoc,
      hpow]
    generalize 2 ^ (e + 896) = P
    ring

/-- A subnormal single-precision number has a whole exponent in double precision. -/
theorem Format.exists_double_of_subnormal {n : Nat} (hn : n < 2 ^ 23) :
    ∃ k < Format.double.infinity, Format.double.units k = Format.single.units n * 2 ^ 925 := by
  have hsingle : Format.single.units n = n :=
    Format.units_eq_self (f := Format.single) (Nat.div_eq_of_lt hn)
  rw [hsingle]
  by_cases h0 : n = 0
  · subst h0
    have hdouble : Format.double.units 0 = 0 := Format.units_eq_self (Nat.zero_div _)
    refine ⟨0, by decide, ?_⟩
    generalize 2 ^ 925 = P
    rw [hdouble, Nat.zero_mul]
  have hlog : n.log2 < 23 := (Nat.log2_lt h0).mpr hn
  have hle := Nat.log2_self_le h0
  have hlt := Nat.lt_log2_self (n := n)
  set l := n.log2
  obtain ⟨d, hd⟩ : ∃ d, l + d = 52 := ⟨52 - l, by omega⟩
  have hsum : d + (l + 873) = 925 := by omega
  have h52 : 2 ^ 52 = 2 ^ l * 2 ^ d := by rw [← pow_add, hd]
  have hlow : 2 ^ 52 ≤ n * 2 ^ d := by
    rw [h52]
    exact Nat.mul_le_mul_right _ hle
  have hhigh : n * 2 ^ d < 2 ^ 53 := by
    calc n * 2 ^ d < 2 ^ (l + 1) * 2 ^ d := Nat.mul_lt_mul_of_pos_right hlt (by positivity)
      _ = 2 ^ 53 := by rw [← pow_add]; congr 1; omega
  obtain ⟨m, hm⟩ : ∃ m, n * 2 ^ d = 2 ^ 52 + m := ⟨n * 2 ^ d - 2 ^ 52, by omega⟩
  refine ⟨(l + 874) * 2 ^ 52 + m, ?_, ?_⟩
  · show (l + 874) * 2 ^ 52 + m < 2047 * 2 ^ 52
    omega
  · have hk : ((l + 874) * 2 ^ 52 + m) / 2 ^ 52 = l + 874 := by omega
    have hmod : ((l + 874) * 2 ^ 52 + m) % 2 ^ 52 = m := by omega
    have hdouble := Format.units_eq_mul (f := Format.double) (n := (l + 874) * 2 ^ 52 + m)
      (show _ / 2 ^ 52 ≠ 0 by omega)
    rw [hdouble]
    show (2 ^ 52 + _ % 2 ^ 52) * 2 ^ (_ / 2 ^ 52 - 1) = n * 2 ^ 925
    rw [hk, hmod, ← hm, Nat.add_sub_cancel (m := 1), Nat.mul_assoc, ← pow_add, hsum]

theorem Format.exists_double {n : Nat} (hn : n < Format.single.infinity) :
    ∃ k < Format.double.infinity, Format.double.units k = Format.single.units n * 2 ^ 925 := by
  by_cases he : n / 2 ^ 23 = 0
  · exact exists_double_of_subnormal ((Nat.div_eq_zero_iff_lt (by positivity)).mp he)
  · exact exists_double_of_normal hn he

namespace Binary64

theorem toNat_ofMagnitude {negative : Bool} {n : Nat} (hn : n < 2 ^ 63) :
    (ofMagnitude negative n).bits.toNat = (if negative then 2 ^ 63 else 0) + n := by
  simp only [ofMagnitude, UInt64.toNat_ofNat', Nat.pow_eq]
  exact Nat.mod_eq_of_lt (by split <;> omega)

theorem magnitude_ofMagnitude {negative : Bool} {n : Nat} (hn : n < 2 ^ 63) :
    (ofMagnitude negative n).magnitude = n := by
  rw [magnitude, toNat_ofMagnitude hn, Nat.pow_eq]
  split <;> omega

theorem negative_ofMagnitude {negative : Bool} {n : Nat} (hn : n < 2 ^ 63) :
    (ofMagnitude negative n).negative = negative := by
  rw [Binary64.negative, toNat_ofMagnitude hn, Nat.pow_eq]
  cases negative with
  | false => simpa using hn
  | true => simp

theorem infinity_lt : Format.double.infinity < 2 ^ 63 := by
  decide

/-- A single-precision number narrows to itself. -/
theorem narrow_ofSingle (negative : Bool) (n : Nat) :
    (ofSingle negative n).narrow = ofSingle negative n := by
  unfold ofSingle
  by_cases hn : n < Format.single.infinity
  · rw [if_pos hn]
    obtain ⟨k, hk, hunits⟩ := Format.exists_double hn
    -- The units of the two formats are `2 ^ 149` and `2 ^ 1074` to one, 925 powers apart.
    have hto : Format.single.units n * 2 ^ Format.double.unitPower =
        Format.double.units k * 2 ^ 149 := by
      rw [hunits, Nat.mul_assoc, ← pow_add, show Format.double.unitPower = 925 + 149 from rfl]
    have hfrom : Format.double.units k * 2 ^ Format.single.unitPower =
        Format.single.units n * 2 ^ 1074 := by
      rw [hunits, show Format.single.unitPower = 149 from rfl,
        show (1074 : Nat) = 925 + 149 from rfl, pow_add, Nat.mul_assoc]
    have hround := Format.round_pow_eq (by decide) 149 hk hto
    have hback := Format.round_pow_eq (by decide) 1074 hn hfrom
    have hk' : k < 2 ^ 63 := hk.trans infinity_lt
    have hfinite : (ofMagnitude negative k).isFinite = true := by
      rw [isFinite, magnitude_ofMagnitude hk']
      exact decide_eq_true hk
    rw [ofRatio, hround, narrow, if_pos hfinite, negative_ofMagnitude hk', units,
      magnitude_ofMagnitude hk', hback, ofSingle, if_pos hn, ofRatio, hround]
  · rw [if_neg hn, narrow, if_neg]
    rw [isFinite, infinite, magnitude_ofMagnitude infinity_lt]
    simp

theorem ofSingle_zero : ofSingle false 0 = zero := by
  have hround : Format.double.round 0 (Nat.pow 2 149) = 0 :=
    Format.round_pow_eq (by decide) 149 (by decide)
      (by rw [Format.units_eq_self (Nat.zero_div _), Nat.zero_mul, Nat.zero_mul])
  rw [ofSingle, if_pos (by decide), ofRatio, show Format.single.units 0 = 0 from rfl, hround]
  rfl

theorem narrow_zero : zero.narrow = zero := by
  rw [← ofSingle_zero, narrow_ofSingle]

/-- **Narrowing settles.** A number rounded to single precision is not changed by
rounding it again. -/
theorem narrow_narrow (x : Binary64) : x.narrow.narrow = x.narrow := by
  by_cases h : x.isFinite
  · rw [show x.narrow = _ from if_pos h, narrow_ofSingle]
  · rw [show x.narrow = x from if_neg h, show x.narrow = x from if_neg h]

end Binary64

end Wiring.Number
