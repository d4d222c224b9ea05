import Mathlib.Tactic.Linarith
import Wiring.Number.Literal
import Wiring.Proofs.Number.Nearest
import Wiring.Proofs.Number.Numerals
import Wiring.Proofs.Text.Words

/-!
# Float literals are read for the nearest double

The literals have a grammar, and a decimal number in it is a rational: the digits behind the
point are its fraction, and a power of ten may follow. Each reader takes the texts of its part
of the grammar and no others. The rational is rounded once, to the nearest double, and a
decimal so large or so small that no ratio is computed gets the same double as by rounding.
-/

namespace Wiring.Number

open Wiring.Text

/-! ## The ends of a format -/

namespace Format

variable {f : Format}

theorem value_zero (f : Format) : f.value 0 = 0 := by
  simp [value]

/-- Where an exponent starts, the fraction is zero. -/
theorem value_mul_two_pow (f : Format) {e : Nat} (he : e ≠ 0) :
    f.value (e * 2 ^ (f.precision - 1)) = 2 ^ (e - f.bias : ℤ) := by
  simp [value, he]

/-- What is at most half of the smallest magnitude is rounded to zero. -/
theorem nearestEven_zero {q : ℚ} (hp : 0 < f.precision) (hu : f.precision ≤ f.unitPower + 2)
    (hq : 0 ≤ q) (hhalf : 2 * q ≤ f.value 1) : f.NearestEven q 0 := by
  refine ⟨fun k => ?_, fun _ _ _ => rfl⟩
  rw [value_zero, zero_sub, abs_neg, abs_of_nonneg hq, le_abs]
  cases k with
  | zero => exact .inr (by rw [value_zero]; linarith)
  | succ k =>
    have hmono := (value_strictMono hp hu).monotone (Nat.le_add_left 1 k)
    exact .inl (by linarith)

/-- What reaches the number behind the last magnitude is rounded to infinity. -/
theorem NearestEven.infinity_le {q : ℚ} {n : Nat} (hp : 0 < f.precision)
    (hu : f.precision ≤ f.unitPower + 2) (h : f.NearestEven q n) (hq : f.value f.infinity ≤ q) :
    f.infinity ≤ n := by
  by_contra hlt
  have hvalue : f.value n < f.value f.infinity := value_strictMono hp hu (not_le.mp hlt)
  have hnearest := h.nearest f.infinity
  rw [abs_of_nonpos (by linarith), abs_of_nonpos (by linarith)] at hnearest
  linarith

end Format

/-! ## Decimal numbers -/

namespace Decimal

/-- The number that a decimal stands for. -/
def value (d : Decimal) : ℚ :=
  d.significand * 10 ^ d.exponent

theorem value_nonneg (d : Decimal) : 0 ≤ d.value := by
  rw [value]
  positivity

/-- Digits and exponent bound a decimal that is not zero. -/
theorem value_bounds {d : Decimal} (hd : d.significand ≠ 0) :
    (10 : ℚ) ^ ((writeNat d.significand).length + d.exponent - 1) ≤ d.value ∧
      d.value < 10 ^ ((writeNat d.significand).length + d.exponent) := by
  have hpow : (0 : ℚ) < 10 ^ d.exponent := by positivity
  obtain ⟨k, hk⟩ : ∃ k, (writeNat d.significand).length = k + 1 :=
    Nat.exists_eq_succ_of_ne_zero (by simpa using writeNat_ne_nil d.significand)
  have hlow : 10 ^ k ≤ d.significand := by
    by_contra hlt
    rcases k.eq_zero_or_pos with rfl | hpos
    · omega
    · have := (Nat.length_toDigits_le_iff (by decide) hpos).mpr (not_le.mp hlt)
      rw [writeNat] at hk
      omega
  have hhigh : d.significand < 10 ^ (k + 1) :=
    (Nat.length_toDigits_le_iff (by decide) k.succ_pos).mp hk.le
  rw [hk, show ((k + 1 : Nat) + d.exponent - 1 : ℤ) = k + d.exponent by push_cast; ring,
    zpow_add₀ (by norm_num), zpow_add₀ (by norm_num), zpow_natCast, zpow_natCast, value]
  constructor
  · exact mul_le_mul_of_nonneg_right (by exact_mod_cast hlow) hpow.le
  · exact mul_lt_mul_of_pos_right (by exact_mod_cast hhigh) hpow

theorem two_pow_le_ten_pow {m n : Nat} (h : m ≤ 3 * n) : (2 : ℚ) ^ m ≤ 10 ^ n :=
  calc (2 : ℚ) ^ m ≤ 2 ^ (3 * n) := pow_le_pow_right₀ (by norm_num) h
    _ = (2 ^ 3) ^ n := pow_mul 2 3 n
    _ ≤ 10 ^ n := pow_le_pow_left₀ (by norm_num) (by norm_num) n

theorem two_mul_le_of_order {d : Decimal} (hd : d.significand ≠ 0)
    (horder : (writeNat d.significand).length + d.exponent < -extremeOrder) :
    2 * d.value ≤ Format.double.value 1 := by
  have horder : (writeNat d.significand).length + d.exponent ≤ -(401 : Nat) := by
    rw [extremeOrder] at horder
    omega
  have hone : Format.double.value 1 = 1 / 2 ^ 1074 := by
    rw [Format.value_double, Format.units_of_lt (by decide), Nat.cast_one]
  have htiny : d.value ≤ 1 / 10 ^ 401 := by
    rw [one_div, ← zpow_natCast, ← zpow_neg]
    exact (value_bounds hd).2.le.trans (zpow_le_zpow_right₀ (by norm_num) horder)
  have hpow : (2 : ℚ) ^ 1074 * 2 ≤ 10 ^ 401 := by
    rw [← pow_succ]
    exact two_pow_le_ten_pow (by norm_num)
  rw [hone]
  calc 2 * d.value ≤ 2 * (1 / 10 ^ 401) := mul_le_mul_of_nonneg_left htiny two_pos.le
    _ ≤ 2 * (1 / (2 ^ 1074 * 2)) :=
      mul_le_mul_of_nonneg_left (one_div_le_one_div_of_le (by positivity) hpow) two_pos.le
    _ = 1 / 2 ^ 1074 := by field_simp

theorem infinity_le_of_order {d : Decimal} (hd : d.significand ≠ 0)
    (horder : extremeOrder < (writeNat d.significand).length + d.exponent) :
    Format.double.value Format.double.infinity ≤ d.value := by
  have horder : ((400 : Nat) : ℤ) ≤ (writeNat d.significand).length + d.exponent - 1 := by
    rw [extremeOrder] at horder
    omega
  have hinfinity : Format.double.value Format.double.infinity = 2 ^ 1024 :=
    Format.value_mul_two_pow .double (e := 2047) (by decide)
  rw [hinfinity]
  calc (2 : ℚ) ^ 1024 ≤ 10 ^ 400 := two_pow_le_ten_pow (by norm_num)
    _ = 10 ^ ((400 : Nat) : ℤ) := (zpow_natCast 10 400).symm
    _ ≤ _ := zpow_le_zpow_right₀ (by norm_num) horder
    _ ≤ d.value := (value_bounds hd).1

theorem div_pow_eq_value {d : Decimal} (h : d.exponent < 0) :
    (d.significand : ℚ) / (Nat.pow 10 d.exponent.natAbs : Nat) = d.value := by
  obtain ⟨k, hk⟩ : ∃ k : Nat, d.exponent = -k := ⟨d.exponent.natAbs, by omega⟩
  rw [value, hk, Int.natAbs_neg, Int.natAbs_natCast, zpow_neg, zpow_natCast, Nat.pow_eq,
    Nat.cast_pow, Nat.cast_ofNat, div_eq_mul_inv]

theorem mul_pow_eq_value {d : Decimal} (h : 0 ≤ d.exponent) :
    ((d.significand * Nat.pow 10 d.exponent.natAbs : Nat) : ℚ) / (1 : Nat) = d.value := by
  obtain ⟨k, hk⟩ : ∃ k : Nat, d.exponent = k := ⟨d.exponent.natAbs, by omega⟩
  rw [value, hk, Int.natAbs_natCast, zpow_natCast, Nat.pow_eq, Nat.cast_mul, Nat.cast_pow,
    Nat.cast_ofNat, Nat.cast_one, div_one]

/-- A decimal is the ratio that is rounded for it. -/
theorem exists_ofRatio (negative : Bool) (d : Decimal) :
    ∃ n, (if d.exponent < 0 then
        Binary64.ofRatio negative d.significand (Nat.pow 10 d.exponent.natAbs)
      else Binary64.ofRatio negative (d.significand * Nat.pow 10 d.exponent.natAbs) 1) =
        Binary64.ofMagnitude negative (min n Format.double.infinity) ∧
      Format.double.NearestEven d.value n := by
  have hnearest := Format.exists_nearestEven (f := .double) (by decide) (by decide)
  split
  · rename_i h
    have hpos : 0 < Nat.pow 10 d.exponent.natAbs := Nat.pow_pos (by decide)
    obtain ⟨n, hround, hn⟩ := hnearest d.significand hpos
    rw [div_pow_eq_value h] at hn
    exact ⟨n, by rw [Binary64.ofRatio, hround], hn⟩
  · rename_i h
    obtain ⟨n, hround, hn⟩ :=
      hnearest (d.significand * Nat.pow 10 d.exponent.natAbs) Nat.one_pos
    rw [mul_pow_eq_value (not_lt.mp h)] at hn
    exact ⟨n, by rw [Binary64.ofRatio, hround], hn⟩

/-- **A decimal is rounded to the nearest double, ties to even.** For those of extreme order
no ratio is computed, and the result is the same. -/
theorem exists_nearest (negative : Bool) (d : Decimal) :
    ∃ n, d.nearest negative = Binary64.ofMagnitude negative (min n Format.double.infinity) ∧
      Format.double.NearestEven d.value n := by
  simp only [nearest, Bool.or_eq_true, beq_iff_eq, decide_eq_true_eq]
  split
  · rename_i h
    refine ⟨0, by rw [Nat.zero_min], ?_⟩
    apply Format.nearestEven_zero (by decide) (by decide) d.value_nonneg
    by_cases hd : d.significand = 0
    · rw [value, hd, Nat.cast_zero, zero_mul, mul_zero]
      exact Format.value_nonneg _ _
    · exact two_mul_le_of_order hd (h.resolve_left hd)
  · rename_i h
    obtain ⟨hd, -⟩ := not_or.mp h
    obtain ⟨n, hround, hn⟩ := d.exists_ofRatio negative
    split
    · rename_i horder
      have hinfinity := hn.infinity_le (by decide) (by decide) (infinity_le_of_order hd horder)
      exact ⟨n, by rw [Nat.min_eq_right hinfinity, Binary64.infinite], hn⟩
    · exact ⟨n, hround, hn⟩

end Decimal

/-! ## Which texts are literals -/

/-- What follows the digits of a decimal number: nothing, or a power of ten. -/
inductive PowerPart : List Char → Int → Prop
  | none : PowerPart [] 0
  | power {e : Char} {s : List Char} {n : Int} (he : e = 'e' ∨ e = 'E') (hs : Numeral s n) :
    PowerPart (e :: s) n

/-- A text is a decimal number without a sign, and stands for a rational. A point has a digit
on one of its sides. -/
inductive DecimalNumeral : List Char → ℚ → Prop
  | whole {ds s : List Char} {n : Int} (hds : Digits ds) (hne : ds ≠ []) (hs : PowerPart s n) :
    DecimalNumeral (ds ++ s) (Nat.ofDigitChars 10 ds 0 * 10 ^ n)
  | point {ds fs s : List Char} {n : Int} (hds : Digits ds) (hfs : Digits fs) (hne : ds ++ fs ≠ [])
    (hs : PowerPart s n) : DecimalNumeral (ds ++ '.' :: (fs ++ s))
      ((Nat.ofDigitChars 10 ds 0 + Nat.ofDigitChars 10 fs 0 / 10 ^ fs.length) * 10 ^ n)

/-- A text is a float literal without a sign, and stands for a float once the sign is given: a
decimal number for the double nearest to it, or infinity past the last one. NaN has no sign. -/
inductive Unsigned (negative : Bool) : List Char → Binary64 → Prop
  | number {s : List Char} {q : ℚ} {n : Nat} (hs : DecimalNumeral s q)
    (hn : Format.double.NearestEven q n) :
    Unsigned negative s (Binary64.ofMagnitude negative (min n Format.double.infinity))
  | infinity {s : List Char} (hs : InAnyCase "inf" s ∨ InAnyCase "infinity" s) :
    Unsigned negative s (Binary64.infinite negative)
  | nan {s : List Char} (hs : InAnyCase "nan" s) : Unsigned negative s Binary64.nan

/-- A text is a float literal and stands for a float. -/
inductive Literal : List Char → Binary64 → Prop
  | unsigned {s : List Char} {x : Binary64} (hs : Unsigned false s x) : Literal s x
  | plus {s : List Char} {x : Binary64} (hs : Unsigned false s x) : Literal ('+' :: s) x
  | minus {s : List Char} {x : Binary64} (hs : Unsigned true s x) : Literal ('-' :: s) x

/-! ## Reading decimal numbers -/

section

variable {s rest ds fs : List Char} {n : Int} {q : ℚ} {d : Decimal}

/-- The digits behind the mark of a power, and a sign if it has one, take up the text. -/
theorem power_eq_some_iff {f : Int → Int} :
    (if (s.takeWhile isDigit).isEmpty then none
      else some (f (digitsValue 0 (s.takeWhile isDigit)), s.dropWhile isDigit)) = some (n, []) ↔
      Digits s ∧ s ≠ [] ∧ f (Nat.ofDigitChars 10 s 0 : Nat) = n := by
  rw [← digitsValue_eq_ofDigitChars]
  constructor
  · intro h
    split at h
    · cases h
    · rename_i hne
      rw [Option.some.injEq, Prod.mk.injEq, List.dropWhile_eq_nil_iff] at h
      obtain ⟨hvalue, hs⟩ := h
      rw [List.takeWhile_eq_self_iff.mpr hs] at hne hvalue
      exact ⟨hs, by simpa using hne, hvalue⟩
  · rintro ⟨hs, hne, rfl⟩
    rw [List.takeWhile_eq_self_iff.mpr hs, List.dropWhile_eq_nil_iff.mpr hs,
      if_neg (by simpa using hne)]

theorem powerPart_cons_iff {e : Char} :
    PowerPart (e :: s) n ↔ (e = 'e' ∨ e = 'E') ∧ Numeral s n := by
  constructor
  · rintro (_ | ⟨he, hs⟩)
    exact ⟨he, hs⟩
  · rintro ⟨he, hs⟩
    exact .power he hs

theorem readExponent_eq_some_iff : readExponent s = some (n, []) ↔ PowerPart s n := by
  unfold readExponent
  split
  · rename_i e s
    rw [powerPart_cons_iff]
    by_cases he : e = 'e' ∨ e = 'E'
    · rw [if_pos (by simpa using he), and_iff_right he]
      split
      rename_i negative more hsplit
      split at hsplit
      · cases hsplit
        rw [numeral_minus_iff]
        exact power_eq_some_iff (f := fun n => -n)
      · cases hsplit
        rw [numeral_plus_iff]
        exact power_eq_some_iff (f := id)
      · rename_i hminus hplus
        cases hsplit
        rw [numeral_unsigned_iff (fun t => hplus t) (fun t => hminus t)]
        exact power_eq_some_iff (f := id)
    · rw [if_neg (by simpa using he)]
      exact iff_of_false (by simp) fun h => he h.1
  · constructor
    · rintro ⟨⟩
      exact .none
    · rintro ⟨⟩
      rfl

/-- A power starts with a letter, so the digits before it end there. -/
theorem PowerPart.span (h : PowerPart rest n) :
    rest.takeWhile isDigit = [] ∧ rest.dropWhile isDigit = rest := by
  cases h with
  | none => exact ⟨rfl, rfl⟩
  | power he =>
    rcases he with rfl | rfl
    · exact ⟨rfl, rfl⟩
    · exact ⟨rfl, rfl⟩

theorem takeWhile_digits (hs : Digits s) (h : rest.takeWhile isDigit = []) :
    (s ++ rest).takeWhile isDigit = s := by
  rw [List.takeWhile_append_of_pos hs, h, List.append_nil]

/-- Digits behind the point count as that many tenths of tenths. -/
theorem value_digits (ds fs : List Char) (n : Int) :
    (⟨digitsValue 0 (ds ++ fs), n - fs.length⟩ : Decimal).value =
      (Nat.ofDigitChars 10 ds 0 + Nat.ofDigitChars 10 fs 0 / 10 ^ fs.length) * 10 ^ n := by
  rw [Decimal.value, digitsValue_eq_ofDigitChars, Nat.ofDigitChars_append,
    Nat.ofDigitChars_eq_ofDigitChars_zero, zpow_sub₀ (by norm_num), zpow_natCast]
  push_cast
  field_simp

/-- The parts of a decimal number, put together. -/
theorem assembled_eq_some_iff :
    (if ds.isEmpty && fs.isEmpty then none
      else match readExponent rest with
        | some (e, []) => some ⟨digitsValue 0 (ds ++ fs), e - fs.length⟩
        | _ => none) = some d ↔
      ds ++ fs ≠ [] ∧ ∃ n, PowerPart rest n ∧
        ⟨digitsValue 0 (ds ++ fs), n - fs.length⟩ = d := by
  have hempty : (ds.isEmpty && fs.isEmpty) = true ↔ ds ++ fs = [] := by simp
  constructor
  · intro h
    split at h
    · cases h
    · rename_i hne
      split at h
      · rename_i n hread
        exact ⟨mt hempty.mpr hne, n, readExponent_eq_some_iff.mp hread, Option.some.inj h⟩
      · cases h
  · rintro ⟨hne, n, hrest, rfl⟩
    rw [if_neg (mt hempty.mp hne), readExponent_eq_some_iff.mpr hrest]

theorem digits_takeWhile (s : List Char) : Digits (s.takeWhile isDigit) :=
  fun _ hc => List.mem_takeWhile_imp hc

theorem decimalNumeral_of_readDecimal (h : readDecimal s = some d) :
    DecimalNumeral s d.value := by
  have hs := List.takeWhile_append_dropWhile (p := isDigit) (l := s)
  simp only [readDecimal] at h
  split at h
  · rename_i more hpoint
    obtain ⟨hne, n, hrest, rfl⟩ := assembled_eq_some_iff.mp h
    have hmore := List.takeWhile_append_dropWhile (p := isDigit) (l := more)
    have hnumeral := DecimalNumeral.point (digits_takeWhile s) (digits_takeWhile more) hne hrest
    rwa [hmore, ← hpoint, hs, ← value_digits] at hnumeral
  · obtain ⟨hne, n, hrest, rfl⟩ := assembled_eq_some_iff.mp h
    rw [List.append_nil] at hne
    have hnumeral := DecimalNumeral.whole (digits_takeWhile s) hne hrest
    have hvalue := value_digits (s.takeWhile isDigit) [] n
    rw [Nat.ofDigitChars_nil, Nat.cast_zero, zero_div, add_zero] at hvalue
    rwa [hs, ← hvalue] at hnumeral

theorem readDecimal_whole (hds : Digits ds) (hne : ds ≠ []) (hrest : PowerPart rest n) :
    readDecimal (ds ++ rest) = some ⟨digitsValue 0 (ds ++ []), n - ([] : List Char).length⟩ := by
  obtain ⟨htake, hdrop⟩ := hrest.span
  simp only [readDecimal, takeWhile_digits hds htake, List.dropWhile_append_of_pos hds, hdrop]
  split
  · rcases (powerPart_cons_iff.mp hrest).1 with h | h <;> cases h
  · exact assembled_eq_some_iff.mpr ⟨by rwa [List.append_nil], n, hrest, rfl⟩

theorem readDecimal_point (hds : Digits ds) (hfs : Digits fs) (hne : ds ++ fs ≠ [])
    (hrest : PowerPart rest n) :
    readDecimal (ds ++ '.' :: (fs ++ rest)) =
      some ⟨digitsValue 0 (ds ++ fs), n - fs.length⟩ := by
  obtain ⟨htake, hdrop⟩ := hrest.span
  have hpoint : ('.' :: (fs ++ rest)).dropWhile isDigit = '.' :: (fs ++ rest) := rfl
  have hstop : ('.' :: (fs ++ rest)).takeWhile isDigit = [] := rfl
  simp only [readDecimal, takeWhile_digits hds hstop, List.dropWhile_append_of_pos hds, hpoint,
    takeWhile_digits hfs htake, List.dropWhile_append_of_pos hfs, hdrop]
  exact assembled_eq_some_iff.mpr ⟨hne, n, hrest, rfl⟩

theorem exists_readDecimal (h : DecimalNumeral s q) :
    ∃ d, readDecimal s = some d ∧ d.value = q := by
  cases h with
  | @whole ds rest n hds hne hrest =>
    refine ⟨_, readDecimal_whole hds hne hrest, ?_⟩
    rw [value_digits, Nat.ofDigitChars_nil, Nat.cast_zero, zero_div, add_zero]
  | point hds hfs hne hrest => exact ⟨_, readDecimal_point hds hfs hne hrest, value_digits _ _ _⟩

theorem DecimalNumeral.exists_digit (h : DecimalNumeral s q) : ∃ c ∈ s, isDigit c = true := by
  cases h with
  | whole hds hne =>
    obtain ⟨c, hc⟩ := List.exists_mem_of_ne_nil _ hne
    exact ⟨c, by simp [hc], hds c hc⟩
  | point hds hfs hne =>
    obtain ⟨c, hc⟩ := List.exists_mem_of_ne_nil _ hne
    rcases List.mem_append.mp hc with h | h
    · exact ⟨c, by simp [h], hds c h⟩
    · exact ⟨c, by simp [h], hfs c h⟩

/-- A word has no digits. -/
theorem not_inAnyCase_of_digit {word : String} {c : Char} (hword : IsLowerWord word) (hc : c ∈ s)
    (hdigit : isDigit c = true) : ¬ InAnyCase word s := by
  intro h
  have hletter := h.letters hword c hc
  rw [isDigit_iff] at hdigit
  omega

theorem readUnsignedFloat_eq_some_iff {negative : Bool} {x : Binary64} :
    readUnsignedFloat negative s = some x ↔ Unsigned negative s x := by
  have hinf : IsLowerWord "inf" := by decide
  have hinfinity : IsLowerWord "infinity" := by decide
  have hnan : IsLowerWord "nan" := by decide
  simp only [readUnsignedFloat, Bool.or_eq_true, isWord_iff hinf, isWord_iff hinfinity,
    isWord_iff hnan]
  constructor
  · intro h
    split at h
    · rename_i hs
      obtain rfl := Option.some.inj h
      exact .infinity hs
    · split at h
      · rename_i hs
        obtain rfl := Option.some.inj h
        exact .nan hs
      · obtain ⟨d, hread, rfl⟩ := Option.map_eq_some_iff.mp h
        obtain ⟨n, hnearest, hn⟩ := d.exists_nearest negative
        rw [hnearest]
        exact .number (decimalNumeral_of_readDecimal hread) hn
  · intro h
    cases h with
    | infinity hs => rw [if_pos hs]
    | nan hs =>
      rw [if_neg, if_pos hs]
      rintro (h | h)
      · exact absurd (h.unique hs hinf hnan) (by decide)
      · exact absurd (h.unique hs hinfinity hnan) (by decide)
    | number hs hn =>
      obtain ⟨c, hc, hdigit⟩ := hs.exists_digit
      obtain ⟨d, hread, rfl⟩ := exists_readDecimal hs
      obtain ⟨m, hnearest, hm⟩ := d.exists_nearest negative
      rw [if_neg, if_neg (not_inAnyCase_of_digit hnan hc hdigit), hread, Option.map_some,
        hnearest, hm.unique (by decide) (by decide) hn]
      rintro (h | h)
      · exact not_inAnyCase_of_digit hinf hc hdigit h
      · exact not_inAnyCase_of_digit hinfinity hc hdigit h

/-! ## Reading literals -/

theorem not_unsigned_of_none {negative : Bool} {x : Binary64}
    (h : readUnsignedFloat negative s = none) : ¬ Unsigned negative s x := by
  rw [← readUnsignedFloat_eq_some_iff, h]
  exact nofun

theorem elim_eq_ok_iff {x : Binary64} {o : Option Binary64} :
    o.elim (.error .invalid) Except.ok = (.ok x : Except LiteralFault Binary64) ↔ o = some x := by
  cases o <;> simp

/-- **The float literals are read, and nothing else.** -/
theorem readFloat_eq_ok_iff {x : Binary64} : readFloat s = .ok x ↔ Literal s x := by
  unfold readFloat
  split
  · refine iff_of_false nofun ?_
    rintro ⟨hs⟩
    exact not_unsigned_of_none rfl hs
  · rw [elim_eq_ok_iff, readUnsignedFloat_eq_some_iff]
    refine ⟨.minus, ?_⟩
    rintro (hs | hs | hs)
    · exact absurd hs (not_unsigned_of_none rfl)
    · exact hs
  · rw [elim_eq_ok_iff, readUnsignedFloat_eq_some_iff]
    refine ⟨.plus, ?_⟩
    rintro (hs | hs | hs)
    · exact absurd hs (not_unsigned_of_none rfl)
    · exact hs
  · rename_i hminus hplus
    rw [elim_eq_ok_iff, readUnsignedFloat_eq_some_iff]
    refine ⟨.unsigned, ?_⟩
    rintro (hs | hs | hs)
    · exact hs
    · exact absurd rfl (hplus _)
    · exact absurd rfl (hminus _)

theorem Literal.unique {x y : Binary64} (h : Literal s x) (h' : Literal s y) : x = y := by
  rw [← readFloat_eq_ok_iff] at h h'
  exact Except.ok.inj (h.symm.trans h')

end

end Wiring.Number
