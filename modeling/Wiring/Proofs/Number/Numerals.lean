import Mathlib.Algebra.Ring.Nat
import Wiring.Number.Numeral
import Wiring.Proofs.Text.Graphic

/-!
# Numerals read back

The digits that are written for a number have the number as their value, with
or without zeros in front of them. A 64-bit integer is read from its numerals
and from no other text, so also from the one that is written for it.
-/

namespace Wiring.Number

open Wiring.Text

/-- All characters of a text are digits. -/
def Digits (s : List Char) : Prop :=
  ∀ c ∈ s, isDigit c = true

instance (s : List Char) : Decidable (Digits s) :=
  List.decidableBAll _ s

/-- A text is one or more digits behind at most one sign, and stands for a number. -/
inductive Numeral : List Char → Int → Prop
  | unsigned {ds : List Char} (hds : Digits ds) (hne : ds ≠ []) :
    Numeral ds (Nat.ofDigitChars 10 ds 0)
  | plus {ds : List Char} (hds : Digits ds) (hne : ds ≠ []) :
    Numeral ('+' :: ds) (Nat.ofDigitChars 10 ds 0)
  | minus {ds : List Char} (hds : Digits ds) (hne : ds ≠ []) :
    Numeral ('-' :: ds) (-(Nat.ofDigitChars 10 ds 0 : Int))

section

variable {c : Char} {s t : List Char}

theorem isDigit_iff : isDigit c = true ↔ 48 ≤ c.toNat ∧ c.toNat ≤ 57 := by
  rw [isDigit, Bool.and_eq_true, decide_eq_true_eq, decide_eq_true_eq]

theorem isGraphic_of_isDigit (h : isDigit c = true) : isGraphic c = true := by
  rw [isDigit_iff] at h
  rw [isGraphic_iff]
  omega

theorem Digits.graphic (h : Digits s) : Graphic s :=
  fun c hc => isGraphic_of_isDigit (h c hc)

/-! ## The value of digits -/

theorem digitsValue_append (acc : Nat) :
    digitsValue acc (s ++ t) = digitsValue (digitsValue acc s) t :=
  List.foldl_append

theorem digitsValue_eq_ofDigitChars (acc : Nat) :
    digitsValue acc s = Nat.ofDigitChars 10 s acc := by
  rw [digitsValue, Nat.ofDigitChars_eq_foldl]
  congr 1
  funext n c
  rw [Nat.mul_comm]
  rfl

theorem le_digitsValue (acc : Nat) (s : List Char) : acc ≤ digitsValue acc s := by
  induction s generalizing acc with
  | nil => exact Nat.le_refl _
  | cons c s ih =>
    have hstep : acc ≤ acc * 10 + digitValue c := by omega
    exact Nat.le_trans hstep (ih _)

/-! ## Written numbers -/

theorem digits_writeNat (n : Nat) : Digits (writeNat n) := by
  intro c hc
  have hdigit := Nat.isDigit_of_mem_toDigits (by decide) (by decide) hc
  simp only [Char.isDigit, Bool.and_eq_true, decide_eq_true_eq, ge_iff_le,
    UInt32.le_iff_toNat_le] at hdigit
  exact isDigit_iff.mpr hdigit

theorem writeNat_ne_nil (n : Nat) : writeNat n ≠ [] :=
  Nat.toDigits_ne_nil

theorem digitsValue_writeNat (n : Nat) : digitsValue 0 (writeNat n) = n := by
  rw [digitsValue_eq_ofDigitChars]
  exact Nat.ofDigitChars_ten_toDigits

theorem digits_writePadded (width n : Nat) : Digits (writePadded width n) := by
  intro c hc
  rcases List.mem_append.mp hc with hc | hc
  · rw [List.eq_of_mem_replicate hc]
    rfl
  · exact digits_writeNat n c hc

theorem writePadded_ne_nil (width n : Nat) : writePadded width n ≠ [] :=
  List.append_ne_nil_of_right_ne_nil _ (writeNat_ne_nil n)

theorem length_writePadded {width n : Nat} (hwidth : 0 < width) (hn : n < 10 ^ width) :
    (writePadded width n).length = width := by
  have hlength : (writeNat n).length ≤ width :=
    (Nat.length_toDigits_le_iff (by decide) hwidth).mpr hn
  rw [writePadded, List.length_append, List.length_replicate]
  exact Nat.sub_add_cancel hlength

/-- Zeros in front of a number do not change it. -/
theorem digitsValue_writePadded (width n : Nat) : digitsValue 0 (writePadded width n) = n := by
  rw [writePadded, digitsValue_append, digitsValue_eq_ofDigitChars 0,
    Nat.ofDigitChars_replicate_zero, Nat.mul_zero, digitsValue_writeNat]

/-! ## Which texts are numerals -/

theorem Numeral.graphic {n : Int} (h : Numeral s n) : Graphic s ∧ s ≠ [] := by
  cases h with
  | unsigned hds hne => exact ⟨hds.graphic, hne⟩
  | plus hds hne => exact ⟨graphic_cons.mpr ⟨rfl, hds.graphic⟩, List.cons_ne_nil _ _⟩
  | minus hds hne => exact ⟨graphic_cons.mpr ⟨rfl, hds.graphic⟩, List.cons_ne_nil _ _⟩

theorem numeral_plus_iff {n : Int} : Numeral ('+' :: s) n ↔
    Digits s ∧ s ≠ [] ∧ (Nat.ofDigitChars 10 s 0 : Int) = n := by
  constructor
  · intro h
    cases h with
    | unsigned hds => cases hds '+' (List.mem_cons_self ..)
    | plus hds hne => exact ⟨hds, hne, rfl⟩
  · rintro ⟨hds, hne, rfl⟩
    exact .plus hds hne

theorem numeral_minus_iff {n : Int} : Numeral ('-' :: s) n ↔
    Digits s ∧ s ≠ [] ∧ -(Nat.ofDigitChars 10 s 0 : Int) = n := by
  constructor
  · intro h
    cases h with
    | unsigned hds => cases hds '-' (List.mem_cons_self ..)
    | minus hds hne => exact ⟨hds, hne, rfl⟩
  · rintro ⟨hds, hne, rfl⟩
    exact .minus hds hne

theorem numeral_unsigned_iff {n : Int} (hplus : ∀ t, s ≠ '+' :: t) (hminus : ∀ t, s ≠ '-' :: t) :
    Numeral s n ↔ Digits s ∧ s ≠ [] ∧ (Nat.ofDigitChars 10 s 0 : Int) = n := by
  constructor
  · intro h
    cases h with
    | unsigned hds hne => exact ⟨hds, hne, rfl⟩
    | plus => exact absurd rfl (hplus _)
    | minus => exact absurd rfl (hminus _)
  · rintro ⟨hds, hne, rfl⟩
    exact .unsigned hds hne

theorem Numeral.unique {n m : Int} (h : Numeral s n) (h' : Numeral s m) : n = m := by
  cases h with
  | plus => exact (numeral_plus_iff.mp h').2.2
  | minus => exact (numeral_minus_iff.mp h').2.2
  | unsigned hds hne =>
    cases h' with
    | unsigned => rfl
    | plus => cases hds '+' (List.mem_cons_self ..)
    | minus => cases hds '-' (List.mem_cons_self ..)

/-! ## Reading integers -/

theorem readMagnitude_of_digits {limit acc : Nat} {fault : NumeralFault} (hs : Digits s)
    (hlimit : digitsValue acc s ≤ limit) :
    readMagnitude limit fault acc s = .ok (digitsValue acc s) := by
  induction s generalizing acc with
  | nil => rfl
  | cons c s ih =>
    have hc : isDigit c = true := hs c (List.mem_cons_self ..)
    have hstep : acc * 10 + digitValue c ≤ limit := Nat.le_trans (le_digitsValue _ s) hlimit
    rw [readMagnitude, hc, Bool.not_true, if_neg Bool.false_ne_true, if_pos hstep]
    exact ih (fun d hd => hs d (List.mem_cons_of_mem _ hd)) hlimit

/-- Digits are read as long as their value keeps to the limit. It only grows, so a number above
the limit is refused at some digit, however many follow. -/
theorem readMagnitude_eq_ok_iff {limit acc n : Nat} {fault : NumeralFault} (hacc : acc ≤ limit) :
    readMagnitude limit fault acc s = .ok n ↔
      Digits s ∧ digitsValue acc s = n ∧ n ≤ limit := by
  constructor
  · intro h
    induction s generalizing acc with
    | nil =>
      cases h
      exact ⟨nofun, rfl, hacc⟩
    | cons c s ih =>
      rw [readMagnitude] at h
      cases hc : isDigit c with
      | false =>
        rw [hc] at h
        cases h
      | true =>
        rw [hc, Bool.not_true, if_neg Bool.false_ne_true] at h
        split at h
        · rename_i hstep
          obtain ⟨hs, hvalue, hn⟩ := ih hstep h
          exact ⟨List.forall_mem_cons.mpr ⟨hc, hs⟩, hvalue, hn⟩
        · cases h
  · rintro ⟨hs, rfl, hn⟩
    exact readMagnitude_of_digits hs hn

/-- Behind a sign, or without one, stand digits up to the limit of that sign. -/
theorem map_readMagnitude_eq_ok_iff {limit : Nat} {fault : NumeralFault} {f : Int → Int} {n : Int}
    (hne : s ≠ []) (hlimit : ∀ m : Nat,
      m ≤ limit ↔ -9223372036854775808 ≤ f m ∧ f m ≤ 9223372036854775807) :
    (readMagnitude limit fault 0 s >>= fun m => pure (m : Int)).map f = .ok n ↔
      (Digits s ∧ s ≠ [] ∧ f (Nat.ofDigitChars 10 s 0 : Nat) = n) ∧
        -9223372036854775808 ≤ n ∧ n ≤ 9223372036854775807 := by
  rw [← digitsValue_eq_ofDigitChars]
  constructor
  · intro h
    cases hread : readMagnitude limit fault 0 s with
    | error e =>
      rw [hread] at h
      cases h
    | ok m =>
      obtain ⟨hs, rfl, hm⟩ := (readMagnitude_eq_ok_iff (Nat.zero_le _)).mp hread
      rw [hread] at h
      cases h
      exact ⟨⟨hs, hne, rfl⟩, (hlimit _).mp hm⟩
  · rintro ⟨⟨hs, -, rfl⟩, hn⟩
    rw [readMagnitude_of_digits hs ((hlimit _).mpr hn)]
    rfl

/-- **The integers are read from their numerals alone,** and no number is taken for another. -/
theorem readInteger_eq_ok_iff {n : Int} : readInteger s = .ok n ↔
    Numeral s n ∧ -9223372036854775808 ≤ n ∧ n ≤ 9223372036854775807 := by
  unfold readInteger
  split
  · exact iff_of_false nofun fun h => h.1.graphic.2 rfl
  · rename_i ds
    rw [numeral_plus_iff]
    cases ds with
    | nil => exact iff_of_false nofun fun h => h.1.2.1 rfl
    | cons c ds => exact map_readMagnitude_eq_ok_iff (List.cons_ne_nil c ds) (by omega)
  · rename_i ds
    rw [numeral_minus_iff]
    cases ds with
    | nil => exact iff_of_false nofun fun h => h.1.2.1 rfl
    | cons c ds => exact map_readMagnitude_eq_ok_iff (List.cons_ne_nil c ds) (by omega)
  · rename_i hne hplus hminus
    rw [numeral_unsigned_iff (fun t => hplus t) (fun t => hminus t)]
    exact map_readMagnitude_eq_ok_iff hne (by omega)

/-! ## Written integers -/

theorem numeral_writeInteger (i : Int) : Numeral (writeInteger i) i := by
  have hdigits := digits_writeNat i.natAbs
  have hne := writeNat_ne_nil i.natAbs
  have hvalue : Nat.ofDigitChars 10 (writeNat i.natAbs) 0 = i.natAbs := by
    rw [← digitsValue_eq_ofDigitChars, digitsValue_writeNat]
  unfold writeInteger
  split
  · refine numeral_minus_iff.mpr ⟨hdigits, hne, ?_⟩
    omega
  · have hnumeral := Numeral.unsigned hdigits hne
    rwa [hvalue, Int.natAbs_of_nonneg (by omega)] at hnumeral

end

end Wiring.Number
