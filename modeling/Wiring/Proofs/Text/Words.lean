import Mathlib.Data.List.Forall2
import Wiring.Text.Ascii

/-!
# Words in any mix of cases

A letter of a word may stand in a text as it is or as its capital, so the texts that are taken
for a word have nothing but letters.
-/

namespace Wiring.Text

/-- A text is a word, each of its letters small or capital. -/
def InAnyCase (word : String) (s : List Char) : Prop :=
  List.Forall₂ (fun w c => c = w ∨ c = w.toUpper) word.toList s

instance (word : String) (s : List Char) : Decidable (InAnyCase word s) :=
  inferInstanceAs (Decidable (List.Forall₂ _ _ _))

/-- All characters of a word are lower-case ASCII letters. -/
def IsLowerWord (word : String) : Prop :=
  ∀ w ∈ word.toList, w.isLower = true

instance (word : String) : Decidable (IsLowerWord word) :=
  List.decidableBAll _ _

section

variable {w c : Char} {word : String} {s : List Char}

/-! Capitals lie 32 below the small letters. -/

theorem isLower_iff_toNat : c.isLower = true ↔ 97 ≤ c.toNat ∧ c.toNat ≤ 122 :=
  Bool.and_eq_true_iff.trans (and_congr decide_eq_true_iff decide_eq_true_iff)

theorem isUpper_iff_toNat : c.isUpper = true ↔ 65 ≤ c.toNat ∧ c.toNat ≤ 90 :=
  decide_eq_true_iff

theorem toNat_toUpper (hw : w.isLower = true) : w.toUpper.toNat = w.toNat - 32 := by
  have hbounds := isLower_iff_toNat.mp hw
  have hupper : w.toUpper = _ := dif_pos hbounds
  have hwraps : ('A'.val - 'a'.val).toNat = 4294967264 := by decide
  rw [hupper]
  calc (w.val + ('A'.val - 'a'.val)).toNat
      = (w.toNat + ('A'.val - 'a'.val).toNat) % 4294967296 := UInt32.toNat_add ..
    _ = w.toNat - 32 := by omega

theorem toNat_toLower (hc : c.isUpper = true) : c.toLower.toNat = c.toNat + 32 := by
  have hbounds := isUpper_iff_toNat.mp hc
  have hlower : c.toLower = _ := dif_pos hbounds
  rw [hlower]
  calc (c.val + ('a'.val - 'A'.val)).toNat
      = (c.toNat + 32) % 4294967296 := UInt32.toNat_add ..
    _ = c.toNat + 32 := by omega

theorem inAnyCase_self (word : String) : InAnyCase word word.toList :=
  List.forall₂_same.mpr fun _ _ => .inl rfl

/-- A letter in lower case comes from itself and from its capital. -/
theorem lowerAscii_eq_iff (hw : w.isLower = true) :
    lowerAscii c = w ↔ c = w ∨ c = w.toUpper := by
  have hbounds := isLower_iff_toNat.mp hw
  rw [lowerAscii, ← Char.toNat_inj (c := c) (d := w.toUpper), toNat_toUpper hw]
  split
  · rename_i h
    rw [Bool.and_eq_true, decide_eq_true_eq, decide_eq_true_eq] at h
    rw [← toNat_toLower (isUpper_iff_toNat.mpr h), Char.ofNat_toNat, ← Char.toNat_inj,
      ← Char.toNat_inj, toNat_toLower (isUpper_iff_toNat.mpr h)]
    omega
  · rename_i h
    rw [Bool.and_eq_true, decide_eq_true_eq, decide_eq_true_eq] at h
    rw [← Char.toNat_inj]
    omega

/-- **Words are told in any mix of cases.** -/
theorem isWord_iff (hword : IsLowerWord word) : isWord word s = true ↔ InAnyCase word s := by
  rw [isWord, beq_iff_eq, InAnyCase]
  rw [IsLowerWord] at hword
  generalize word.toList = ws at hword
  induction ws generalizing s with
  | nil => rw [List.map_eq_nil_iff, List.forall₂_nil_left_iff]
  | cons w ws ih =>
    obtain ⟨hw, hws⟩ := List.forall_mem_cons.mp hword
    cases s with
    | nil => exact iff_of_false nofun nofun
    | cons c s =>
      rw [List.map_cons, List.cons.injEq, lowerAscii_eq_iff hw, ih hws, List.forall₂_cons]

example : InAnyCase "true" "tRUe".toList ∧ ¬ InAnyCase "true" "truer".toList := by decide

/-- No text is taken for two words. -/
theorem InAnyCase.unique {other : String} (h : InAnyCase word s) (h' : InAnyCase other s)
    (hword : IsLowerWord word) (hother : IsLowerWord other) : word = other := by
  rw [← isWord_iff hword, isWord, beq_iff_eq] at h
  rw [← isWord_iff hother, isWord, beq_iff_eq] at h'
  exact String.toList_injective (h.symm.trans h')

/-- A word in any mix of cases has letters only. -/
theorem InAnyCase.letters (h : InAnyCase word s) (hword : IsLowerWord word) :
    ∀ c ∈ s, (65 ≤ c.toNat ∧ c.toNat ≤ 90) ∨ (97 ≤ c.toNat ∧ c.toNat ≤ 122) := by
  rw [IsLowerWord] at hword
  rw [InAnyCase] at h
  generalize word.toList = ws at h hword
  induction h with
  | nil => exact nofun
  | @cons w c _ _ hletter _ ih =>
    obtain ⟨hw, hws⟩ := List.forall_mem_cons.mp hword
    refine List.forall_mem_cons.mpr ⟨?_, ih hws⟩
    have hbounds := isLower_iff_toNat.mp hw
    rcases hletter with rfl | rfl
    · exact .inr hbounds
    · rw [toNat_toUpper hw]
      omega

end

end Wiring.Text
