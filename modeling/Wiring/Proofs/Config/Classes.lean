import Wiring.Proofs.Config.Overrides
import Wiring.Proofs.Number.Literals

/-!
# What the text of a variable is taken for

The tests for a boolean, an integer and a float are made one after the other, and a text that
fails one is handed on to the next. No text belongs to two of the classes, so the order of the
tests does not matter: each class is told by its own texts alone, and what is in none of them
stays a string.
-/

namespace Wiring.Config

open Wiring.Number Wiring.Text Wiring.Toml

/-- A numeral that has no plus sign. -/
def PlainNumeral (s : List Char) (n : Int) : Prop :=
  Numeral s n ∧ s.head? ≠ some '+'

/-- A float literal that has a point. -/
def PointLiteral (s : List Char) (x : Binary64) : Prop :=
  '.' ∈ s ∧ Literal s x

/-- The text of a boolean. -/
def boolWord (b : Bool) : String :=
  if b then "true" else "false"

section

variable {s : List Char} {n : Int} {i : Int64} {x : Binary64} {b : Bool}

/-! ## The classes are apart -/

theorem PlainNumeral.digit_or_minus (h : PlainNumeral s n) :
    (∃ c ∈ s, isDigit c = true) ∧ ∀ c ∈ s, isDigit c = true ∨ c = '-' := by
  obtain ⟨hnumeral, hplus⟩ := h
  cases hnumeral with
  | unsigned hds hne =>
    obtain ⟨c, hc⟩ := List.exists_mem_of_ne_nil _ hne
    exact ⟨⟨c, hc, hds c hc⟩, fun c hc => .inl (hds c hc)⟩
  | plus => exact absurd rfl hplus
  | @minus ds hds hne =>
    obtain ⟨c, hc⟩ := List.exists_mem_of_ne_nil _ hne
    refine ⟨⟨c, List.mem_cons_of_mem _ hc, hds c hc⟩, ?_⟩
    rw [List.forall_mem_cons]
    exact ⟨.inr rfl, fun c hc => .inl (hds c hc)⟩

theorem isLowerWord_boolWord (b : Bool) : IsLowerWord (boolWord b) := by
  cases b <;> decide

theorem PlainNumeral.not_inAnyCase (h : PlainNumeral s n) (b : Bool) :
    ¬ InAnyCase (boolWord b) s := by
  obtain ⟨⟨c, hc, hdigit⟩, -⟩ := h.digit_or_minus
  exact not_inAnyCase_of_digit (isLowerWord_boolWord b) hc hdigit

theorem PlainNumeral.not_mem_point (h : PlainNumeral s n) : '.' ∉ s := by
  intro hpoint
  rcases h.digit_or_minus.2 _ hpoint with h | h <;> cases h

theorem not_inAnyCase_of_point (h : '.' ∈ s) (b : Bool) : ¬ InAnyCase (boolWord b) s := by
  intro hword
  exact absurd (hword.letters (isLowerWord_boolWord b) _ h) (by decide)

theorem plainNumeral_writeInteger (i : Int) : PlainNumeral (writeInteger i) i := by
  refine ⟨numeral_writeInteger i, fun hplus => ?_⟩
  rw [writeInteger] at hplus
  split at hplus
  · cases hplus
  · cases digits_writeNat _ '+' (List.mem_of_mem_head? hplus)

/-! ## Each class by itself -/

theorem digits_iff : (!s.isEmpty && s.all isDigit) = true ↔ s ≠ [] ∧ Digits s := by
  simp [Digits]

theorem looksInteger_iff : looksInteger s = true ↔ ∃ n, PlainNumeral s n := by
  unfold looksInteger PlainNumeral
  split
  · rw [digits_iff]
    simp [numeral_minus_iff, and_comm]
  · rename_i hminus
    rw [digits_iff]
    constructor
    · rintro ⟨hne, hds⟩
      refine ⟨_, .unsigned hds hne, fun hplus => ?_⟩
      cases hds '+' (List.mem_of_mem_head? hplus)
    · rintro ⟨n, hnumeral, hplus⟩
      cases hnumeral with
      | unsigned hds hne => exact ⟨hne, hds⟩
      | plus => exact absurd rfl hplus
      | minus => exact absurd rfl (hminus _)

/-- A numeral is an integer if it keeps to 64 bits. -/
theorem integerOf?_eq_some_iff : integerOf? s = some i ↔ PlainNumeral s i.toInt := by
  rw [integerOf?]
  constructor
  · intro h
    split at h
    · rename_i hlooks
      split at h
      · rename_i n hread
        obtain rfl := Option.some.inj h
        obtain ⟨hnumeral, hlow, hhigh⟩ := readInteger_eq_ok_iff.mp hread
        rw [Int64.toInt_ofInt_of_le hlow (Int.lt_add_one_of_le hhigh)]
        obtain ⟨_, -, hplus⟩ := looksInteger_iff.mp hlooks
        exact ⟨hnumeral, hplus⟩
      · cases h
    · cases h
  · intro h
    have hread : readInteger s = .ok i.toInt :=
      readInteger_eq_ok_iff.mpr ⟨h.1, Int64.le_toInt i, Int64.toInt_le i⟩
    rw [if_pos (looksInteger_iff.mpr ⟨_, h⟩), hread]
    simp

theorem floatOf?_eq_some_iff : floatOf? s = some x ↔ PointLiteral s x := by
  rw [floatOf?, PointLiteral, ← readFloat_eq_ok_iff]
  by_cases hpoint : '.' ∈ s
  · rw [if_pos (by simpa using hpoint), and_iff_right hpoint]
    cases readFloat s <;> simp [Except.toOption]
  · rw [if_neg (by simpa using hpoint)]
    exact iff_of_false (Option.some_ne_none x).symm fun h => hpoint h.1

/-! ## The cascade -/

/-- What a text is taken for; it is left as it is if it belongs to no other class. -/
inductive Class (s : List Char) : Toml.Value → Prop
  | bool {b : Bool} (h : InAnyCase (boolWord b) s) : Class s (.bool b)
  | integer {i : Int64} (h : PlainNumeral s i.toInt) : Class s (.integer i)
  | float {x : Binary64} (h : PointLiteral s x) : Class s (.float x)
  | string (hbool : ∀ b, ¬ InAnyCase (boolWord b) s)
    (hinteger : ∀ i : Int64, ¬ PlainNumeral s i.toInt) (hfloat : ∀ x, ¬ PointLiteral s x) :
    Class s (.string (String.ofList s))

/-- A test that fails hands the text on to the next class. -/
theorem class_classify (s : List Char) : Class s (classify s) := by
  have htrue : isWord "true" s = true ↔ InAnyCase (boolWord true) s :=
    isWord_iff (isLowerWord_boolWord true)
  have hfalse : isWord "false" s = true ↔ InAnyCase (boolWord false) s :=
    isWord_iff (isLowerWord_boolWord false)
  unfold classify
  split
  · rename_i h
    exact .bool (htrue.mp h)
  · rename_i hnottrue
    split
    · rename_i h
      exact .bool (hfalse.mp h)
    · rename_i hnotfalse
      split
      · rename_i i h
        exact .integer (integerOf?_eq_some_iff.mp h)
      · rename_i hnoint
        split
        · rename_i x h
          exact .float (floatOf?_eq_some_iff.mp h)
        · rename_i hnofloat
          refine .string ?_ ?_ ?_
          · rintro (_ | _) h
            · exact hnotfalse (hfalse.mpr h)
            · exact hnottrue (htrue.mpr h)
          · intro i h
            rw [integerOf?_eq_some_iff.mpr h] at hnoint
            cases hnoint
          · intro x h
            rw [floatOf?_eq_some_iff.mpr h] at hnofloat
            cases hnofloat

theorem boolWord_injective : Function.Injective boolWord := by
  decide

theorem eq_of_inAnyCase {c : Bool} (h : InAnyCase (boolWord b) s)
    (h' : InAnyCase (boolWord c) s) : b = c :=
  boolWord_injective (h.unique h' (isLowerWord_boolWord b) (isLowerWord_boolWord c))

theorem Class.unique {v w : Toml.Value} (h : Class s v) (h' : Class s w) : v = w := by
  cases h with
  | bool h =>
    cases h' with
    | bool h' => rw [eq_of_inAnyCase h h']
    | integer h' => exact absurd h (h'.not_inAnyCase _)
    | float h' => exact absurd h (not_inAnyCase_of_point h'.1 _)
    | string h' => exact absurd h (h' _)
  | integer h =>
    cases h' with
    | bool h' => exact absurd h' (h.not_inAnyCase _)
    | integer h' => rw [Int64.toInt_inj.mp (h.1.unique h'.1)]
    | float h' => exact absurd h'.1 h.not_mem_point
    | string _ h' => exact absurd h (h' _)
  | float h =>
    cases h' with
    | bool h' => exact absurd h' (not_inAnyCase_of_point h.1 _)
    | integer h' => exact absurd h.1 h'.not_mem_point
    | float h' => rw [h.2.unique h'.2]
    | string _ _ h' => exact absurd h (h' _)
  | string hbool hinteger hfloat =>
    cases h' with
    | bool h' => exact absurd h' (hbool _)
    | integer h' => exact absurd h' (hinteger _)
    | float h' => exact absurd h' (hfloat _)
    | string => rfl

theorem class_string_iff {s t : String} : Class s.toList (.string t) ↔
    t = s ∧ (∀ i : Int64, ¬ PlainNumeral s.toList i.toInt) ∧
      (∀ b, ¬ InAnyCase (boolWord b) s.toList) ∧ ∀ x, ¬ PointLiteral s.toList x := by
  constructor
  · intro h
    cases h with
    | string hbool hinteger hfloat => exact ⟨String.ofList_toList, hinteger, hbool, hfloat⟩
  · rintro ⟨rfl, hinteger, hbool, hfloat⟩
    have hclass := Class.string hbool hinteger hfloat
    rwa [String.ofList_toList] at hclass

theorem classify_eq_iff {v : Toml.Value} : classify s = v ↔ Class s v := by
  constructor
  · rintro rfl
    exact class_classify s
  · exact fun h => (class_classify s).unique h

end

/-- **A text is taken for the most specific scalar that it can be.** It is an integer just when
it is a numeral of 64 bits without a plus sign, a boolean just when it is the word for it in
any mix of cases, and a float just when it is a literal with a point, then the nearest one.
Every other text stays as it is, also a numeral out of range. What is written for an integer
or a boolean is taken for it again. -/
theorem most_specific_scalar :
    (∀ s : String,
      (∀ i : Int64, classify s.toList = .integer i ↔ PlainNumeral s.toList i.toInt) ∧
      (∀ b, classify s.toList = .bool b ↔ InAnyCase (boolWord b) s.toList) ∧
      (∀ x, classify s.toList = .float x ↔ PointLiteral s.toList x) ∧
      (∀ t, classify s.toList = .string t ↔ t = s ∧ (∀ i : Int64, ¬ PlainNumeral s.toList i.toInt) ∧
        (∀ b, ¬ InAnyCase (boolWord b) s.toList) ∧ ∀ x, ¬ PointLiteral s.toList x) ∧
      ∀ n, PlainNumeral s.toList n → n < -2 ^ 63 ∨ 2 ^ 63 ≤ n → classify s.toList = .string s) ∧
    (∀ i : Int64, classify (integerText i.toInt).toList = .integer i) ∧
    ∀ b, classify (boolWord b).toList = .bool b := by
  refine ⟨fun s => ?_, fun i => ?_, fun b => ?_⟩
  · simp only [classify_eq_iff]
    refine ⟨fun i => ?_, fun b => ?_, fun x => ?_, fun t => ?_, fun n hn hrange => ?_⟩
    · exact ⟨fun | .integer h => h, .integer⟩
    · exact ⟨fun | .bool h => h, .bool⟩
    · exact ⟨fun | .float h => h, .float⟩
    · exact class_string_iff
    · refine class_string_iff.mpr ⟨rfl, fun i hi => ?_, fun b => hn.not_inAnyCase b,
        fun x hx => hn.not_mem_point hx.1⟩
      obtain rfl := hi.1.unique hn.1
      have hlow := i.le_toInt
      have hhigh := i.toInt_lt
      omega
  · rw [integerText, String.toList_ofList, classify_eq_iff]
    exact .integer (plainNumeral_writeInteger i.toInt)
  · exact classify_eq_iff.mpr (.bool (inAnyCase_self _))

example : classify "-12".toList = .integer (-12) ∧ classify "1.2.3".toList = .string "1.2.3" ∧
    classify "-".toList = .string "-" ∧
    classify "99999999999999999999".toList = .string "99999999999999999999" :=
  ⟨rfl, rfl, rfl, rfl⟩

end Wiring.Config
