import Mathlib.Data.List.TakeWhile
import Wiring.Text.Blank
import Wiring.Text.Utf8

/-!
# Graphic text

The graphic characters are those of ASCII that show: no blank and one byte each.
Numerals, identifiers and dates are written with them alone, so they lose
nothing when they are trimmed, and their size is their length.
-/

namespace Wiring.Text

def isGraphic (c : Char) : Bool :=
  33 ≤ c.toNat && c.toNat ≤ 126

/-- All characters of a text are graphic. -/
def Graphic (s : List Char) : Prop :=
  ∀ c ∈ s, isGraphic c = true

/-- All characters of a text are blanks. -/
def Blank (s : List Char) : Prop :=
  ∀ c ∈ s, isBlank c = true

instance (s : List Char) : Decidable (Blank s) :=
  List.decidableBAll _ s

section

variable {c : Char} {s t : List Char}

theorem isGraphic_iff : isGraphic c = true ↔ 33 ≤ c.toNat ∧ c.toNat ≤ 126 := by
  rw [isGraphic, Bool.and_eq_true, decide_eq_true_eq, decide_eq_true_eq]

theorem not_isBlank_of_isGraphic (h : isGraphic c = true) : isBlank c = false := by
  obtain ⟨hlow, hhigh⟩ := isGraphic_iff.mp h
  -- Four flips of the blanks lie at or below a graphic character.
  have hcount : blankFlips.countP (· ≤ c.toNat) = 4 := by
    simp only [blankFlips, List.countP_cons, List.countP_nil, decide_eq_true_eq]
    repeat first
      | rw [if_pos (by omega)]
      | rw [if_neg (by omega)]
  rw [isBlank, withinFlips, hcount]
  rfl

@[simp]
theorem graphic_nil : Graphic [] :=
  fun _ h => (List.not_mem_nil h).elim

@[simp]
theorem graphic_cons : Graphic (c :: s) ↔ isGraphic c = true ∧ Graphic s :=
  List.forall_mem_cons

@[simp]
theorem graphic_append : Graphic (s ++ t) ↔ Graphic s ∧ Graphic t :=
  List.forall_mem_append

theorem Graphic.reverse (hs : Graphic s) : Graphic s.reverse :=
  fun c hc => hs c (List.mem_reverse.mp hc)

theorem Blank.reverse (hs : Blank s) : Blank s.reverse :=
  fun c hc => hs c (List.mem_reverse.mp hc)

/-- A text that starts with a character that is not blank has nothing to trim in front. -/
theorem trimStart_append_of_graphic (hs : Graphic s) (hne : s ≠ []) :
    trimStart (s ++ t) = s ++ t := by
  cases s with
  | nil => exact absurd rfl hne
  | cons c s =>
    rw [graphic_cons] at hs
    rw [List.cons_append, trimStart, List.dropWhile_cons_of_neg]
    rw [not_isBlank_of_isGraphic hs.1]
    exact Bool.false_ne_true

theorem dropWhile_of_graphic (hs : Graphic s) : s.dropWhile isBlank = s := by
  cases s with
  | nil => rfl
  | cons c s =>
    rw [← List.append_nil (c :: s)]
    exact trimStart_append_of_graphic hs (List.cons_ne_nil c s)

theorem trim_of_graphic (hs : Graphic s) : trim s = s := by
  rw [trim, trimStart, dropWhile_of_graphic hs, trimEnd, dropWhile_of_graphic hs.reverse,
    List.reverse_reverse]

/-- Trimming takes nothing away but blanks. -/
theorem exists_blanks_around_trim (s : List Char) :
    ∃ before after, Blank before ∧ Blank after ∧ s = before ++ trim s ++ after := by
  have hblank (s : List Char) : Blank (s.takeWhile isBlank) := fun _ => List.mem_takeWhile_imp
  refine ⟨s.takeWhile isBlank, ((trimStart s).reverse.takeWhile isBlank).reverse, hblank s,
    (hblank _).reverse, ?_⟩
  rw [List.append_assoc, trim, trimEnd, ← List.reverse_append, List.takeWhile_append_dropWhile,
    List.reverse_reverse, trimStart, List.takeWhile_append_dropWhile]

/-- A text that starts and ends with graphic characters has nothing to trim, whatever stands
between them. -/
theorem trim_of_graphic_ends {first last : List Char} (hfirst : Graphic first) (hne : first ≠ [])
    (hlast : Graphic last) (hne' : last ≠ []) :
    trim (first ++ (s ++ last)) = first ++ (s ++ last) := by
  rw [trim, trimStart_append_of_graphic hfirst hne, trimEnd, ← List.append_assoc,
    List.reverse_append]
  have hend := trimStart_append_of_graphic (t := (first ++ s).reverse) hlast.reverse
    (mt List.reverse_eq_nil_iff.mp hne')
  rw [trimStart] at hend
  rw [hend, ← List.reverse_append, List.reverse_reverse]

/-- Trimming takes all blanks away that stand around a graphic text. -/
theorem trim_of_blanks_around {before after : List Char} (hbefore : Blank before)
    (hafter : Blank after) (hs : Graphic s) (hne : s ≠ []) :
    trim (before ++ s ++ after) = s := by
  have hfront : trimStart (before ++ s ++ after) = s ++ after := by
    rw [trimStart, List.append_assoc, List.dropWhile_append_of_pos hbefore]
    exact trimStart_append_of_graphic hs hne
  rw [trim, hfront, trimEnd, List.reverse_append, List.dropWhile_append_of_pos hafter.reverse,
    dropWhile_of_graphic hs.reverse, List.reverse_reverse]

end

end Wiring.Text
