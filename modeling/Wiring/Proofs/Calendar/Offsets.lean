import Wiring.Proofs.Calendar.Timeline

/-!
# Offsets from UTC

A local time with its offset behind it is read as the date-time of UTC, whichever day, month
or year that is in. So the instant that a text is written for decides what is read from it,
and not the place that it is written for.
-/

namespace Wiring.Calendar

open Wiring.Number Wiring.Text

/-- Some minutes are less than a day. -/
def IsOffset (minutes : Int) : Prop :=
  -minutesPerDay < minutes ∧ minutes < minutesPerDay

instance (minutes : Int) : Decidable (IsOffset minutes) :=
  inferInstanceAs (Decidable (_ ∧ _))

/-- The texts of an offset: the letter Z, or a sign, hours and minutes. A minus may be a hyphen or
the minus sign proper. -/
inductive OffsetText : List Char → Int → Prop
  | zulu {c : Char} (hc : c = 'Z' ∨ c = 'z') : OffsetText [c] 0
  | east {hours mins : Nat} (hhours : hours ≤ 23) (hmins : mins ≤ 59) :
    OffsetText ('+' :: (writePadded 2 hours ++ ':' :: writePadded 2 mins)) (hours * 60 + mins)
  | west {sign : Char} {hours mins : Nat} (hsign : sign = '-' ∨ sign = '−') (hhours : hours ≤ 23)
    (hmins : mins ≤ 59) :
    OffsetText (sign :: (writePadded 2 hours ++ ':' :: writePadded 2 mins)) (-(hours * 60 + mins))

/-- The sign of an offset, its hours and its minutes. -/
def offsetText (minutes : Int) : List Char :=
  (if minutes < 0 then '-' else '+') ::
    (writePadded 2 (minutes.natAbs / 60) ++ ':' :: writePadded 2 (minutes.natAbs % 60))

/-- Four digits are enough for the year. -/
def DateTime.Plain (t : DateTime) : Prop :=
  0 ≤ t.date.year ∧ t.date.year ≤ 9999

instance (t : DateTime) : Decidable t.Plain :=
  inferInstanceAs (Decidable (_ ∧ _))

/-- A text is written for an instant: it is a date-time of UTC, or a local time with its offset
from UTC behind it. -/
inductive Denotes : List Char → Int → Prop
  | utc {t : DateTime} (ht : t.Regular) : Denotes t.text t.instant
  | zoned {t : DateTime} {separator : Char} {fraction offset : List Char} {minutes : Int}
    (ht : t.Regular) (hplain : t.Plain)
    (hseparator : (separator = 'T' || separator = 't' || separator = ' ') = true)
    (hfraction : Fraction fraction t.time.nano) (hoffset : OffsetText offset minutes) :
    Denotes (t.date.text ++ separator :: (t.time.clockText ++ (fraction ++ offset)))
      (t.instant - minutes * 60 * nanosPerSecond)

section

variable {t u : DateTime} {minutes : Int} {offset rest s : List Char} {instant : Int}

/-! ## The text of an offset -/

theorem offsetText_offsetText (h : IsOffset minutes) : OffsetText (offsetText minutes) minutes := by
  obtain ⟨hlow, hhigh⟩ := h
  rw [minutesPerDay] at hlow hhigh
  have hhours : minutes.natAbs / 60 ≤ 23 := by omega
  have hmins : minutes.natAbs % 60 ≤ 59 := by omega
  unfold offsetText
  split
  · have hwest := OffsetText.west (.inl rfl) hhours hmins
    have hvalue : -((minutes.natAbs / 60 : Nat) * 60 + (minutes.natAbs % 60 : Nat) : Int) =
        minutes := by omega
    rwa [hvalue] at hwest
  · have heast := OffsetText.east hhours hmins
    have hvalue : ((minutes.natAbs / 60 : Nat) * 60 + (minutes.natAbs % 60 : Nat) : Int) =
        minutes := by omega
    rwa [hvalue] at heast

theorem OffsetText.isOffset (h : OffsetText offset minutes) : IsOffset minutes := by
  unfold IsOffset
  rw [minutesPerDay]
  cases h with
  | zulu => omega
  | east | west => omega

/-- An offset starts with a letter or a sign, and ends with a letter or a digit. -/
theorem OffsetText.ends (h : OffsetText offset minutes) : Stops offset ∧
    (∀ more, offset ≠ '.' :: more) ∧ ∃ front last, offset = front ++ last ∧ Graphic last ∧
      last ≠ [] := by
  cases h with
  | zulu hc =>
    rcases hc with rfl | rfl <;>
      exact ⟨stops_cons rfl, by simp, [], _, rfl, graphic_cons.mpr ⟨rfl, graphic_nil⟩, by simp⟩
  | @east hours mins =>
    refine ⟨stops_cons rfl, by simp, '+' :: (writePadded 2 hours ++ [':']), writePadded 2 mins, ?_,
      (digits_writePadded 2 mins).graphic, writePadded_ne_nil 2 mins⟩
    simp
  | @west sign hours mins hsign =>
    refine ⟨stops_cons ?_, ?_, sign :: (writePadded 2 hours ++ [':']), writePadded 2 mins, ?_,
      (digits_writePadded 2 mins).graphic, writePadded_ne_nil 2 mins⟩
    · rcases hsign with rfl | rfl <;> rfl
    · rcases hsign with rfl | rfl <;> simp
    · simp

/-- Behind a sign, hours and minutes are read as they are written. -/
theorem readOffset_of_sign {sign : Char} {hours mins : Nat} (hhours : hours ≤ 23)
    (hmins : mins ≤ 59) (hletter : ¬ (sign = 'Z' || sign = 'z') = true)
    (hsign : (sign = '+' || sign = '-' || sign = '−') = true) :
    readOffset (sign :: (writePadded 2 hours ++ ':' :: writePadded 2 mins)) =
      some (if sign = '+' then (hours * 60 + mins : Int) else -(hours * 60 + mins : Int), []) := by
  generalize hresult : readOffset _ = result
  rw [← List.append_nil (writePadded 2 mins), readOffset, if_neg hletter, if_pos hsign] at hresult
  replace hresult := eq_of_bind hresult (readExactly_writePadded (by decide) (by omega))
  replace hresult := eq_of_bind hresult (readChar_self _ _)
  replace hresult := eq_of_bind hresult (readExactly_writePadded (by decide) (by omega))
  rw [← hresult]
  exact if_pos (by rw [decide_eq_true hhours, decide_eq_true hmins, Bool.and_self])

theorem OffsetText.read (h : OffsetText offset minutes) :
    readOffset offset = some (minutes, []) := by
  cases h with
  | zulu hc => rcases hc with rfl | rfl <;> rfl
  | east hhours hmins => exact readOffset_of_sign hhours hmins (by decide) (by decide)
  | west hsign hhours hmins =>
    rcases hsign with rfl | rfl <;>
      exact readOffset_of_sign hhours hmins (by decide) (by decide)

/-! ## Date-times with an offset -/

theorem readDateTime_of_readZoned (h : readZoned s = some t) : readDateTime s = some t := by
  rw [readDateTime, dateTimeReadings, List.cons_append, List.findSome?_cons, h]

theorem regular_of_earlierBy? (ht : t.Regular) (hminutes : IsOffset minutes)
    (h : t.earlierBy? minutes = some u) :
    u.Regular ∧ u.instant = t.instant - minutes * 60 * nanosPerSecond := by
  obtain ⟨hnumber, hsecond, hnano⟩ :=
    DateTime.minuteNumber_of_earlierBy? hminutes.1 hminutes.2 h
  refine ⟨?_, DateTime.instant_of_minuteNumber hnumber hsecond hnano⟩
  rwa [DateTime.Regular, hnano]

/-- The local time of a date-time at an offset. -/
theorem exists_local (ht : t.Regular) (hminutes : IsOffset minutes) (hlow : minYear < t.date.year)
    (hhigh : t.date.year < maxYear) :
    ∃ u : DateTime, u.Regular ∧ u.instant = t.instant + minutes * 60 * nanosPerSecond := by
  obtain ⟨u, hu⟩ := t.exists_earlierBy? (-minutes) hlow hhigh
  obtain ⟨hregular, hinstant⟩ := regular_of_earlierBy? ht (by unfold IsOffset at *; omega) hu
  refine ⟨u, hregular, ?_⟩
  rw [hinstant, Int.neg_mul, Int.neg_mul, Int.sub_neg]

/-- A rendered local time with an offset behind it is written for the instant that is so many
minutes earlier. -/
theorem denotes_text_append (ht : t.Regular) (hplain : t.Plain)
    (hoffset : OffsetText offset minutes) :
    Denotes (t.text ++ offset) (t.instant - minutes * 60 * nanosPerSecond) := by
  have hfraction := t.time.fraction_text
  rw [t.text_append]
  rw [Nat.mod_eq_of_lt ht] at hfraction ⊢
  exact .zoned ht hplain rfl hfraction hoffset

/-- **A text is read as the date-time of the instant that it is written for.** -/
theorem Denotes.exists_read (h : Denotes s instant) :
    trim s = s ∧ ∃ u : DateTime, u.Regular ∧ u.instant = instant ∧ readDateTime s = some u := by
  cases h with
  | @utc t ht =>
    have hread := readDateTime_text t
    rw [ht.normalize_eq] at hread
    exact ⟨trim_of_graphic t.graphic_text, t, ht, rfl, hread⟩
  | @zoned t separator fraction offset minutes ht hplain hseparator hfraction hoffset =>
    obtain ⟨hstops, hpoint, front, last, hends, hlast, hne⟩ := hoffset.ends
    constructor
    · have hfirst : t.date.text ≠ [] :=
        List.append_ne_nil_of_right_ne_nil _ (writePadded_ne_nil 2 t.date.day)
      have htrim := trim_of_graphic_ends
        (s := separator :: (t.time.clockText ++ (fraction ++ front)))
        t.date.graphic_text hfirst hlast hne
      simpa only [hends, List.append_assoc, List.cons_append] using htrim
    · obtain ⟨u, hu⟩ := t.exists_earlierBy? minutes
        (by rw [minYear]; exact Int.lt_of_lt_of_le (by decide) hplain.1)
        (by rw [maxYear]; exact Int.lt_of_le_of_lt hplain.2 (by decide))
      obtain ⟨hregular, hinstant⟩ := regular_of_earlierBy? ht hoffset.isOffset hu
      refine ⟨u, hregular, hinstant, readDateTime_of_readZoned ?_⟩
      rw [← Nat.mod_eq_of_lt ht] at hfraction
      rw [readZoned_of_parts hplain hseparator hfraction hstops hpoint, hoffset.read,
        ht.normalize_eq, ← hu]
      rfl

end

end Wiring.Calendar
