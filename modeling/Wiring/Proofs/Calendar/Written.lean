import Mathlib.Data.List.TakeWhile
import Wiring.Proofs.Calendar.Digits

/-!
# Dates and date-times read back

A date is read back from its text, and a date-time from its text by the first
of the four patterns: the reading with an offset is tried before it and fails,
since a written date-time ends where an offset would have to stand. A text does
not tell nanoseconds that run over their second from those of the next one, so
what is read back is the normal form of what was written.
-/

namespace Wiring.Calendar

open Wiring.Number Wiring.Text

/-! ## Patterns -/

section

variable {fields fields' : Fields} {s rest : List Char}

theorem readItems_cons {item : Item} (h : readItem fields s item = .ok (fields', rest))
    (items : List Item) : readItems fields s (item :: items) = readItems fields' rest items := by
  rw [readItems, h]
  rfl

theorem readItems_append {items : List Item} (h : readItems fields s items = .ok (fields', rest))
    (more : List Item) : readItems fields s (items ++ more) = readItems fields' rest more := by
  induction items generalizing fields s with
  | nil =>
    cases h
    rfl
  | cons item items ih =>
    cases hitem : readItem fields s item with
    | error fault =>
      rw [readItems, hitem] at h
      cases h
    | ok read =>
      obtain ⟨fields'', rest'⟩ := read
      rw [readItems_cons hitem] at h
      rw [List.cons_append, readItems_cons hitem]
      exact ih h

end

section

variable (fields : Fields) {rest : List Char} {n : Nat}

theorem readItem_year {year : Int} (hlow : minYear ≤ year) (hhigh : year ≤ maxYear)
    (hrest : Stops rest) :
    readItem fields (yearText year ++ rest) .year = .ok ({ fields with year := year }, rest) := by
  rw [readItem, trimStart_append_of_graphic (graphic_yearText year) (yearText_ne_nil year),
    readYear_yearText hlow hhigh hrest]
  rfl

theorem readItem_month (hlow : 1 ≤ n) (hhigh : n ≤ 12) :
    readItem fields (writePadded 2 n ++ rest) .month = .ok ({ fields with month := n }, rest) := by
  rw [readItem, readBetween_writePadded hlow hhigh (by omega)]
  rfl

theorem readItem_day (hlow : 1 ≤ n) (hhigh : n ≤ 31) :
    readItem fields (writePadded 2 n ++ rest) .day = .ok ({ fields with day := n }, rest) := by
  rw [readItem, readBetween_writePadded hlow hhigh (by omega)]
  rfl

theorem readItem_hour (hhigh : n ≤ 23) :
    readItem fields (writePadded 2 n ++ rest) .hour = .ok ({ fields with hour := n }, rest) := by
  rw [readItem, readBetween_writePadded (Nat.zero_le n) hhigh (by omega)]
  rfl

theorem readItem_minute (hhigh : n ≤ 59) :
    readItem fields (writePadded 2 n ++ rest) .minute =
      .ok ({ fields with minute := n }, rest) := by
  rw [readItem, readBetween_writePadded (Nat.zero_le n) hhigh (by omega)]
  rfl

theorem readItem_second (hhigh : n ≤ 60) :
    readItem fields (writePadded 2 n ++ rest) .second =
      .ok ({ fields with second := n }, rest) := by
  rw [readItem, readBetween_writePadded (Nat.zero_le n) hhigh (by omega)]
  rfl

theorem readItem_literal (c : Char) :
    readItem fields (c :: rest) (.literal c) = .ok (fields, rest) :=
  if_pos rfl

end

/-! ## Fractions -/

/-- The nanoseconds that the digits behind a point stand for. The ninth is the last that counts. -/
def fractionNanos (ds : List Char) : Nat :=
  digitsValue 0 (ds.take 9) * 10 ^ (9 - (ds.take 9).length)

/-- A fraction of a second is nothing, or a point and any number of digits. -/
inductive Fraction : List Char → Nat → Prop
  | whole : Fraction [] 0
  | point {ds : List Char} (hds : Digits ds) (hne : ds ≠ []) :
    Fraction ('.' :: ds) (fractionNanos ds)

theorem spanDigits_nine {ds rest : List Char} (hds : Digits ds) (hrest : Stops rest) :
    (spanDigits 9 (ds ++ rest)).1 = ds.take 9 := by
  have htake : Digits (ds.take 9) := fun c hc => hds c (List.mem_of_mem_take hc)
  by_cases hlength : ds.length ≤ 9
  · rw [spanDigits_append hds hlength (.inr hrest), List.take_of_length_le hlength]
  · have hnine : (ds.take 9).length = 9 := by
      rw [List.length_take]
      omega
    rw [← List.take_append_drop 9 ds, List.append_assoc, List.take_append_drop,
      spanDigits_append htake (Nat.le_of_eq hnine) (.inl hnine)]

theorem readFraction_append {ds rest : List Char} (hds : Digits ds) (hne : ds ≠ [])
    (hrest : Stops rest) : readFraction (ds ++ rest) = .ok (fractionNanos ds, rest) := by
  have hspan := spanDigits_nine hds hrest
  have hdrop : (ds ++ rest).dropWhile isDigit = rest := by
    rw [List.dropWhile_append_of_pos hds]
    cases rest with
    | nil => rfl
    | cons c rest => exact List.dropWhile_cons_of_neg ((Bool.not_eq_true _).mpr (hrest c rest rfl))
  cases ds with
  | nil => exact absurd rfl hne
  | cons c ds =>
    rw [List.cons_append] at hspan hdrop ⊢
    rw [readFraction, if_pos (hds c (List.mem_cons_self ..)), hspan, hdrop, fractionNanos]
    rfl

theorem fraction_writePadded (width : Nat) {m : Nat} (hwidth : 0 < width) (hnine : width ≤ 9)
    (hm : m < 10 ^ width) : Fraction ('.' :: writePadded width m) (m * 10 ^ (9 - width)) := by
  have hlength := length_writePadded hwidth hm
  have hnanos : fractionNanos (writePadded width m) = m * 10 ^ (9 - width) := by
    rw [fractionNanos, List.take_of_length_le (by omega), hlength, digitsValue_writePadded]
  rw [← hnanos]
  exact .point (digits_writePadded width m) (writePadded_ne_nil width m)

/-- A fraction is left out when it is zero, and else it is as long as it has to be. -/
theorem fraction_fractionText {nano : Nat} (h : nano < nanosPerSecond) :
    Fraction (fractionText nano) nano := by
  rw [nanosPerSecond] at h
  unfold fractionText
  simp only [beq_iff_eq]
  split
  · rename_i hzero
    rw [hzero]
    exact .whole
  split
  · have hvalue : nano / 1000000 * 10 ^ (9 - 3) = nano := by omega
    have hfraction := fraction_writePadded 3 (m := nano / 1000000) (by decide) (by decide)
      (by omega)
    rwa [hvalue] at hfraction
  split
  · have hvalue : nano / 1000 * 10 ^ (9 - 6) = nano := by omega
    have hfraction := fraction_writePadded 6 (m := nano / 1000) (by decide) (by decide) (by omega)
    rwa [hvalue] at hfraction
  · have hfraction := fraction_writePadded 9 (m := nano) (by decide) (by decide) (by omega)
    rwa [Nat.sub_self, Nat.pow_zero, Nat.mul_one] at hfraction

theorem Fraction.graphic {s : List Char} {nano : Nat} (h : Fraction s nano) : Graphic s := by
  cases h with
  | whole => exact graphic_nil
  | point hds => exact graphic_cons.mpr ⟨rfl, hds.graphic⟩

theorem readItem_fraction {fields : Fields} {s : List Char} {nano : Nat} (h : Fraction s nano)
    (hfields : fields.nano = 0) :
    readItem fields s .fraction = .ok ({ fields with nano := nano }, []) := by
  cases h with
  | whole =>
    rw [← hfields]
    rfl
  | @point ds hds hne =>
    have hread := readFraction_append hds hne stops_nil
    rw [List.append_nil] at hread
    rw [readItem, hread]
    rfl

/-! ## Dates -/

theorem daysIn_le (year : Int) (month : Nat) : daysIn year month ≤ 31 := by
  unfold daysIn
  split
  · split <;> decide
  all_goals decide

namespace Date

theorem bounds (d : Date) : minYear ≤ d.year ∧ d.year ≤ maxYear ∧ 1 ≤ d.month ∧ d.month ≤ 12 ∧
    1 ≤ d.day ∧ d.day ≤ 31 := by
  have hvalid := d.valid
  simp only [isDay, Bool.and_eq_true, decide_eq_true_eq] at hvalid
  have hdays := daysIn_le d.year d.month
  omega

theorem of?_self (d : Date) : of? d.year d.month d.day = some d :=
  dif_pos d.valid

theorem graphic_text (d : Date) : Graphic d.text := by
  simp only [text, graphic_append, graphic_yearText, (digits_writePadded _ _).graphic,
    graphic_cons, graphic_nil, and_true, true_and]
  decide

end Date

/-- The fields that a date is read into. -/
def Fields.withDate (fields : Fields) (d : Date) : Fields :=
  { fields with year := d.year, month := d.month, day := d.day }

theorem readItems_date (fields : Fields) (d : Date) (rest : List Char) :
    readItems fields (d.text ++ rest) datePattern = .ok (fields.withDate d, rest) := by
  obtain ⟨hlow, hhigh, hmonth, hmonth', hday, hday'⟩ := d.bounds
  simp only [Date.text, List.append_assoc, List.cons_append, List.nil_append]
  rw [datePattern, readItems_cons (readItem_year _ hlow hhigh (stops_cons rfl)),
    readItems_cons (readItem_literal _ _), readItems_cons (readItem_month _ hmonth hmonth'),
    readItems_cons (readItem_literal _ _), readItems_cons (readItem_day _ hday hday')]
  rfl

theorem readDate_text (d : Date) : readDate d.text = .ok d := by
  have hread := readItems_date Fields.start d []
  rw [List.append_nil] at hread
  have hdate : (Fields.start.withDate d).date? = some d := d.of?_self
  rw [readDate, readPattern, hread]
  simp only [bind, Except.bind, List.isEmpty_nil, if_true, hdate]

/-! ## Times -/

theorem isTime_iff {hour minute second nano : Nat} : isTime hour minute second nano = true ↔
    hour < 24 ∧ minute < 60 ∧ second < 60 ∧ nano < 2 * nanosPerSecond := by
  simp only [isTime, Bool.and_eq_true, decide_eq_true_eq, and_assoc]

namespace Time

/-- The second that is written: the one after, if the nanoseconds run over into it. -/
def shownSecond (t : Time) : Nat :=
  t.second + t.nano / nanosPerSecond

/-- Hours, minutes and seconds. -/
def clockText (t : Time) : List Char :=
  writePadded 2 t.hour ++ ':' :: (writePadded 2 t.minute ++ ':' :: writePadded 2 t.shownSecond)

/-- The nanoseconds do not run over their second, unless it is into a leap second. -/
def Normal (t : Time) : Prop :=
  t.nano < nanosPerSecond ∨ t.second = 59

instance (t : Time) : Decidable t.Normal :=
  inferInstanceAs (Decidable (_ ∨ _))

theorem bounds (t : Time) : t.hour ≤ 23 ∧ t.minute ≤ 59 ∧ t.shownSecond ≤ 60 := by
  have hvalid := isTime_iff.mp t.valid
  unfold shownSecond
  rw [nanosPerSecond] at *
  omega

theorem isTime_of_not_normal {t : Time} (h : ¬ t.Normal) :
    isTime t.hour t.minute (t.second + 1) (t.nano - nanosPerSecond) = true := by
  obtain ⟨hhour, hminute, hsecond, hnano⟩ := isTime_iff.mp t.valid
  rw [Normal, nanosPerSecond] at h
  rw [isTime_iff]
  rw [nanosPerSecond] at *
  omega

/-- The time of day that is written. Nanoseconds that run over count from the next second, as
no other second than 59 has a leap second after it. -/
def normalize (t : Time) : Time :=
  if h : t.Normal then t
  else ⟨t.hour, t.minute, t.second + 1, t.nano - nanosPerSecond, isTime_of_not_normal h⟩

theorem normalize_of_normal {t : Time} (h : t.Normal) : t.normalize = t :=
  dif_pos h

theorem normalize_of_not_normal {t : Time} (h : ¬ t.Normal) : t.normalize =
    ⟨t.hour, t.minute, t.second + 1, t.nano - nanosPerSecond, isTime_of_not_normal h⟩ :=
  dif_neg h

theorem normalize_eq_self_iff {t : Time} : t.normalize = t ↔ t.Normal := by
  refine ⟨fun heq => ?_, normalize_of_normal⟩
  by_contra h
  rw [normalize_of_not_normal h] at heq
  exact absurd (congrArg second heq) (Nat.succ_ne_self t.second)

theorem normal_normalize (t : Time) : t.normalize.Normal := by
  by_cases h : t.Normal
  · rwa [normalize_of_normal h]
  · obtain ⟨-, -, -, hvalid⟩ := isTime_iff.mp t.valid
    have hnano : t.nano - nanosPerSecond < nanosPerSecond := by omega
    rw [normalize_of_not_normal h]
    exact .inl hnano

theorem text_eq (t : Time) : t.text = t.clockText ++ fractionText (t.nano % nanosPerSecond) := by
  simp only [text, clockText, shownSecond, List.append_assoc, List.cons_append, List.nil_append]

theorem of?_self (t : Time) : of? t.hour t.minute t.second t.nano = some t :=
  dif_pos t.valid

theorem nano_mod_lt (t : Time) : t.nano % nanosPerSecond < nanosPerSecond :=
  Nat.mod_lt _ (by decide)

/-- What is written of a time is what is written of the normal one. -/
theorem shown_normalize (t : Time) : t.normalize.hour = t.hour ∧ t.normalize.minute = t.minute ∧
    t.normalize.shownSecond = t.shownSecond ∧
    t.normalize.nano % nanosPerSecond = t.nano % nanosPerSecond := by
  by_cases h : t.Normal
  · rw [normalize_of_normal h]
    exact ⟨rfl, rfl, rfl, rfl⟩
  · have hover : nanosPerSecond ≤ t.nano := Nat.le_of_not_lt (not_or.mp h).1
    rw [normalize_of_not_normal h]
    refine ⟨rfl, rfl, ?_, (Nat.mod_eq_sub_mod hover).symm⟩
    rw [shownSecond, shownSecond, Nat.div_eq_sub_div (by decide) hover, Nat.add_assoc,
      Nat.add_comm 1]

theorem shown_cases {t : Time} (h : t.Normal) :
    (t.shownSecond = 60 ∧ t.second = 59 ∧ nanosPerSecond + t.nano % nanosPerSecond = t.nano) ∨
      (t.shownSecond ≠ 60 ∧ t.shownSecond = t.second ∧ t.nano % nanosPerSecond = t.nano) := by
  have hvalid := isTime_iff.mp t.valid
  rw [Normal] at h
  unfold shownSecond
  rw [nanosPerSecond] at *
  omega

theorem of?_shown_of_normal {t : Time} (h : t.Normal) :
    (if t.shownSecond == 60 then
      of? t.hour t.minute 59 (nanosPerSecond + t.nano % nanosPerSecond)
    else of? t.hour t.minute t.shownSecond (t.nano % nanosPerSecond)) = some t := by
  rcases shown_cases h with ⟨hshown, hsecond, hnano⟩ | ⟨hshown, hsecond, hnano⟩
  · rw [if_pos (beq_iff_eq.mpr hshown), hnano, ← hsecond, of?_self]
  · rw [if_neg (by rwa [beq_iff_eq]), hnano, hsecond, of?_self]

/-- What is written as second 60 is second 59 with a billion nanoseconds more. -/
theorem of?_shown (t : Time) :
    (if t.shownSecond == 60 then
      of? t.hour t.minute 59 (nanosPerSecond + t.nano % nanosPerSecond)
    else of? t.hour t.minute t.shownSecond (t.nano % nanosPerSecond)) = some t.normalize := by
  obtain ⟨hhour, hminute, hsecond, hnano⟩ := t.shown_normalize
  rw [← hhour, ← hminute, ← hsecond, ← hnano]
  exact of?_shown_of_normal t.normal_normalize

theorem fraction_text (t : Time) :
    Fraction (fractionText (t.nano % nanosPerSecond)) (t.nano % nanosPerSecond) :=
  fraction_fractionText t.nano_mod_lt

theorem graphic_clockText (t : Time) : Graphic t.clockText := by
  have hcolon : isGraphic ':' = true := rfl
  simp only [clockText, graphic_append, graphic_cons, hcolon, (digits_writePadded _ _).graphic,
    and_self]

theorem graphic_text (t : Time) : Graphic t.text := by
  rw [t.text_eq, graphic_append]
  exact ⟨t.graphic_clockText, t.fraction_text.graphic⟩

end Time

/-- The fields that a time of day is read into. -/
def Fields.withTime (fields : Fields) (t : Time) : Fields :=
  { fields with
    hour := t.hour, minute := t.minute, second := t.shownSecond, nano := t.nano % nanosPerSecond }

/-- The times of day with seconds, as the first pattern has them. -/
def timePattern : List Item :=
  [.hour, .literal ':', .minute, .literal ':', .second, .fraction]

theorem readItems_time {fields : Fields} (hfields : fields.nano = 0) (t : Time) :
    readItems fields t.text timePattern = .ok (fields.withTime t, []) := by
  obtain ⟨hhour, hminute, hsecond⟩ := t.bounds
  rw [t.text_eq, Time.clockText, timePattern]
  simp only [List.append_assoc, List.cons_append]
  rw [readItems_cons (readItem_hour _ hhour),
    readItems_cons (readItem_literal _ _), readItems_cons (readItem_minute _ hminute),
    readItems_cons (readItem_literal _ _), readItems_cons (readItem_second _ hsecond)]
  refine (readItems_cons (readItem_fraction t.fraction_text ?_) []).trans rfl
  exact hfields

/-! ## Date-times -/

namespace DateTime

/-- The date-time that is written. -/
def normalize (t : DateTime) : DateTime :=
  ⟨t.date, t.time.normalize⟩

theorem normalize_eq_self_iff {t : DateTime} : t.normalize = t ↔ t.time.Normal := by
  rw [← Time.normalize_eq_self_iff]
  exact ⟨congrArg time, congrArg (DateTime.mk t.date)⟩

end DateTime

theorem dateTime?_shown (fields : Fields) (t : DateTime) :
    ((fields.withDate t.date).withTime t.time).dateTime? = some t.normalize := by
  have hdate : ((fields.withDate t.date).withTime t.time).date? = some t.date := t.date.of?_self
  have hshown := t.time.of?_shown
  rw [Fields.dateTime?, hdate]
  simp only [Option.bind_eq_bind, Option.bind_some]
  split at hshown
  · rename_i hleap
    exact (if_pos hleap).trans (congrArg (Option.bind · _) hshown)
  · rename_i hleap
    exact (if_neg hleap).trans (congrArg (Option.bind · _) hshown)

theorem readDateTimeBy_text (t : DateTime) :
    readDateTimeBy (datePattern ++ .literal 'T' :: timePattern) t.text = some t.normalize := by
  have hdate := readItems_date Fields.start t.date ('T' :: t.time.text)
  have hread : readItems Fields.start t.text (datePattern ++ .literal 'T' :: timePattern) =
      .ok ((Fields.start.withDate t.date).withTime t.time, []) := by
    rw [DateTime.text, List.append_assoc, List.singleton_append, readItems_append hdate,
      readItems_cons (readItem_literal _ 'T'), readItems_time rfl]
  rw [readDateTimeBy, readPattern, hread]
  exact dateTime?_shown Fields.start t

/-! The reading with an offset is the first one tried. -/

theorem readExactly_of_stops {s : List Char} (h : Stops s) : readExactly 4 s = none := by
  cases s with
  | nil => rfl
  | cons c rest =>
    rw [readExactly, spanDigits, h c rest rfl, if_neg Bool.false_ne_true]
    rfl

theorem readChar_self (c : Char) (rest : List Char) : readChar c (c :: rest) = some rest :=
  if_pos rfl

theorem eq_of_bind {α β : Type} {x : Option α} {a : α} {f : α → Option β} {y : Option β}
    (h : x.bind f = y) (hx : x = some a) : f a = y := by
  rw [← h, hx, Option.bind_some]

/-- A date and a time of day are read up to their end, whatever stands between them and however
many digits the fraction has, and what follows them is read as an offset. -/
theorem readZoned_of_parts {t : DateTime} {separator : Char} {fraction rest : List Char}
    (hplain : 0 ≤ t.date.year ∧ t.date.year ≤ 9999)
    (hseparator : (separator = 'T' || separator = 't' || separator = ' ') = true)
    (hfraction : Fraction fraction (t.time.nano % nanosPerSecond)) (hstops : Stops rest)
    (hpoint : ∀ more, rest ≠ '.' :: more) :
    readZoned (t.date.text ++ separator :: (t.time.clockText ++ (fraction ++ rest))) =
      (readOffset rest).bind fun (offset, rest) =>
        if rest.isEmpty then t.normalize.earlierBy? offset else none := by
  obtain ⟨-, -, hmonth, hmonth', hday, hday'⟩ := t.date.bounds
  obtain ⟨hhour, hminute, hsecond⟩ := t.time.bounds
  have hmoment : Fields.dateTime? ⟨t.date.year.natAbs, t.date.month, t.date.day, t.time.hour,
      t.time.minute, t.time.shownSecond, t.time.nano % nanosPerSecond⟩ = some t.normalize := by
    rw [Int.natAbs_of_nonneg hplain.1]
    exact dateTime?_shown Fields.start t
  generalize t.time.nano % nanosPerSecond = nano at hfraction hmoment
  generalize hresult : readZoned _ = result
  simp only [Date.text, Time.clockText, List.append_assoc, List.cons_append, List.nil_append,
    yearText_of_plain hplain] at hresult
  -- Each step reads what was written, up to the fraction.
  replace hresult := eq_of_bind hresult (readExactly_writePadded (by decide) (by omega))
  replace hresult := eq_of_bind hresult (readChar_self _ _)
  replace hresult := eq_of_bind hresult (readTwo_writePadded hmonth hmonth' (by omega))
  replace hresult := eq_of_bind hresult (readChar_self _ _)
  replace hresult := eq_of_bind hresult (readTwo_writePadded hday hday' (by omega))
  replace hresult := eq_of_bind ((if_pos hseparator).symm.trans hresult) rfl
  replace hresult := eq_of_bind hresult (readTwo_writePadded (Nat.zero_le _) hhour (by omega))
  replace hresult := eq_of_bind hresult (readChar_self _ _)
  replace hresult := eq_of_bind hresult (readTwo_writePadded (Nat.zero_le _) hminute (by omega))
  replace hresult := eq_of_bind hresult (readChar_self _ _)
  replace hresult := eq_of_bind hresult (readTwo_writePadded (Nat.zero_le _) hsecond (by omega))
  cases hfraction with
  | whole =>
    simp only [List.nil_append] at hresult
    replace hresult := eq_of_bind hresult rfl
    simp only [hmoment] at hresult
    exact hresult.symm
  | point hds hne =>
    simp only [List.cons_append, readFraction_append hds hne hstops] at hresult
    replace hresult := eq_of_bind hresult rfl
    simp only [hmoment] at hresult
    exact hresult.symm

theorem DateTime.text_append (t : DateTime) (rest : List Char) : t.text ++ rest =
    t.date.text ++ 'T' :: (t.time.clockText ++
      (fractionText (t.time.nano % nanosPerSecond) ++ rest)) := by
  simp only [text, t.time.text_eq, List.append_assoc, List.cons_append, List.nil_append]

/-- Nothing stands where an offset is wanted, and a signed year is not read at all. -/
theorem readZoned_text (t : DateTime) : readZoned t.text = none := by
  by_cases hplain : 0 ≤ t.date.year ∧ t.date.year ≤ 9999
  · rw [← List.append_nil t.text, t.text_append,
      readZoned_of_parts hplain rfl t.time.fraction_text stops_nil nofun]
    rfl
  · cases h : readZoned t.text with
    | none => rfl
    | some moment =>
      obtain ⟨year, hread, -⟩ := Option.bind_eq_some_iff.mp h
      obtain ⟨c, hc, htext⟩ := exists_sign_of_not_plain hplain
      simp only [DateTime.text, Date.text, List.append_assoc, htext, List.cons_append] at hread
      rw [readExactly_of_stops (stops_cons hc)] at hread
      cases hread

theorem DateTime.graphic_text (t : DateTime) : Graphic t.text := by
  simp only [text, graphic_append, t.date.graphic_text, t.time.graphic_text, graphic_cons,
    graphic_nil, and_true, true_and]
  decide

/-- A date-time is read back by the first reading that does not want an offset, as it is
written. -/
theorem readDateTime_text (t : DateTime) : readDateTime t.text = some t.normalize := by
  rw [readDateTime, dateTimeReadings, List.cons_append, List.findSome?_cons, readZoned_text,
    dateTimePatterns, List.map_cons, List.cons_append, List.findSome?_cons]
  have hread := readDateTimeBy_text t
  rw [timePattern] at hread
  simp only [List.cons_append, List.nil_append, hread]

end Wiring.Calendar
