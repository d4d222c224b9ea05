import Wiring.Proofs.Calendar.Marks
import Wiring.Proofs.Calendar.Offsets
import Wiring.Proofs.Value.Outcomes
import Wiring.Proofs.Value.Texts

/-!
# Date-times from text

A text that is written for an instant is converted to the date-time of that instant in UTC.
A text is accepted by one of the ways to write a date-time at most; so a date that is written
out and read as a date-time becomes what it is converted to directly, its midnight.
-/

namespace Wiring.Value

open Wiring.Calendar

/-! ## Instants -/

theorem exists_parse_of_denotes {chars : List Char} {instant : Int} (h : Denotes chars instant) :
    ∃ u : DateTime, u.Regular ∧ u.instant = instant ∧
      parse (String.ofList chars) .dateTime = .ok (dateTime u) := by
  obtain ⟨htrim, u, hu, hinstant, hread⟩ := h.exists_read
  exact ⟨u, hu, hinstant, parse_of_trimmed rfl htrim (readTrimmed_dateTime hread)⟩

theorem parse_of_denotes {chars : List Char} {u : DateTime} (hu : u.Regular)
    (h : Denotes chars u.instant) : parse (String.ofList chars) .dateTime = .ok (dateTime u) := by
  obtain ⟨t, ht, hinstant, hparse⟩ := exists_parse_of_denotes h
  rwa [← DateTime.eq_of_instant ht hu hinstant]

/-- **Offsets are normalised to UTC,** outside leap seconds. A rendered local time with its offset
behind it is read as the date-time of UTC, as is the rendered date-time of UTC with a Z behind it,
and away from the two ends of the calendar there is a local time at every offset. Two texts that
are written for one instant, in whatever places and with however many digits, are read as one
value, the date-time of that instant. -/
theorem instants_decide :
    (∀ (u localTime : DateTime) (minutes : Int), u.Regular → localTime.Regular → IsOffset minutes →
      localTime.instant = u.instant + minutes * 60 * nanosPerSecond → localTime.Plain →
      parse (String.ofList (localTime.text ++ offsetText minutes)) .dateTime = .ok (dateTime u) ∧
      (minutes = 0 →
        parse (String.ofList (localTime.text ++ ['Z'])) .dateTime = .ok (dateTime u))) ∧
    (∀ (u : DateTime) (minutes : Int), u.Regular → IsOffset minutes →
      minYear < u.date.year → u.date.year < maxYear →
      ∃ localTime : DateTime, localTime.Regular ∧
        localTime.instant = u.instant + minutes * 60 * nanosPerSecond) ∧
    ∀ (s s' : String) (instant : Int), Denotes s.toList instant → Denotes s'.toList instant →
      ∃ u : DateTime, u.Regular ∧ u.instant = instant ∧ parse s .dateTime = .ok (dateTime u) ∧
        parse s' .dateTime = .ok (dateTime u) := by
  refine ⟨fun u localTime minutes hu hlocal hminutes hinstant hplain => ⟨?_, ?_⟩,
    fun u minutes hu hminutes hlow hhigh => exists_local hu hminutes hlow hhigh,
    fun s s' instant h h' => ?_⟩
  · have hdenotes := denotes_text_append hlocal hplain (offsetText_offsetText hminutes)
    rw [hinstant, Int.add_sub_cancel] at hdenotes
    exact parse_of_denotes hu hdenotes
  · rintro rfl
    have hdenotes := denotes_text_append hlocal hplain (.zulu (.inl rfl))
    rw [hinstant, Int.add_sub_cancel] at hdenotes
    exact parse_of_denotes hu hdenotes
  · obtain ⟨u, hu, rfl, hparse⟩ := exists_parse_of_denotes h
    have hparse' := parse_of_denotes hu h'
    rw [String.ofList_toList] at hparse hparse'
    exact ⟨u, hu, rfl, hparse, hparse'⟩

/-- Half an hour before the end of a leap day. -/
def leapDay : DateTime :=
  ⟨⟨2024, 2, 29, rfl⟩, ⟨23, 30, 0, 0, rfl⟩⟩

/-- An hour east of UTC it is March by then. -/
def dayAfterLeapDay : DateTime :=
  ⟨⟨2024, 3, 1, rfl⟩, ⟨0, 30, 0, 0, rfl⟩⟩

theorem leap_day_from_the_east :
    dayAfterLeapDay.text ++ offsetText 60 = "2024-03-01T00:30:00+01:00".toList ∧
    dayAfterLeapDay.instant = leapDay.instant + 60 * 60 * nanosPerSecond ∧
    parse "2024-03-01T00:30:00+01:00" .dateTime = .ok (dateTime leapDay) := by
  have htext : dayAfterLeapDay.text ++ offsetText 60 = "2024-03-01T00:30:00+01:00".toList := by
    decide
  have hinstant : dayAfterLeapDay.instant = leapDay.instant + 60 * 60 * nanosPerSecond := by
    decide
  obtain ⟨hparse, -⟩ := instants_decide.1 leapDay dayAfterLeapDay 60 (by decide) (by decide)
    (by decide) hinstant (by decide)
  rw [htext, String.ofList_toList] at hparse
  exact ⟨htext, hinstant, hparse⟩

/-! ## Readings -/

/-- The last reading to be tried is the one for dates, but as no other one accepts a date, it might
as well be the first. -/
theorem readDateTime_date (d : Date) : readDateTime d.text = some (midnight d) := by
  have hread : readMidnight d.text = some (midnight d) := by
    rw [readMidnight, readDate_text]
    exact at?_midnight d
  have hlast : dateTimeReadings.reverse = readMidnight :: (dateTimeReadings.take 5).reverse := rfl
  rw [← findSome?_eq_readDateTime (List.reverse_perm dateTimeReadings), hlast,
    List.findSome?_cons, hread]

/-- **Date-time texts are unambiguous.** Of the six readings at most one accepts a text, so their
order is immaterial to what is read. A date that is written out and read as a date-time is its
midnight, which it is also converted to directly, and which is converted back to it. -/
theorem readings_unambiguous :
    (∀ s : List Char, dateTimeReadings.countP (fun read => (read s).isSome) ≤ 1) ∧
    (∀ (s : List Char) (readings : List (List Char → Option DateTime)),
      readings.Perm dateTimeReadings →
      (readings.findSome? fun read => read s) = readDateTime s) ∧
    ∀ d : Date,
      parse (date d).toText .dateTime = .ok (dateTime (midnight d)) ∧
      (date d).coerce .dateTime = .ok (dateTime (midnight d)) ∧
      (dateTime (midnight d)).coerce .date = .ok (date d) := by
  refine ⟨fun s => ?_, fun s readings h => findSome?_eq_readDateTime h s, fun d => ⟨?_, rfl, rfl⟩⟩
  · rw [← List.length_filterMap_eq_countP]
    exact length_filterMap_dateTimeReadings s
  · exact parse_of_graphic rfl d.graphic_text (readTrimmed_dateTime (readDateTime_date d))

/-- A month of one digit and no seconds: only the fifth reading accepts this text, also when the
last is tried first. -/
theorem short_fields_read_backwards :
    dateTimeReadings.reverse.Perm dateTimeReadings ∧
    (dateTimeReadings.reverse.findSome? fun read => read "2024-2-29 7:05".toList) =
      some ⟨⟨2024, 2, 29, rfl⟩, ⟨7, 5, 0, 0, rfl⟩⟩ := by
  have hperm := List.reverse_perm dateTimeReadings
  have hread : readDateTime "2024-2-29 7:05".toList =
      some ⟨⟨2024, 2, 29, rfl⟩, ⟨7, 5, 0, 0, rfl⟩⟩ := by decide +kernel
  exact ⟨hperm, (readings_unambiguous.2.1 _ _ hperm).trans hread⟩

end Wiring.Value
