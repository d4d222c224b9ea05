import Wiring.Proofs.Calendar.Written

/-!
# The timeline

Days are numbered from the first day of the year 1 on, which has number 0, and an instant is
told by the nanoseconds since then. The number of a day is given in closed form from year,
month and day; the calendar steps from one day to the day before or after it, and the number
with it. So taking minutes away from a date-time, with whatever that means for its day, month
and year, takes them away from its instant, and no two date-times whose nanoseconds stay within
their second share one.
-/

namespace Wiring.Calendar

/-- The days between the first day of the year 1 and the first day of a year. -/
def daysBeforeYear (year : Int) : Int :=
  (year - 1) * 365 + (year - 1) / 4 - (year - 1) / 100 + (year - 1) / 400

/-- The days of a year before the first day of a month. -/
def daysBeforeMonth (year : Int) : Nat → Nat
  | 0 | 1 => 0
  | month + 2 => daysBeforeMonth year (month + 1) + daysIn year (month + 1)

/-- The days of a year. -/
def yearLength (year : Int) : Nat :=
  if isLeap year then 366 else 365

/-- The days before a date. -/
def Date.number (d : Date) : Int :=
  daysBeforeYear d.year + daysBeforeMonth d.year d.month + d.day - 1

example : Date.epoch.number = 719162 := by decide

/-- The whole minutes before a date-time. -/
def DateTime.minuteNumber (t : DateTime) : Int :=
  t.date.number * minutesPerDay + t.time.hour * 60 + t.time.minute

/-- The nanoseconds before a date-time. -/
def DateTime.instant (t : DateTime) : Int :=
  (t.minuteNumber * 60 + t.time.second) * nanosPerSecond + t.time.nano

/-- The nanoseconds of the date-time stay within its second, so it lies in no leap second. -/
def DateTime.Regular (t : DateTime) : Prop :=
  t.time.nano < nanosPerSecond

instance (t : DateTime) : Decidable t.Regular :=
  inferInstanceAs (Decidable (_ < _))

theorem DateTime.Regular.normalize_eq {t : DateTime} (h : t.Regular) : t.normalize = t :=
  DateTime.normalize_eq_self_iff.mpr (.inl h)

/-! ## Years and months -/

section

variable {year year' : Int} {month month' : Nat}

theorem isLeap_iff (year : Int) :
    isLeap year = true ↔ year % 4 = 0 ∧ (year % 100 ≠ 0 ∨ year % 400 = 0) := by
  simp only [isLeap, Bool.and_eq_true, Bool.or_eq_true, beq_iff_eq, bne_iff_ne]

theorem daysBeforeYear_succ (year : Int) :
    daysBeforeYear (year + 1) = daysBeforeYear year + yearLength year := by
  have hleap := isLeap_iff year
  unfold daysBeforeYear yearLength
  split
  · have hdiv := hleap.mp ‹_›
    omega
  · have hdiv := mt hleap.mpr ‹_›
    omega

theorem daysBeforeYear_le (h : year < year') :
    daysBeforeYear year + yearLength year ≤ daysBeforeYear year' := by
  rw [← daysBeforeYear_succ]
  unfold daysBeforeYear
  omega

theorem daysBeforeMonth_succ (year : Int) (hmonth : 1 ≤ month) :
    daysBeforeMonth year (month + 1) = daysBeforeMonth year month + daysIn year month := by
  cases month with
  | zero => cases hmonth
  | succ month => rfl

theorem daysBeforeMonth_le (year : Int) (hmonth : 1 ≤ month) (h : month < month') :
    daysBeforeMonth year month + daysIn year month ≤ daysBeforeMonth year month' := by
  induction h with
  | refl => exact Nat.le_of_eq (daysBeforeMonth_succ year hmonth).symm
  | step h ih =>
    rw [daysBeforeMonth_succ year (Nat.le_trans hmonth (Nat.le_of_lt h))]
    exact Nat.le_add_right_of_le ih

theorem daysBeforeMonth_twelve (year : Int) :
    daysBeforeMonth year 12 + 31 = yearLength year := by
  simp only [daysBeforeMonth, daysIn, yearLength]
  split <;> rfl

end

/-! ## Days -/

namespace Date

variable {d d' : Date} {year : Int} {month day : Nat}

theorem day_le_daysIn (d : Date) : d.day ≤ daysIn d.year d.month := by
  have hvalid := d.valid
  simp only [isDay, Bool.and_eq_true, decide_eq_true_eq] at hvalid
  exact hvalid.2

theorem of?_eq_some_iff :
    of? year month day = some d ↔ d.year = year ∧ d.month = month ∧ d.day = day := by
  constructor
  · intro h
    unfold of? at h
    split at h
    · cases h
      exact ⟨rfl, rfl, rfl⟩
    · cases h
  · rintro ⟨rfl, rfl, rfl⟩
    exact d.of?_self

theorem exists_of? (hyear : minYear ≤ year ∧ year ≤ maxYear) (hmonth : 1 ≤ month ∧ month ≤ 12)
    (hday : 1 ≤ day ∧ day ≤ daysIn year month) : ∃ d, of? year month day = some d := by
  have hvalid : isDay year month day = true := by
    simp only [isDay, Bool.and_eq_true, decide_eq_true_eq]
    omega
  exact ⟨_, dif_pos hvalid⟩

/-- The days of a year up to this one are all in the year. -/
theorem dayOfYear_le (d : Date) : daysBeforeMonth d.year d.month + d.day ≤ yearLength d.year := by
  obtain ⟨-, -, hmonth, hmonth', -, -⟩ := d.bounds
  have hday := d.day_le_daysIn
  have htwelve := daysBeforeMonth_twelve d.year
  by_cases hlast : d.month = 12
  · have hdays : daysIn d.year 12 = 31 := rfl
    rw [hlast] at hday ⊢
    omega
  · have hbefore := daysBeforeMonth_le d.year hmonth (Nat.lt_of_le_of_ne hmonth' hlast)
    omega

/-- **No two days have the same number.** -/
theorem eq_of_number (h : d.number = d'.number) : d = d' := by
  have hbounds := d.bounds
  have hbounds' := d'.bounds
  have hle := d.dayOfYear_le
  have hle' := d'.dayOfYear_le
  unfold number at h
  have hyear : d.year = d'.year := by
    rcases Int.lt_trichotomy d.year d'.year with hlt | heq | hlt
    · have hbefore := daysBeforeYear_le hlt
      omega
    · exact heq
    · have hbefore := daysBeforeYear_le hlt
      omega
  have hdays := d.day_le_daysIn
  have hdays' := d'.day_le_daysIn
  rw [← hyear] at h hdays'
  have hmonth : d.month = d'.month := by
    rcases Nat.lt_trichotomy d.month d'.month with hlt | heq | hlt
    · have hbefore := daysBeforeMonth_le d.year hbounds.2.2.1 hlt
      omega
    · exact heq
    · have hbefore := daysBeforeMonth_le d.year hbounds'.2.2.1 hlt
      omega
  have hday : d.day = d'.day := by
    rw [← hmonth] at h
    omega
  cases d
  cases d'
  simp only at hyear hmonth hday
  subst hyear hmonth hday
  rfl

theorem number_of_next? (h : d.next? = some d') : d'.number = d.number + 1 := by
  obtain ⟨-, -, hmonth, -⟩ := d.bounds
  unfold next? at h
  split at h
  · obtain ⟨hyear', hmonth', hday'⟩ := of?_eq_some_iff.mp h
    rw [number, hyear', hmonth', hday', number]
    omega
  split at h
  · rename_i hlast _
    obtain ⟨hyear', hmonth', hday'⟩ := of?_eq_some_iff.mp h
    have hsucc := daysBeforeMonth_succ d.year hmonth
    rw [number, hyear', hmonth', hday', number]
    omega
  · rename_i hlast hdecember
    obtain ⟨hyear', hmonth', hday'⟩ := of?_eq_some_iff.mp h
    have hfirst : daysBeforeMonth (d.year + 1) 1 = 0 := rfl
    have htwelve := daysBeforeMonth_twelve d.year
    have hdays : daysIn d.year 12 = 31 := rfl
    rw [ne_eq, not_not] at hlast hdecember
    rw [hdecember, hdays] at hlast
    rw [number, hyear', hmonth', hday', daysBeforeYear_succ, hfirst, number, hdecember, hlast]
    omega

theorem number_of_previous? (h : d.previous? = some d') : d'.number = d.number - 1 := by
  obtain ⟨-, -, hmonth, -, hday, -⟩ := d.bounds
  unfold previous? at h
  split at h
  · obtain ⟨hyear', hmonth', hday'⟩ := of?_eq_some_iff.mp h
    rw [number, hyear', hmonth', hday', number]
    omega
  split at h
  · rename_i hfirst hjanuary
    obtain ⟨hyear', hmonth', hday'⟩ := of?_eq_some_iff.mp h
    have hsucc := daysBeforeMonth_succ d.year (show 1 ≤ d.month - 1 by omega)
    rw [Nat.sub_add_cancel hmonth] at hsucc
    rw [number, hyear', hmonth', hday', number, hsucc]
    omega
  · rename_i hfirst hjanuary
    obtain ⟨hyear', hmonth', hday'⟩ := of?_eq_some_iff.mp h
    have hnone : daysBeforeMonth d.year 1 = 0 := rfl
    have htwelve := daysBeforeMonth_twelve (d.year - 1)
    have hsucc := daysBeforeYear_succ (d.year - 1)
    rw [ne_eq, not_not] at hfirst hjanuary
    rw [Int.sub_add_cancel] at hsucc
    rw [number, hyear', hmonth', hday', number, hjanuary, hfirst, hnone, hsucc]
    omega

theorem one_le_daysIn (year : Int) (month : Nat) : 1 ≤ daysIn year month := by
  unfold daysIn
  split
  · split <;> decide
  all_goals decide

theorem exists_next? (h : d.year < maxYear) : ∃ d', d.next? = some d' := by
  obtain ⟨hlow, hhigh, hmonth, hmonth', hday, -⟩ := d.bounds
  have hdays := d.day_le_daysIn
  unfold next?
  split
  · exact exists_of? ⟨hlow, hhigh⟩ ⟨hmonth, hmonth'⟩ (by omega)
  split
  · exact exists_of? ⟨hlow, hhigh⟩ (by omega) ⟨Nat.le_refl 1, one_le_daysIn ..⟩
  · exact exists_of? (by omega) (by decide) ⟨Nat.le_refl 1, one_le_daysIn ..⟩

theorem exists_previous? (h : minYear < d.year) : ∃ d', d.previous? = some d' := by
  obtain ⟨hlow, hhigh, hmonth, hmonth', hday, -⟩ := d.bounds
  have hdays := d.day_le_daysIn
  unfold previous?
  split
  · exact exists_of? ⟨hlow, hhigh⟩ ⟨hmonth, hmonth'⟩ (by omega)
  split
  · exact exists_of? ⟨hlow, hhigh⟩ (by omega) ⟨one_le_daysIn .., Nat.le_refl _⟩
  · exact exists_of? (by omega) (by decide) ⟨by decide, Nat.le_refl 31⟩

end Date

/-! ## Minutes -/

theorem Time.of?_eq_some_iff {t : Time} {hour minute second nano : Nat} :
    of? hour minute second nano = some t ↔
      t.hour = hour ∧ t.minute = minute ∧ t.second = second ∧ t.nano = nano := by
  constructor
  · intro h
    unfold of? at h
    split at h
    · cases h
      exact ⟨rfl, rfl, rfl, rfl⟩
    · cases h
  · rintro ⟨rfl, rfl, rfl, rfl⟩
    exact t.of?_self

namespace DateTime

variable {t u : DateTime} {minutes : Int}

/-- **Some minutes earlier.** On the timeline, minutes are taken from minutes; the seconds and
what is below them stay as they are. -/
theorem minuteNumber_of_earlierBy? (hlow : -minutesPerDay < minutes)
    (hhigh : minutes < minutesPerDay) (h : t.earlierBy? minutes = some u) :
    u.minuteNumber = t.minuteNumber - minutes ∧ u.time.second = t.time.second ∧
      u.time.nano = t.time.nano := by
  obtain ⟨hhour, hminute, -⟩ := t.time.bounds
  unfold earlierBy? at h
  dsimp only at h
  split at h
  · rename_i date time hdate htime
    cases h
    obtain ⟨hhour', hminute', hsecond', hnano'⟩ := Time.of?_eq_some_iff.mp htime
    refine ⟨?_, hsecond', hnano'⟩
    rw [minutesPerDay] at *
    generalize htotal : (t.time.hour : Int) * 60 + t.time.minute - minutes = total at *
    -- The minutes of the day run over by a day at most, and then the date is another one.
    have hnumber : date.number = t.date.number + total / 1440 := by
      split at hdate
      · rw [Date.number_of_previous? hdate]
        omega
      split at hdate
      · rw [Date.number_of_next? hdate]
        omega
      · cases hdate
        omega
    rw [minuteNumber, minuteNumber, minutesPerDay, hnumber, hhour', hminute']
    omega
  · cases h

/-- Between the first and the last year of the calendar, there is an earlier and a later time. -/
theorem exists_earlierBy? (minutes : Int) (hlow : minYear < t.date.year)
    (hhigh : t.date.year < maxYear) : ∃ u, t.earlierBy? minutes = some u := by
  have hdate : ∀ total : Int, ∃ date, (if total < 0 then t.date.previous?
      else if total ≥ minutesPerDay then t.date.next? else some t.date) = some date := by
    intro total
    split
    · exact Date.exists_previous? hlow
    split
    · exact Date.exists_next? hhigh
    · exact ⟨t.date, rfl⟩
  have htime : ∀ within < 1440,
      ∃ time, Time.of? (within / 60) (within % 60) t.time.second t.time.nano = some time := by
    intro within hwithin
    have hvalid := isTime_iff.mp t.time.valid
    exact ⟨_, dif_pos (isTime_iff.mpr ⟨by omega, by omega, hvalid.2.2⟩)⟩
  obtain ⟨date, hdate⟩ := hdate (t.time.hour * 60 + t.time.minute - minutes)
  obtain ⟨time, htime⟩ := htime
    ((t.time.hour * 60 + t.time.minute - minutes) % minutesPerDay).toNat
    (by rw [minutesPerDay]; omega)
  refine ⟨⟨date, time⟩, ?_⟩
  unfold earlierBy?
  dsimp only
  rw [hdate, htime]

/-! ## Instants -/

theorem instant_of_minuteNumber (hminutes : u.minuteNumber = t.minuteNumber - minutes)
    (hsecond : u.time.second = t.time.second) (hnano : u.time.nano = t.time.nano) :
    u.instant = t.instant - minutes * 60 * nanosPerSecond := by
  rw [instant, instant, hminutes, hsecond, hnano, nanosPerSecond]
  omega

/-- **Outside leap seconds, an instant has one date-time.** -/
theorem eq_of_instant (ht : t.Regular) (hu : u.Regular) (h : t.instant = u.instant) : t = u := by
  obtain ⟨hhour, hminute, hsecond, -⟩ := isTime_iff.mp t.time.valid
  obtain ⟨hhour', hminute', hsecond', -⟩ := isTime_iff.mp u.time.valid
  unfold Regular at ht hu
  rw [instant, instant, minuteNumber, minuteNumber, minutesPerDay] at h
  rw [nanosPerSecond] at *
  have hnano : t.time.nano = u.time.nano := by omega
  have hseconds : t.time.second = u.time.second := by omega
  have hminutes : t.time.minute = u.time.minute := by omega
  have hhours : t.time.hour = u.time.hour := by omega
  have hdate : t.date = u.date := Date.eq_of_number (by omega)
  cases t with | mk date time =>
  cases u with | mk date' time' =>
  cases time
  cases time'
  simp only at hdate hhours hminutes hseconds hnano
  subst hdate hhours hminutes hseconds hnano
  rfl

end DateTime

end Wiring.Calendar
