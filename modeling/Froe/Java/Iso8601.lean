import Froe.Content.Hashing
import Mathlib

/-!
# Dates

The one form that Jackrabbit's `ISO8601` accepts, `±YYYY-MM-DDThh:mm:ss.SSSTZD`.  The days are
Julian up to 4 October 1582 and Gregorian from 15 October 1582 on.
-/

namespace Froe
namespace Iso8601

open Utf16 (encodeUtf16)

/-- Days from the epoch to 15 October 1582. -/
def cutoverDays : Int := -141427

/-- The Gregorian rule drops three of every four centuries. -/
def isLeapYear (year : Int) (gregorian : Bool) : Bool :=
  if year % 4 ≠ 0 then false
  else !gregorian || year % 100 ≠ 0 || year % 400 = 0

/-- The lengths of the months of a common year. -/
def lengths : List Int := [31, 28, 31, 30, 31, 30, 31, 31, 30, 31, 30, 31]

/-- The caller has refused all months that `lengths` does not have. -/
def daysInMonth (year month : Int) (gregorian : Bool) : Int :=
  if month = 2 ∧ isLeapYear year gregorian then 29
  else lengths.getD (month - 1).toNat 0

/-- The day number of a civil date, from the Julian day number, in either calendar. -/
def dayNumber (year month day : Int) (gregorian : Bool) : Int :=
  let leapShift := (14 - month) / 12
  let shiftedYear := year + 4800 - leapShift
  let shiftedMonth := month + 12 * leapShift - 3
  let base := day + (153 * shiftedMonth + 2) / 5 + 365 * shiftedYear + shiftedYear / 4
  let julianDay :=
    if gregorian then base - shiftedYear / 100 + shiftedYear / 400 - 32045
    else base - 32083
  julianDay - 2440588

/-- The day number of a date of Java's calendar. -/
def daysSinceEpoch (year month day : Int) : Option Int :=
  let gregorian := dayNumber year month day true
  if gregorian ≥ cutoverDays then
    if day ≤ daysInMonth year month true then some gregorian else none
  else
    let julian := dayNumber year month day false
    if julian ≥ cutoverDays then none
    else if day ≤ daysInMonth year month false then some julian else none

/-! ## Months one after the other -/

/-- Every fourth year has a leap day, but for the Gregorian centuries that 400 does not divide. -/
def Leap (year : Int) (gregorian : Bool) : Prop :=
  4 ∣ year ∧ (gregorian = true → 100 ∣ year → 400 ∣ year)

instance (year : Int) (gregorian : Bool) : Decidable (Leap year gregorian) :=
  inferInstanceAs (Decidable (_ ∧ _))

/-- The length of a month in one of the calendars. -/
def monthLength (year month : Int) (gregorian : Bool) : Int :=
  if month = 2 then if Leap year gregorian then 29 else 28
  else if month = 4 ∨ month = 6 ∨ month = 9 ∨ month = 11 then 30
  else 31

section

variable {year month day : Int} {gregorian : Bool}

theorem isLeapYear_iff : isLeapYear year gregorian = true ↔ Leap year gregorian := by
  rw [isLeapYear, Leap]
  cases gregorian with
  | false =>
    simp only [Bool.not_false, Bool.true_or, Bool.false_eq_true, false_implies, and_true]
    split <;> simp <;> omega
  | true =>
    simp only [Bool.not_true, Bool.false_or, true_implies]
    split <;> simp <;> omega

theorem daysInMonth_eq (hmonth : 1 ≤ month) (hmonth' : month ≤ 12) :
    daysInMonth year month gregorian = monthLength year month gregorian := by
  simp only [daysInMonth, monthLength, isLeapYear_iff]
  by_cases hleap : Leap year gregorian
  all_goals
    simp only [hleap, and_true, and_false, if_true, if_false]
    interval_cases month
    all_goals rfl

theorem monthLength_pos (year month : Int) (gregorian : Bool) :
    0 < monthLength year month gregorian := by
  rw [monthLength]
  split_ifs <;> omega

theorem dayNumber_eq_first (year month day : Int) (gregorian : Bool) :
    dayNumber year month day gregorian = dayNumber year month 1 gregorian + (day - 1) := by
  cases gregorian with
  | false =>
    simp only [dayNumber, Bool.false_eq_true, if_false]
    omega
  | true =>
    simp only [dayNumber, if_true]
    omega

/-- The first of a month is as many days before that of the next month as the month is long. -/
theorem dayNumber_nextMonth (hmonth : 1 ≤ month) (hmonth' : month < 12) :
    dayNumber year (month + 1) 1 gregorian =
      dayNumber year month 1 gregorian + monthLength year month gregorian := by
  simp only [monthLength, Leap]
  cases gregorian with
  | false =>
    simp only [dayNumber, Bool.false_eq_true, if_false, false_implies, and_true]
    interval_cases month
    all_goals omega
  | true =>
    simp only [dayNumber, if_true, true_implies]
    interval_cases month
    all_goals omega

/-- The day numbers of the years −9999 to 9999, which the parser passes on, are far inside of 64
bits. -/
theorem dayNumber_bounded (hyear : -9999 ≤ year) (hyear' : year ≤ 9999) (hmonth : 1 ≤ month)
    (hmonth' : month ≤ 12) (hday : 1 ≤ day) (hday' : day ≤ 31) :
    -5000000 < dayNumber year month day gregorian ∧
      dayNumber year month day gregorian < 5000000 := by
  cases gregorian with
  | false =>
    simp only [dayNumber, Bool.false_eq_true, if_false]
    omega
  | true =>
    simp only [dayNumber, if_true]
    omega

theorem dayNumber_nextYear :
    dayNumber (year + 1) 1 1 gregorian = dayNumber year 12 1 gregorian + 31 := by
  cases gregorian with
  | false =>
    simp only [dayNumber, Bool.false_eq_true, if_false]
    omega
  | true =>
    simp only [dayNumber, if_true]
    omega

/-- The day number of the first of a month, counting the months through the years. -/
def monthStart (gregorian : Bool) (index : Int) : Int :=
  dayNumber (index / 12) (index % 12 + 1) 1 gregorian

theorem monthStart_succ (gregorian : Bool) (index : Int) :
    monthStart gregorian (index + 1) = monthStart gregorian index +
      monthLength (index / 12) (index % 12 + 1) gregorian := by
  have hindex := Int.emod_nonneg index (by decide : (12 : Int) ≠ 0)
  rw [monthStart, monthStart]
  by_cases hlast : index % 12 = 11
  · rw [show (index + 1) / 12 = index / 12 + 1 by omega, show (index + 1) % 12 = 0 by omega, hlast]
    exact dayNumber_nextYear
  · rw [show (index + 1) / 12 = index / 12 by omega,
      show (index + 1) % 12 = index % 12 + 1 by omega]
    exact dayNumber_nextMonth (by omega) (by omega)

theorem monthStart_mono (gregorian : Bool) : Monotone (monthStart gregorian) :=
  monotone_int_of_le_succ fun index => by
    rw [monthStart_succ]
    have := monthLength_pos (index / 12) (index % 12 + 1) gregorian
    omega

theorem monthStart_index (hmonth : 1 ≤ month) (hmonth' : month ≤ 12) :
    monthStart gregorian (12 * year + (month - 1)) = dayNumber year month 1 gregorian := by
  rw [monthStart, show (12 * year + (month - 1)) / 12 = year by omega,
    show (12 * year + (month - 1)) % 12 + 1 = month by omega]

/-- A month ends before the months after it start. -/
theorem dayNumber_add_monthLength_le {year' month' : Int} (hmonth : 1 ≤ month)
    (hmonth' : month ≤ 12) (hlater : 1 ≤ month') (hlater' : month' ≤ 12)
    (h : 12 * year + month < 12 * year' + month') :
    dayNumber year month 1 gregorian + monthLength year month gregorian ≤
      dayNumber year' month' 1 gregorian := by
  have hsucc := monthStart_succ gregorian (12 * year + (month - 1))
  rw [monthStart_index hmonth hmonth', show (12 * year + (month - 1)) / 12 = year by omega,
    show (12 * year + (month - 1)) % 12 + 1 = month by omega] at hsucc
  rw [← hsucc, ← monthStart_index hlater hlater']
  exact monthStart_mono gregorian (by omega)

end

/-! ## Dates -/

@[ext] structure CivilDate where
  year : Int
  month : Int
  day : Int
deriving DecidableEq, Repr

namespace CivilDate

/-- The order of dates. -/
def Before (date other : CivilDate) : Prop :=
  date.year < other.year ∨ date.year = other.year ∧
    (date.month < other.month ∨ date.month = other.month ∧ date.day < other.day)

instance (date other : CivilDate) : Decidable (date.Before other) :=
  inferInstanceAs (Decidable (_ ∨ _))

/-- Whether the Gregorian calendar is in force. -/
def isGregorian (date : CivilDate) : Bool := ¬ date.Before ⟨1582, 10, 15⟩

/-- Ten days of October 1582 do not exist, and no days past the end of their month in the calendar
in force. -/
def Exists (date : CivilDate) : Prop :=
  (1 ≤ date.month ∧ date.month ≤ 12 ∧ 1 ≤ date.day) ∧
    (date.Before ⟨1582, 10, 5⟩ ∨ ¬ date.Before ⟨1582, 10, 15⟩) ∧
    date.day ≤ monthLength date.year date.month date.isGregorian

instance (date : CivilDate) : Decidable date.Exists :=
  inferInstanceAs (Decidable (_ ∧ _))

/-- The day number in a calendar. -/
def number (date : CivilDate) (gregorian : Bool) : Int :=
  dayNumber date.year date.month date.day gregorian

/-- The day number of a date. -/
def daysSinceEpoch (date : CivilDate) : Option Int :=
  Iso8601.daysSinceEpoch date.year date.month date.day

variable {date other : CivilDate} {gregorian : Bool}

/-- In one calendar, later dates have greater numbers. -/
theorem number_lt (hmonth : 1 ≤ date.month ∧ date.month ≤ 12)
    (hday : date.day ≤ monthLength date.year date.month gregorian)
    (hother : 1 ≤ other.month ∧ other.month ≤ 12 ∧ 1 ≤ other.day) (h : date.Before other) :
    date.number gregorian < other.number gregorian := by
  obtain ⟨year, month, day⟩ := date
  obtain ⟨year', month', day'⟩ := other
  obtain ⟨hfirst, hlast⟩ := hmonth
  obtain ⟨hfirst', hlast', hday'⟩ := hother
  dsimp only at *
  rw [number, number, dayNumber_eq_first, dayNumber_eq_first year']
  rw [Before] at h
  dsimp only at *
  by_cases hsame : year = year' ∧ month = month'
  · obtain ⟨rfl, rfl⟩ := hsame
    omega
  · have hle := @dayNumber_add_monthLength_le year month gregorian year' month' hfirst hlast hfirst'
      hlast' (by omega : 12 * year + month < 12 * year' + month')
    omega

/-- The numbers of the days around the cutover. -/
theorem number_october (day : Int) (gregorian : Bool) :
    number ⟨1582, 10, day⟩ gregorian = day - if gregorian then 141442 else 141432 := by
  cases gregorian with
  | false =>
    simp only [number, dayNumber, Bool.false_eq_true, if_false]
    omega
  | true =>
    simp only [number, dayNumber, if_true]
    omega

theorem monthLength_le (year month : Int) :
    monthLength year month true ≤ monthLength year month false := by
  simp only [monthLength, Leap]
  split_ifs <;> simp_all

theorem monthLength_october (gregorian : Bool) : monthLength 1582 10 gregorian = 31 := by
  cases gregorian <;> rfl

/-- Whether a date is after the cutover, in terms of its number. -/
theorem cutoverDays_le_number (hdate : 1 ≤ date.month ∧ date.month ≤ 12 ∧ 1 ≤ date.day)
    (h : ¬ date.Before ⟨1582, 10, 15⟩) : cutoverDays ≤ date.number true := by
  have hcutover : number ⟨1582, 10, 15⟩ true = cutoverDays := by
    rw [number_october]
    rfl
  by_cases hsame : date = ⟨1582, 10, 15⟩
  · rw [hsame, hcutover]
  · have hlater : Before ⟨1582, 10, 15⟩ date := by
      obtain ⟨year, month, day⟩ := date
      rw [Before] at h ⊢
      rw [CivilDate.mk.injEq] at hsame
      dsimp only at *
      omega
    have hlt := @number_lt ⟨1582, 10, 15⟩ date true (by decide) (by decide) hdate hlater
    rw [hcutover] at hlt
    exact Int.le_of_lt hlt

theorem number_lt_cutoverDays (hmonth : 1 ≤ date.month ∧ date.month ≤ 12)
    (hday : date.day ≤ monthLength date.year date.month false) (h : date.Before ⟨1582, 10, 5⟩) :
    date.number gregorian < cutoverDays := by
  obtain ⟨year, month, day⟩ := date
  rw [Before] at h
  dsimp only at *
  by_cases hsame : year = 1582 ∧ month = 10
  · obtain ⟨rfl, rfl⟩ := hsame
    rw [number_october, cutoverDays]
    split_ifs <;> omega
  · have hle := @dayNumber_add_monthLength_le year month gregorian 1582 10
      hmonth.1 hmonth.2 (by decide) (by decide) (by omega)
    have hshort : monthLength year month false ≤ monthLength year month gregorian + 1 := by
      simp only [monthLength]
      split_ifs <;> omega
    have hoctober := number_october 1 gregorian
    rw [number] at hoctober ⊢
    dsimp only at *
    rw [dayNumber_eq_first, cutoverDays]
    rw [hoctober] at hle
    split_ifs at hle <;> omega

/-- The dates that exist are numbered, and no others. -/
theorem daysSinceEpoch_eq (hdate : 1 ≤ date.month ∧ date.month ≤ 12 ∧ 1 ≤ date.day) :
    date.daysSinceEpoch =
      if date.Exists then some (date.number date.isGregorian) else none := by
  have hlengths := fun gregorian =>
    @daysInMonth_eq date.year date.month gregorian hdate.1 hdate.2.1
  rw [daysSinceEpoch, Iso8601.daysSinceEpoch, hlengths, hlengths]
  change (if date.number true ≥ cutoverDays then if _ then some (date.number true) else none else
    if date.number false ≥ cutoverDays then _ else if _ then some (date.number false) else _) = _
  by_cases hlate : date.Before ⟨1582, 10, 15⟩
  · have hlong := monthLength_le date.year date.month
    by_cases hbefore : date.Before ⟨1582, 10, 5⟩
    · have hlt := fun gregorian hday =>
        @number_lt_cutoverDays date gregorian ⟨hdate.1, hdate.2.1⟩ hday hbefore
      by_cases hday : date.day ≤ monthLength date.year date.month false
      · rw [if_neg (Int.not_le.mpr (hlt true hday)), if_neg (Int.not_le.mpr (hlt false hday)),
          if_pos hday]
        simp [CivilDate.Exists, isGregorian, hdate, hlate, hbefore, hday]
      · have hday' : ¬ date.day ≤ monthLength date.year date.month true := by omega
        rw [if_neg hday, if_neg hday', ite_self, ite_self]
        simp [CivilDate.Exists, isGregorian, hlate, hday]
    · obtain ⟨year, month, day⟩ := date
      obtain ⟨rfl, rfl, hday, hday'⟩ : year = 1582 ∧ month = 10 ∧ 5 ≤ day ∧ day < 15 := by
        simp only [Before] at hlate hbefore
        omega
      rw [number_october, number_october, cutoverDays, if_neg (by simp; omega),
        if_pos (by simp; omega)]
      simp [CivilDate.Exists, hlate, hbefore]
  · have hbefore : ¬ date.Before ⟨1582, 10, 5⟩ := by
      simp only [Before] at *
      omega
    rw [if_pos (cutoverDays_le_number hdate hlate)]
    simp [CivilDate.Exists, isGregorian, hdate, hlate, hbefore]

theorem Exists.daysSinceEpoch (h : date.Exists) :
    date.daysSinceEpoch = some (date.number date.isGregorian) :=
  (daysSinceEpoch_eq h.1).trans (if_pos h)

theorem daysSinceEpoch_lt (hdate : date.Exists) (hother : other.Exists) (h : date.Before other) :
    date.number date.isGregorian < other.number other.isGregorian := by
  obtain ⟨hvalid, hgap, hday⟩ := hdate
  by_cases hlate : date.Before ⟨1582, 10, 15⟩
  · have hjulian : date.isGregorian = false := decide_eq_false fun hnot => hnot hlate
    rw [hjulian] at hday ⊢
    by_cases hlate' : other.Before ⟨1582, 10, 15⟩
    · rw [show other.isGregorian = false from decide_eq_false fun hnot => hnot hlate']
      exact number_lt ⟨hvalid.1, hvalid.2.1⟩ hday hother.1 h
    · rw [show other.isGregorian = true from decide_eq_true hlate']
      exact (number_lt_cutoverDays ⟨hvalid.1, hvalid.2.1⟩ hday (hgap.resolve_right fun hnot =>
        hnot hlate)).trans_le (cutoverDays_le_number hother.1 hlate')
  · have hlate' : ¬ other.Before ⟨1582, 10, 15⟩ := by
      simp only [Before] at *
      omega
    rw [isGregorian, decide_eq_true hlate] at hday ⊢
    rw [isGregorian, decide_eq_true hlate']
    exact number_lt ⟨hvalid.1, hvalid.2.1⟩ hday hother.1 h

/-- The day after a date, in one calendar. -/
def nextIn (date : CivilDate) (gregorian : Bool) : CivilDate :=
  if date.day < monthLength date.year date.month gregorian then
    ⟨date.year, date.month, date.day + 1⟩
  else if date.month < 12 then ⟨date.year, date.month + 1, 1⟩
  else ⟨date.year + 1, 1, 1⟩

/-- The day after a date; ten days are missing in October 1582. -/
def next (date : CivilDate) : CivilDate :=
  if date = ⟨1582, 10, 4⟩ then ⟨1582, 10, 15⟩ else date.nextIn date.isGregorian

/-- A calendar numbers the days one after the other. -/
theorem nextIn_spec (hdate : 1 ≤ date.month ∧ date.month ≤ 12 ∧ 1 ≤ date.day)
    (hday : date.day ≤ monthLength date.year date.month gregorian) :
    (1 ≤ (date.nextIn gregorian).month ∧ (date.nextIn gregorian).month ≤ 12 ∧
      1 ≤ (date.nextIn gregorian).day) ∧
    (date.nextIn gregorian).day ≤
      monthLength (date.nextIn gregorian).year (date.nextIn gregorian).month gregorian ∧
    date.Before (date.nextIn gregorian) ∧
    (date.nextIn gregorian).number gregorian = date.number gregorian + 1 := by
  obtain ⟨year, month, day⟩ := date
  have hpos := monthLength_pos
  have hfirst := dayNumber_eq_first
  simp only [nextIn, Before, number] at *
  split_ifs with hmore hyear
  all_goals
    dsimp only
    rw [hfirst year month day]
  · rw [hfirst year month (day + 1)]
    omega
  · have hnext := @dayNumber_nextMonth year month gregorian hdate.1 hyear
    exact ⟨by omega, hpos .., by omega, by omega⟩
  · obtain rfl : month = 12 := by omega
    have hnext := @dayNumber_nextYear year gregorian
    have hlength : monthLength year 12 gregorian = 31 := rfl
    exact ⟨by decide, hpos .., by omega, by omega⟩

theorem Exists.next (h : date.Exists) :
    date.next.Exists ∧ date.Before date.next ∧
      date.next.number date.next.isGregorian = date.number date.isGregorian + 1 := by
  rw [CivilDate.next]
  split_ifs with hlast
  · subst hlast
    decide
  · obtain ⟨hvalid, hgap, hday⟩ := h
    obtain ⟨hvalid', hday', hafter, hnumber⟩ := nextIn_spec hvalid hday
    -- The cutover is passed on the 4th only, which is not the end of its month.
    have hstill : ((date.nextIn date.isGregorian).Before ⟨1582, 10, 5⟩ ∨
        ¬ (date.nextIn date.isGregorian).Before ⟨1582, 10, 15⟩) ∧
        (date.nextIn date.isGregorian).isGregorian = date.isGregorian := by
      by_cases hlate : date.Before ⟨1582, 10, 15⟩
      · have hstill : (date.nextIn date.isGregorian).Before ⟨1582, 10, 5⟩ := by
          have hbefore := hgap.resolve_right fun hnot => hnot hlate
          have hoctober := monthLength_october date.isGregorian
          rw [CivilDate.ext_iff] at hlast
          simp only [nextIn, Before] at hbefore hlast ⊢
          by_cases hsame : date.year = 1582 ∧ date.month = 10
          · rw [hsame.1, hsame.2, if_pos (by omega)]
            dsimp only
            omega
          · split_ifs <;> dsimp only <;> omega
        refine ⟨.inl hstill, decide_eq_decide.mpr ?_⟩
        simp only [Before] at *
        omega
      · have hstill : ¬ (date.nextIn date.isGregorian).Before ⟨1582, 10, 15⟩ := by
          simp only [Before] at *
          omega
        exact ⟨.inr hstill, decide_eq_decide.mpr (iff_of_true hstill hlate)⟩
    refine ⟨⟨hvalid', hstill.1, ?_⟩, hafter, ?_⟩
    · rwa [hstill.2]
    · rw [hstill.2, hnumber]

theorem eq_of_number_eq (hdate : date.Exists) (hother : other.Exists)
    (h : date.number date.isGregorian = other.number other.isGregorian) : date = other := by
  have hnot : ¬ date.Before other := fun hbefore => (daysSinceEpoch_lt hdate hother hbefore).ne h
  have hnot' : ¬ other.Before date := fun hbefore => (daysSinceEpoch_lt hother hdate hbefore).ne' h
  rw [Before] at hnot hnot'
  rw [CivilDate.ext_iff]
  omega

/-- Some date is early enough. -/
theorem exists_number_le (n : Int) :
    ∃ date : CivilDate, date.Exists ∧ date.number date.isGregorian ≤ n := by
  obtain ⟨year, hyear⟩ : ∃ year : Int, year = -5000 - n.natAbs := ⟨_, rfl⟩
  have hbefore : Before ⟨year, 1, 1⟩ ⟨1582, 10, 5⟩ := .inl (by dsimp only; omega)
  have hjulian : isGregorian ⟨year, 1, 1⟩ = false :=
    decide_eq_false fun hnot => hnot (.inl (by dsimp only; omega))
  refine ⟨⟨year, 1, 1⟩, ⟨⟨le_rfl, by dsimp only; omega, le_rfl⟩, .inl hbefore, monthLength_pos ..⟩, ?_⟩
  rw [hjulian]
  simp only [number, dayNumber, Bool.false_eq_true, if_false]
  omega

theorem exists_number_add (hdate : date.Exists) (k : Nat) : ∃ later : CivilDate,
    later.Exists ∧ later.number later.isGregorian = date.number date.isGregorian + k := by
  induction k with
  | zero => exact ⟨date, hdate, (Int.add_zero _).symm⟩
  | succ k ih =>
    obtain ⟨later, hlater, hnumber⟩ := ih
    obtain ⟨hnext, -, hsucc⟩ := hlater.next
    refine ⟨later.next, hnext, ?_⟩
    rw [hsucc, hnumber]
    omega

/-- Every number of days is that of exactly one date.  The code has these numbers where its 64-bit
arithmetic is exact, as it is for the years −9999 to 9999 of the parser. -/
theorem existsUnique_daysSinceEpoch (n : Int) :
    ∃! date : CivilDate, date.Exists ∧ date.daysSinceEpoch = some n := by
  obtain ⟨first, hfirst, hle⟩ := exists_number_le n
  obtain ⟨date, hdate, hnumber⟩ :=
    exists_number_add hfirst (n - first.number first.isGregorian).toNat
  rw [Int.toNat_of_nonneg (Int.sub_nonneg.mpr hle), add_sub_cancel] at hnumber
  refine ⟨date, ⟨hdate, ?_⟩, fun other hother => ?_⟩
  · rw [hdate.daysSinceEpoch, hnumber]
  · refine eq_of_number_eq hother.1 hdate ?_
    rw [hnumber]
    exact Option.some.inj (hother.1.daysSinceEpoch.symm.trans hother.2)

end CivilDate


/-! ## Numbers -/

/-- Where the blocks of decimal digits start. -/
def javaBmpDecimalZeroes : List UInt16 :=
  [0x0030, 0x0660, 0x06f0, 0x07c0, 0x0966, 0x09e6, 0x0a66, 0x0ae6, 0x0b66, 0x0be6, 0x0c66, 0x0ce6,
    0x0d66, 0x0de6, 0x0e50, 0x0ed0, 0x0f20, 0x1040, 0x1090, 0x17e0, 0x1810, 0x1946, 0x19d0, 0x1a80,
    0x1a90, 0x1b50, 0x1bb0, 0x1c40, 0x1c50, 0xa620, 0xa8d0, 0xa900, 0xa9d0, 0xa9f0, 0xaa50, 0xabf0,
    0xff10]

/-- The value of a unit that Java takes for a digit. -/
def javaDecimalDigit (character : UInt16) : Option UInt16 :=
  javaBmpDecimalZeroes.findSome? fun zero =>
    if character - zero < 10 then some (character - zero) else none

/-- The digits, accumulated negatively down to a limit. -/
def accumulate (limit : Int) : Int → List UInt16 → Option Int
  | result, [] => some result
  | result, character :: rest => do
    let digit ← javaDecimalDigit character
    if result < Int.tdiv limit 10 then none
    else if result * 10 < limit + digit.toNat then none
    else accumulate limit (result * 10 - digit.toNat) rest

/-- `Integer.parseInt`. -/
def parseJavaI32 (value : List UInt16) : Option Int := do
  let first ← value.head?
  let (negative, digits, limit) :=
    if first = 45 then (true, value.tail, -2 ^ 31)
    else if first = 43 then (false, value.tail, -(2 ^ 31 - 1))
    else (false, value, -(2 ^ 31 - 1))
  if digits = [] then none
  else
    let result ← accumulate limit 0 digits
    return if negative then result else -result

/-! ## Fields -/

/-- The number in a field of fixed width. -/
def field (units : List UInt16) (start width : Nat) : Option Int :=
  if start + width ≤ units.length then parseJavaI32 ((units.drop start).take width) else none

/-- A delimiter, and where it leaves the cursor. -/
def delimiter (units : List UInt16) (start : Nat) (expected : UInt16) : Option Nat := do
  let character ← units[start]?
  if character = expected then some (start + 1) else none

/-- `String::from_utf16`. -/
def decodeUtf16 : List UInt16 → Option (List Char)
  | [] => some []
  | high :: low :: rest =>
    if 0xD800 ≤ high ∧ high < 0xDC00 then
      if 0xDC00 ≤ low ∧ low < 0xE000 then do
        let characters ← decodeUtf16 rest
        return Char.ofNat (0x10000 + (high.toNat - 0xD800) * 0x400 + (low.toNat - 0xDC00)) ::
          characters
      else none
    else if 0xDC00 ≤ high ∧ high < 0xE000 then none
    else do return Char.ofNat high.toNat :: (← decodeUtf16 (low :: rest))
  | [character] =>
    if 0xD800 ≤ character ∧ character < 0xE000 then none else some [Char.ofNat character.toNat]

/-- The sign of an offset. -/
def zoneSign (character : UInt8) : Option Int :=
  if character = 43 then some 1 else if character = 45 then some (-1) else none

/-- The value of an ASCII digit. -/
def asciiDigit (character : UInt8) : Option Int :=
  if 48 ≤ character ∧ character ≤ 57 then some (character - 48).toNat else none

/-- The time zone is all of the rest of the text. -/
def zoneOffsetMinutes (designator : List UInt16) : Option Int := do
  let text := String.ofList (← decodeUtf16 designator)
  if text = "" ∨ text = "Z" ∨ text = "0" then return 0
  else
    match text.utf8 with
    | [signByte, hourTens, hourOnes, colon, minuteTens, minuteOnes] =>
      if colon ≠ 58 then none
      else
        let sign ← zoneSign signByte
        let hours := (← asciiDigit hourTens) * 10 + (← asciiDigit hourOnes)
        let minutes := (← asciiDigit minuteTens) * 10 + (← asciiDigit minuteOnes)
        if hours > 23 ∨ minutes > 59 then none
        else return sign * (hours * 60 + minutes)
    | _ => none

/-- The fields of a date text. -/
structure Fields where
  negativeEra : Bool
  year : Int
  month : Int
  day : Int
  hour : Int
  minute : Int
  second : Int
  millisecond : Int
  offsetMinutes : Int
deriving DecidableEq, Repr

/-- The era, and where the year starts. -/
def leadingSign (units : List UInt16) : Bool × Nat :=
  match units.head? with
  | some character => if character = 45 then (true, 1) else (false, if character = 43 then 1 else 0)
  | none => (false, 0)

/-- Reads the fields one after the other. -/
def readFields (units : List UInt16) : Option Fields := do
  let (negativeEra, start) := leadingSign units
  let year ← field units start 4
  let monthAt ← delimiter units (start + 4) 45
  let month ← field units monthAt 2
  let dayAt ← delimiter units (monthAt + 2) 45
  let day ← field units dayAt 2
  let hourAt ← delimiter units (dayAt + 2) 84
  let hour ← field units hourAt 2
  let minuteAt ← delimiter units (hourAt + 2) 58
  let minute ← field units minuteAt 2
  let secondAt ← delimiter units (minuteAt + 2) 58
  let second ← field units secondAt 2
  let millisecondAt ← delimiter units (secondAt + 2) 46
  let millisecond ← field units millisecondAt 3
  let offsetMinutes ← zoneOffsetMinutes (units.drop (millisecondAt + 3))
  return ⟨negativeEra, year, month, day, hour, minute, second, millisecond, offsetMinutes⟩

namespace Fields

end Fields

namespace Fields

/-- The year, with the year before 1 as zero. -/
def astronomicalYear (fields : Fields) : Int :=
  if fields.negativeEra then -fields.year else fields.year

/-- The date of the fields. -/
def date (fields : Fields) : CivilDate := ⟨fields.astronomicalYear, fields.month, fields.day⟩

/-- The fields name a date that exists and a time of day. -/
structure Valid (fields : Fields) : Prop where
  year : 0 ≤ fields.year
  astronomicalYear : -9999 ≤ fields.astronomicalYear ∧ fields.astronomicalYear ≤ 9999
  date : fields.date.Exists
  hour : 0 ≤ fields.hour ∧ fields.hour ≤ 23
  minute : 0 ≤ fields.minute ∧ fields.minute ≤ 59
  second : 0 ≤ fields.second ∧ fields.second ≤ 59
  millisecond : 0 ≤ fields.millisecond ∧ fields.millisecond ≤ 999

variable {fields : Fields} {value : Int}

end Fields

end Iso8601
end Froe
