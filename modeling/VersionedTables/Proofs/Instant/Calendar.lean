import Mathlib
import VersionedTables.Instant

/-!
# The calendar

Every day number names a day of the calendar (`Date.isDay_ofDayNumber`), and this day has that number
again (`Date.dayNumber_ofDayNumber`).

The way from numbers to days goes by *eras* of 400 years, which have 146097 days each. Within an era a
day is looked up by a formula that spreads the leap days evenly. To see that it hits the right year,
the days are counted by centuries of 36524 days, within these by groups of four years of 1461 days, and
then by years.
-/

namespace VersionedTables

namespace Date

/-- There is such a day, in whatever year. -/
structure IsDay (d : Date) : Prop where
  month_pos : 1 ≤ d.month
  month_le : d.month ≤ 12
  day_pos : 1 ≤ d.day
  day_le : d.day ≤ monthLength d.year d.month

theorem isValid_iff {d : Date} : d.isValid = true ↔ inRange d.year = true ∧ d.IsDay := by
  simp only [isValid, Bool.and_eq_true, decide_eq_true_eq, and_assoc]
  exact and_congr_right fun _ => ⟨fun ⟨h₁, h₂, h₃, h₄⟩ => ⟨h₁, h₂, h₃, h₄⟩,
    fun ⟨h₁, h₂, h₃, h₄⟩ => ⟨h₁, h₂, h₃, h₄⟩⟩

/-! ## Years within an era -/

/-- The year a day of an era falls into. -/
def yearOfEra (dayOfEra : Int) : Int :=
  (dayOfEra - dayOfEra / 1460 + dayOfEra / 36524 - dayOfEra / 146096) / 365

/-- The days of an era before one of its years. -/
def daysBefore (yearOfEra : Int) : Int :=
  365 * yearOfEra + yearOfEra / 4 - yearOfEra / 100

/-- A day lies within its year, and only a leap year has a day for the number 365. Years of an era are
counted from March, so the leap day is at the end of the year before. -/
structure InYear (dayOfEra year : Int) : Prop where
  year_nonneg : 0 ≤ year
  year_le : year ≤ 399
  day_nonneg : 0 ≤ dayOfEra - daysBefore year
  day_le : dayOfEra - daysBefore year ≤ 365
  leap : dayOfEra - daysBefore year = 365 → isLeapYear (year + 1) = true

section

variable {century group day : Int}

/-- How far a day lies in its century and in its group of four years. -/
structure Counted (century group day : Int) : Prop where
  century_nonneg : 0 ≤ century
  century_le : century ≤ 3
  group_nonneg : 0 ≤ group
  group_le : group ≤ 24
  day_nonneg : 0 ≤ day
  day_le : day ≤ 1460
  /-- The last group of a century has no leap day. -/
  day_last : group = 24 → day ≤ 1459

theorem counted {dayOfEra : Int} (h : 0 ≤ dayOfEra) (hlt : dayOfEra < 146096) :
    ∃ century group day, dayOfEra = 36524 * century + 1461 * group + day ∧
      Counted century group day := by
  obtain ⟨century, hcentury⟩ : ∃ century, century = dayOfEra / 36524 := ⟨_, rfl⟩
  obtain ⟨group, hgroup⟩ : ∃ group, group = (dayOfEra - 36524 * century) / 1461 := ⟨_, rfl⟩
  refine ⟨century, group, dayOfEra - 36524 * century - 1461 * group, by omega, ?_⟩
  exact ⟨by omega, by omega, by omega, by omega, by omega, by omega, by omega⟩

/-- The leap days that the formula takes off: in the last days of a group one too many, where it does
no harm. -/
theorem leapDays_eq (h : Counted century group day) :
    (36524 * century + 1461 * group + day) / 1460 =
      25 * century + group + (24 * century + group + day) / 1460 := by
  obtain ⟨-, -, -, -, -, -, -⟩ := h
  omega

theorem yearOfEra_eq (h : Counted century group day) :
    yearOfEra (36524 * century + 1461 * group + day) =
      100 * century + 4 * group + (day - (24 * century + group + day) / 1460) / 365 := by
  obtain ⟨hcentury, hcentury', hgroup, hgroup', hday, hday', hlast⟩ := h
  have hcenturies : (36524 * century + 1461 * group + day) / 36524 = century := by omega
  have heras : (36524 * century + 1461 * group + day) / 146096 = 0 := by omega
  rw [yearOfEra, leapDays_eq ⟨hcentury, hcentury', hgroup, hgroup', hday, hday', hlast⟩, hcenturies,
    heras]
  generalize (24 * century + group + day) / 1460 = extra
  omega

/-- The days before a year, when it is the given one of its group. -/
theorem daysBefore_eq (h : Counted century group day) {year : Int} (hyear : 0 ≤ year)
    (hyear' : year ≤ 3) :
    daysBefore (100 * century + 4 * group + year) =
      36524 * century + 1461 * group + 365 * year := by
  obtain ⟨-, -, hgroup, hgroup', -, -, -⟩ := h
  have hfour : (100 * century + 4 * group + year) / 4 = 25 * century + group := by omega
  have hhundred : (100 * century + 4 * group + year) / 100 = century := by omega
  rw [daysBefore, hfour, hhundred]
  omega

/-- The year of a group that the formula finds. -/
theorem year_bounds (h : Counted century group day) {extra : Int}
    (hextra : extra = (24 * century + group + day) / 1460) :
    (0 ≤ (day - extra) / 365 ∧ (day - extra) / 365 ≤ 3) ∧
      0 ≤ day - 365 * ((day - extra) / 365) ∧ day - 365 * ((day - extra) / 365) ≤ 365 ∧
      (day - 365 * ((day - extra) / 365) = 365 → (day - extra) / 365 = 3 ∧ group ≤ 23) := by
  obtain ⟨hcentury, hcentury', hgroup, hgroup', hday, hday', hlast⟩ := h
  have hfew : 0 ≤ extra ∧ extra ≤ 1 := by omega
  have hlate : extra = 1 → 1364 ≤ day := by omega
  have hend : day = 1460 → extra = 1 := by omega
  clear hextra
  refine ⟨by omega, by omega, by omega, by omega⟩

/-- The formula hits the right year. -/
theorem inYear_yearOfEra (dayOfEra : Int) (h : 0 ≤ dayOfEra) (hlt : dayOfEra < 146097) :
    InYear dayOfEra (yearOfEra dayOfEra) := by
  -- The last day of an era is a leap day that its centuries do not account for.
  by_cases hlast : dayOfEra = 146096
  · subst hlast
    exact ⟨by decide, by decide, by decide, by decide, by decide⟩
  obtain ⟨century, group, day, rfl, hcounted⟩ := counted h (by omega)
  obtain ⟨⟨hyear, hyear'⟩, hday, hday', hend⟩ := year_bounds hcounted rfl
  rw [yearOfEra_eq hcounted]
  generalize (day - (24 * century + group + day) / 1460) / 365 = year at *
  have hbefore := daysBefore_eq hcounted hyear hyear'
  obtain ⟨hcentury, hcentury', hgroup, hgroup', -, -, -⟩ := hcounted
  refine ⟨by omega, by omega, by omega, by omega, fun hleap => ?_⟩
  -- A year has its last day only at the end of a group, and the last group of a century is shorter.
  obtain ⟨rfl, hgroup''⟩ := hend (by omega)
  have hfourth : (100 * century + 4 * group + 3 + 1) % 4 = 0 := by omega
  have hhundredth : (100 * century + 4 * group + 3 + 1) % 100 ≠ 0 := by omega
  simp [isLeapYear, hfourth, hhundredth]

end

/-! ## Months within a year -/

/-- The month that a day of a year falls into, counted from March. -/
def monthOfYear (dayOfYear : Int) : Int :=
  (5 * dayOfYear + 2) / 153

/-- Where the formula for days puts a day of a year. -/
def ofYear (era year dayOfYear : Int) : Date :=
  let month := monthOfYear dayOfYear
  let day := dayOfYear - (153 * month + 2) / 5 + 1
  let month := if month < 10 then month + 3 else month - 9
  ⟨year + era * 400 + (if month ≤ 2 then 1 else 0), month.toNat, day.toNat⟩

theorem ofDayNumber_eq (number : Int) :
    ofDayNumber number =
      let dayOfEra := (number + 719468) % 146097
      ofYear ((number + 719468) / 146097) (yearOfEra dayOfEra)
        (dayOfEra - daysBefore (yearOfEra dayOfEra)) := by
  have hera : number + 719468 - (number + 719468) / 146097 * 146097 =
      (number + 719468) % 146097 := by omega
  simp (disch := decide) only [ofDayNumber, Int.fdiv_eq_ediv_of_nonneg, hera]
  rfl

theorem isLeapYear_add_eras (year era : Int) :
    isLeapYear (year + era * 400) = isLeapYear year := by
  have h4 : (year + era * 400) % 4 = year % 4 := by omega
  have h100 : (year + era * 400) % 100 = year % 100 := by omega
  have h400 : (year + era * 400) % 400 = year % 400 := by omega
  rw [isLeapYear, h4, h100, h400, isLeapYear]

section

variable {year day : Int}

/-- The month and the day of the month that a day of a year has. -/
theorem monthOfYear_bounds (hday : 0 ≤ day) (hday' : day ≤ 365) :
    ∃ month : Nat, monthOfYear day = month ∧ month ≤ 11 ∧
      (153 * (month : Int) + 2) / 5 ≤ day ∧ day < (153 * (month : Int) + 155) / 5 := by
  refine ⟨(monthOfYear day).toNat, ?_⟩
  have hmonth : 0 ≤ monthOfYear day ∧ monthOfYear day ≤ 11 := by
    rw [monthOfYear]
    omega
  have hcast : (((monthOfYear day).toNat : Nat) : Int) = monthOfYear day := by omega
  rw [hcast]
  refine ⟨rfl, by omega, ?_, ?_⟩
  · rw [monthOfYear]
    omega
  · rw [monthOfYear]
    omega

/-- The months from March to December. -/
theorem ofYear_of_lt {month : Nat} (hmonth : monthOfYear day = month) (hlt : month < 10)
    (era : Int) :
    ofYear era year day =
      ⟨year + era * 400, month + 3, (day - (153 * (month : Int) + 2) / 5 + 1).toNat⟩ := by
  have hlt' : (month : Int) < 10 := by omega
  have hlate : ¬(month : Int) + 3 ≤ 2 := by omega
  have hnat : ((month : Int) + 3).toNat = month + 3 := by omega
  simp only [ofYear, hmonth, hlt', if_true, hlate, if_false, Int.add_zero, hnat]

/-- January and February belong to the next year. -/
theorem ofYear_of_ge {month : Nat} (hmonth : monthOfYear day = month) (hge : 10 ≤ month)
    (hle : month ≤ 11) (era : Int) :
    ofYear era year day =
      ⟨year + era * 400 + 1, month - 9, (day - (153 * (month : Int) + 2) / 5 + 1).toNat⟩ := by
  have hlt' : ¬(month : Int) < 10 := by omega
  have hearly : (month : Int) - 9 ≤ 2 := by omega
  have hnat : ((month : Int) - 9).toNat = month - 9 := by omega
  simp only [ofYear, hmonth, hlt', if_false, hearly, if_true, hnat]

theorem isDay_ofYear (hday : 0 ≤ day) (hday' : day ≤ 365)
    (hleap : day = 365 → isLeapYear (year + 1) = true) (era : Int) :
    (ofYear era year day).IsDay := by
  obtain ⟨month, hmonth, hle, hstart, hend⟩ := monthOfYear_bounds hday hday'
  by_cases hlt : month < 10
  · rw [ofYear_of_lt hmonth hlt]
    refine ⟨by dsimp only; omega, by dsimp only; omega, by dsimp only; omega, ?_⟩
    dsimp only
    interval_cases month <;> simp only [monthLength] <;> simp <;> omega
  · rw [ofYear_of_ge hmonth (by omega) hle]
    refine ⟨by dsimp only; omega, by dsimp only; omega, by dsimp only; omega, ?_⟩
    dsimp only
    obtain rfl | rfl : month = 10 ∨ month = 11 := by omega
    · simp only [monthLength]
      simp
      omega
    · -- February has a twenty-ninth day in leap years.
      have hyear : isLeapYear (year + era * 400 + 1) = isLeapYear (year + 1) := by
        rw [show year + era * 400 + 1 = year + 1 + era * 400 by omega, isLeapYear_add_eras]
      simp only [monthLength, hyear]
      by_cases hlast : day = 365
      · simp [hleap hlast, hlast]
      · have hlength : 28 ≤ if isLeapYear (year + 1) = true then 29 else 28 := by
          split <;> omega
        simp only [beq_self_eq_true, if_true]
        refine Nat.le_trans ?_ hlength
        omega

theorem dayNumber_ofYear (hyear : 0 ≤ year) (hyear' : year ≤ 399) (hday : 0 ≤ day)
    (hday' : day ≤ 365) (era : Int) :
    (ofYear era year day).dayNumber = era * 146097 + daysBefore year + day - 719468 := by
  obtain ⟨month, hmonth, hle, hstart, hend⟩ := monthOfYear_bounds hday hday'
  have hera : (year + era * 400) / 400 = era := by omega
  have hyearOfEra : year + era * 400 - era * 400 = year := by omega
  by_cases hlt : month < 10
  · rw [ofYear_of_lt hmonth hlt]
    have hlate : ¬month + 3 ≤ 2 := by omega
    have hback : (month + 3 + 9) % 12 = month := by omega
    simp (disch := decide) only [dayNumber, hlate, if_false, hback, Int.fdiv_eq_ediv_of_nonneg, hera,
      hyearOfEra, daysBefore]
    omega
  · rw [ofYear_of_ge hmonth (by omega) hle]
    have hearly : month - 9 ≤ 2 := by omega
    have hback : (month - 9 + 9) % 12 = month := by omega
    simp (disch := decide) only [dayNumber, hearly, if_true, hback, Int.add_sub_cancel,
      Int.fdiv_eq_ediv_of_nonneg, hera, hyearOfEra, daysBefore]
    omega

end

/-! ## All days -/

/-- Every number names a day. -/
theorem isDay_ofDayNumber (number : Int) : (ofDayNumber number).IsDay := by
  obtain ⟨-, -, hday, hday', hleap⟩ :=
    inYear_yearOfEra ((number + 719468) % 146097) (by omega) (by omega)
  rw [ofDayNumber_eq]
  exact isDay_ofYear hday hday' hleap _

/-- The day that a number names has this number. -/
theorem dayNumber_ofDayNumber (number : Int) : (ofDayNumber number).dayNumber = number := by
  obtain ⟨hyear, hyear', hday, hday', -⟩ :=
    inYear_yearOfEra ((number + 719468) % 146097) (by omega) (by omega)
  rw [ofDayNumber_eq, dayNumber_ofYear hyear hyear' hday hday']
  omega

end Date

end VersionedTables
