/-!
# Calendar dates

Days of the proleptic Gregorian calendar, from 262143 years before year zero to 262142 after it,
with what a date pattern can ask about one: its place in the year, its weekday, and its place in a
year of ISO weeks. A date has no time of day and no zone.
-/

namespace SignOff

namespace Date

/-- Every fourth year is a leap year, except the centuries that 400 does not divide. -/
def isLeap (year : Int) : Bool := year % 4 == 0 && (year % 100 != 0 || year % 400 == 0)

/-- The number of days of a month; zero for a number that is no month. -/
def monthLength (year : Int) : Nat → Nat
  | 1 => 31 | 2 => if isLeap year then 29 else 28 | 3 => 31 | 4 => 30 | 5 => 31 | 6 => 30
  | 7 => 31 | 8 => 31 | 9 => 30 | 10 => 31 | 11 => 30 | 12 => 31
  | _ => 0

/-- The first year of the calendar. -/
def firstYear : Int := -262143

/-- The last year of the calendar. -/
def lastYear : Int := 262142

/-- The day exists in the calendar. -/
def Valid (year : Int) (month day : Nat) : Prop :=
  firstYear ≤ year ∧ year ≤ lastYear ∧ 1 ≤ day ∧ day ≤ monthLength year month

instance (year : Int) (month day : Nat) : Decidable (Valid year month day) := by
  unfold Valid; infer_instance

end Date

/-- A day of the calendar. -/
structure Date where
  year : Int
  month : Nat
  day : Nat
  valid : Date.Valid year month day
deriving DecidableEq

namespace Date

/-- The day with these numbers, where the calendar has it. -/
def ofParts? (year : Int) (month day : Nat) : Option Date :=
  if h : Valid year month day then some ⟨year, month, day, h⟩ else none

/-- The epoch day, 1970-01-01. -/
def epoch : Date := ⟨1970, 1, 1, by decide⟩

/-- The number of days in the months before `month`. -/
def daysBefore (year : Int) (month : Nat) : Nat :=
  (List.range month).foldl (fun days m => days + monthLength year m) 0

/-- The day's place in its year, counted from one. -/
def dayOfYear (d : Date) : Nat := daysBefore d.year d.month + d.day

/-- The number of days since the last day of year zero, negative before it. -/
def dayNumber (d : Date) : Int :=
  let past := d.year - 1
  365 * past + past / 4 - past / 100 + past / 400 + d.dayOfYear

/-- The weekday counted from Monday as zero. -/
def daysFromMonday (d : Date) : Nat := ((d.dayNumber - 1) % 7).toNat

/-- The weekday counted from Sunday as zero. -/
def daysFromSunday (d : Date) : Nat := (d.dayNumber % 7).toNat

/-- The week of the year when weeks start on Sunday; days before the first Sunday are in week zero. -/
def weekFromSunday (d : Date) : Nat := (d.dayOfYear + 6 - d.daysFromSunday) / 7

/-- The week of the year when weeks start on Monday; days before the first Monday are in week zero. -/
def weekFromMonday (d : Date) : Nat := (d.dayOfYear + 6 - d.daysFromMonday) / 7

/-- The quarter of the year, from one to four. -/
def quarter (d : Date) : Nat := (d.month + 2) / 3

/-- The weekday of the first of January, counted from Monday as zero. -/
def newYearFromMonday (year : Int) : Nat :=
  let past := year - 1
  ((365 * past + past / 4 - past / 100 + past / 400) % 7).toNat

/-- A year has 53 ISO weeks when it starts on a Thursday, or on a Wednesday before a leap day. -/
def isoWeeks (year : Int) : Nat :=
  if newYearFromMonday year == 3 || (newYearFromMonday year == 2 && isLeap year) then 53 else 52

/-- The ISO year and week: a week belongs to the year that holds its Thursday. -/
def isoWeekDate (d : Date) : Int × Nat :=
  let week := (d.dayOfYear + 9 - d.daysFromMonday) / 7
  if week == 0 then (d.year - 1, isoWeeks (d.year - 1))
  else if isoWeeks d.year < week then (d.year + 1, 1)
  else (d.year, week)

/-- The year of the ISO week. -/
def isoYear (d : Date) : Int := d.isoWeekDate.1

/-- The number of the ISO week. -/
def isoWeek (d : Date) : Nat := d.isoWeekDate.2

theorem monthLength_le (year : Int) (month : Nat) : monthLength year month ≤ 31 := by
  unfold monthLength; split <;> (try split) <;> decide

theorem month_pos (d : Date) : 1 ≤ d.month := by
  obtain ⟨year, month, day, -, -, hpos, hle⟩ := d
  cases month with
  | zero => simp [monthLength] at hle; omega
  | succ m => simp

theorem month_le (d : Date) : d.month ≤ 12 := by
  obtain ⟨year, month, day, -, -, hpos, hle⟩ := d
  change month ≤ 12
  rcases Nat.lt_or_ge 12 month with h | h
  · have : monthLength year month = 0 := by
      unfold monthLength; split <;> omega
    omega
  · exact h

theorem day_pos (d : Date) : 1 ≤ d.day := d.valid.2.2.1

theorem day_le (d : Date) : d.day ≤ 31 := Nat.le_trans d.valid.2.2.2 (monthLength_le _ _)

/-- The parts of a date give that date back. -/
theorem ofParts?_parts (d : Date) : ofParts? d.year d.month d.day = some d := by
  simp [ofParts?, d.valid]

end Date

end SignOff
