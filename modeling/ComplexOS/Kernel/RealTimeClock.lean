import ComplexOS.Library.WrappedInts
import Mathlib.Tactic.IntervalCases

/-! # The time zone

`rtc.c`: the hour that the clock answers is shifted by the time zone, and carried over to the
day, the month and the year. There are no leap years.
-/
namespace ComplexOS.Clock
open WrappedInts

structure TimeZone where
  hours : ℤ
  accepted : -12 ≤ hours ∧ hours ≤ 14

def setTimeZone (tz : ℤ) (timeZone : TimeZone) : TimeZone :=
  if h : -12 ≤ tz ∧ tz ≤ 14 then ⟨tz,h⟩ else timeZone

def initialTimeZone : TimeZone := ⟨-3,by decide⟩

structure Moment where
  hours : ℤ
  day : ℤ
  month : ℤ
  year : ℤ
  deriving DecidableEq, Repr

def daysPerMonth : List ℤ := [31,28,31,30,31,30,31,31,30,31,30,31]

/-- `none` where the array is read outside of its twelve entries. -/
def days (month : ℤ) : Option ℤ := if 0 ≤ month-1 then daysPerMonth[(month-1).toNat]? else none

def borrowMonth (m : Moment) : Option Moment :=
  if m.day < 0 then (days (m.month-1)).map (fun d => { m with month := m.month-1, day := d })
  else some m

def borrowYear (m : Moment) : Moment :=
  if m.month < 0 then { m with month := 12, year := wrap (m.year-1) } else m

def carryMonth (m : Moment) : Option Moment :=
  (days m.month).map (fun d => if m.day > d then { m with month := m.month+1, day := 1 } else m)

def carryYear (m : Moment) : Moment :=
  if m.month > 12 then { m with month := 1, year := wrap (m.year+1) } else m

def recalculate (timeZone : TimeZone) (m : Moment) : Option Moment :=
  let hours := m.hours+timeZone.hours
  if hours < 0 then
    (borrowMonth { m with hours := hours+24, day := m.day-1 }).map borrowYear
  else if hours > 24 then
    (carryMonth { m with hours := hours % 24, day := m.day+1 }).map carryYear
  else some { m with hours := hours }

structure Valid (m : Moment) : Prop where
  hours : 0 ≤ m.hours ∧ m.hours ≤ 23
  month : 1 ≤ m.month ∧ m.month ≤ 12
  day : 1 ≤ m.day ∧ ∃ d ∈ days m.month, m.day ≤ d
  year : Fits m.year

def daysBefore (month : ℤ) : ℤ := (daysPerMonth.take (month-1).toNat).sum

def instant (m : Moment) : ℤ := (365*m.year+daysBefore m.month+(m.day-1))*24+m.hours

/-- The answer denotes the instant that is `timeZone` hours later. -/
def Shifted (timeZone : TimeZone) (m : Moment) : Prop :=
  ∃ r, recalculate timeZone m = some r ∧ Valid r ∧ instant r = instant m+timeZone.hours

/-- The shifted hour is not midnight of the next day, not before the first of a month, and not
after the last year that an `int` has room for. -/
structure Carries (timeZone : TimeZone) (m : Moment) : Prop where
  midnight : m.hours+timeZone.hours ≠ 24
  first : m.hours+timeZone.hours < 0 → m.day ≠ 1
  last : 24 < m.hours+timeZone.hours → m.day = 31 → m.month = 12 → m.year ≠ 2^31-1

variable {m r : Moment} {timeZone : TimeZone} {month d tz : ℤ}

/-! ### The calendar -/

/-- A month has 28 to 31 days, and the next month begins after them. -/
theorem days_mem (h : days month = some d) :
    1 ≤ month ∧ month ≤ 12 ∧ 28 ≤ d ∧ d ≤ 31 ∧ daysBefore (month+1) = daysBefore month+d := by
  unfold days at h
  split_ifs at h with h0
  obtain ⟨hlt,-⟩ := List.getElem?_eq_some_iff.mp h
  have hlt' : (month-1).toNat < 12 := hlt
  have hlo : 1 ≤ month := by omega
  have hhi : month ≤ 12 := by omega
  refine ⟨hlo,hhi,?_⟩
  interval_cases month <;> cases h <;> decide

theorem exists_days (h1 : 1 ≤ month) (h12 : month ≤ 12) : ∃ d, days month = some d := by
  interval_cases month <;> exact ⟨_,rfl⟩

theorem days_december (h : days 12 = some d) : d = 31 := by
  cases h
  rfl

/-- The 31st of December is the last of the 365 days. -/
theorem daysBefore_december : daysBefore 12+31 = 365 := rfl

theorem daysBefore_one : daysBefore 1 = 0 := rfl

/-! ### The three branches -/

theorem recalculate_same (h0 : 0 ≤ m.hours+timeZone.hours) (h : m.hours+timeZone.hours ≤ 24) :
    recalculate timeZone m = some { m with hours := m.hours+timeZone.hours } := by
  unfold recalculate
  rw [if_neg (by omega),if_neg (by omega)]

/-- A day is taken off, and nothing else, as the day is tested against `0`. -/
theorem recalculate_back (hm : Valid m) (h : m.hours+timeZone.hours < 0) :
    recalculate timeZone m =
      some { m with hours := m.hours+timeZone.hours+24, day := m.day-1 } := by
  have hday := hm.day.1
  have hmonth := hm.month.1
  unfold recalculate
  rw [if_pos h]
  unfold borrowMonth
  rw [if_neg (by dsimp only; omega),Option.map_some]
  unfold borrowYear
  rw [if_neg (by dsimp only; omega)]

theorem recalculate_forth (hm : Valid m) (hd : days m.month = some d)
    (h : 24 < m.hours+timeZone.hours) : recalculate timeZone m = some (carryYear
      (if m.day+1 > d then
        { m with hours := m.hours+timeZone.hours-24, day := 1, month := m.month+1 }
      else { m with hours := m.hours+timeZone.hours-24, day := m.day+1 })) := by
  have htz := timeZone.accepted.2
  have hhours := hm.hours.2
  have hmod : (m.hours+timeZone.hours) % 24 = m.hours+timeZone.hours-24 := by omega
  unfold recalculate
  rw [if_neg (by omega),if_pos (by omega)]
  unfold carryMonth
  rw [hd,Option.map_some,Option.map_some]
  dsimp only
  rw [hmod]

/-! ### Where the answer is right -/

theorem shifted_iff (hr : recalculate timeZone m = some r) :
    Shifted timeZone m ↔ Valid r ∧ instant r = instant m+timeZone.hours := by
  constructor
  · rintro ⟨r',hr',h⟩
    rwa [Option.some.inj (hr.symm.trans hr')]
  · exact fun h => ⟨r,hr,h⟩

theorem shifted_same (hm : Valid m) (h0 : 0 ≤ m.hours+timeZone.hours)
    (h : m.hours+timeZone.hours ≤ 24) : Shifted timeZone m ↔ m.hours+timeZone.hours ≠ 24 := by
  rw [shifted_iff (recalculate_same h0 h)]
  constructor
  · rintro ⟨hr,-⟩ h24
    have hlt := hr.hours.2
    dsimp only at hlt
    omega
  · refine fun h24 => ⟨⟨⟨h0,?_⟩,hm.month,hm.day,hm.year⟩,?_⟩
    · dsimp only
      omega
    · unfold instant
      dsimp only
      omega

theorem shifted_back (hm : Valid m) (h : m.hours+timeZone.hours < 0) :
    Shifted timeZone m ↔ m.day ≠ 1 := by
  have htz := timeZone.accepted.1
  have hhours := hm.hours.1
  obtain ⟨hday,d,hd,hle⟩ := hm.day
  rw [shifted_iff (recalculate_back hm h)]
  constructor
  · rintro ⟨hr,-⟩ h1
    have hfirst := hr.day.1
    dsimp only at hfirst
    omega
  · refine fun h1 => ⟨⟨⟨?_,?_⟩,hm.month,⟨?_,d,hd,?_⟩,hm.year⟩,?_⟩
    all_goals
      try unfold instant
      dsimp only
      omega

theorem shifted_forth (hm : Valid m) (h : 24 < m.hours+timeZone.hours) : Shifted timeZone m ↔
    (m.day = 31 → m.month = 12 → m.year ≠ 2^31-1) := by
  have htz := timeZone.accepted.2
  have hhours := hm.hours.2
  obtain ⟨hday,d,hd,hle⟩ := hm.day
  obtain ⟨h1,h12,h28,h31,hnext⟩ := days_mem hd
  rw [shifted_iff (recalculate_forth hm hd h)]
  by_cases hlast : m.day+1 > d
  · rw [if_pos hlast]
    unfold carryYear
    by_cases hdec : m.month = 12
    · -- the turn of the year
      rw [hdec] at hd
      obtain rfl := days_december hd
      have hday31 : m.day = 31 := by omega
      have hyear := daysBefore_december
      rw [if_pos (by dsimp only; omega)]
      constructor
      · rintro ⟨-,hi⟩ - - hmax
        have hover : wrap (2^31-1+1) = -2^31 := by decide
        unfold instant at hi
        dsimp only at hi
        rw [hmax,hover,hdec,daysBefore_one] at hi
        omega
      · intro hne
        have hfits : Fits (m.year+1) := by
          have hmax := hne hday31 hdec
          obtain ⟨hlo,hhi⟩ := hm.year
          constructor <;> omega
        rw [hfits.wrap_eq]
        refine ⟨⟨⟨?_,?_⟩,⟨le_rfl,?_⟩,⟨le_rfl,31,rfl,?_⟩,hfits⟩,?_⟩
        · dsimp only
          omega
        · dsimp only
          omega
        · dsimp only
          omega
        · dsimp only
          omega
        · unfold instant
          dsimp only
          rw [hdec,daysBefore_one]
          omega
    · rw [if_neg (by dsimp only; omega)]
      obtain ⟨d',hd'⟩ := exists_days (show 1 ≤ m.month+1 by omega) (by omega)
      have hd28 := (days_mem hd').2.2.1
      refine iff_of_true ⟨⟨⟨?_,?_⟩,⟨?_,?_⟩,⟨le_rfl,d',hd',?_⟩,hm.year⟩,?_⟩ (fun _ h => absurd h hdec)
      · dsimp only
        omega
      · dsimp only
        omega
      · dsimp only
        omega
      · dsimp only
        omega
      · dsimp only
        omega
      · unfold instant
        dsimp only
        omega
  · rw [if_neg hlast]
    unfold carryYear
    rw [if_neg (by dsimp only; omega)]
    refine iff_of_true ⟨⟨⟨?_,?_⟩,hm.month,⟨?_,d,hd,?_⟩,hm.year⟩,?_⟩ (fun h31' h12' => ?_)
    · dsimp only
      omega
    · dsimp only
      omega
    · dsimp only
      omega
    · dsimp only
      omega
    · unfold instant
      dsimp only
      omega
    · rw [h12'] at hd
      have hd31 := days_december hd
      omega

/-- The time zone is added exactly, unless the shifted hour is midnight, goes back over the
beginning of a month, or leaves the years of an `int`. -/
theorem recalculate_shifted (hm : Valid m) : Shifted timeZone m ↔ Carries timeZone m := by
  obtain hback | hsame | hforth : m.hours+timeZone.hours < 0 ∨
      (0 ≤ m.hours+timeZone.hours ∧ m.hours+timeZone.hours ≤ 24) ∨ 24 < m.hours+timeZone.hours := by
    omega
  · rw [shifted_back hm hback]
    exact ⟨fun h => ⟨by omega,fun _ => h,fun _ => by omega⟩,fun h => h.first hback⟩
  · rw [shifted_same hm hsame.1 hsame.2]
    exact ⟨fun h => ⟨h,fun _ => by omega,fun _ => by omega⟩,Carries.midnight⟩
  · rw [shifted_forth hm hforth]
    exact ⟨fun h => ⟨by omega,fun _ => by omega,fun _ => h⟩,fun h => h.last hforth⟩

/-- New Year's Eve, five hours to the east. -/
theorem recalculate_shifted_newYear : Shifted ⟨5,by decide⟩ ⟨22,31,12,2019⟩ :=
  (recalculate_shifted ⟨by decide,by decide,⟨by decide,31,rfl,by decide⟩,by decide⟩).mpr
    ⟨by decide,by decide,by decide⟩

/-- The first of May becomes the day `0`. -/
theorem not_recalculate_shifted : ¬ ∀ timeZone m, Valid m → Shifted timeZone m := by
  intro h
  obtain ⟨r,hr,hv,-⟩ := h initialTimeZone ⟨1,1,5,2020⟩
    ⟨by decide,by decide,⟨by decide,31,rfl,by decide⟩,by decide⟩
  cases hr
  exact absurd hv.day.1 (by decide)

end ComplexOS.Clock
