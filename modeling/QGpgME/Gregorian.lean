import Mathlib.Logic.Basic
import Mathlib.Tactic.IntervalCases

/-! The Gregorian calendar from its year 1 on: days counted through the years and months, and the
date of a Julian day. Independent of what the dates are for. -/
namespace QGpgME.Gregorian

def isLeap (year : Nat) : Bool := year % 4 = 0 && (year % 100 ≠ 0 || year % 400 = 0)

def yearLength (year : Nat) : Nat := if isLeap year then 366 else 365

def daysInMonth (year month : Nat) : Nat :=
  if month = 2 then if isLeap year then 29 else 28
  else if month = 4 ∨ month = 6 ∨ month = 9 ∨ month = 11 then 30 else 31

theorem daysInMonth_le (year month : Nat) : daysInMonth year month ≤ 31 := by
  rw [daysInMonth]
  split
  · split <;> decide
  · split <;> decide

/-- The days of the first `n` years from `start` on. -/
def daysOfYears (start : Nat) : Nat → Nat
  | 0 => 0
  | n + 1 => daysOfYears start n + yearLength (start + n)

/-- The days of the first `n` months of a year. -/
def daysOfMonths (year : Nat) : Nat → Nat
  | 0 => 0
  | n + 1 => daysOfMonths year n + daysInMonth year (n + 1)

structure Date where
  year : Nat
  month : Nat
  day : Nat
deriving DecidableEq

namespace Date

structure Valid (d : Date) : Prop where
  month : 1 ≤ d.month ∧ d.month ≤ 12
  day : 1 ≤ d.day ∧ d.day ≤ daysInMonth d.year d.month

instance (d : Date) : Decidable d.Valid :=
  decidable_of_iff ((1 ≤ d.month ∧ d.month ≤ 12) ∧ 1 ≤ d.day ∧ d.day ≤ daysInMonth d.year d.month)
    ⟨fun h => ⟨h.1, h.2⟩, fun h => ⟨h.month, h.day⟩⟩

/-- The days between the beginning of the year `start` and the date. -/
def daysSince (start : Nat) (d : Date) : Nat :=
  daysOfYears start (d.year - start) + daysOfMonths d.year (d.month - 1) + (d.day - 1)

end Date

theorem years_le (start : Nat) (d : Date) : 365 * (d.year - start) ≤ d.daysSince start := by
  have hyears : ∀ n, 365 * n ≤ daysOfYears start n := by
    intro n
    induction n with
    | zero => exact Nat.le_refl 0
    | succ n ih =>
      rw [daysOfYears, yearLength]
      split <;> omega
  have hle := hyears (d.year - start)
  rw [Date.daysSince]
  omega

/-- The leap days of the years up to the given one. -/
def leapDays (year : Nat) : Nat := year / 4 - year / 100 + year / 400

theorem leapDays_succ (year : Nat) :
    leapDays (year + 1) = leapDays year + if isLeap (year + 1) then 1 else 0 := by
  have hle : year / 100 ≤ year / 4 := by omega
  by_cases h4 : (year + 1) % 4 = 0
  · have hd4 : (year + 1) / 4 = year / 4 + 1 := by omega
    by_cases h100 : (year + 1) % 100 = 0
    · have hd100 : (year + 1) / 100 = year / 100 + 1 := by omega
      by_cases h400 : (year + 1) % 400 = 0
      · have hd400 : (year + 1) / 400 = year / 400 + 1 := by omega
        have hleap : isLeap (year + 1) = true := by simp [isLeap, h4, h400]
        rw [leapDays, leapDays, hd4, hd100, hd400, if_pos hleap]
        omega
      · have hd400 : (year + 1) / 400 = year / 400 := by omega
        have hleap : ¬isLeap (year + 1) = true := by simp [isLeap, h100, h400]
        rw [leapDays, leapDays, hd4, hd100, hd400, if_neg hleap]
        omega
    · have hd100 : (year + 1) / 100 = year / 100 := by omega
      have hd400 : (year + 1) / 400 = year / 400 := by omega
      have hleap : isLeap (year + 1) = true := by simp [isLeap, h4, h100]
      rw [leapDays, leapDays, hd4, hd100, hd400, if_pos hleap]
      omega
  · have hd4 : (year + 1) / 4 = year / 4 := by omega
    have hd100 : (year + 1) / 100 = year / 100 := by omega
    have hd400 : (year + 1) / 400 = year / 400 := by omega
    have hleap : ¬isLeap (year + 1) = true := by simp [isLeap, h4]
    rw [leapDays, leapDays, hd4, hd100, hd400, if_neg hleap, Nat.add_zero]

theorem yearLength_eq (year : Nat) : yearLength year = 365 + if isLeap year then 1 else 0 := by
  rw [yearLength]
  split <;> rfl

theorem daysOfYears_eq (start n : Nat) :
    daysOfYears (start + 1) n + leapDays start = 365 * n + leapDays (start + n) := by
  induction n with
  | zero => simp [daysOfYears]
  | succ n ih =>
    have hleap := leapDays_succ (start + n)
    have hlen := yearLength_eq (start + n + 1)
    rw [daysOfYears, show start + 1 + n = start + n + 1 by omega, ← Nat.add_assoc start n 1]
    omega

theorem leapDays_century (b : Nat) {d : Nat} (h : d < 100) :
    leapDays (100 * b + d) = 24 * b + b / 4 + d / 4 := by
  have h4 : (100 * b + d) / 4 = 25 * b + d / 4 := by omega
  have h100 : (100 * b + d) / 100 = b := by omega
  have h400 : (100 * b + d) / 400 = b / 4 := by omega
  rw [leapDays, h4, h100, h400]
  omega

theorem leapDays_add (year : Nat) : leapDays (year + 4800) = leapDays year + 1164 := by
  simp only [leapDays]
  omega

/-- A day in a year that begins in March and is counted from zero. -/
structure MarchDay where
  century : Nat
  year : Nat
  day : Nat

/-- The day with a given number, by centuries and years. -/
def marchDay (a : Nat) : MarchDay :=
  let b := (4 * a + 3) / 146097
  let c := a - 146097 * b / 4
  let d := (4 * c + 3) / 1461
  ⟨b, d, c - 1461 * d / 4⟩

/-- What the days so far, the year and the century say about each other. -/
structure MarchDay.Counts (m : MarchDay) (a : Nat) : Prop where
  year : m.year < 100
  number : a = 36524 * m.century + m.century / 4 + (365 * m.year + m.year / 4) + m.day
  day : m.day ≤ 365
  last : m.day = 365 → m.year % 4 = 3 ∧ (m.year = 99 → m.century % 4 = 3)

theorem marchDay_counts (a : Nat) : (marchDay a).Counts a := by
  obtain ⟨b, hb⟩ : ∃ b, b = (4 * a + 3) / 146097 := ⟨_, rfl⟩
  obtain ⟨c, hc⟩ : ∃ c, c = a - 146097 * b / 4 := ⟨_, rfl⟩
  obtain ⟨d, hd⟩ : ∃ d, d = (4 * c + 3) / 1461 := ⟨_, rfl⟩
  have heq : marchDay a = ⟨b, d, c - 1461 * d / 4⟩ := by simp only [marchDay, ← hb, ← hc, ← hd]
  have hcentury : 146097 * b / 4 = 36524 * b + b / 4 := by omega
  have hyear : 1461 * d / 4 = 365 * d + d / 4 := by omega
  have ha : a = 36524 * b + b / 4 + c := by omega
  have hlt : 4 * c < 146097 + b % 4 := by omega
  have hday : c = 365 * d + d / 4 + (c - 1461 * d / 4) := by omega
  rw [heq]
  constructor
  · show d < 100
    omega
  · show a = 36524 * b + b / 4 + (365 * d + d / 4) + (c - 1461 * d / 4)
    omega
  · show c - 1461 * d / 4 ≤ 365
    omega
  · show c - 1461 * d / 4 = 365 → d % 4 = 3 ∧ (d = 99 → b % 4 = 3)
    intro hlast
    constructor <;> omega

/-- The days from the beginning of March to that of the month `m` months later. -/
def daysFromMarch (m : Nat) : Nat := (153 * m + 2) / 5

/-- The date of a day of a year that begins in March. -/
def ofMarch (year day : Nat) : Date :=
  let m := (5 * day + 2) / 153
  ⟨year + m / 10, m + 3 - 12 * (m / 10), day - daysFromMarch m + 1⟩

/-- The date of a Julian day. -/
def ofJulianDay (julianDay : Nat) : Date :=
  let a := marchDay (julianDay + 32044)
  ofMarch (100 * a.century + a.year - 4800) a.day

theorem daysInMonth_march (year : Nat) {m : Nat} (h : m ≤ 9) :
    daysFromMarch m + daysInMonth year (m + 3) = daysFromMarch (m + 1) := by
  interval_cases m <;> rfl

theorem daysOfMonths_march (year : Nat) {m : Nat} (h : m ≤ 9) :
    daysOfMonths year (m + 2) = 59 + (if isLeap year then 1 else 0) + daysFromMarch m := by
  induction m with
  | zero => cases hleap : isLeap year <;> simp [daysOfMonths, daysInMonth, daysFromMarch, hleap]
  | succ m ih =>
    have hlen : daysFromMarch m + daysInMonth year (m + 2 + 1) = daysFromMarch (m + 1) :=
      daysInMonth_march year (by omega)
    rw [show m + 1 + 2 = m + 2 + 1 by omega, daysOfMonths, ih (by omega), Nat.add_assoc, hlen]

/-- The month of a day, which is one of this year, or January or February of the next one. -/
theorem ofMarch_cases {day : Nat} (year : Nat) (h : day ≤ 365) :
    (∃ m ≤ 9, ofMarch year day = ⟨year, m + 3, day - daysFromMarch m + 1⟩ ∧
      daysFromMarch m ≤ day ∧ day < daysFromMarch (m + 1)) ∨
    (ofMarch year day = ⟨year + 1, 1, day - 306 + 1⟩ ∧ 306 ≤ day ∧ day < 337) ∨
    (ofMarch year day = ⟨year + 1, 2, day - 337 + 1⟩ ∧ 337 ≤ day) := by
  obtain ⟨m, hm⟩ : ∃ m, m = (5 * day + 2) / 153 := ⟨_, rfl⟩
  have heq : ofMarch year day =
      ⟨year + m / 10, m + 3 - 12 * (m / 10), day - daysFromMarch m + 1⟩ := by
    rw [hm]
    rfl
  obtain hle | rfl | rfl : m ≤ 9 ∨ m = 10 ∨ m = 11 := by omega
  · refine Or.inl ⟨m, hle, ?_, ?_, ?_⟩
    · rw [heq, show m / 10 = 0 by omega]
      rfl
    · rw [daysFromMarch]
      omega
    · rw [daysFromMarch]
      omega
  · exact Or.inr (Or.inl ⟨heq, by omega, by omega⟩)
  · exact Or.inr (Or.inr ⟨heq, by omega⟩)

theorem ofMarch_valid {year day : Nat} (h : day ≤ 365)
    (hlast : day = 365 → isLeap (year + 1) = true) : (ofMarch year day).Valid := by
  obtain ⟨m, hm, heq, hfrom, hto⟩ | ⟨heq, hfrom, hto⟩ | ⟨heq, hfrom⟩ := ofMarch_cases year h
  · have hlen := daysInMonth_march year hm
    rw [heq]
    constructor <;> dsimp only <;> omega
  · have hlen : daysInMonth (year + 1) 1 = 31 := rfl
    rw [heq]
    constructor <;> dsimp only <;> omega
  · have hlen : daysInMonth (year + 1) 2 = if isLeap (year + 1) then 29 else 28 := rfl
    rw [heq]
    constructor
    · dsimp only
      omega
    · by_cases hday : day = 365
      · rw [hlast hday] at hlen
        simp only [hlen, hday]
        decide
      · split at hlen <;> dsimp only <;> omega

/-- Counted through years and months, the days are those of the years that begin in March. -/
theorem daysSince_ofMarch (start year : Nat) {day : Nat} (h : day ≤ 365)
    (hstart : 365 * start + leapDays start + 306 ≤ 365 * year + leapDays year + day) :
    (ofMarch year day).daysSince (start + 1) + (365 * start + leapDays start + 306) =
      365 * year + leapDays year + day := by
  have hle : start ≤ year := by
    simp only [leapDays] at hstart
    omega
  have hjanuary : ∀ n, daysOfYears (start + 1) (year + 1 - (start + 1)) + n +
      (365 * start + leapDays start + 306) = 365 * year + leapDays year + (n + 306) := by
    intro n
    have hyears := daysOfYears_eq start (year - start)
    rw [Nat.add_sub_cancel' hle] at hyears
    rw [Nat.add_sub_add_right]
    omega
  obtain ⟨m, hm, heq, hfrom, hto⟩ | ⟨heq, hfrom, hto⟩ | ⟨heq, hfrom⟩ := ofMarch_cases year h
  · have hlt : start < year := by
      refine Nat.lt_of_le_of_ne hle fun hsame => ?_
      have hlast : daysFromMarch (m + 1) ≤ 306 := by
        rw [daysFromMarch]
        omega
      rw [hsame] at hstart
      omega
    obtain ⟨y, rfl⟩ : ∃ y, year = y + 1 := ⟨year - 1, by omega⟩
    have hyears := daysOfYears_eq start (y - start)
    rw [Nat.add_sub_cancel' (Nat.le_of_lt_succ hlt)] at hyears
    have hmonths := daysOfMonths_march (y + 1) hm
    have hleap := leapDays_succ y
    rw [heq]
    change daysOfYears (start + 1) (y + 1 - (start + 1)) + daysOfMonths (y + 1) (m + 2) +
      (day - daysFromMarch m) + (365 * start + leapDays start + 306) = _
    rw [Nat.add_sub_add_right]
    omega
  · have hnone : daysOfMonths (year + 1) (1 - 1) = 0 := rfl
    rw [heq, Date.daysSince, Nat.add_sub_cancel, hnone, Nat.add_zero, hjanuary]
    omega
  · have hone : daysOfMonths (year + 1) (2 - 1) = 31 := rfl
    rw [heq, Date.daysSince, Nat.add_sub_cancel, hone, Nat.add_assoc (daysOfYears _ _), hjanuary]
    omega

/-- The Julian day of a date in a year that begins in March and is counted from year 0. -/
theorem julianDay_eq {julianDay : Nat} (h : 1721426 ≤ julianDay) {a : MarchDay}
    (ha : a.Counts (julianDay + 32044)) :
    4800 ≤ 100 * a.century + a.year ∧
      julianDay = 365 * (100 * a.century + a.year - 4800) +
        leapDays (100 * a.century + a.year - 4800) + a.day + 1721120 := by
  obtain ⟨hyear, hnumber, hday, -⟩ := ha
  have hcentury := leapDays_century a.century hyear
  obtain ⟨year, heq⟩ : ∃ year, 100 * a.century + a.year = year + 4800 :=
    ⟨100 * a.century + a.year - 4800, by omega⟩
  rw [heq, leapDays_add] at hcentury
  rw [heq, Nat.add_sub_cancel]
  exact ⟨Nat.le_add_left _ _, by omega⟩

/-- Only the last day of a year that begins in March is one of a leap day. -/
theorem isLeap_of_last {a : MarchDay} {n : Nat} (ha : a.Counts n) (hday : a.day = 365)
    (h : 4800 ≤ 100 * a.century + a.year) :
    isLeap (100 * a.century + a.year - 4800 + 1) = true := by
  obtain ⟨hyear, -, -, hlast⟩ := ha
  obtain ⟨hyear', hcentury⟩ := hlast hday
  obtain ⟨year, heq⟩ : ∃ year, 100 * a.century + a.year = year + 4800 :=
    ⟨100 * a.century + a.year - 4800, by omega⟩
  have h4 : (year + 1) % 4 = 0 := by omega
  rw [heq, Nat.add_sub_cancel, isLeap, h4]
  by_cases hend : a.year = 99
  · have h400 : (year + 1) % 400 = 0 := by
      have hcentury' := hcentury hend
      omega
    simp [h400]
  · have h100 : (year + 1) % 100 ≠ 0 := by omega
    simp [h100]

theorem ofJulianDay_valid {julianDay : Nat} (h : 1721426 ≤ julianDay) :
    (ofJulianDay julianDay).Valid := by
  have ha := marchDay_counts (julianDay + 32044)
  obtain ⟨hyear, -⟩ := julianDay_eq h ha
  exact ofMarch_valid ha.day fun hday => isLeap_of_last ha hday hyear

/-- The Julian day of the first day after the given year. -/
def newYear (year : Nat) : Nat := 365 * year + leapDays year + 1721426

theorem daysSince_ofJulianDay {start julianDay : Nat} (h : newYear start ≤ julianDay) :
    (ofJulianDay julianDay).daysSince (start + 1) + newYear start = julianDay := by
  rw [newYear] at h ⊢
  have ha := marchDay_counts (julianDay + 32044)
  rw [ofJulianDay]
  generalize marchDay (julianDay + 32044) = a at ha
  obtain ⟨-, hjulian⟩ := julianDay_eq (by omega) ha
  have hcount := daysSince_ofMarch start (100 * a.century + a.year - 4800) ha.day (by omega)
  rw [hjulian, ← hcount]
  simp only [Nat.add_assoc]

end QGpgME.Gregorian
