import Mathlib.Tactic

/-!
# The calendar

Dates of the Gregorian calendar, before its introduction too, and their day numbers with
1970-01-01 as day 0. The year is taken to begin in March, so that the leap day is its
last one.
-/

/-- The days of the years before a year, for years that begin in March. -/
def daysBefore (year : Int) : Int :=
  year / 400 * 146097 + (365 * (year % 400) + year % 400 / 4 - year % 400 / 100)

theorem daysBefore_eq {era c q y : Int} (hc : 0 ≤ c ∧ c ≤ 3) (hq : 0 ≤ q ∧ q ≤ 24)
    (hy : 0 ≤ y ∧ y ≤ 3) :
    daysBefore (era * 400 + 100 * c + 4 * q + y) =
      era * 146097 + 36524 * c + 1461 * q + 365 * y := by
  have hera : (era * 400 + 100 * c + 4 * q + y) / 400 = era := by omega
  have hyear : (era * 400 + 100 * c + 4 * q + y) % 400 = 100 * c + 4 * q + y := by omega
  have hfour : (100 * c + 4 * q + y) / 4 = 25 * c + q := by omega
  have hcentury : (100 * c + 4 * q + y) / 100 = c := by omega
  rw [daysBefore, hera, hyear, hfour, hcentury]
  ring

/-- The year and the day of a day number, for years that begin in March. -/
def yearAndDay (z : Int) : Int × Nat :=
  let century := min (z % 146097 / 36524) 3
  let dayOfCentury := z % 146097 - 36524 * century
  let cycle := dayOfCentury / 1461
  let dayOfCycle := dayOfCentury - 1461 * cycle
  let yearOfCycle := min (dayOfCycle / 365) 3
  (z / 146097 * 400 + 100 * century + 4 * cycle + yearOfCycle,
    (dayOfCycle - 365 * yearOfCycle).toNat)

theorem yearAndDay_spec (z : Int) :
    daysBefore (yearAndDay z).1 + (yearAndDay z).2 = z ∧ (yearAndDay z).2 ≤ 365 := by
  unfold yearAndDay
  simp only
  -- The remainders stay in range, so the parts are the digits of the year.
  set c := min (z % 146097 / 36524) 3 with hc
  set q := (z % 146097 - 36524 * c) / 1461 with hq
  set y := min ((z % 146097 - 36524 * c - 1461 * q) / 365) 3 with hy
  have hc' : (0 ≤ c ∧ c ≤ 3) ∧ 0 ≤ z % 146097 - 36524 * c ∧ z % 146097 - 36524 * c ≤ 36524 := by
    omega
  have hq' : (0 ≤ q ∧ q ≤ 24) ∧ 0 ≤ z % 146097 - 36524 * c - 1461 * q ∧
      z % 146097 - 36524 * c - 1461 * q ≤ 1460 := by omega
  have hy' : (0 ≤ y ∧ y ≤ 3) ∧ 0 ≤ z % 146097 - 36524 * c - 1461 * q - 365 * y ∧
      z % 146097 - 36524 * c - 1461 * q - 365 * y ≤ 365 := by omega
  rw [daysBefore_eq hc'.1 hq'.1 hy'.1]
  clear_value c q y
  omega

structure CivilDate where
  year : Int
  month : Nat
  day : Nat
  deriving DecidableEq

def CivilDate.toDays (c : CivilDate) : Int :=
  let month := if 2 < c.month then c.month - 3 else c.month + 9
  daysBefore (if 2 < c.month then c.year else c.year - 1) + (153 * month + 2) / 5 +
    (c.day - 1 : Nat) - 719468

def CivilDate.ofDays (n : Int) : CivilDate :=
  let (year, day) := yearAndDay (n + 719468)
  let month := (5 * day + 2) / 153
  { year := if month < 10 then year else year + 1
    month := if month < 10 then month + 3 else month - 9
    day := day - (153 * month + 2) / 5 + 1 }

theorem toDays_ofDays (n : Int) : (CivilDate.ofDays n).toDays = n := by
  obtain ⟨hspec, hday⟩ := yearAndDay_spec (n + 719468)
  unfold CivilDate.ofDays CivilDate.toDays
  generalize yearAndDay (n + 719468) = yd at *
  obtain ⟨year, day⟩ := yd
  simp only at *
  by_cases hm : (5 * day + 2) / 153 < 10
  · simp only [hm, if_true]
    rw [if_pos (by omega), if_pos (by omega)]
    omega
  · simp only [hm, if_false]
    rw [if_neg (by omega), if_neg (by omega), add_sub_cancel_right]
    omega

example : CivilDate.ofDays 19782 = ⟨2024, 2, 29⟩ := by decide

example : CivilDate.ofDays (-1) = ⟨1969, 12, 31⟩ := by decide

theorem ofDays_ranges (n : Int) :
    1 ≤ (CivilDate.ofDays n).month ∧ (CivilDate.ofDays n).month ≤ 12 ∧
      1 ≤ (CivilDate.ofDays n).day ∧ (CivilDate.ofDays n).day ≤ 31 := by
  obtain ⟨_, hday⟩ := yearAndDay_spec (n + 719468)
  unfold CivilDate.ofDays
  generalize yearAndDay (n + 719468) = yd at *
  obtain ⟨year, day⟩ := yd
  simp only at *
  split <;> omega
