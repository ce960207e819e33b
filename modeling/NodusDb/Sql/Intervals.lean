import NodusDb.Sql.Temporal

/-!
# Justified intervals

Whole days of time are carried into the days and whole months of days into the months, by
truncating division. A part of the other sign is then repaired by a borrow from the next larger
one. The parts of the source are 64-bit: `justify64` wraps its sums, and is `justify` as long as
none overflows.

* `Interval.justify_normalizes`: the span is kept, and the parts are bounded and of one sign.
* `Interval.justify_eq_iff`: spans have one such form each.
-/

namespace NodusDb.Sql

def daysPerMonth : Int := 30

structure Interval where
  months : Int
  days : Int
  micros : Int
  deriving DecidableEq

namespace Interval

/-- The interval's length, with a month as 30 days. -/
def span (i : Interval) : Int := (i.months * daysPerMonth + i.days) * microsPerDay + i.micros

/-- A part takes one `unit` from the next larger one if it has the other sign. -/
def borrow (unit larger part : Int) : Int × Int :=
  if 0 < larger ∧ part < 0 then (larger - 1, part + unit)
  else if larger < 0 ∧ 0 < part then (larger + 1, part - unit)
  else (larger, part)

def justifyHours (i : Interval) : Interval :=
  let (days, micros) := borrow microsPerDay (i.days + i.micros.tdiv microsPerDay)
    (i.micros.tmod microsPerDay)
  ⟨i.months, days, micros⟩

def justifyDays (i : Interval) : Interval :=
  let (months, days) := borrow daysPerMonth (i.months + i.days.tdiv daysPerMonth)
    (i.days.tmod daysPerMonth)
  ⟨months, days, i.micros⟩

/-- A month, then a day, is borrowed for a part of the other sign. No sum leaves the 64 bits. -/
def repair (months days micros : Int) : Interval :=
  let (months, days) :=
    if 0 < months ∧ (days < 0 ∨ days = 0 ∧ micros < 0) then (months - 1, days + daysPerMonth)
    else if months < 0 ∧ (0 < days ∨ days = 0 ∧ 0 < micros) then (months + 1, days - daysPerMonth)
    else (months, days)
  let (days, micros) := borrow microsPerDay days micros
  ⟨months, days, micros⟩

def justify (i : Interval) : Interval :=
  let months := i.months + i.days.tdiv daysPerMonth
  let days := i.days.tmod daysPerMonth + i.micros.tdiv microsPerDay
  repair (months + days.tdiv daysPerMonth) (days.tmod daysPerMonth) (i.micros.tmod microsPerDay)

def wrap (n : Int) : Int := n.bmod (2 ^ 64)

def justify64 (i : Interval) : Interval :=
  let months := wrap (i.months + i.days.tdiv daysPerMonth)
  let days := wrap (i.days.tmod daysPerMonth + i.micros.tdiv microsPerDay)
  repair (wrap (months + days.tdiv daysPerMonth)) (days.tmod daysPerMonth)
    (i.micros.tmod microsPerDay)

def I64 (n : Int) : Prop := -2 ^ 63 ≤ n ∧ n < 2 ^ 63

/-- No sum of `justify64` overflows. -/
def Fits (i : Interval) : Prop :=
  I64 (i.months + i.days.tdiv daysPerMonth) ∧
  I64 (i.days.tmod daysPerMonth + i.micros.tdiv microsPerDay) ∧
  I64 (i.months + i.days.tdiv daysPerMonth +
    (i.days.tmod daysPerMonth + i.micros.tdiv microsPerDay).tdiv daysPerMonth)

/-- The part is below one `unit` and has the sign of the next larger one. -/
def Carried (unit larger part : Int) : Prop :=
  part.natAbs < unit ∧ (0 < larger → 0 ≤ part) ∧ (larger < 0 → part ≤ 0)

/-- The parts that are not zero have one sign. -/
def OneSign (i : Interval) : Prop :=
  (0 ≤ i.months ∧ 0 ≤ i.days ∧ 0 ≤ i.micros) ∨ (i.months ≤ 0 ∧ i.days ≤ 0 ∧ i.micros ≤ 0)

theorem tdiv_tmod (n : Int) {unit : Int} (h : 0 < unit) :
    n.tdiv unit * unit + n.tmod unit = n ∧ -unit < n.tmod unit ∧ n.tmod unit < unit :=
  ⟨Int.tdiv_mul_add_tmod n unit, Int.lt_tmod_of_pos n h, Int.tmod_lt_of_pos n h⟩

theorem borrow_spec {unit part : Int} (h : -unit < part ∧ part < unit) (larger : Int) :
    ∃ l p, borrow unit larger part = (l, p) ∧ l * unit + p = larger * unit + part ∧
      Carried unit l p := by
  unfold borrow Carried
  split
  · exact ⟨_, _, rfl, by ring, by omega⟩
  split
  · exact ⟨_, _, rfl, by ring, by omega⟩
  · exact ⟨_, _, rfl, rfl, by omega⟩

theorem justify_spec (i : Interval) : i.justify.span = i.span ∧ i.justify.days.natAbs < 30 ∧
    i.justify.micros.natAbs < microsPerDay ∧ i.justify.OneSign := by
  obtain ⟨heq, hlt⟩ := tdiv_tmod i.days (by decide : 0 < daysPerMonth)
  obtain ⟨heq', hlt'⟩ := tdiv_tmod i.micros (by decide : 0 < (microsPerDay : Int))
  obtain ⟨heq'', hlt''⟩ := tdiv_tmod (i.days.tmod daysPerMonth + i.micros.tdiv microsPerDay)
    (by decide : 0 < daysPerMonth)
  unfold justify repair
  -- A month is borrowed in one direction, in the other or not; after it the borrow of a day.
  dsimp only
  split
  on_goal 2 => split
  all_goals
    obtain ⟨l, p, hborrow, hsum, hcarried⟩ := borrow_spec hlt' _
    rw [hborrow]
    simp only [span, Carried, OneSign, microsPerDay, daysPerMonth] at *
    omega

/-- Justified hours and days are bounded with the sign of the next larger part, and a justified
interval has one sign. -/
theorem justify_normalizes (i : Interval) :
    (i.justify.span = i.span ∧ i.justify.days.natAbs < 30 ∧
      i.justify.micros.natAbs < microsPerDay ∧ i.justify.OneSign) ∧
    (i.justifyHours.span = i.span ∧
      Carried microsPerDay i.justifyHours.days i.justifyHours.micros) ∧
    (i.justifyDays.span = i.span ∧ Carried daysPerMonth i.justifyDays.months i.justifyDays.days) := by
  refine ⟨i.justify_spec, ?_, ?_⟩
  · obtain ⟨heq, hlt⟩ := tdiv_tmod i.micros (by decide : 0 < (microsPerDay : Int))
    obtain ⟨days, micros, hborrow, hsum, hcarried⟩ :=
      borrow_spec hlt (i.days + i.micros.tdiv microsPerDay)
    rw [justifyHours, hborrow]
    refine ⟨?_, hcarried⟩
    simp only [span]
    linarith
  · obtain ⟨heq, hlt⟩ := tdiv_tmod i.days (by decide : 0 < daysPerMonth)
    obtain ⟨months, days, hborrow, hsum, hcarried⟩ :=
      borrow_spec hlt (i.months + i.days.tdiv daysPerMonth)
    rw [justifyDays, hborrow]
    refine ⟨?_, hcarried⟩
    simp only [span]
    rw [hsum, add_mul i.months, add_assoc (i.months * daysPerMonth), heq]

theorem wrap_of_i64 {n : Int} (h : I64 n) : wrap n = n := by
  unfold wrap
  exact Int.bmod_eq_of_le (by simpa using h.1) (by simpa using h.2)

theorem Fits.justify64_eq {i : Interval} (h : i.Fits) : i.justify64 = i.justify := by
  obtain ⟨hmonths, hdays, hcarried⟩ := h
  simp only [justify64, wrap_of_i64 hmonths, wrap_of_i64 hdays, wrap_of_i64 hcarried]
  rfl

/-- Intervals of one span, and no others, are justified to the same interval, as long as no sum
overflows. -/
theorem justify_eq_iff {i j : Interval} (hi : i.Fits) (hj : j.Fits) :
    i.justify64 = j.justify64 ↔ i.span = j.span := by
  rw [hi.justify64_eq, hj.justify64_eq]
  obtain ⟨hspan, hdays, hmicros, hsign⟩ := i.justify_spec
  obtain ⟨hspan', hdays', hmicros', hsign'⟩ := j.justify_spec
  rw [← hspan, ← hspan']
  refine ⟨congrArg span, fun h => ?_⟩
  generalize i.justify = a at *
  generalize j.justify = b at *
  obtain ⟨months, days, micros⟩ := a
  obtain ⟨months', days', micros'⟩ := b
  simp only [span, OneSign, microsPerDay, daysPerMonth, mk.injEq] at *
  omega

/-- A month and a day less an hour, and thirty days and 23 hours. -/
theorem justify_month_less_hour :
    justify64 ⟨1, 1, -3600000000⟩ = justify64 ⟨0, 30, 82800000000⟩ :=
  (justify_eq_iff (by unfold Fits I64; decide) (by unfold Fits I64; decide)).mpr (by decide)

/-- With an overflow, intervals of different spans are justified to one. -/
example : justify64 ⟨2 ^ 63 - 1, 30, 0⟩ = justify64 ⟨-2 ^ 63, 0, 0⟩ ∧
    span ⟨2 ^ 63 - 1, 30, 0⟩ ≠ span ⟨-2 ^ 63, 0, 0⟩ := by decide

end Interval

end NodusDb.Sql
