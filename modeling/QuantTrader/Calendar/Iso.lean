import Mathlib.Algebra.Order.Ring.Int
import Mathlib.Order.Monotone.Basic
import Mathlib.Order.SuccPred.IntervalSucc
import Mathlib.Tactic.IntervalCases

/-! # ISO weeks

Dates of the proleptic Gregorian calendar with their ordinals, and the year and week
that `isocalendar` gives them. Ordinal one is a Monday, so the weeks can be numbered
through; two dates have the same ISO year and week exactly when they are of the same
week, also at the end of a year.
-/

namespace QuantTrader.Calendar

def isLeap (y : ℤ) : Bool := y % 4 = 0 ∧ (y % 100 ≠ 0 ∨ y % 400 = 0)

def daysInMonth (y : ℤ) : ℕ → ℤ
  | 2 => if isLeap y then 29 else 28
  | 4 | 6 | 9 | 11 => 30
  | _ => 31

def daysBeforeMonth (y : ℤ) (m : ℕ) : ℤ := ((List.range' 1 (m - 1)).map (daysInMonth y)).sum

/-- The days before a year, from the first of January of year one on. -/
def daysBeforeYear (y : ℤ) : ℤ := (y - 1) * 365 + (y - 1) / 4 - (y - 1) / 100 + (y - 1) / 400

structure Date where
  year : ℤ
  month : ℕ
  day : ℤ
  month_mem : 1 ≤ month ∧ month ≤ 12
  day_mem : 1 ≤ day ∧ day ≤ daysInMonth year month
  deriving DecidableEq

/-- `toordinal`. -/
def Date.toOrdinal (d : Date) : ℤ := daysBeforeYear d.year + daysBeforeMonth d.year d.month + d.day

/-- The Monday of the first week of an ISO year, the week with its first Thursday. -/
def isoWeek1Monday (y : ℤ) : ℤ :=
  let firstDay := daysBeforeYear y + 1
  let firstWeekday := (firstDay + 6) % 7
  let week1Monday := firstDay - firstWeekday
  if 3 < firstWeekday then week1Monday + 7 else week1Monday

/-- The year and the week of `isocalendar`. -/
def Date.isoCalendar (d : Date) : ℤ × ℤ :=
  let week := (d.toOrdinal - isoWeek1Monday d.year) / 7
  if week < 0 then (d.year - 1, (d.toOrdinal - isoWeek1Monday (d.year - 1)) / 7 + 1)
  else if 52 ≤ week ∧ isoWeek1Monday (d.year + 1) ≤ d.toOrdinal then (d.year + 1, 1)
  else (d.year, week + 1)

def Date.week (d : Date) : ℤ := (d.toOrdinal - 1) / 7

section

variable {y : ℤ} {d e : Date}

theorem daysBeforeYear_succ : daysBeforeYear (y + 1) =
    daysBeforeYear y + 365 + if isLeap y then 1 else 0 := by
  simp only [daysBeforeYear, isLeap, decide_eq_true_eq]
  split_ifs <;> omega

theorem daysBeforeMonth_add_le {m : ℕ} (hm : 1 ≤ m ∧ m ≤ 12) :
    0 ≤ daysBeforeMonth y m ∧
      daysBeforeMonth y m + daysInMonth y m ≤ 365 + if isLeap y then 1 else 0 := by
  obtain ⟨h1, h12⟩ := hm
  interval_cases m <;> cases h : isLeap y <;>
    simp [daysBeforeMonth, daysInMonth, List.range', h]

theorem Date.toOrdinal_mem (d : Date) : daysBeforeYear d.year < d.toOrdinal ∧
    d.toOrdinal ≤ daysBeforeYear (d.year + 1) := by
  have hm := daysBeforeMonth_add_le (y := d.year) d.month_mem
  have hd := d.day_mem
  rw [daysBeforeYear_succ, toOrdinal]
  omega

theorem isoWeek1Monday_mod : isoWeek1Monday y % 7 = 1 := by
  simp only [isoWeek1Monday]
  split_ifs <;> omega

theorem isoWeek1Monday_near : daysBeforeYear y - 2 ≤ isoWeek1Monday y ∧
    isoWeek1Monday y ≤ daysBeforeYear y + 4 := by
  simp only [isoWeek1Monday]
  split_ifs <;> omega

theorem isoWeek1Monday_succ : isoWeek1Monday y + 364 ≤ isoWeek1Monday (y + 1) := by
  have h1 := isoWeek1Monday_near (y := y)
  have h2 := isoWeek1Monday_near (y := y + 1)
  have h3 := isoWeek1Monday_mod (y := y)
  have h4 := isoWeek1Monday_mod (y := y + 1)
  rw [daysBeforeYear_succ] at h2
  split_ifs at h2 <;> omega

/-- The ISO year of a date is the one whose weeks it falls in. -/
theorem Date.isoCalendar_spec (d : Date) :
    isoWeek1Monday d.isoCalendar.1 ≤ d.toOrdinal ∧
    d.toOrdinal < isoWeek1Monday (d.isoCalendar.1 + 1) ∧
    d.isoCalendar.2 = (d.toOrdinal - isoWeek1Monday d.isoCalendar.1) / 7 + 1 := by
  have hd := d.toOrdinal_mem
  have hy := isoWeek1Monday_near (y := d.year)
  have hs := isoWeek1Monday_succ (y := d.year)
  simp only [isoCalendar]
  split_ifs with hneg hnext <;> dsimp only
  · have hn := isoWeek1Monday_near (y := d.year - 1)
    have hyear := daysBeforeYear_succ (y := d.year - 1)
    rw [sub_add_cancel] at hyear ⊢
    refine ⟨?_, ?_, rfl⟩
    · split_ifs at hyear <;> omega
    · omega
  · have hn := isoWeek1Monday_near (y := d.year + 1)
    have hn' := isoWeek1Monday_succ (y := d.year + 1)
    refine ⟨hnext.2, ?_, ?_⟩ <;> omega
  · refine ⟨?_, ?_, rfl⟩ <;> omega

theorem isoWeek1Monday_strictMono {y z : ℤ} (h : y < z) :
    isoWeek1Monday (y + 1) ≤ isoWeek1Monday z := by
  have hmono : Monotone isoWeek1Monday := monotone_int_of_le_succ fun y => by
    have := isoWeek1Monday_succ (y := y)
    omega
  exact hmono h

/-- Dates have the same ISO year and week exactly when they are of the same week. -/
theorem isoCalendar_eq_iff : d.isoCalendar = e.isoCalendar ↔ d.week = e.week := by
  obtain ⟨hd1, hd2, hd3⟩ := d.isoCalendar_spec
  obtain ⟨he1, he2, he3⟩ := e.isoCalendar_spec
  have hmod := fun y => isoWeek1Monday_mod (y := y)
  rw [Date.week, Date.week]
  constructor
  · intro h
    rw [h] at hd3
    have := hmod e.isoCalendar.1
    omega
  · intro h
    have hyear : d.isoCalendar.1 = e.isoCalendar.1 := by
      rcases lt_trichotomy d.isoCalendar.1 e.isoCalendar.1 with hlt | heq | hlt
      · have hm := isoWeek1Monday_strictMono hlt
        have := hmod (d.isoCalendar.1 + 1)
        omega
      · exact heq
      · have hm := isoWeek1Monday_strictMono hlt
        have := hmod (e.isoCalendar.1 + 1)
        omega
    refine Prod.ext hyear ?_
    rw [hd3, he3, hyear]
    have := hmod e.isoCalendar.1
    omega

end

end QuantTrader.Calendar
