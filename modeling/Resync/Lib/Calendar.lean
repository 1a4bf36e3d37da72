import Mathlib.Data.Nat.Basic
import Mathlib.Order.Basic

/-! The Gregorian calendar from the year 0 on: the dates, and the count of the days before one. -/
namespace Calendar

def isLeap (year : ℕ) : Bool := year % 4 = 0 && (year % 100 ≠ 0 || year % 400 = 0)

/-- The days of a month; the months are counted from 1. -/
def daysIn (leap : Bool) (month : ℕ) : ℕ :=
  if month = 2 then if leap then 29 else 28
  else if month = 4 ∨ month = 6 ∨ month = 9 ∨ month = 11 then 30
  else if 1 ≤ month ∧ month ≤ 12 then 31
  else 0

def daysBeforeMonth (leap : Bool) : ℕ → ℕ
  | 0 => 0
  | month + 1 => daysBeforeMonth leap month + daysIn leap month

def daysInYear (year : ℕ) : ℕ := if isLeap year then 366 else 365

def daysBeforeYear : ℕ → ℕ
  | 0 => 0
  | year + 1 => daysBeforeYear year + daysInYear year

structure Date where
  year : ℕ
  month : ℕ
  day : ℕ
  month_le : month ≤ 12
  day_pos : 0 < day
  day_le : day ≤ daysIn (isLeap year) month

/-- The days from the first day of the year 0 to a date, both counted. -/
def Date.number (date : Date) : ℕ :=
  daysBeforeYear date.year + daysBeforeMonth (isLeap date.year) date.month + date.day

theorem daysBeforeMonth_add_le (leap : Bool) {m n : ℕ} (h : m < n) :
    daysBeforeMonth leap m + daysIn leap m ≤ daysBeforeMonth leap n := by
  induction n with
  | zero => omega
  | succ n ih =>
    rw [daysBeforeMonth]
    rcases Nat.lt_succ_iff_lt_or_eq.mp h with h | rfl
    · exact le_trans (ih h) (Nat.le_add_right _ _)
    · exact le_rfl

theorem daysBeforeYear_add_le {x y : ℕ} (h : x < y) :
    daysBeforeYear x + daysInYear x ≤ daysBeforeYear y := by
  induction y with
  | zero => omega
  | succ y ih =>
    rw [daysBeforeYear]
    rcases Nat.lt_succ_iff_lt_or_eq.mp h with h | rfl
    · exact le_trans (ih h) (Nat.le_add_right _ _)
    · exact le_rfl

theorem daysBeforeMonth_thirteen (year : ℕ) :
    daysBeforeMonth (isLeap year) 13 = daysInYear year := by
  rw [daysInYear]
  cases isLeap year with
  | false => decide
  | true => decide

/-- A date lies in its year. -/
theorem Date.number_le (date : Date) :
    date.number ≤ daysBeforeYear date.year + daysInYear date.year := by
  have hmonth := daysBeforeMonth_add_le (isLeap date.year) (Nat.lt_succ_of_le date.month_le)
  have hyear : daysBeforeMonth (isLeap date.year) (Nat.succ 12) = daysInYear date.year :=
    daysBeforeMonth_thirteen date.year
  have hday := date.day_le
  rw [Date.number]
  omega

/-- The days are counted in the order of year, month and day. -/
theorem Date.number_lt {a b : Date}
    (h : a.year < b.year ∨
      a.year = b.year ∧ (a.month < b.month ∨ a.month = b.month ∧ a.day < b.day)) :
    a.number < b.number := by
  have hpos := b.day_pos
  have hle := a.day_le
  rcases h with hyear | ⟨hyear, hmonth | ⟨hmonth, hday⟩⟩
  · have ha := a.number_le
    have hyears := daysBeforeYear_add_le hyear
    have hb : b.number =
        daysBeforeYear b.year + daysBeforeMonth (isLeap b.year) b.month + b.day := rfl
    omega
  · have hmonths := daysBeforeMonth_add_le (isLeap a.year) hmonth
    rw [Date.number, Date.number, ← hyear]
    omega
  · rw [Date.number, Date.number, ← hyear, ← hmonth]
    omega

end Calendar
