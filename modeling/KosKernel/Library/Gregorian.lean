/-
This file gives the proleptic Gregorian calendar. Days are counted from the first day of year 0.
-/

import Mathlib.Algebra.Ring.Nat

namespace Gregorian

def isLeap (year : Nat) : Bool := year % 400 = 0 || (year % 100 ≠ 0 && year % 4 = 0)

def monthDays (year : Nat) : Nat → Nat
  | 2 => if isLeap year then 29 else 28
  | 4 | 6 | 9 | 11 => 30
  | _ => 31

/-- A day of the calendar. -/
structure Date where
  year : Nat
  month : Nat
  day : Nat
  month_mem : 1 ≤ month ∧ month ≤ 12
  day_mem : 1 ≤ day ∧ day ≤ monthDays year month

/-- The days before a year. -/
def daysBefore : Nat → Nat
  | 0 => 0
  | year + 1 => daysBefore year + if isLeap year then 366 else 365

/-- The days of the year before a date. -/
def Date.yday (date : Date) : Nat :=
  ((List.range' 1 (date.month - 1)).map (monthDays date.year)).sum + (date.day - 1)

/-- The number of a date. -/
def Date.number (date : Date) : Nat := daysBefore date.year + date.yday

end Gregorian
