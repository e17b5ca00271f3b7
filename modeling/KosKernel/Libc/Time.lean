/- The calendar functions of `libs/libc/time.c`, for times that are not negative and years below
10000. -/

import KosKernel.Library.Gregorian

namespace KosKernel.Libc
open Gregorian

/-- This is `__isleap`. -/
def isLeapYear (year : Int) : Bool := year.tmod 4 = 0 && (year.tmod 100 ≠ 0 || year.tmod 400 = 0)

/-- This is `__daystoyears`. -/
def daysToYears (days : Int) : Int := (400 * (days + 1)).tdiv 146097

/-- This is `__yearstodays`. -/
def yearsToDays (years : Int) : Int := (146097 * years).tdiv 400

/-- The table `time_monthstart_yday`. -/
def timeMonthstartYday (leap : Bool) : List Int :=
  if leap then [0, 31, 60, 91, 121, 152, 182, 213, 244, 274, 305, 335, 366]
  else [0, 31, 59, 90, 120, 151, 181, 212, 243, 273, 304, 334, 365]

/-- This is `struct tm`. -/
structure Tm where
  tmSec : Int
  tmMin : Int
  tmHour : Int
  tmMday : Int
  tmMon : Int
  tmYear : Int
  tmWday : Int
  tmYday : Int
  tmIsdst : Int
  deriving DecidableEq

/-- This is `tm_calc_isdst`. -/
def tmCalcIsdst (mon mday wday : Int) : Int :=
  if mon < 3 ∨ 11 < mon then 0
  else if 3 < mon ∧ mon < 11 then 1
  else if mon = 3 then if 8 ≤ mday - wday then 1 else 0
  else if mday - wday ≤ 0 then 1 else 0

/-- This is `libc_gmtime64_r`. -/
def gmtime64R (timer : Nat) : Tm :=
  let t := (timer / 86400 : Nat) + yearsToDays 1970
  let wday := t.tmod 7
  let year := daysToYears t
  let yday := t - yearsToDays year
  let monthvec := timeMonthstartYday (isLeapYear year)
  let i := ((List.range' 1 11).find? fun i => yday ≤ monthvec.getD i 0).getD 12
  let mon : Int := i - 1
  let mday := yday - monthvec.getD (i - 1) 0
  ⟨(timer % 60 : Nat), (timer / 60 % 60 : Nat), (timer / (60 * 60) % 24 : Nat), mday, mon,
    year - 1900, wday, yday, tmCalcIsdst mon mday wday⟩

/-- This is `libc_mktime64`. -/
def mktime64 (tp : Tm) : Int :=
  (yearsToDays tp.tmYear - yearsToDays 1970 + tp.tmYday) * 86400 + tp.tmHour * 60 * 60 +
    tp.tmMin * 60 + tp.tmSec

/-- The fields are those of a second of the given day. The first day of 1970 is a Thursday. -/
structure Calendar (date : Date) (tp : Tm) : Prop where
  time : (0 ≤ tp.tmSec ∧ tp.tmSec < 60) ∧ (0 ≤ tp.tmMin ∧ tp.tmMin < 60) ∧
    (0 ≤ tp.tmHour ∧ tp.tmHour < 24)
  mday : 1 ≤ tp.tmMday ∧ tp.tmMday ≤ 31
  mon : 0 ≤ tp.tmMon ∧ tp.tmMon ≤ 11
  yday : tp.tmYday = date.yday
  wday : tp.tmWday = (4 + (date.number - daysBefore 1970) : Int) % 7
  year : tp.tmYear = date.year - 1900

/-- The year is not counted from 1900, so the answer lies 1900 years before the time. -/
lemma mktime64_lt (timer : Nat) : mktime64 (gmtime64R timer) < timer := by
  have floor : ∀ years : Int, 0 ≤ years → yearsToDays years = 146097 * years / 400 := fun years from0 =>
    Int.tdiv_eq_ediv_of_nonneg (by omega)
  have start := floor 1970 (by decide)
  have later : 1900 ≤ daysToYears ((timer / 86400 : Nat) + yearsToDays 1970) := by
    rw [daysToYears, Int.tdiv_eq_ediv_of_nonneg (by omega)]
    omega
  rw [mktime64, gmtime64R]
  dsimp only
  generalize daysToYears ((timer / 86400 : Nat) + yearsToDays 1970) = year at later ⊢
  rw [floor (year - 1900) (by omega), floor year (by omega)]
  omega

/-- No time has the fields of the calendar and is given back. -/
theorem gmtime_mktime_differs (timer : Nat) (date : Date) :
    ¬(Calendar date (gmtime64R timer) ∧ mktime64 (gmtime64R timer) = timer) :=
  fun both => absurd both.2 (Int.ne_of_lt (mktime64_lt timer))

/-- The first second of 1970 gets the day 0 and comes back as a time before year 71. -/
theorem gmtime_mktime_first : gmtime64R 0 = ⟨0, 0, 0, 0, 0, 70, 4, 0, 0⟩ ∧
    mktime64 (gmtime64R 0) = -59958230400 := by
  decide +kernel

end KosKernel.Libc
