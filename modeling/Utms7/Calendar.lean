import Mathlib.Algebra.GroupWithZero.Nat
import Mathlib.Tactic.Common

/-!
# Calendar time

`gmtime_r` and `mktime` of `lib/libc.c`.  One counts years and months down with the days that
are left, the other counts the days of past years and months up.  Numbers do not wrap around
here: the seconds of all years that fit in an `int` fit in a `time_t`.
-/

namespace Utms7.Calendar

open List

/-! ## The code -/

/-- `struct tm`. -/
structure Tm where
  sec : Nat
  min : Nat
  hour : Nat
  mday : Nat
  mon : Nat
  year : Nat
  wday : Nat
  yday : Nat
  isdst : Nat
deriving DecidableEq

def daysInMonth : List Nat := [31, 28, 31, 30, 31, 30, 31, 31, 30, 31, 30, 31]

def isLeapYear (year : Nat) : Bool :=
  decide (year % 4 = 0 ∧ year % 100 ≠ 0 ∨ year % 400 = 0)

/-- `is_leap_year(year) ? 366 : 365`. -/
def daysInYear (year : Nat) : Nat := if isLeapYear year then 366 else 365

/-- A month with `days` days in the table. -/
def dim (year mon days : Nat) : Nat := if mon = 1 ∧ isLeapYear year then days + 1 else days

theorem daysInYear_pos (year : Nat) : 0 < daysInYear year := by
  unfold daysInYear
  split <;> omega

/-- The first loop of `gmtime_r`: the days that are left, and the year. -/
def yearLoop (t year : Nat) : Nat × Nat :=
  if t < daysInYear year then (t, year) else yearLoop (t - daysInYear year) (year + 1)
termination_by t
decreasing_by
  have := daysInYear_pos year
  omega

/-- The second loop, over the rest of the table; `none` if it runs past its end. -/
def monthLoop (year : Nat) : Nat → Nat → List Nat → Option (Nat × Nat)
  | _, _, [] => none
  | t, mon, days :: rest =>
    if t < dim year mon days then some (t, mon)
    else monthLoop year (t - dim year mon days) (mon + 1) rest

def gmtimeR (t : Nat) : Option Tm :=
  let days := t / 60 / 60 / 24
  let (yday, year) := yearLoop days 1970
  (monthLoop year yday 0 daysInMonth).map fun (rest, mon) =>
    { sec := t % 60, min := t / 60 % 60, hour := t / 60 / 60 % 24, mday := rest + 1, mon,
      year := year - 1900, wday := (days + 4) % 7, yday, isdst := 0 }

def mktime (tm : Tm) : Nat :=
  let year := tm.year + 1900
  let days := (range' 1970 (year - 1970)).foldl (fun days y => days + daysInYear y) 0
  let days := (range tm.mon).foldl (fun days m => days + dim year m (daysInMonth.getD m 0)) days
  (days + (tm.mday - 1)) * 86400 + tm.hour * 3600 + tm.min * 60 + tm.sec

/-! ## The Gregorian calendar -/

/-- The days before a year, from year 1 on. -/
def daysBefore (year : Nat) : Nat :=
  365 * (year - 1) + (year - 1) / 4 - (year - 1) / 100 + (year - 1) / 400

/-- The days of a year before a month. -/
def daysOfMonths (year mon : Nat) : Nat :=
  ((range mon).map fun m => dim year m (daysInMonth.getD m 0)).sum

/-- A date and a time of the day.  The first day of 1970 was a Thursday. -/
structure Tm.Valid (tm : Tm) : Prop where
  sec : tm.sec < 60
  min : tm.min < 60
  hour : tm.hour < 24
  mon : tm.mon < 12
  mday : 1 ≤ tm.mday ∧ tm.mday ≤ dim (tm.year + 1900) tm.mon (daysInMonth.getD tm.mon 0)
  yday : tm.yday = daysOfMonths (tm.year + 1900) tm.mon + (tm.mday - 1)
  wday : tm.wday = (4 + (daysBefore (tm.year + 1900) - daysBefore 1970 + tm.yday)) % 7

theorem daysBefore_succ (k : Nat) :
    daysBefore (k + 2) = daysBefore (k + 1) + daysInYear (k + 1) := by
  have hcentury : 100 ∣ k + 1 → 4 ∣ k + 1 := Nat.dvd_trans (by decide)
  have hfour : 400 ∣ k + 1 → 100 ∣ k + 1 := Nat.dvd_trans (by decide)
  have hle : k / 100 ≤ k / 4 := Nat.div_le_div_left (by decide) (by decide)
  simp only [daysBefore, daysInYear, isLeapYear, decide_eq_true_eq, ← Nat.dvd_iff_mod_eq_zero,
    Nat.add_one_sub_one, Nat.succ_div]
  generalize k / 100 = a, k / 4 = b, k / 400 = c at *
  grind

/-- The months of the table make up a year. -/
theorem daysOfMonths_twelve (year : Nat) : daysOfMonths year 12 = daysInYear year := by
  simp only [daysOfMonths, daysInYear, dim]
  split <;> simp [*, range_succ, daysInMonth]

/-! ## The loops -/

theorem yearLoop_spec (t year : Nat) (hpos : 1 ≤ year) :
    let r := yearLoop t year
    year ≤ r.2 ∧ r.1 < daysInYear r.2 ∧ daysBefore r.2 + r.1 = daysBefore year + t := by
  fun_induction yearLoop t year with
  | case1 t year hlt => exact ⟨Nat.le_refl _, hlt, rfl⟩
  | case2 t year hge ih =>
    obtain ⟨hle, hlt, hsum⟩ := ih (by omega)
    obtain ⟨k, rfl⟩ := Nat.exists_eq_add_of_le' hpos
    rw [daysBefore_succ] at hsum
    exact ⟨by omega, hlt, by omega⟩

theorem daysOfMonths_succ (year mon : Nat) :
    daysOfMonths year (mon + 1) =
      daysOfMonths year mon + dim year mon (daysInMonth.getD mon 0) := by
  simp [daysOfMonths, range_succ]

theorem monthLoop_spec {year t mon : Nat} {days : List Nat} (hdays : daysInMonth.drop mon = days)
    (hmon : mon ≤ 12) (hlt : daysOfMonths year mon + t < daysOfMonths year 12) :
    ∃ rest m, monthLoop year t mon days = some (rest, m) ∧ m < 12 ∧
      rest < dim year m (daysInMonth.getD m 0) ∧
      daysOfMonths year m + rest = daysOfMonths year mon + t := by
  have hlen : 12 - mon = days.length := by rw [← hdays, length_drop]; rfl
  induction days generalizing t mon with
  | nil =>
    obtain rfl : mon = 12 := Nat.le_antisymm hmon (Nat.le_of_sub_eq_zero hlen)
    omega
  | cons d days ih =>
    rw [length_cons] at hlen
    have hd : daysInMonth.getD mon 0 = d := by
      rw [getD_eq_getElem?_getD, ← head?_drop, hdays]
      rfl
    have hsucc := daysOfMonths_succ year mon
    rw [hd] at hsucc
    unfold monthLoop
    split
    · rename_i hday
      exact ⟨t, mon, rfl, by omega, hd ▸ hday, rfl⟩
    · obtain ⟨rest, m, hloop, hm, hday, hsum⟩ := ih (t := t - dim year mon d)
        (by rw [← drop_drop, hdays, drop_one, tail_cons]) (by omega) (by omega) (by omega)
      exact ⟨rest, m, hloop, hm, hday, by omega⟩

theorem foldl_years (n : Nat) :
    (range' 1970 n).foldl (fun days y => days + daysInYear y) 0 + daysBefore 1970 =
      daysBefore (1970 + n) := by
  induction n with
  | zero => rfl
  | succ n ih =>
    rw [range'_concat, foldl_append, foldl_cons, foldl_nil, Nat.one_mul]
    have hsucc := daysBefore_succ (1969 + n)
    rw [show 1970 + (n + 1) = 1969 + n + 2 by omega, hsucc, show 1969 + n + 1 = 1970 + n by omega]
    omega

theorem foldl_months (year days mon : Nat) :
    (range mon).foldl (fun days m => days + dim year m (daysInMonth.getD m 0)) days =
      days + daysOfMonths year mon := by
  induction mon with
  | zero => rfl
  | succ mon ih =>
    rw [range_succ, foldl_append, ih, daysOfMonths_succ]
    exact Nat.add_assoc _ _ _

/-- **`gmtime_r` gives a date of the Gregorian calendar, and `mktime` the time again.** -/
theorem gmtimeR_spec (t : Nat) : ∃ tm, gmtimeR t = some tm ∧ tm.Valid ∧ mktime tm = t := by
  obtain ⟨hyear, hlt, hsum⟩ := yearLoop_spec (t / 60 / 60 / 24) 1970 (by omega)
  unfold gmtimeR
  dsimp only
  generalize yearLoop (t / 60 / 60 / 24) 1970 = r at hyear hlt hsum ⊢
  obtain ⟨yday, year⟩ := r
  dsimp only at *
  obtain ⟨rest, mon, hloop, hmon, hday, hrest⟩ := monthLoop_spec (t := yday) rfl (Nat.zero_le 12)
    (by rw [daysOfMonths_twelve]; simpa [daysOfMonths] using hlt)
  have hrest : daysOfMonths year mon + rest = yday := hrest.trans (Nat.zero_add yday)
  have hback : year - 1900 + 1900 = year := Nat.sub_add_cancel (by omega)
  have hyears := foldl_years (year - 1970)
  rw [Nat.add_sub_cancel' hyear] at hyears
  rw [drop_zero] at hloop
  rw [hloop]
  refine ⟨_, rfl, ⟨?_, ?_, ?_, hmon, ?_, ?_, ?_⟩, ?_⟩
  all_goals dsimp only
  · exact Nat.mod_lt _ (by decide)
  · exact Nat.mod_lt _ (by decide)
  · exact Nat.mod_lt _ (by decide)
  · rw [hback]
    omega
  · rw [hback]
    omega
  · rw [hback]
    omega
  · simp only [mktime, hback, foldl_months, Nat.add_sub_cancel]
    omega

end Utms7.Calendar
