import OS404.Timer.Mktime
import Mathlib.Tactic.IntervalCases

/-!
# `kernel_mktime` and the calendar

The calendar is counted day by day: `monthDays y` are the lengths of the months of year `y`, and
`daysBefore y` the days from 1970 to its start. From 1970 to 2099 every fourth year is a leap year, so
the shifted division of `kernel_mktime` counts the leap days (`daysBefore_eq`), and its table of a leap
year with one day less after February gives the months (`monthAt_eq`). Its products are right as long
as they are an `int`, which is up to 2038 (`mktime_calendar_iff`).
-/

namespace Timer

/-! ## The calendar -/

def isLeap (y : Nat) : Bool := y % 4 = 0 ∧ (y % 100 ≠ 0 ∨ y % 400 = 0)

/-- The months of a year. -/
def monthDays (leap : Bool) : List Nat :=
  [31, if leap then 29 else 28, 31, 30, 31, 30, 31, 31, 30, 31, 30, 31]

/-- The days of a year. -/
def yearDays (y : Nat) : Nat := (monthDays (isLeap y)).sum

/-- The days from the start of 1970 to that of the `k`-th year after it. -/
def daysBefore : Nat → Nat
  | 0 => 0
  | k + 1 => daysBefore k + yearDays (1970 + k)

/-- A date and time of day from 1970 to 2099. -/
structure Date where
  year : Nat
  month : Nat
  day : Nat
  hour : Nat
  minute : Nat
  second : Nat
  year_ge : 1970 ≤ year
  year_le : year ≤ 2099
  month_lt : month < 12
  day_pos : 1 ≤ day
  day_le : day ≤ (monthDays (isLeap year)).getD month 0
  hour_lt : hour < 24
  minute_lt : minute < 60
  second_lt : second < 60

/-- The `struct tm` of a date. -/
def Date.tm (t : Date) : Tm := ⟨t.second, t.minute, t.hour, t.day, t.month, t.year⟩

/-- The days from 1970-01-01 to a date. -/
def Date.days (t : Date) : Nat :=
  daysBefore (t.year - 1970) + ((monthDays (isLeap t.year)).take t.month).sum + (t.day - 1)

/-- The seconds from 1970-01-01 00:00:00 to a date. -/
def Date.seconds (t : Date) : Nat := ((t.days * 24 + t.hour) * 60 + t.minute) * 60 + t.second

/-! ## The formulas of `kernel_mktime` -/

/-- No year from 1970 to 2099 is an exception to the rule of the fourth years. -/
theorem isLeap_iff {k : Nat} (hk : k < 130) : isLeap (1970 + k) = true ↔ (k + 2) % 4 = 0 := by
  unfold isLeap
  rw [decide_eq_true_iff]
  omega

theorem yearDays_eq {k : Nat} (hk : k < 130) :
    yearDays (1970 + k) = if (k + 2) % 4 = 0 then 366 else 365 := by
  unfold yearDays
  by_cases h : (k + 2) % 4 = 0
  · rw [(isLeap_iff hk).2 h, if_pos h]
    rfl
  · rw [Bool.eq_false_iff.2 fun hl => h ((isLeap_iff hk).1 hl), if_neg h]
    rfl

theorem daysBefore_eq : ∀ {k : Nat}, k ≤ 130 → daysBefore k = 365 * k + (k + 1) / 4
  | 0, _ => rfl
  | k + 1, hk => by
    rw [daysBefore, daysBefore_eq (Nat.le_of_succ_le hk), yearDays_eq hk]
    split <;> omega

/-- The days of the months before month `m`, in the table of a leap year. -/
theorem monthAt_eq {m : Nat} (hm : m < 12) (leap : Bool) :
    monthAt m = .ok (day * (((monthDays leap).take m).sum + if 1 < m ∧ leap = false then 1 else 0)) := by
  cases leap <;> interval_cases m <;> rfl

theorem monthDays_le {m : Nat} (hm : m < 12) (leap : Bool) : (monthDays leap).getD m 0 ≤ 31 := by
  cases leap <;> interval_cases m <;> decide

/-! ## Overflow -/

theorem int32_ok {x : Int} (h1 : -2 ^ 31 ≤ x) (h2 : x < 2 ^ 31) : int32 x = .ok x := if_pos ⟨h1, h2⟩

theorem yearSeconds_ok {k : Nat} (hk : k ≤ 68) :
    yearSeconds k = .ok (day * (365 * k + (k + 1) / 4 : Nat)) := by
  have hdiv : ((k : Int) + 1).tdiv 4 = ((k + 1) / 4 : Nat) := by
    rw [Int.tdiv_eq_ediv_of_nonneg (by omega)]
    omega
  unfold yearSeconds year day hour minute
  rw [int32_ok (by omega) (by omega), Res.ok_bind, int32_ok (by omega) (by omega), Res.ok_bind, hdiv,
    int32_ok (by omega) (by omega), Res.ok_bind, int32_ok (by omega) (by omega)]
  congr 1
  omega

/-- The product `YEAR*year` is no `int` from 2039 on. -/
theorem yearSeconds_overflow {k : Nat} (hk : 69 ≤ k) : yearSeconds k = .error .ub := by
  unfold yearSeconds year day hour minute
  rw [int32, if_neg (by omega)]
  rfl

theorem afterFebruary_eq {m k : Nat} (hk : k < 130) :
    afterFebruary m k = .ok (decide (1 < m ∧ isLeap (1970 + k) = false)) := by
  have hleap := isLeap_iff hk
  unfold afterFebruary
  by_cases hm : 1 < m
  · rw [if_pos (by omega), int32_ok (by omega) (by omega), Res.ok_bind,
      Int.tmod_eq_emod_of_nonneg (by omega)]
    congr 1
    simp only [decide_eq_decide, Bool.eq_false_iff, ne_eq, hleap]
    omega
  · rw [if_neg (by omega), decide_eq_false fun h => hm h.1]

/-- A product of the time of day. -/
theorem int32_mul {c : Int} {n b : Nat} (hn : n < b) (hc : 0 ≤ c) (hb : c * b ≤ 2 ^ 31) :
    int32 (c * n) = .ok (c * n) := by
  have hle : c * n ≤ c * (b - 1 : Nat) := Int.mul_le_mul_of_nonneg_left (by omega) hc
  have hpos : 0 ≤ c * n := Int.mul_nonneg hc (by omega)
  have hsub : c * (b - 1 : Nat) = c * b - c := by
    rw [Int.natCast_sub (by omega), Int.mul_sub]
    simp
  rcases Int.lt_or_eq_of_le hc with hc | rfl
  · exact int32_ok (by omega) (by omega)
  · simp [int32_ok]

theorem year_int32 {t : Date} {k : Nat} (hk : t.year = 1970 + k) (hlt : k < 130) :
    int32 (t.tm.tmYear - 1970) = .ok (k : Int) := by
  show int32 ((t.year : Int) - 1970) = _
  rw [hk, show ((1970 + k : Nat) : Int) - 1970 = k by omega, int32_ok (by omega) (by omega)]

/-- Up to 2038 every `int` of the computation is in range. -/
theorem kernelMktime_ok {t : Date} {k : Nat} (hk : t.year = 1970 + k) (hle : k ≤ 68) :
    kernelMktime t.tm = .ok (t.seconds : Int) := by
  have hm : monthAt t.tm.tmMon = _ := monthAt_eq t.month_lt (isLeap t.year)
  have hf : afterFebruary t.tm.tmMon k = _ := afterFebruary_eq (m := t.month) (by omega)
  have hday : t.day - 1 < 31 := by
    have := Nat.le_trans t.day_le (monthDays_le t.month_lt _)
    have := t.day_pos
    omega
  have hd : int32 (t.tm.tmMday - 1) = .ok ((t.day - 1 : Nat) : Int) := by
    show int32 ((t.day : Int) - 1) = _
    rw [← int32_ok (x := ((t.day - 1 : Nat) : Int)) (by omega) (by omega),
      Int.natCast_sub t.day_pos, Int.natCast_one]
  have hh : int32 (hour * t.tm.tmHour) = _ := int32_mul t.hour_lt (by decide) (by decide)
  have hmi : int32 (minute * t.tm.tmMin) = _ := int32_mul t.minute_lt (by decide) (by decide)
  unfold kernelMktime
  rw [year_int32 hk (by omega), Res.ok_bind, yearSeconds_ok hle, Res.ok_bind, hm, Res.ok_bind, hf,
    Res.ok_bind, hd, Res.ok_bind, int32_mul hday (by decide) (by decide), Res.ok_bind, hh, Res.ok_bind,
    hmi, Res.ok_bind, ← hk]
  refine congrArg Except.ok ?_
  show _ + minute * (t.minute : Int) + (t.second : Int) = _
  rw [Date.seconds, Date.days, daysBefore_eq (by omega), show t.year - 1970 = k by omega]
  show _ + hour * (t.hour : Int) + _ + _ = _
  unfold day hour minute
  by_cases hl : 1 < t.month ∧ isLeap t.year = false
  · simp only [hl, and_self, decide_true, if_true]
    omega
  · simp only [hl, decide_false, if_false, Bool.false_eq_true]
    omega

/-- **`kernel_mktime` agrees with the calendar** up to the end of 2038, and not later. -/
theorem mktime_calendar_iff (t : Date) :
    kernelMktime t.tm = .ok (t.seconds : Int) ↔ t.year ≤ 2038 := by
  obtain ⟨k, hk⟩ : ∃ k, t.year = 1970 + k := Nat.exists_eq_add_of_le t.year_ge
  by_cases hle : k ≤ 68
  · exact iff_of_true (kernelMktime_ok hk hle) (by omega)
  · refine iff_of_false (fun h => ?_) (by omega)
    have hlt : k < 130 := by
      have := t.year_le
      omega
    rw [kernelMktime, year_int32 hk hlt, Res.ok_bind, yearSeconds_overflow (by omega)] at h
    cases h

/-- The first second of 2039. -/
def newYear2039 : Date :=
  ⟨2039, 0, 1, 0, 0, 0, by decide, by decide, by decide, by decide, by decide, by decide, by decide,
    by decide⟩

/-- For the first second of 2039 the product `YEAR*year` overflows. -/
theorem mktime_overflow_2039 :
    kernelMktime newYear2039.tm = .error .ub ∧ newYear2039.seconds = 2177452800 := by
  decide +kernel

end Timer
