import OS404.Basic

/-!
# The calendar time (`timer/time.c`)

`kernel_mktime` computes in `int`, where an overflow is undefined, and adds up in `time_t`, which has
64 bits.
-/

namespace Timer

/-- The value of an `int` expression. -/
def int32 (x : Int) : Res Int := if -2 ^ 31 ≤ x ∧ x < 2 ^ 31 then .ok x else .error .ub

/-- The fields of `struct tm` that `kernel_mktime` reads. -/
structure Tm where
  tmSec : Int
  tmMin : Int
  tmHour : Int
  tmMday : Int
  tmMon : Int
  tmYear : Int

/-- `MINUTE` -/
def minute : Int := 60

/-- `HOUR` -/
def hour : Int := 60 * minute

/-- `DAY` -/
def day : Int := 24 * hour

/-- `YEAR` -/
def year : Int := 365 * day

/-- `month[12]`, for a leap year -/
def month : List Int :=
  [0, day * 31, day * (31 + 29), day * (31 + 29 + 31), day * (31 + 29 + 31 + 30),
    day * (31 + 29 + 31 + 30 + 31), day * (31 + 29 + 31 + 30 + 31 + 30),
    day * (31 + 29 + 31 + 30 + 31 + 30 + 31), day * (31 + 29 + 31 + 30 + 31 + 30 + 31 + 31),
    day * (31 + 29 + 31 + 30 + 31 + 30 + 31 + 31 + 30),
    day * (31 + 29 + 31 + 30 + 31 + 30 + 31 + 31 + 30 + 31),
    day * (31 + 29 + 31 + 30 + 31 + 30 + 31 + 31 + 30 + 31 + 30)]

/-- `month[i]` -/
def monthAt (i : Int) : Res Int :=
  if i < 0 then .error .ub
  else
    match month[i.toNat]? with
    | some m => .ok m
    | none => .error .ub

/-- `YEAR*year + DAY*((year+1)/4)` -/
def yearSeconds (y : Int) : Res Int := do
  let a ← int32 (year * y)
  let y₁ ← int32 (y + 1)
  let b ← int32 (day * y₁.tdiv 4)
  int32 (a + b)

/-- `tm->tm_mon>1 && ((year+2)%4)` -/
def afterFebruary (mon y : Int) : Res Bool :=
  if mon > 1 then do
    let y₂ ← int32 (y + 2)
    return y₂.tmod 4 ≠ 0
  else .ok false

/-- `kernel_mktime` -/
def kernelMktime (tm : Tm) : Res Int := do
  let y ← int32 (tm.tmYear - 1970)
  let res ← yearSeconds y
  let m ← monthAt tm.tmMon
  let res := res + m
  let less ← afterFebruary tm.tmMon y
  let res := if less then res - day else res
  let d ← int32 (tm.tmMday - 1)
  let d ← int32 (day * d)
  let h ← int32 (hour * tm.tmHour)
  let mi ← int32 (minute * tm.tmMin)
  return res + d + h + mi + tm.tmSec

end Timer
