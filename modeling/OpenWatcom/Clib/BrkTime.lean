import OpenWatcom.Lib.Calendar

/-!
# Calendar time and broken-down time: `gmtime.c`, `locmktim.c`, `mktime.c`, `mkgmtime.c`, `localtim.c`

The builds with an unsigned `time_t`, with 32 bits in an `int` and a `long`.

* `brktime`     days and seconds broken down, with the guess of the year and its corrections
* `localMktime`     the seconds of a broken-down time with any fields, and the days and seconds it stores
* `gmtime`, `mkgmtime`, `localtime`, `mktime`     the functions of the library
* `Tm.instant`     the instant that any fields denote; `Tm.Is`     the fields are its calendar date
-/

namespace CTime

open Calendar

/-! ## The code -/

/-- `struct tm` -/
structure Tm where
  sec : ℤ
  min : ℤ
  hour : ℤ
  mday : ℤ
  mon : ℤ
  year : ℤ
  wday : ℤ
  yday : ℤ
  isdst : ℤ
  deriving DecidableEq

/-- a value stored in an `int` or a `long` -/
def long (v : ℤ) : ℤ := v.bmod (2 ^ 32)

/-- a value stored in an `unsigned long` or a `time_t` -/
def ulong (v : ℤ) : ℤ := v % 2 ^ 32

/-- `DAYS_FROM_1900_TO_1970` -/
def daysFrom1900To1970 : ℤ := 25567

/-- `SECONDS_PER_DAY` -/
def secondsPerDay : ℤ := 86400

/-- `__leapyear` -/
def leapyear (year : ℤ) : ℤ :=
  if year % 4 ≠ 0 then 0
  else if year % 100 ≠ 0 then 1
  else if year % 400 = 0 then 1
  else 0

/-- `__diyr` -/
def diyr : List ℤ := [0, 31, 59, 90, 120, 151, 181, 212, 243, 273, 304, 334, 365]

/-- `__dilyr` -/
def dilyr : List ℤ := [0, 31, 60, 91, 121, 152, 182, 213, 244, 274, 305, 335, 366]

/-- `month_start` of a year -/
def monthTable (year : ℤ) : List ℤ := if leapyear year ≠ 0 then dilyr else diyr

/-- `__DaysToJan1` -/
def daysToJan1 (year : ℤ) : ℤ :=
  let years := 1900 + year - 1
  let leapDays := years / 4 - years / 100 + years / 400 - 460
  year * 365 + leapDays

theorem leapyear_nonneg (year : ℤ) : 0 ≤ leapyear year := by
  rw [leapyear]
  split_ifs <;> decide

/-- the loop of `__brktime`: `day_of_year`, `year` -/
def yearLoop (dayOfYear year : ℤ) : ℤ × ℤ :=
  if dayOfYear < 0 then
    yearLoop (dayOfYear + (leapyear (year - 1 + 1900) + 365)) (year - 1)
  else (dayOfYear, year)
termination_by (-dayOfYear).toNat
decreasing_by
  have := leapyear_nonneg (year - 1 + 1900)
  omega

/-- the second half of `__brktime`: the date of the day `days` -/
def setDate (days : ℤ) (t : Tm) : Tm :=
  let year := days / 365
  let (dayOfYear, year) := yearLoop (long (days - daysToJan1 year)) year
  let monthStart := monthTable (year + 1900)
  let month := (dayOfYear / 31).toNat
  let month := if monthStart.getD (month + 1) 0 ≤ dayOfYear then month + 1 else month
  { t with
    yday := dayOfYear
    year := year
    mon := month
    mday := dayOfYear - monthStart.getD month 0 + 1
    wday := ulong (days + 1) % 7 }

/-- `__brktime` -/
def brktime (days wallclock gmtdelta : ℤ) (t : Tm) : Tm :=
  let early := wallclock < 12 * 60 * 60 ∧ 0 < gmtdelta
  let days := if early then days - 1 else days
  let wallclock := ulong ((if early then wallclock + secondsPerDay else wallclock) - gmtdelta)
  let days := ulong (days + wallclock / secondsPerDay)
  let secs := wallclock % secondsPerDay
  setDate days
    { t with hour := secs / 3600, min := secs % 3600 / 60, sec := secs % 3600 % 60 }

/-- `SMALLEST_YEAR_VALUE` -/
def smallestYearValue : ℤ := -178956970 + -5883516 + -4085 + -68

/-- the loop that puts the month into range: `month`, `year` -/
def monthLoop (month year : ℤ) : ℤ × ℤ :=
  if month < 0 then monthLoop (month + 12) (year - 1) else (month, year)
termination_by (-month).toNat

/-- the first loop that puts the seconds into range: `days`, `seconds` -/
def borrowLoop (days seconds : ℤ) : ℤ × ℤ :=
  if seconds < 0 then borrowLoop (days - 1) (seconds + secondsPerDay) else (days, seconds)
termination_by (-seconds).toNat
decreasing_by
  unfold secondsPerDay
  omega

/-- the second one -/
def carryLoop (days seconds : ℤ) : ℤ × ℤ :=
  if secondsPerDay ≤ seconds then carryLoop (days + 1) (seconds - secondsPerDay) else (days, seconds)
termination_by seconds.toNat
decreasing_by
  unfold secondsPerDay at *
  omega

/-- the seconds of the clock, as the `long` sums give them -/
def daySeconds (t : Tm) : ℤ := long ((t.hour * 60 + t.min) * 60 + t.sec)

/-- the days from 1900 that a year, a month and a day of the month give -/
def yearDays (year month mday : ℤ) : ℤ :=
  long (year * 365 + (year + 3) / 4 - (year + 99) / 100 + (year + 399 - 100) / 400
    + (monthTable (year + 1900)).getD month.toNat 0 + mday - 1)

/-- `(time_t)-1` -/
def failed : ℤ := 2 ^ 32 - 1

/-- `__local_mktime`: what it returns, and what it stores through `pdays` and `pseconds` -/
def localMktime (t : Tm) : ℤ × Option (ℤ × ℤ) :=
  if t.year < smallestYearValue then (failed, none)
  else
    let (month, year) := monthLoop (t.mon.tmod 12) (long (t.year + t.mon.tdiv 12))
    if year < 0 then (failed, none)
    else
      let (days, seconds) := borrowLoop (yearDays year month t.mday) (daySeconds t)
      let (days, seconds) := carryLoop days seconds
      let days := long days
      if days < daysFrom1900To1970 - 1 then (failed, none)
      else (ulong (seconds + (days - daysFrom1900To1970) * secondsPerDay), some (days, seconds))

/-- `_gmtime` -/
def gmtime (timer : ℤ) (t : Tm) : Tm := brktime daysFrom1900To1970 timer 0 t

/-- `_mkgmtime` -/
def mkgmtime (t : Tm) : ℤ := (localMktime t).1

/-- what `tzset` sets, and what `__isindst` finds by its rules where `tm_isdst` is negative -/
structure Zone where
  timezone : ℤ
  dstAdjust : ℤ
  rules : Tm → Bool

/-- `__isindst` -/
def Zone.isindst (z : Zone) (t : Tm) : ℤ :=
  if 0 ≤ t.isdst then t.isdst else if z.rules t then 1 else 0

/-- `_localtime` -/
def localtime (z : Zone) (timer : ℤ) (t : Tm) : Tm :=
  let t := brktime daysFrom1900To1970 timer z.timezone { t with isdst := -1 }
  let dst := z.isindst t
  let t := { t with isdst := dst }
  if dst ≠ 0 then brktime daysFrom1900To1970 timer (long (z.timezone - z.dstAdjust)) t else t

/-- `mktime`: what it returns, and the fields it leaves; `junk` is what `days` and `day_seconds` hold
where nothing is stored there -/
def mktime (z : Zone) (junk : ℤ × ℤ) (t : Tm) : ℤ × Tm :=
  let (seconds, stored) := localMktime t
  let (days, daySeconds) := stored.getD junk
  let t := brktime (ulong days) (ulong daySeconds) 0 t
  let seconds := long (seconds + z.timezone)
  let dst := z.isindst t
  let t := { t with isdst := dst }
  let seconds := if dst ≠ 0 then long (seconds - z.dstAdjust) else seconds
  if 75279 ≤ days ∨ (0 ≤ seconds ∧ 75276 ≤ days) ∨ (seconds < 0 ∧ days ≤ daysFrom1900To1970) then
    (failed, t)
  else (ulong seconds, t)

/-! ## What the fields denote -/

/-- the seconds from 1 January 1970 to a clock time of a date -/
def secondsFrom (d : Date) (hour min sec : ℤ) : ℤ :=
  (d.number - daysBefore 1970) * 86400 + hour * 3600 + min * 60 + sec

/-- the instant that fields out of their ranges denote, too -/
def Tm.instant (t : Tm) : ℤ :=
  secondsFrom ⟨1900 + t.year + t.mon / 12, (t.mon % 12).toNat, t.mday⟩ t.hour t.min t.sec

def Tm.date (t : Tm) : Date := ⟨1900 + t.year, t.mon.toNat, t.mday⟩

/-- the fields are the calendar date and the time of day of an instant -/
structure Tm.Is (t : Tm) (instant : ℤ) : Prop where
  mon : 0 ≤ t.mon
  date : t.date.Valid
  hour : 0 ≤ t.hour ∧ t.hour < 24
  min : 0 ≤ t.min ∧ t.min < 60
  sec : 0 ≤ t.sec ∧ t.sec < 60
  yday : t.yday = t.date.dayOfYear
  wday : t.wday = t.date.weekday
  instant : secondsFrom t.date t.hour t.min t.sec = instant

end CTime
