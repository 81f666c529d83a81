import OpenWatcom.Clib.MkTime
import OpenWatcom.Clib.TzSet

/-!
# Daylight saving time: `timeutil.c`

A rule is a `struct tm` as the parsers store it: `isdst` is the form of its date.

* `calcYday`, `checkOrder`     the days of the two rules, and whether the end comes first
* `startCheck`, `endCheck`     the two halves of `__isindst`, with the flag that the time decides
* `isindst`     the answer of the rules
* `ruleDay`, `ruleInstant`     the day and the instant that a rule denotes in a year
* `Daylight`     what the answer is to be
-/

namespace CTime

open Calendar

/-! ## The code -/

/-- a rule -/
abbrev Rule : Type := TzSet.Tm

/-- `time_less` -/
def timeLess (t : Tm) (r : Rule) : Bool :=
  t.hour < r.hour ∨ (t.hour = r.hour ∧ (t.min < r.min ∨ (t.min = r.min ∧ t.sec < r.sec)))

/-- the days of a month -/
def monthDays (year mon : ℤ) : ℤ :=
  (monthTable (year + 1900)).getD (mon + 1).toNat 0 - (monthTable (year + 1900)).getD mon.toNat 0

/-- what `tzset` sets; the two rules come with it -/
structure Rules where
  timezone : ℤ
  dstAdjust : ℤ
  daylight : ℤ
  startDst : Rule
  endDst : Rule

section
variable (g : Rules)

/-- the zone for a call of `mktime` with `tm_isdst` 0, which does not ask the rules -/
def Rules.bare : Zone := ⟨g.timezone, g.dstAdjust, fun _ => false⟩

/-- `calc_yday`; `junk` is what the variables of `mktime` hold, and `tmptm` starts with it too -/
def calcYday (junk : ℤ × ℤ) (timetm : Rule) (year : ℤ) : ℤ :=
  if timetm.isdst = 0 then
    let monthDays := monthDays year timetm.mon
    let tmptm : Tm := ⟨0, 0, 0, 1, timetm.mon, year, junk.1, junk.2, 0⟩
    let tmptm := (mktime g.bare junk tmptm).2
    let firstWday := (timetm.wday - tmptm.wday + 7).tmod 7
    let nthWeek :=
      if timetm.mday = 5 then
        if monthDays < 1 + firstWday + (timetm.mday - 1) * 7 then timetm.mday - 2
        else timetm.mday - 1
      else timetm.mday - 1
    tmptm.yday + firstWday + nthWeek * 7
  else if timetm.isdst = 1 then timetm.yday - 1
  else timetm.yday

/-- `check_order` -/
def checkOrder (junk : ℤ × ℤ) (year : ℤ) : Bool :=
  let byDay : Bool := calcYday g junk g.endDst year < calcYday g junk g.startDst year
  if g.startDst.isdst = 0 ∧ g.endDst.isdst = 0 then
    if g.endDst.mon < g.startDst.mon then true
    else if g.startDst.mon < g.endDst.mon then false
    else byDay
  else byDay

end

/-- `n1` and `n2` of a rule of the form `M`: the last such weekday up to a day, and up to the day
before -/
def lastWeekdays (t : Tm) (r : Rule) : ℤ × ℤ :=
  (t.mday - (t.wday + 7 - r.wday).tmod 7, t.mday - 1 - (t.wday - 1 + 7 - r.wday).tmod 7)

/-- `n1` of a rule of another form -/
def dayNumber (t : Tm) (r : Rule) : ℤ :=
  if r.isdst = 1 then
    (if leapyear (t.year + 1900) ≠ 0 ∧ diyr.getD 2 0 < r.yday then r.yday + 1 else r.yday) - 1
  else r.yday

/-- the first half: `dst`, `time_check` -/
def startCheck (t : Tm) (start : Rule) : Bool × Bool :=
  if start.isdst = 0 then
    if start.mon < t.mon then (true, false)
    else if t.mon = start.mon then
      let (n1, n2) := lastWeekdays t start
      if start.mday = 5 then
        if monthDays t.year t.mon - 7 < n1 then (true, n2 ≤ monthDays t.year t.mon - 7)
        else (false, false)
      else if 7 * (start.mday - 1) + 1 ≤ n1 then (true, n2 < 7 * (start.mday - 1) + 1)
      else (false, false)
    else (false, false)
  else
    let n1 := dayNumber t start
    if n1 ≤ t.yday then (true, t.yday = n1) else (false, false)

/-- the second half: `dst`, `time_check`; `dst` is 1 before -/
def endCheck (t : Tm) (stop : Rule) : Bool × Bool :=
  if stop.isdst = 0 then
    if stop.mon < t.mon then (false, false)
    else if t.mon = stop.mon then
      let (n1, n2) := lastWeekdays t stop
      if stop.mday = 5 then
        if n1 ≤ monthDays t.year t.mon - 7 then (true, false)
        else (false, n2 ≤ monthDays t.year t.mon - 7)
      else if n1 < 7 * (stop.mday - 1) + 1 then (true, false)
      else (false, n2 < 7 * (stop.mday - 1) + 1)
    else (true, false)
  else
    let n1 := dayNumber t stop
    if n1 ≤ t.yday then (false, t.yday = n1) else (true, false)

/-- `__isindst` where `tm_isdst` is negative -/
def isindst (g : Rules) (junk : ℤ × ℤ) (t : Tm) : Bool :=
  if g.daylight = 0 then false
  else
    let south := checkOrder g junk t.year
    let start := if south then g.endDst else g.startDst
    let stop := if south then g.startDst else g.endDst
    let (dst, timeCheck) := startCheck t start
    let dst := if timeCheck then !timeLess t start else dst
    if !dst then (if south then !dst else dst)
    else
      let (dst, timeCheck) := endCheck t stop
      let dst := if timeCheck then timeLess t stop else dst
      if south then !dst else dst

/-- the zone of the rules -/
def Rules.zone (g : Rules) (junk : ℤ × ℤ) : Zone := ⟨g.timezone, g.dstAdjust, isindst g junk⟩

/-! ## What the rules denote -/

/-- a date of one of the three forms -/
structure Rule.Valid (r : Rule) : Prop where
  form : r.isdst = 0 ∨ r.isdst = 1 ∨ r.isdst = -1
  mon : r.isdst = 0 → 0 ≤ r.mon ∧ r.mon < 12
  week : r.isdst = 0 → 1 ≤ r.mday ∧ r.mday ≤ 5
  wday : r.isdst = 0 → 0 ≤ r.wday ∧ r.wday < 7
  julian : r.isdst = 1 → 1 ≤ r.yday ∧ r.yday ≤ 365
  day : r.isdst = -1 → 0 ≤ r.yday ∧ r.yday ≤ 365

/-- the day of a year, from 0: the `n`th weekday of a month, the day `n` without 29 February, or the
day `n` -/
def ruleDay (r : Rule) (year : ℤ) : ℤ :=
  if r.isdst = 0 then
    Date.dayOfYear ⟨1900 + year, r.mon.toNat, nthWeekday (1900 + year) r.mon.toNat r.mday r.wday⟩
  else if r.isdst = 1 then
    if Leap (1900 + year) ∧ 60 ≤ r.yday then r.yday else r.yday - 1
  else r.yday

/-- the seconds from the start of a year -/
def ruleInstant (r : Rule) (year : ℤ) : ℤ :=
  ruleDay r year * 86400 + r.hour * 3600 + r.min * 60 + r.sec

/-- the seconds of a time from the start of its year -/
def Tm.sinceNewYear (t : Tm) : ℤ := t.yday * 86400 + t.hour * 3600 + t.min * 60 + t.sec

/-- between the start and the end, or outside of the end and the start where these come the other way -/
def Daylight (g : Rules) (t : Tm) : Prop :=
  if ruleInstant g.endDst t.year < ruleInstant g.startDst t.year then
    ¬ (ruleInstant g.endDst t.year ≤ t.sinceNewYear ∧ t.sinceNewYear < ruleInstant g.startDst t.year)
  else ruleInstant g.startDst t.year ≤ t.sinceNewYear ∧ t.sinceNewYear < ruleInstant g.endDst t.year

end CTime
