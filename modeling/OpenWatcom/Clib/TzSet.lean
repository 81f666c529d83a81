import OpenWatcom.Clib.Xtoa

/-!
# The TZ string: `__parse_tz` (tzset.c)

A position in the string is what follows it.  Every parser returns the position behind what it took;
two positions are the same where what follows them is.  The numbers of a string of the POSIX form fit
an `int`, so the sums are those of the integers; only the adjustment is narrowed, where a `long` is
stored in an `int`.

* `parseTz`     the parser, with the parsers of its parts
* `TzString`     the strings of the POSIX form, and `TzString.text` as they are written
* `Denotes`     what such a string denotes
* `TzString.Kept`     the strings of which nothing is dropped
-/

namespace TzSet

open Xtoa

/-! ## The code -/

/-- `TZNAME_MAX` -/
def tznameMax : ℕ := 128

/-- the members of a `struct tm` that a rule uses -/
structure Tm where
  sec : ℤ
  min : ℤ
  hour : ℤ
  mday : ℤ
  mon : ℤ
  wday : ℤ
  yday : ℤ
  isdst : ℤ
  deriving DecidableEq

/-- the variables that the parser sets -/
structure Zone where
  stzone : List Char
  dtzone : List Char
  timezone : ℤ
  daylight : ℤ
  dstAdjust : ℤ
  startDst : Tm
  endDst : Tm
  deriving DecidableEq

def isDigit (c : Char) : Bool := '0' ≤ c ∧ c ≤ '9'

/-- `*tz == c` -/
def looksAt (tz : List Char) (c : Char) : Prop := tz.head? = some c

instance (tz : List Char) (c : Char) : Decidable (looksAt tz c) := inferInstanceAs (Decidable (_ = _))

/-- `parse_sign` -/
def parseSign (tz : List Char) : Bool × List Char :=
  if looksAt tz '-' then (true, tz.tail)
  else if looksAt tz '+' then (false, tz.tail)
  else (false, tz)

/-- the loop of `parse_number` -/
def numberLoop (value : ℤ) : List Char → ℤ × List Char
  | [] => (value, [])
  | c :: tz =>
    if isDigit c then numberLoop (value * 10 + c.toNat - '0'.toNat) tz else (value, c :: tz)

/-- `parse_number` -/
def parseNumber (tz : List Char) : ℤ × List Char := numberLoop 0 tz

/-- hours, minutes and seconds -/
structure Clock where
  hours : ℤ
  minutes : ℤ
  seconds : ℤ
  deriving DecidableEq

/-- `parse_time`; a part that is not there keeps its value -/
def parseTime (tz : List Char) (clock : Clock) : Clock × List Char :=
  let (hours, tz) := parseNumber tz
  let clock := { clock with hours := hours }
  if looksAt tz ':' then
    let (minutes, tz) := parseNumber tz.tail
    let clock := { clock with minutes := minutes }
    if looksAt tz ':' then
      let (seconds, tz) := parseNumber tz.tail
      ({ clock with seconds := seconds }, tz)
    else (clock, tz)
  else (clock, tz)

/-- a character of a name without quotes -/
def isPlain (c : Char) : Bool := c ≠ ',' ∧ c ≠ '-' ∧ c ≠ '+' ∧ isDigit c = false

/-- `parse_name` -/
def parseName (tz : List Char) : List Char × List Char :=
  if looksAt tz '<' then
    let tzstart := tz.tail
    let tz := tzstart.dropWhile (· ≠ '>')
    ((tzstart.takeWhile (· ≠ '>')).take tznameMax, if looksAt tz '>' then tz.tail else tz)
  else ((tz.takeWhile isPlain).take tznameMax, tz.dropWhile isPlain)

/-- the seconds of a time -/
def Clock.total (c : Clock) : ℤ := c.seconds + (c.minutes + c.hours * 60) * 60

/-- `parse_offset`; without a digit the offset stays -/
def parseOffset (tz : List Char) (offset : ℤ) : ℤ × List Char :=
  let (neg, tz) := parseSign tz
  if tz.head?.any isDigit then
    let (clock, tz) := parseTime tz ⟨0, 0, 0⟩
    (if neg then -clock.total else clock.total, tz)
  else (offset, tz)

/-- the fields of the form `M` in `parse_rule`, from the month on -/
def parseMonth (timeptr : Tm) (tz : List Char) : Tm × List Char :=
  let (days, tz) := parseNumber tz
  let timeptr := { timeptr with mon := days - 1 }
  if looksAt tz '.' then
    let (days, tz) := parseNumber tz.tail
    let timeptr := { timeptr with mday := days }
    if looksAt tz '.' then
      let (days, tz) := parseNumber tz.tail
      ({ timeptr with wday := days, yday := 0 }, tz)
    else ({ timeptr with yday := 0 }, tz)
  else ({ timeptr with yday := 0 }, tz)

/-- the letter in front of a date in `parse_rule` -/
def ruleForm (tz : List Char) : ℤ × List Char :=
  let (dateForm, tz) : ℤ × List Char := if looksAt tz 'J' then (1, tz.tail) else (-1, tz)
  if looksAt tz 'M' then (0, tz.tail) else (dateForm, tz)

/-- the date in `parse_rule` -/
def ruleDate (timeptr : Tm) (dateForm : ℤ) (tz : List Char) : Tm × List Char :=
  let timeptr := { timeptr with isdst := dateForm }
  if dateForm ≠ 0 then
    let (days, tz) := parseNumber tz
    ({ timeptr with yday := days }, tz)
  else parseMonth timeptr tz

/-- the time in `parse_rule`, which is read from the `/` on -/
def ruleTime (tz : List Char) : Clock × List Char :=
  if looksAt tz '/' then parseTime tz ⟨2, 0, 0⟩ else (⟨2, 0, 0⟩, tz)

/-- `parse_rule` -/
def parseRule (tz : List Char) (timeptr : Tm) : Tm × List Char :=
  let (dateForm, tz) := ruleForm tz
  let (timeptr, tz) := ruleDate timeptr dateForm tz
  let (clock, tz) := ruleTime tz
  ({ timeptr with sec := clock.seconds, min := clock.minutes, hour := clock.hours }, tz)

/-- `fix_rule` -/
def fixRule (tm : Tm) (adjust : ℤ) : Tm :=
  { tm with
    hour := tm.hour - adjust.tdiv 3600
    min := tm.min - (adjust.tdiv 60).tmod 60
    sec := tm.sec - adjust.tmod 60 }

/-- `__diyr` -/
def diyr : List ℤ := [0, 31, 59, 90, 120, 151, 181, 212, 243, 273, 304, 334, 365]

/-- `parse_rule_OS2` -/
def parseRuleOS2 (tz : List Char) (timeptr : Tm) : Tm × List Char :=
  let tzptr := tz
  let (month, tz) := parseNumber tz
  if tzptr = tz ∨ ¬ looksAt tz ',' then (timeptr, tzptr)
  else
    let tzptr := tz.tail
    let (neg, tz) := parseSign tzptr
    let (week, tz) := parseNumber tz
    if tzptr = tz ∨ ¬ looksAt tz ',' ∨ (neg ∧ week ≠ 1) then (timeptr, tzptr)
    else
      let week := if neg ∧ week = 1 then 5 else week
      let tzptr := tz.tail
      let (days, tz) := parseNumber tzptr
      if tzptr = tz ∨ ¬ looksAt tz ',' then (timeptr, tzptr)
      else
        let timeptr :=
          if week = 0 then
            { timeptr with yday := days + diyr.getD (month - 1).toNat 0, isdst := 1 }
          else { timeptr with isdst := 0, mon := month - 1, mday := week, wday := days }
        let tzptr := tz.tail
        let (seconds, tz) := parseNumber tzptr
        if tzptr = tz ∨ ¬ looksAt tz ',' then (timeptr, tzptr)
        else (fixRule timeptr (-seconds), tz)

/-- a `struct tm` of zeros -/
def Tm.zero : Tm := ⟨0, 0, 0, 0, 0, 0, 0, 0⟩

/-- `parse_OS2`: the two rules, the offset of the daylight zone, and the position -/
def parseOS2 (tz : List Char) (time1 time2 : Tm) (timezone dayZone : ℤ) :
    Tm × Tm × ℤ × List Char :=
  let tzptr := tz
  let (startDst, tz) := parseRuleOS2 tz Tm.zero
  if tzptr = tz ∨ ¬ looksAt tz ',' then (time1, time2, dayZone, tzptr)
  else
    let tzptr := tz.tail
    let (endDst, tz) := parseRuleOS2 tzptr Tm.zero
    if tzptr = tz ∨ ¬ looksAt tz ',' ∨ tz.tail = [] then (time1, time2, dayZone, tzptr)
    else
      let (shift, tz) := parseNumber tz.tail
      if tz = [] then (startDst, endDst, timezone - shift, tz) else (time1, time2, dayZone, tz)

/-- a `long` in an `int` -/
def storeInt (int : IntSize) (v : ℤ) : ℤ := (BitVec.ofInt int.bits v).toInt

/-- `__parse_tz` from the daylight name on, with the position where it stops -/
def parseDaylight (int : IntSize) (g : Zone) (tz : List Char) : Zone × List Char :=
  let dayzone := g.timezone - 60 * 60
  let (dtzone, tz) := parseName tz
  let g := { g with daylight := 1, dstAdjust := 60 * 60, dtzone := dtzone }
  if looksAt tz ',' then
    let (startDst, endDst, dayzone, tz) :=
      parseOS2 tz.tail g.startDst g.endDst g.timezone dayzone
    let g := { g with startDst := startDst, endDst := endDst }
    if tz = [] then
      let adjust := storeInt int (g.timezone - dayzone)
      ({ g with dstAdjust := adjust, endDst := fixRule endDst adjust }, tz)
    else (g, tz)
  else
    let (dayzone, tz) := parseOffset tz dayzone
    let adjust := storeInt int (g.timezone - dayzone)
    let g := { g with dstAdjust := adjust }
    if looksAt tz ',' then
      let (startDst, tz) := parseRule tz.tail g.startDst
      let g := { g with startDst := startDst }
      if looksAt tz ',' then
        let (endDst, tz) := parseRule tz.tail g.endDst
        ({ g with endDst := fixRule endDst adjust }, tz)
      else (g, tz)
    else (g, tz)

/-- `__parse_tz`, with the position where it stops -/
def parseTz (int : IntSize) (g : Zone) (tz : List Char) : Zone × List Char :=
  let tz := if looksAt tz ':' then tz.tail else tz
  let (stzone, tz) := parseName tz
  let (timezone, tz) := parseOffset tz g.timezone
  let g := { g with stzone := stzone, timezone := timezone, daylight := 0 }
  if tz = [] then ({ g with dtzone := [] }, tz) else parseDaylight int g tz

/-! ## Strings of the POSIX form -/

/-- a number as it is written: at least one digit -/
structure Num where
  digits : List ℕ
  some_digit : digits ≠ []
  is_digit : ∀ d ∈ digits, d < 10

def Num.value (n : Num) : ℤ := n.digits.foldl (fun (v : ℤ) (d : ℕ) => v * 10 + d) 0
def Num.text (n : Num) : List Char := n.digits.map digit

/-- `hh[:mm[:ss]]` -/
structure TimeText where
  hh : Num
  mmss : Option (Num × Option Num)
  hour : hh.value ≤ 24
  minute : ∀ mm ss, mmss = some (mm, ss) → mm.value < 60 ∧ ∀ n, ss = some n → n.value < 60

def TimeText.clock (t : TimeText) : Clock :=
  match t.mmss with
  | none => ⟨t.hh.value, 0, 0⟩
  | some (mm, none) => ⟨t.hh.value, mm.value, 0⟩
  | some (mm, some ss) => ⟨t.hh.value, mm.value, ss.value⟩

def TimeText.text (t : TimeText) : List Char :=
  t.hh.text ++ match t.mmss with
    | none => []
    | some (mm, none) => ':' :: mm.text
    | some (mm, some ss) => ':' :: mm.text ++ ':' :: ss.text

/-- an offset: a sign, which may be left out, and a time -/
structure OffsetText where
  sign : Option Bool
  time : TimeText

/-- the seconds, with a sign that `true` makes negative -/
def OffsetText.value (o : OffsetText) : ℤ :=
  if o.sign = some true then -o.time.clock.total else o.time.clock.total

def OffsetText.text (o : OffsetText) : List Char :=
  (match o.sign with
    | none => []
    | some true => ['-']
    | some false => ['+']) ++ o.time.text

/-- a name, of letters, or between `<` and `>` of letters, digits and signs; POSIX asks for three
characters at least -/
inductive Name
  | plain (name : List Char) (h : ∀ c ∈ name, c.isAlpha = true)
  | quoted (name : List Char) (h : ∀ c ∈ name, c.isAlphanum = true ∨ c = '+' ∨ c = '-')

def Name.name : Name → List Char
  | .plain name _ => name
  | .quoted name _ => name

def Name.text : Name → List Char
  | .plain name _ => name
  | .quoted name _ => '<' :: name ++ ['>']

/-- the date of a rule: `Jn`, `n` or `Mm.w.d` -/
inductive Date
  | julian (n : Num) (h : 1 ≤ n.value ∧ n.value ≤ 365)
  | day (n : Num) (h : n.value ≤ 365)
  | month (m w d : Num) (hm : 1 ≤ m.value ∧ m.value ≤ 12) (hw : 1 ≤ w.value ∧ w.value ≤ 5)
    (hd : d.value ≤ 6)

def Date.text : Date → List Char
  | .julian n _ => 'J' :: n.text
  | .day n _ => n.text
  | .month m w d _ _ _ => 'M' :: m.text ++ '.' :: w.text ++ '.' :: d.text

structure RuleText where
  date : Date
  time : Option TimeText

def RuleText.text (r : RuleText) : List Char :=
  r.date.text ++ match r.time with
    | none => []
    | some time => '/' :: time.text

structure DstText where
  name : Name
  offset : Option OffsetText
  rules : Option (RuleText × RuleText)

def DstText.text (d : DstText) : List Char :=
  d.name.text ++ (match d.offset with
    | none => []
    | some o => o.text) ++
  match d.rules with
    | none => []
    | some (start, stop) => ',' :: start.text ++ ',' :: stop.text

/-- `std offset [dst [offset] [,start[/time],end[/time]]]` -/
structure TzString where
  std : Name
  offset : OffsetText
  dst : Option DstText

def TzString.text (z : TzString) : List Char :=
  z.std.text ++ z.offset.text ++ match z.dst with
    | none => []
    | some d => d.text

/-- the names are of a length that POSIX allows, and that of the daylight zone is there -/
def TzString.Ok (z : TzString) : Prop :=
  z.std.name.length ≤ tznameMax ∧
    ∀ d, z.dst = some d → d.name.name ≠ [] ∧ d.name.name.length ≤ tznameMax

/-! ## What they denote -/

/-- the form and the fields of a date -/
def Date.Stored (tm : Tm) : Date → Prop
  | .julian n _ => tm.isdst = 1 ∧ tm.yday = n.value
  | .day n _ => tm.isdst = -1 ∧ tm.yday = n.value
  | .month m w d _ _ _ => tm.isdst = 0 ∧ tm.mon = m.value - 1 ∧ tm.mday = w.value ∧ tm.wday = d.value

/-- the time of day in seconds -/
def Tm.seconds (tm : Tm) : ℤ := tm.hour * 3600 + tm.min * 60 + tm.sec

/-- the time of a rule, at two o'clock where none is written -/
def RuleText.seconds (r : RuleText) : ℤ := ((r.time.map TimeText.clock).getD ⟨2, 0, 0⟩).total

def RuleText.Stored (r : RuleText) (adjust : ℤ) (tm : Tm) : Prop :=
  r.date.Stored tm ∧ tm.seconds = r.seconds - adjust

/-- the seconds between the two zones: an hour where no second offset is written -/
def TzString.adjust (z : TzString) (d : DstText) : ℤ :=
  (d.offset.map fun o => z.offset.value - o.value).getD 3600

/-- the string is consumed, and the variables hold what it denotes -/
def Denotes (z : TzString) (g : Zone) (rest : List Char) : Prop :=
  rest = [] ∧ g.stzone = z.std.name ∧ g.timezone = z.offset.value ∧
  match z.dst with
  | none => g.daylight = 0 ∧ g.dtzone = []
  | some d => g.daylight = 1 ∧ g.dtzone = d.name.name ∧ g.dstAdjust = z.adjust d ∧
      ∀ start stop, d.rules = some (start, stop) →
        start.Stored 0 g.startDst ∧ stop.Stored (z.adjust d) g.endDst

/-- the adjustment fits an `int`; and where rules are written, the offset of the daylight zone is too,
and no time -/
def TzString.Kept (int : IntSize) (z : TzString) : Prop :=
  ∀ d, z.dst = some d → storeInt int (z.adjust d) = z.adjust d ∧
    ∀ start stop, d.rules = some (start, stop) →
      d.offset.isSome = true ∧ start.time = none ∧ stop.time = none

end TzSet
