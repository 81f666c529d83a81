import OpenWatcom.Clib.BrkTime

/-!
# `_gmtime`, `_mkgmtime` and `mktime` against the calendar

* `setDate_is`, `brktime_is`     a day and a time of day are broken down into their calendar date
* `localMktime_eq`     what is returned and stored where the year is not before 1900
* `time_right_iff`     the conversions are right exactly where the clock fields fit a `long` and the month
  does not lead before 1900
-/

namespace CTime

open Calendar

/-! ## values in range -/

theorem long_eq {v : ℤ} (h : -2 ^ 31 ≤ v) (h' : v < 2 ^ 31) : long v = v :=
  Int.bmod_eq_of_le (by omega) (by omega)

theorem long_bounds (v : ℤ) : -2 ^ 31 ≤ long v ∧ long v < 2 ^ 31 := by
  have h1 : -(((2 ^ 32 : ℕ) / 2 : ℕ) : ℤ) ≤ long v := Int.le_bmod (by decide)
  have h2 : long v < (((2 ^ 32 : ℕ) : ℤ) + 1) / 2 := Int.bmod_lt (by decide)
  omega

theorem long_dvd (v : ℤ) : (2 ^ 32 : ℤ) ∣ long v - v :=
  ((Int.bmod_eq_iff (by decide)).mp (rfl : long v = long v)).2.2

theorem ulong_eq {v : ℤ} (h : 0 ≤ v) (h' : v < 2 ^ 32) : ulong v = v := Int.emod_eq_of_lt h h'

/-! ## years and months -/

theorem leapyear_eq (y : ℤ) : leapyear y = if Leap y then 1 else 0 := by
  unfold leapyear
  by_cases h : Leap y
  · rw [if_pos h]
    unfold Leap at h
    split_ifs <;> first | rfl | omega
  · rw [if_neg h]
    unfold Leap at h
    split_ifs <;> first | rfl | omega

theorem yearLength_eq (y : ℤ) : leapyear y + 365 = yearLength y := by
  rw [leapyear_eq, yearLength]
  split <;> rfl

theorem daysToJan1_eq (y : ℤ) : daysToJan1 y = daysBefore (1900 + y) - daysBefore 1900 := by
  unfold daysToJan1 daysBefore
  dsimp only
  omega

theorem monthTable_getD (y : ℤ) {m : ℕ} (hm : m ≤ 12) :
    (monthTable y).getD m 0 = monthStart y m := by
  have hmt : monthTable y = if Leap y then dilyr else diyr := by
    rw [monthTable, leapyear_eq]
    split <;> rfl
  rw [hmt, monthStart, monthLengths]
  split <;> interval_cases m <;> rfl

/-- the guess of the month is right or one too small -/
theorem month_guess (y : ℤ) {k : ℤ} (h0 : 0 ≤ k) (hk : k < yearLength y) :
    let month := (k / 31).toNat
    let month := if (monthTable y).getD (month + 1) 0 ≤ k then month + 1 else month
    month < 12 ∧ (monthTable y).getD month 0 ≤ k ∧ k < (monthTable y).getD (month + 1) 0 := by
  have key : ∀ table : List ℤ, table = diyr ∧ k < 365 ∨ table = dilyr ∧ k < 366 →
      let month := (k / 31).toNat
      let month := if table.getD (month + 1) 0 ≤ k then month + 1 else month
      month < 12 ∧ table.getD month 0 ≤ k ∧ k < table.getD (month + 1) 0 := by
    intro table htable
    have hle : (k / 31).toNat ≤ 11 := by omega
    have hlo : ((k / 31).toNat : ℤ) * 31 ≤ k := by omega
    have hhi : k < ((k / 31).toNat : ℤ) * 31 + 31 := by omega
    intro month
    show _ ∧ _ ∧ _
    generalize hm : (k / 31).toNat = m at *
    obtain ⟨rfl, hlt⟩ | ⟨rfl, hlt⟩ := htable
    all_goals
      have hmm : month = m := hm
      rw [hmm]
      clear_value month
      clear hmm hm month
      interval_cases m <;> simp only [diyr, dilyr, List.getD_cons_succ, List.getD_cons_zero] <;>
        split <;> simp only [List.getD_cons_succ, List.getD_cons_zero] <;> omega
  refine key _ ?_
  rw [monthTable, leapyear_eq]
  rw [yearLength] at hk
  by_cases h : Leap y
  · rw [if_pos h] at hk ⊢
    exact Or.inr ⟨rfl, hk⟩
  · rw [if_neg h] at hk ⊢
    exact Or.inl ⟨rfl, hk⟩

/-- the corrections keep the day and end within the year -/
theorem yearLoop_spec (dayOfYear year : ℤ) (h : dayOfYear < yearLength (1900 + year)) :
    (0 ≤ (yearLoop dayOfYear year).1 ∧
      (yearLoop dayOfYear year).1 < yearLength (1900 + (yearLoop dayOfYear year).2)) ∧
    daysBefore (1900 + (yearLoop dayOfYear year).2) + (yearLoop dayOfYear year).1
      = daysBefore (1900 + year) + dayOfYear := by
  fun_induction yearLoop with
  | case1 dayOfYear year hneg ih =>
    have hlen := yearLength_eq (year - 1 + 1900)
    have hsucc := daysBefore_succ (year - 1 + 1900)
    rw [show 1900 + (year - 1) = year - 1 + 1900 by ring] at ih
    rw [hlen] at ih ⊢
    rw [show year - 1 + 1900 + 1 = 1900 + year by ring] at hsucc
    obtain ⟨h1, h2⟩ := ih (by omega)
    exact ⟨h1, by omega⟩
  | case2 dayOfYear year hneg => exact ⟨⟨by omega, h⟩, rfl⟩

/-! ## `__brktime` -/

section
variable {t : Tm}

/-- the clock fields are in their ranges -/
structure Tm.InDay (t : Tm) : Prop where
  hour : 0 ≤ t.hour ∧ t.hour < 24
  min : 0 ≤ t.min ∧ t.min < 60
  sec : 0 ≤ t.sec ∧ t.sec < 60

theorem setDate_is (ht : t.InDay) {days : ℤ} (h0 : 0 ≤ days) (h1 : days < 2 ^ 32 - 1) :
    (setDate days t).Is
      ((days - daysFrom1900To1970) * 86400 + t.hour * 3600 + t.min * 60 + t.sec) := by
  have hguess : long (days - daysToJan1 (days / 365)) = days - daysToJan1 (days / 365) := by
    unfold daysToJan1
    exact long_eq (by dsimp only; omega) (by dsimp only; omega)
  have hyear : days - daysToJan1 (days / 365) < yearLength (1900 + days / 365) := by
    rw [← yearLength_eq]
    have := leapyear_nonneg (1900 + days / 365)
    unfold daysToJan1
    dsimp only
    omega
  obtain ⟨hrange, hsum⟩ := yearLoop_spec _ _ hyear
  rw [setDate, hguess]
  have hjan := daysToJan1_eq (days / 365)
  generalize yearLoop (days - daysToJan1 (days / 365)) (days / 365) = r at hrange hsum ⊢
  obtain ⟨dayOfYear, year⟩ := r
  dsimp only at hrange hsum ⊢
  rw [add_comm year 1900]
  obtain ⟨hm, hlo, hhi⟩ := month_guess (1900 + year) hrange.1 hrange.2
  generalize (if (monthTable (1900 + year)).getD ((dayOfYear / 31).toNat + 1) 0 ≤ dayOfYear then
    (dayOfYear / 31).toNat + 1 else (dayOfYear / 31).toNat) = month at hm hlo hhi ⊢
  rw [monthTable_getD _ hm.le] at hlo
  rw [monthTable_getD _ hm, monthStart_succ _ hm] at hhi
  rw [monthTable_getD _ hm.le]
  have hday : Date.dayOfYear ⟨1900 + year, month, dayOfYear - monthStart (1900 + year) month + 1⟩
      = dayOfYear := by
    rw [Date.dayOfYear]
    dsimp only
    omega
  have hnumber : Date.number ⟨1900 + year, month, dayOfYear - monthStart (1900 + year) month + 1⟩
      = daysBefore 1900 + days := by
    rw [Date.number, hday]
    dsimp only
    omega
  have h1900 : daysBefore 1900 = 693595 := by decide
  have h1970 : daysBefore 1970 = 719162 := by decide
  refine ⟨Int.natCast_nonneg _, ⟨?_, ?_, ?_⟩, ht.hour, ht.min, ht.sec, ?_, ?_, ?_⟩
  · exact hm
  · show 1 ≤ dayOfYear - monthStart (1900 + year) month + 1
    omega
  · show dayOfYear - monthStart (1900 + year) month + 1 ≤ monthLength (1900 + year) month
    omega
  · exact hday.symm
  · show ulong (days + 1) % 7
      = (Date.number ⟨1900 + year, month, dayOfYear - monthStart (1900 + year) month + 1⟩ + 1) % 7
    rw [hnumber, ulong_eq (by omega) (by omega), h1900]
    omega
  · show (Date.number ⟨1900 + year, month, dayOfYear - monthStart (1900 + year) month + 1⟩
      - daysBefore 1970) * 86400 + t.hour * 3600 + t.min * 60 + t.sec = _
    rw [hnumber, h1900, h1970, daysFrom1900To1970]
    ring

/-- the day and the second of the day that `__brktime` comes to -/
theorem brktime_is (t : Tm) (days wallclock gmtdelta : ℤ) {day second : ℤ}
    (hd : (if wallclock < 12 * 60 * 60 ∧ 0 < gmtdelta then days - 1 else days)
      + ulong ((if wallclock < 12 * 60 * 60 ∧ 0 < gmtdelta then wallclock + secondsPerDay
        else wallclock) - gmtdelta) / 86400 = day)
    (hs : ulong ((if wallclock < 12 * 60 * 60 ∧ 0 < gmtdelta then wallclock + secondsPerDay
        else wallclock) - gmtdelta) % 86400 = second) (h0 : 0 ≤ day) (h1 : day < 2 ^ 32 - 1) :
    (brktime days wallclock gmtdelta t).Is ((day - daysFrom1900To1970) * 86400 + second) := by
  rw [brktime]
  simp only [secondsPerDay] at hd hs ⊢
  rw [hd, hs, ulong_eq h0 (by omega)]
  have hin : Tm.InDay { t with
      hour := second / 3600, min := second % 3600 / 60, sec := second % 3600 % 60 } :=
    ⟨by dsimp only; omega, by dsimp only; omega, by dsimp only; omega⟩
  have h := setDate_is hin h0 h1
  have e : (day - daysFrom1900To1970) * 86400 + second / 3600 * 3600 + second % 3600 / 60 * 60
      + second % 3600 % 60 = (day - daysFrom1900To1970) * 86400 + second := by omega
  dsimp only at h
  rw [e] at h
  exact h

/-- the number of a day and a second of it -/
theorem brktime_day (t : Tm) {day second : ℤ} (h0 : 0 ≤ day) (h1 : day < 2 ^ 32 - 1)
    (hs : 0 ≤ second ∧ second < 86400) :
    (brktime day second 0 t).Is ((day - daysFrom1900To1970) * 86400 + second) := by
  have hno : ¬ (second < 12 * 60 * 60 ∧ (0 : ℤ) < 0) := fun h => absurd h.2 (lt_irrefl 0)
  refine brktime_is t _ _ _ ?_ ?_ h0 h1
  · rw [if_neg hno, if_neg hno, ulong_eq (by omega) (by omega)]
    omega
  · rw [if_neg hno, ulong_eq (by omega) (by omega)]
    omega

/-- an instant from 1970 on -/
theorem gmtime_is (t : Tm) {timer : ℤ} (h : 0 ≤ timer ∧ timer < 2 ^ 32) :
    (gmtime timer t).Is timer := by
  have hno : ¬ (timer < 12 * 60 * 60 ∧ (0 : ℤ) < 0) := fun h => absurd h.2 (lt_irrefl 0)
  have hu : ulong (timer - 0) = timer := by
    rw [Int.sub_zero]
    exact ulong_eq h.1 h.2
  have hb := brktime_is t daysFrom1900To1970 timer 0
    (show _ = daysFrom1900To1970 + timer / 86400 by rw [if_neg hno, if_neg hno, hu])
    (show _ = timer % 86400 by rw [if_neg hno, hu]) (by unfold daysFrom1900To1970; omega) (by unfold daysFrom1900To1970; omega)
  have e : (daysFrom1900To1970 + timer / 86400 - daysFrom1900To1970) * 86400 + timer % 86400
      = timer := by omega
  rw [e] at hb
  exact hb

end

/-! ## `__local_mktime` -/

/-- the divisions of C against the ones that round down -/
theorem tdiv_twelve (mon : ℤ) : (0 ≤ mon ∧ mon.tdiv 12 = mon / 12 ∨
    mon < 0 ∧ mon.tdiv 12 = -(-mon / 12)) ∧ mon.tmod 12 = mon - 12 * mon.tdiv 12 := by
  refine ⟨?_, Int.tmod_def mon 12⟩
  by_cases h : 0 ≤ mon
  · exact Or.inl ⟨h, Int.tdiv_eq_ediv_of_nonneg h⟩
  · refine Or.inr ⟨Int.lt_of_not_ge h, ?_⟩
    rw [← Int.tdiv_eq_ediv_of_nonneg (show 0 ≤ -mon by omega), Int.neg_tdiv, neg_neg]

theorem monthLoop_eq (mon year : ℤ) :
    monthLoop (mon.tmod 12) (year + mon.tdiv 12) = (mon % 12, year + mon / 12) := by
  obtain ⟨hd, hm⟩ := tdiv_twelve mon
  by_cases hneg : mon.tmod 12 < 0
  · rw [monthLoop, if_pos hneg, monthLoop, if_neg (by omega)]
    refine Prod.ext ?_ ?_
    · show mon.tmod 12 + 12 = mon % 12
      omega
    · show year + mon.tdiv 12 - 1 = year + mon / 12
      omega
  · rw [monthLoop, if_neg hneg]
    refine Prod.ext ?_ ?_
    · show mon.tmod 12 = mon % 12
      omega
    · show year + mon.tdiv 12 = year + mon / 12
      omega

theorem borrowLoop_eq (days seconds : ℤ) : seconds < 0 →
    borrowLoop days seconds = (days + seconds / 86400, seconds % 86400) := by
  fun_induction borrowLoop with
  | case1 days seconds hneg ih =>
    intro _
    unfold secondsPerDay at ih ⊢
    by_cases h : seconds + 86400 < 0
    · rw [ih h]
      exact Prod.ext (by dsimp only; omega) (by dsimp only; omega)
    · rw [borrowLoop, if_neg h]
      exact Prod.ext (by dsimp only; omega) (by dsimp only; omega)
  | case2 days seconds hneg => exact fun h => absurd h hneg

theorem carryLoop_eq (days seconds : ℤ) : 0 ≤ seconds →
    carryLoop days seconds = (days + seconds / 86400, seconds % 86400) := by
  fun_induction carryLoop with
  | case1 days seconds hle ih =>
    intro _
    unfold secondsPerDay at hle ih ⊢
    rw [ih (by omega)]
    exact Prod.ext (by dsimp only; omega) (by dsimp only; omega)
  | case2 days seconds hle =>
    intro h
    unfold secondsPerDay at hle
    exact Prod.ext (by dsimp only; omega) (by dsimp only; omega)

/-- both loops: whole days go into the days -/
theorem loops_eq (days seconds : ℤ) :
    carryLoop (borrowLoop days seconds).1 (borrowLoop days seconds).2
      = (days + seconds / 86400, seconds % 86400) := by
  by_cases h : seconds < 0
  · rw [borrowLoop_eq days seconds h, carryLoop_eq _ _ (by dsimp only; omega)]
    exact Prod.ext (by dsimp only; omega) (by dsimp only; omega)
  · rw [borrowLoop, if_neg h, carryLoop_eq days seconds (by omega)]

/-- an `int` -/
def IsInt (v : ℤ) : Prop := -2 ^ 31 ≤ v ∧ v < 2 ^ 31

instance (v : ℤ) : Decidable (IsInt v) := inferInstanceAs (Decidable (_ ∧ _))

/-- every field is an `int` -/
structure Tm.Fits (t : Tm) : Prop where
  sec : IsInt t.sec
  min : IsInt t.min
  hour : IsInt t.hour
  mday : IsInt t.mday
  mon : IsInt t.mon
  year : IsInt t.year

/-- the seconds of the clock fields -/
def Tm.clock (t : Tm) : ℤ := t.hour * 3600 + t.min * 60 + t.sec

/-- the year with the months carried into it -/
def Tm.fullYear (t : Tm) : ℤ := t.year + t.mon / 12

/-- the days from 1900 to the date, without the clock fields -/
def Tm.days (t : Tm) : ℤ :=
  Date.number ⟨1900 + t.fullYear, (t.mon % 12).toNat, t.mday⟩ - daysBefore 1900

section
variable {t : Tm}

theorem instant_eq (t : Tm) : t.instant = (t.days - daysFrom1900To1970) * 86400 + t.clock := by
  have h1900 : daysBefore 1900 = 693595 := by decide
  have h1970 : daysBefore 1970 = 719162 := by decide
  rw [Tm.instant, secondsFrom, Tm.days, Tm.fullYear, Tm.clock, h1900, h1970, daysFrom1900To1970,
    add_assoc 1900]
  ring

theorem yearDays_eq (t : Tm) : yearDays t.fullYear (t.mon % 12) t.mday = long t.days := by
  have hm : (t.mon % 12).toNat ≤ 12 := by omega
  have h1900 : daysBefore 1900 = 693595 := by decide
  rw [yearDays, monthTable_getD _ hm, Tm.days, Date.number, Date.dayOfYear, h1900, daysBefore,
    add_comm t.fullYear 1900]
  congr 1
  dsimp only
  omega

/-- a year before 1900 is refused -/
theorem localMktime_early (hf : t.Fits) (h : t.fullYear < 0) : localMktime t = (failed, none) := by
  obtain ⟨hm1, hm2⟩ := hf.mon
  obtain ⟨hy1, hy2⟩ := hf.year
  unfold Tm.fullYear at h
  rw [localMktime]
  by_cases hs : t.year < smallestYearValue
  · rw [if_pos hs]
  · rw [if_neg hs]
    unfold smallestYearValue at hs
    obtain ⟨hd, -⟩ := tdiv_twelve t.mon
    rw [long_eq (by omega) (by omega), monthLoop_eq]
    dsimp only
    rw [if_pos h]

/-- the days and seconds that are stored for another year, and what is returned -/
theorem localMktime_eq (hf : t.Fits) (h0 : 0 ≤ t.fullYear) (h1 : t.fullYear < 2 ^ 30) :
    localMktime t =
      let days := long (long t.days + long t.clock / 86400)
      let seconds := long t.clock % 86400
      if days < daysFrom1900To1970 - 1 then (failed, none)
      else (ulong (seconds + (days - daysFrom1900To1970) * secondsPerDay), some (days, seconds)) := by
  obtain ⟨hm1, hm2⟩ := hf.mon
  obtain ⟨hy1, hy2⟩ := hf.year
  have hclock : daySeconds t = long t.clock := by
    rw [daySeconds, Tm.clock]
    congr 1
    ring
  have hyears : yearDays (t.year + t.mon / 12) (t.mon % 12) t.mday = long t.days := yearDays_eq t
  unfold Tm.fullYear at h0 h1
  have hs : ¬ t.year < smallestYearValue := by
    unfold smallestYearValue
    omega
  obtain ⟨hd, -⟩ := tdiv_twelve t.mon
  rw [localMktime, if_neg hs, long_eq (by omega) (by omega), monthLoop_eq]
  dsimp only
  rw [if_neg (by omega), hyears, hclock, loops_eq]

/-- where the date lies near the range, the days are far from the limits -/
theorem days_bounds (hf : t.Fits) (hr : -86400 ≤ t.instant ∧ t.instant < 2 ^ 33) :
    (-2 ^ 27 < t.days ∧ t.days < 2 ^ 27) ∧ t.fullYear < 2 ^ 30 := by
  obtain ⟨hs1, hs2⟩ := hf.sec
  obtain ⟨hm1, hm2⟩ := hf.min
  obtain ⟨hh1, hh2⟩ := hf.hour
  obtain ⟨hd1, hd2⟩ := hf.mday
  have hdays : -2 ^ 27 < t.days ∧ t.days < 2 ^ 27 := by
    rw [instant_eq, daysFrom1900To1970, Tm.clock] at hr
    omega
  refine ⟨hdays, ?_⟩
  have h1900 : daysBefore 1900 = 693595 := by decide
  have hms := monthStart_mono (1900 + t.fullYear) (Nat.zero_le (t.mon % 12).toNat) (by omega)
  rw [show monthStart (1900 + t.fullYear) 0 = 0 from rfl] at hms
  rw [Tm.days, Date.number, Date.dayOfYear, h1900, daysBefore] at hdays
  dsimp only at hdays
  omega

theorem Tm.Is.unique {a b : ℤ} (h : t.Is a) (h' : t.Is b) : a = b :=
  h.instant.symm.trans h'.instant

/-- the fields that `mktime` leaves are those of the stored day and second -/
theorem mktime_is (z : Zone) (junk : ℤ × ℤ) (t : Tm) (a : ℤ) :
    (mktime z junk t).2.Is a ↔ (brktime (ulong ((localMktime t).2.getD junk).1)
      (ulong ((localMktime t).2.getD junk).2) 0 t).Is a := by
  have hdst : ∀ (u : Tm) (dst : ℤ), Tm.Is { u with isdst := dst } a ↔ u.Is a := fun u dst =>
    ⟨fun h => ⟨h.mon, h.date, h.hour, h.min, h.sec, h.yday, h.wday, h.instant⟩,
      fun h => ⟨h.mon, h.date, h.hour, h.min, h.sec, h.yday, h.wday, h.instant⟩⟩
  rw [mktime]
  dsimp only
  rw [apply_ite Prod.snd, ite_self, hdst]

/-! ## The conversions -/

/-- where the clock fields fit, the days and seconds of the date are stored -/
theorem localMktime_right (hf : t.Fits) (hr : -86400 ≤ t.instant ∧ t.instant < 2 ^ 33)
    (h0 : 0 ≤ t.fullYear) (hc : IsInt t.clock) : localMktime t =
      (ulong t.instant, some (daysFrom1900To1970 + t.instant / 86400, t.instant % 86400)) := by
  obtain ⟨hdays, hyear⟩ := days_bounds hf hr
  obtain ⟨hc1, hc2⟩ := hc
  have hi := instant_eq t
  unfold daysFrom1900To1970 at hi ⊢
  rw [localMktime_eq hf h0 hyear, long_eq hc1 hc2, long_eq (v := t.days) (by omega) (by omega),
    long_eq (v := t.days + t.clock / 86400) (by omega) (by omega)]
  unfold daysFrom1900To1970 secondsPerDay
  dsimp only
  rw [if_neg (by omega)]
  refine Prod.ext (congrArg ulong (by omega)) ?_
  refine congrArg some (Prod.ext ?_ ?_)
  · show t.days + t.clock / 86400 = 25567 + t.instant / 86400
    omega
  · show t.clock % 86400 = t.instant % 86400
    omega

/-- the fields of the day and second stored are the date -/
theorem mktime_right (z : Zone) (junk : ℤ × ℤ) (hf : t.Fits)
    (hr : -86400 ≤ t.instant ∧ t.instant < 2 ^ 33) (h0 : 0 ≤ t.fullYear) (hc : IsInt t.clock) :
    (mktime z junk t).2.Is t.instant := by
  rw [mktime_is, localMktime_right hf hr h0 hc]
  have hday : (0 : ℤ) ≤ daysFrom1900To1970 + t.instant / 86400 ∧
      daysFrom1900To1970 + t.instant / 86400 < 2 ^ 32 - 1 := by
    unfold daysFrom1900To1970
    omega
  show (brktime (ulong (daysFrom1900To1970 + t.instant / 86400)) (ulong (t.instant % 86400)) 0 t).Is _
  rw [ulong_eq hday.1 (by omega), ulong_eq (by omega) (by omega)]
  have h := brktime_day t hday.1 hday.2 (show 0 ≤ t.instant % 86400 ∧ t.instant % 86400 < 86400 by omega)
  have e : (daysFrom1900To1970 + t.instant / 86400 - daysFrom1900To1970) * 86400
      + t.instant % 86400 = t.instant := by omega
  rw [e] at h
  exact h

/-- fields that are a date near the range -/
theorem Tm.Is.localMktime_eq {a : ℤ} (h : t.Is a) (ha : -86400 ≤ a ∧ a < 2 ^ 33) :
    localMktime t = (ulong a, some (daysFrom1900To1970 + a / 86400, a % 86400)) := by
  have hmon : t.mon < 12 := by
    have := h.date.month
    rw [Tm.date] at this
    dsimp only at this
    omega
  have hm0 := h.mon
  have h12 : t.mon / 12 = 0 := by omega
  have hmod : t.mon % 12 = t.mon := by omega
  have hinst : t.instant = a := by
    rw [Tm.instant, h12, add_zero, hmod]
    exact h.instant
  have hyear : 0 ≤ t.year ∧ t.year < 2 ^ 30 := by
    have hi := h.instant
    have hdoy := h.date.dayOfYear
    have hlen : yearLength t.date.year ≤ 366 := by
      rw [yearLength]
      split <;> decide
    have h1970 : daysBefore 1970 = 719162 := by decide
    have := h.hour
    have := h.min
    have := h.sec
    rw [secondsFrom, Date.number, h1970, daysBefore] at hi
    have hy : t.date.year = 1900 + t.year := rfl
    rw [hy] at hi hlen hdoy
    omega
  have hmday : 1 ≤ t.mday ∧ t.mday ≤ 31 := by
    have hlast : t.mday ≤ monthLength (1900 + t.year) t.mon.toNat := h.date.last
    have h31 : monthLength (1900 + t.year) t.mon.toNat ≤ 31 := by
      have hm : t.mon.toNat < 12 := h.date.month
      generalize t.mon.toNat = m at hm
      rw [monthLength, monthLengths]
      split <;> interval_cases m <;> decide
    exact ⟨h.date.first, hlast.trans h31⟩
  have hs := h.sec
  have hm := h.min
  have hh := h.hour
  have hf : t.Fits := by
    constructor <;> unfold IsInt <;> omega
  rw [localMktime_right hf (by rw [hinst]; exact ha) (by rw [Tm.fullYear]; omega)
    (by unfold IsInt Tm.clock; omega), hinst]

/-- the fields that `_gmtime` makes are those of the value that `_mkgmtime` returns -/
theorem mkgmtime_gmtime (t₀ : Tm) {timer : ℤ} (h : 0 ≤ timer ∧ timer < 2 ^ 32) :
    mkgmtime (gmtime timer t₀) = timer := by
  rw [mkgmtime, (gmtime_is t₀ h).localMktime_eq ⟨by omega, by omega⟩]
  exact ulong_eq h.1 h.2

/-- fields made of the day 0 are not a date from 1970 on -/
theorem junk_wrong (u : Tm) {a : ℤ} (ha : 0 ≤ a) : ¬ (brktime (ulong 0) (ulong 0) 0 u).Is a := by
  rw [show ulong 0 = 0 from rfl]
  intro h
  have h' := h.unique (brktime_day u (le_refl 0) (by decide) (by decide))
  unfold daysFrom1900To1970 at h'
  omega

/-- where a sum of the clock fields does not fit, another day comes out, or none -/
theorem mktime_wrong (z : Zone) (hf : t.Fits) (hr : 0 ≤ t.instant ∧ t.instant < 2 ^ 32)
    (h0 : 0 ≤ t.fullYear) (hc : ¬ IsInt t.clock) :
    ¬ (mktime z (0, 0) t).2.Is t.instant := by
  obtain ⟨hdays, hyear⟩ := days_bounds hf ⟨by omega, by omega⟩
  have hb := long_bounds t.clock
  have hne : long t.clock ≠ t.clock := by
    intro he
    rw [he] at hb
    exact hc hb
  have hi := instant_eq t
  rw [mktime_is, localMktime_eq hf h0 hyear, long_eq (v := t.days) (by omega) (by omega),
    long_eq (v := t.days + long t.clock / 86400) (by omega) (by omega)]
  dsimp only
  by_cases hd : t.days + long t.clock / 86400 < daysFrom1900To1970 - 1
  · rw [if_pos hd]
    exact junk_wrong t hr.1
  · rw [if_neg hd]
    unfold daysFrom1900To1970 at hd hi
    show ¬ (brktime (ulong (t.days + long t.clock / 86400)) (ulong (long t.clock % 86400)) 0 t).Is _
    rw [ulong_eq (by omega) (by omega), ulong_eq (by omega) (by omega)]
    intro h
    have h' := h.unique (brktime_day t (by omega) (by omega)
      (show 0 ≤ long t.clock % 86400 ∧ long t.clock % 86400 < 86400 by omega))
    unfold daysFrom1900To1970 at h'
    omega

/-- every value is broken down into its date and comes back; the date of any fields is returned and
written back exactly where the sum of the clock fields fits a `long` and the months do not lead back
before 1900 -/
theorem time_right_iff (z : Zone) (t₀ : Tm) {timer : ℤ} (hw : 0 ≤ timer ∧ timer < 2 ^ 32)
    (hf : t.Fits) (hr : 0 ≤ t.instant ∧ t.instant < 2 ^ 32) :
    ((gmtime timer t₀).Is timer ∧ mkgmtime (gmtime timer t₀) = timer ∧
      ∀ junk, (localMktime t).1 = t.instant ∧ (mktime z junk t).2.Is t.instant) ↔
    IsInt t.clock ∧ 0 ≤ t.fullYear := by
  constructor
  · rintro ⟨-, -, h⟩
    have h0 : 0 ≤ t.fullYear := by
      by_contra hneg
      have hs := (h (0, 0)).2
      rw [mktime_is, localMktime_early hf (Int.lt_of_not_ge hneg)] at hs
      exact junk_wrong t hr.1 hs
    refine ⟨?_, h0⟩
    by_contra hc
    exact mktime_wrong z hf hr h0 hc (h (0, 0)).2
  · rintro ⟨hc, h0⟩
    refine ⟨gmtime_is t₀ hw, mkgmtime_gmtime t₀ hw, fun junk => ⟨?_, ?_⟩⟩
    · rw [localMktime_right hf ⟨by omega, by omega⟩ h0 hc]
      exact ulong_eq hr.1 hr.2
    · exact mktime_right z junk hf ⟨by omega, by omega⟩ h0 hc

end

/-- day 0 of month 14 of 1999, at 49:-5:05, is 2 March 2000 at 00:55:05 -/
theorem march_normalised : (mktime ⟨18000, 3600, fun _ => false⟩ (0, 0)
    ⟨5, -5, 49, 0, 14, 99, 0, 0, 0⟩).2.Is 951958505 := by
  have hi : Tm.instant ⟨5, -5, 49, 0, 14, 99, 0, 0, 0⟩ = 951958505 := by decide
  have h := ((time_right_iff (t := ⟨5, -5, 49, 0, 14, 99, 0, 0, 0⟩) ⟨18000, 3600, fun _ => false⟩
    ⟨0, 0, 0, 0, 0, 0, 0, 0, 0⟩ (show (0 : ℤ) ≤ 0 ∧ (0 : ℤ) < 2 ^ 32 by decide)
    ⟨by decide, by decide, by decide, by decide, by decide, by decide⟩
    (by rw [hi]; decide)).mpr ⟨by decide, by decide⟩).2.2 (0, 0)
  rw [hi] at h
  exact h.2

/-- 600000 hours from 1 January 1970 are 13 June 2038, but their seconds do not fit a `long` -/
theorem hours_overflow :
    (Tm.Fits ⟨0, 0, 600000, 1, 0, 70, 0, 0, 0⟩ ∧
      Tm.instant ⟨0, 0, 600000, 1, 0, 70, 0, 0, 0⟩ = 2160000000) ∧
    (localMktime ⟨0, 0, 600000, 1, 0, 70, 0, 0, 0⟩).1 = failed ∧ failed ≠ 2160000000 := by
  have hf : Tm.Fits ⟨0, 0, 600000, 1, 0, 70, 0, 0, 0⟩ :=
    ⟨by decide, by decide, by decide, by decide, by decide, by decide⟩
  refine ⟨⟨hf, by decide⟩, ?_, by decide⟩
  rw [localMktime_eq hf (by decide) (by decide)]
  decide

end CTime
