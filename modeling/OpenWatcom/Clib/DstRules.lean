import OpenWatcom.Clib.IsInDst

/-!
# Daylight saving time against the rules

* `comparedInstant`     the instant at which `time_less` takes a rule to be, on the day of the rule
* `startCheck_eq`, `endCheck_eq`     both halves find the day of the rule
* `isindst_eq`     the answer, from the order of the rules and the compared instants
* `checkOrder_iff`     the order that is found from 1970 on
* `isindst_right_iff`     where the answer is right
-/

namespace CTime

open Calendar

/-! ## the time of day -/

/-- where a field in front is out of its range, those behind it do not count -/
def comparedSeconds (r : Rule) : ℤ :=
  if r.hour < 0 then 0
  else if 24 ≤ r.hour then 86400
  else r.hour * 3600 +
    if r.min < 0 then 0
    else if 60 ≤ r.min then 3600
    else r.min * 60 + if r.sec < 0 then 0 else if 60 ≤ r.sec then 60 else r.sec

/-- the instant, from the start of the year, that times are compared with -/
def comparedInstant (r : Rule) (year : ℤ) : ℤ := ruleDay r year * 86400 + comparedSeconds r

/-- a time of day, midnight at the end included -/
structure Rule.WallClock (r : Rule) : Prop where
  hour : 0 ≤ r.hour
  min : 0 ≤ r.min ∧ r.min < 60
  sec : 0 ≤ r.sec ∧ r.sec < 60
  day : r.hour * 3600 + r.min * 60 + r.sec ≤ 86400

theorem comparedSeconds_bounds (r : Rule) : 0 ≤ comparedSeconds r ∧ comparedSeconds r ≤ 86400 := by
  rw [comparedSeconds]
  split_ifs <;> omega

theorem comparedInstant_eq {r : Rule} (h : r.WallClock) (year : ℤ) :
    comparedInstant r year = ruleInstant r year := by
  have hh := h.hour
  have hm := h.min
  have hs := h.sec
  have hd := h.day
  rw [comparedInstant, ruleInstant, comparedSeconds]
  split_ifs <;> omega

theorem timeLess_iff {t : Tm} {a : ℤ} (ht : t.Is a) (r : Rule) :
    timeLess t r = true ↔ t.hour * 3600 + t.min * 60 + t.sec < comparedSeconds r := by
  have hh := ht.hour
  have hm := ht.min
  have hs := ht.sec
  rw [timeLess, decide_eq_true_eq, comparedSeconds]
  split_ifs <;> omega

/-! ## the day -/

section
variable {t : Tm} {a : ℤ} {r : Rule}

theorem monthDays_eq (year : ℤ) {mon : ℤ} (h : 0 ≤ mon ∧ mon < 12) :
    monthDays year mon = monthLength (1900 + year) mon.toNat := by
  have e : (mon + 1).toNat = mon.toNat + 1 := by omega
  rw [monthDays, e, monthTable_getD _ (by omega), monthTable_getD _ (by omega),
    monthStart_succ _ (by omega), add_comm year 1900]
  omega

/-- the last such weekday is on or behind a day of the month where the `n`th one is -/
theorem lastWeekdays_spec (ht : t.Is a) (hr : r.Valid) (h0 : r.isdst = 0) (hm : t.mon = r.mon) :
    let d := nthWeekday (1900 + t.year) r.mon.toNat r.mday r.wday
    (r.mday = 5 →
      (monthDays t.year t.mon - 7 < (lastWeekdays t r).1 ↔ d ≤ t.mday) ∧
      ((lastWeekdays t r).2 ≤ monthDays t.year t.mon - 7 ↔ t.mday ≤ d)) ∧
    (r.mday ≠ 5 →
      (7 * (r.mday - 1) + 1 ≤ (lastWeekdays t r).1 ↔ d ≤ t.mday) ∧
      ((lastWeekdays t r).2 < 7 * (r.mday - 1) + 1 ↔ t.mday ≤ d)) := by
  obtain ⟨hw0, hw1⟩ := hr.wday h0
  have hmon := hr.mon h0
  have hlen := monthLength_bounds (1900 + t.year) (show r.mon.toNat < 12 by omega)
  have hfirst := ht.date.first
  have hlast := ht.date.last
  have hwd := ht.wday
  rw [Tm.date, hm] at hwd hlast
  rw [weekday_eq] at hwd
  have hdiv : t.date.day = t.mday := rfl
  rw [hdiv] at hfirst
  dsimp only at hlast
  have h1 : (t.wday + 7 - r.wday).tmod 7 = (t.wday + 7 - r.wday) % 7 :=
    Int.tmod_eq_emod_of_nonneg (by omega)
  have h2 : (t.wday - 1 + 7 - r.wday).tmod 7 = (t.wday - 1 + 7 - r.wday) % 7 :=
    Int.tmod_eq_emod_of_nonneg (by omega)
  rw [hm, monthDays_eq _ hmon, lastWeekdays]
  dsimp only
  rw [h1, h2, nthWeekday, firstWeekday]
  generalize Date.weekday ⟨1900 + t.year, r.mon.toNat, 1⟩ = w at hwd ⊢
  generalize monthLength (1900 + t.year) r.mon.toNat = len at hlen hlast ⊢
  refine ⟨fun h5 => ?_, fun h5 => ?_⟩
  · rw [if_pos h5]
    split <;> omega
  · rw [if_neg h5]
    omega

theorem dayNumber_eq (t : Tm) (h0 : r.isdst ≠ 0) : dayNumber t r = ruleDay r t.year := by
  rw [dayNumber, ruleDay, if_neg h0, leapyear_eq, add_comm t.year 1900]
  have h59 : diyr.getD 2 0 = 59 := rfl
  rw [h59]
  by_cases h1 : r.isdst = 1
  · rw [if_pos h1, if_pos h1]
    by_cases hl : Leap (1900 + t.year)
    · rw [if_pos hl]
      by_cases h60 : 60 ≤ r.yday
      · rw [if_pos ⟨one_ne_zero, by omega⟩, if_pos ⟨hl, h60⟩]
        omega
      · rw [if_neg fun h => h60 (by omega), if_neg fun h => h60 h.2]
    · rw [if_neg hl, if_neg fun h => h.1 rfl, if_neg fun h => hl h.1]
  · rw [if_neg h1, if_neg h1]

/-- months in front of and behind the one of a rule -/
theorem ruleDay_month (ht : t.Is a) (hr : r.Valid) (h0 : r.isdst = 0) :
    (r.mon < t.mon → ruleDay r t.year < t.yday) ∧ (t.mon < r.mon → t.yday < ruleDay r t.year) ∧
      (t.mon = r.mon → t.yday - ruleDay r t.year
        = t.mday - nthWeekday (1900 + t.year) r.mon.toNat r.mday r.wday) := by
  obtain ⟨hm0, hm1⟩ := hr.mon h0
  obtain ⟨hv, -, -⟩ := nthWeekday_spec (1900 + t.year) (show r.mon.toNat < 12 by omega) (hr.week h0)
    (hr.wday h0)
  have hd1 := hv.first
  have hd2 := hv.last
  have ht0 := ht.mon
  have ht1 : t.mon.toNat < 12 := ht.date.month
  have ht2 : 1 ≤ t.mday := ht.date.first
  have ht3 : t.mday ≤ monthLength (1900 + t.year) t.mon.toNat := ht.date.last
  have hy : t.yday = monthStart (1900 + t.year) t.mon.toNat + t.mday - 1 := ht.yday
  dsimp only at hd1 hd2
  rw [ruleDay, if_pos h0, Date.dayOfYear]
  dsimp only
  refine ⟨fun h => ?_, fun h => ?_, fun h => ?_⟩
  · have := monthStart_mono (1900 + t.year) (show r.mon.toNat + 1 ≤ t.mon.toNat by omega) (by omega)
    rw [monthStart_succ _ (by omega)] at this
    omega
  · have := monthStart_mono (1900 + t.year) (show t.mon.toNat + 1 ≤ r.mon.toNat by omega) (by omega)
    rw [monthStart_succ _ (by omega)] at this
    omega
  · rw [h] at hy
    omega

/-- the first half -/
theorem startCheck_eq (ht : t.Is a) (hr : r.Valid) : startCheck t r =
    (decide (ruleDay r t.year ≤ t.yday), decide (t.yday = ruleDay r t.year)) := by
  rw [startCheck]
  by_cases h0 : r.isdst = 0
  · obtain ⟨h1, h2, h3⟩ := ruleDay_month ht hr h0
    rw [if_pos h0]
    by_cases hlt : r.mon < t.mon
    · have := h1 hlt
      rw [if_pos hlt, decide_eq_true (by omega), decide_eq_false (by omega)]
    · rw [if_neg hlt]
      by_cases heq : t.mon = r.mon
      · obtain ⟨h4, h5⟩ := lastWeekdays_spec ht hr h0 heq
        have h6 := h3 heq
        rw [if_pos heq]
        dsimp only
        by_cases hw : r.mday = 5
        · obtain ⟨hn1, hn2⟩ := h4 hw
          rw [if_pos hw]
          by_cases hd : nthWeekday (1900 + t.year) r.mon.toNat r.mday r.wday ≤ t.mday
          · rw [if_pos (hn1.mpr hd), decide_eq_true (show ruleDay r t.year ≤ t.yday by omega)]
            refine Prod.ext rfl (decide_eq_decide.mpr (hn2.trans ?_))
            omega
          · rw [if_neg fun h => hd (hn1.mp h), decide_eq_false (by omega), decide_eq_false (by omega)]
        · obtain ⟨hn1, hn2⟩ := h5 hw
          rw [if_neg hw]
          by_cases hd : nthWeekday (1900 + t.year) r.mon.toNat r.mday r.wday ≤ t.mday
          · rw [if_pos (hn1.mpr hd), decide_eq_true (show ruleDay r t.year ≤ t.yday by omega)]
            refine Prod.ext rfl (decide_eq_decide.mpr (hn2.trans ?_))
            omega
          · rw [if_neg fun h => hd (hn1.mp h), decide_eq_false (by omega), decide_eq_false (by omega)]
      · have := h2 (by omega)
        rw [if_neg heq, decide_eq_false (by omega), decide_eq_false (by omega)]
  · rw [if_neg h0, dayNumber_eq t h0]
    dsimp only
    by_cases hd : ruleDay r t.year ≤ t.yday
    · rw [if_pos hd, decide_eq_true hd]
    · rw [if_neg hd, decide_eq_false hd, decide_eq_false (by omega)]

/-- the second half decides the other way, and leaves the same day to the time -/
theorem endCheck_start (t : Tm) (r : Rule) :
    endCheck t r = (!(startCheck t r).1, (startCheck t r).2) := by
  rw [endCheck, startCheck]
  by_cases h0 : r.isdst = 0
  · rw [if_pos h0, if_pos h0]
    by_cases hlt : r.mon < t.mon
    · rw [if_pos hlt, if_pos hlt]
      rfl
    · rw [if_neg hlt, if_neg hlt]
      by_cases heq : t.mon = r.mon
      · rw [if_pos heq, if_pos heq]
        dsimp only
        by_cases hw : r.mday = 5
        · rw [if_pos hw, if_pos hw]
          by_cases hn : (lastWeekdays t r).1 ≤ monthDays t.year t.mon - 7
          · rw [if_pos hn, if_neg (not_lt.mpr hn)]
            rfl
          · rw [if_neg hn, if_pos (not_le.mp hn)]
            rfl
        · rw [if_neg hw, if_neg hw]
          by_cases hn : (lastWeekdays t r).1 < 7 * (r.mday - 1) + 1
          · rw [if_pos hn, if_neg (not_le.mpr hn)]
            rfl
          · rw [if_neg hn, if_pos (not_lt.mp hn)]
            rfl
      · rw [if_neg heq, if_neg heq]
        rfl
  · rw [if_neg h0, if_neg h0]
    dsimp only
    by_cases hn : dayNumber t r ≤ t.yday
    · rw [if_pos hn, if_pos hn]
      rfl
    · rw [if_neg hn, if_neg hn]
      rfl

/-! ## the answer -/

/-- behind the compared instant of a rule -/
theorem start_iff (ht : t.Is a) (hr : r.Valid) :
    (if (startCheck t r).2 then !timeLess t r else (startCheck t r).1) = true ↔
      comparedInstant r t.year ≤ t.sinceNewYear := by
  have hb := comparedSeconds_bounds r
  have hh := ht.hour
  have hm := ht.min
  have hs := ht.sec
  have hless := timeLess_iff ht r
  rw [startCheck_eq ht hr, comparedInstant, Tm.sinceNewYear]
  dsimp only
  by_cases he : t.yday = ruleDay r t.year
  · rw [if_pos (decide_eq_true he), Bool.not_eq_true', Bool.eq_false_iff, ne_eq, hless, he]
    omega
  · rw [decide_eq_false he, if_neg Bool.false_ne_true, decide_eq_true_eq]
    omega

/-- in front of it -/
theorem end_iff (ht : t.Is a) (hr : r.Valid) :
    (if (endCheck t r).2 then timeLess t r else (endCheck t r).1) = true ↔
      t.sinceNewYear < comparedInstant r t.year := by
  rw [← not_le, ← start_iff ht hr, endCheck_start, Bool.not_eq_true]
  dsimp only
  cases (startCheck t r).2 with
  | true => simp
  | false => simp

variable {g : Rules}

/-- the answer of the rules, whose order decides between both instants and one of them -/
theorem isindst_eq (junk : ℤ × ℤ) (hd : g.daylight ≠ 0) (hs : g.startDst.Valid) (he : g.endDst.Valid)
    (ht : t.Is a) : isindst g junk t = true ↔
      if checkOrder g junk t.year then comparedInstant g.startDst t.year ≤ t.sinceNewYear ∨
        t.sinceNewYear < comparedInstant g.endDst t.year
      else comparedInstant g.startDst t.year ≤ t.sinceNewYear ∧
        t.sinceNewYear < comparedInstant g.endDst t.year := by
  rw [isindst, if_neg hd]
  cases checkOrder g junk t.year with
  | true =>
    simp only [if_true]
    have h1 := start_iff ht he
    have h2 := end_iff ht hs
    generalize (if (startCheck t g.endDst).2 then !timeLess t g.endDst
      else (startCheck t g.endDst).1) = b1 at h1 ⊢
    generalize (if (endCheck t g.startDst).2 then timeLess t g.startDst
      else (endCheck t g.startDst).1) = b2 at h2 ⊢
    cases b1 with
    | true =>
      have := h1.mp rfl
      cases b2 <;> simp at h2 ⊢ <;> omega
    | false =>
      simp at h1 ⊢
      omega
  | false =>
    simp only [Bool.false_eq_true, if_false]
    have h1 := start_iff ht hs
    have h2 := end_iff ht he
    generalize (if (startCheck t g.startDst).2 then !timeLess t g.startDst
      else (startCheck t g.startDst).1) = b1 at h1 ⊢
    generalize (if (endCheck t g.endDst).2 then timeLess t g.endDst
      else (endCheck t g.endDst).1) = b2 at h2 ⊢
    cases b1 with
    | true =>
      have := h1.mp rfl
      cases b2 <;> simp at h2 ⊢ <;> omega
    | false =>
      simp at h1 ⊢
      omega

/-! ## the order -/

/-- the day that `check_order` takes a rule to have: for `Jn` that of a year without 29 February -/
def orderDay (r : Rule) (year : ℤ) : ℤ := if r.isdst = 1 then r.yday - 1 else ruleDay r year

/-- the fields are those of the first of a month -/
theorem mktime_first (z : Zone) (junk : ℤ × ℤ) {year mon : ℤ} (wday yday : ℤ)
    (hy : 70 ≤ year ∧ year ≤ 206) (hm : 0 ≤ mon ∧ mon < 12) :
    (mktime z junk ⟨0, 0, 0, 1, mon, year, wday, yday, 0⟩).2.wday
        = Date.weekday ⟨1900 + year, mon.toNat, 1⟩ ∧
      (mktime z junk ⟨0, 0, 0, 1, mon, year, wday, yday, 0⟩).2.yday
        = monthStart (1900 + year) mon.toNat := by
  have h12 : mon / 12 = 0 := by omega
  have hmod : mon % 12 = mon := by omega
  have hlen := monthLength_bounds (1900 + year) (show mon.toNat < 12 by omega)
  have hv : Date.Valid ⟨1900 + year, mon.toNat, 1⟩ := ⟨by dsimp only; omega, le_refl 1, by dsimp only; omega⟩
  have hdoy := hv.dayOfYear
  have hyl : yearLength (1900 + year) ≤ 366 := by
    rw [yearLength]
    split <;> decide
  have h1970 : daysBefore 1970 = 719162 := by decide
  have hi : Tm.instant ⟨0, 0, 0, 1, mon, year, wday, yday, 0⟩
      = (Date.number ⟨1900 + year, mon.toNat, 1⟩ - 719162) * 86400 := by
    rw [Tm.instant, secondsFrom, h1970, h12, hmod, add_zero]
    simp only [zero_mul, add_zero]
  have hnum : 719162 ≤ Date.number ⟨1900 + year, mon.toNat, 1⟩ ∧
      Date.number ⟨1900 + year, mon.toNat, 1⟩ < 719162 + 60000 := by
    rw [Date.number, daysBefore]
    dsimp only at hdoy ⊢
    omega
  have hf : Tm.Fits ⟨0, 0, 0, 1, mon, year, wday, yday, 0⟩ := by
    constructor <;> unfold IsInt <;> dsimp only <;> omega
  have h := mktime_right z junk hf (by rw [hi]; omega)
    (by rw [Tm.fullYear]; dsimp only; omega) (show IsInt (0 * 3600 + 0 * 60 + 0) by decide)
  rw [hi] at h
  generalize (mktime z junk ⟨0, 0, 0, 1, mon, year, wday, yday, 0⟩).2 = u at h ⊢
  have hdate : u.date = ⟨1900 + year, mon.toNat, 1⟩ := by
    refine Date.number_inj h.date hv ?_
    have hinst := h.instant
    have := h.hour
    have := h.min
    have := h.sec
    rw [secondsFrom, h1970] at hinst
    omega
  refine ⟨by rw [h.wday, hdate], ?_⟩
  rw [h.yday, hdate, Date.dayOfYear]
  exact add_sub_cancel_right _ _

theorem calcYday_eq (junk : ℤ × ℤ) {year : ℤ} (hy : 70 ≤ year ∧ year ≤ 206) (hr : r.Valid) :
    calcYday g junk r year = orderDay r year := by
  rw [calcYday, orderDay, ruleDay]
  by_cases h0 : r.isdst = 0
  · obtain ⟨hw0, hw1⟩ := hr.wday h0
    have hm := hr.mon h0
    obtain ⟨hwd, hyd⟩ := mktime_first g.bare junk junk.1 junk.2 hy hm
    rw [if_pos h0, if_neg (by omega), if_pos h0, Date.dayOfYear]
    dsimp only
    rw [hwd, hyd, monthDays_eq _ hm, nthWeekday, firstWeekday]
    have hb : 0 ≤ Date.weekday ⟨1900 + year, r.mon.toNat, 1⟩ ∧
        Date.weekday ⟨1900 + year, r.mon.toNat, 1⟩ < 7 := by
      rw [Date.weekday]
      omega
    rw [Int.tmod_eq_emod_of_nonneg (by omega)]
    generalize Date.weekday ⟨1900 + year, r.mon.toNat, 1⟩ = w at hb ⊢
    generalize monthLength (1900 + year) r.mon.toNat = len
    split_ifs <;> omega
  · rw [if_neg h0, if_neg h0]
    split
    · rfl
    · rfl

/-- rules of the form `M` in different months -/
theorem ruleDay_lt {r' : Rule} (hr : r.Valid) (hr' : r'.Valid) (h0 : r.isdst = 0) (h0' : r'.isdst = 0)
    (h : r.mon < r'.mon) (year : ℤ) : ruleDay r year < ruleDay r' year := by
  obtain ⟨hm0, hm1⟩ := hr.mon h0
  obtain ⟨hm0', hm1'⟩ := hr'.mon h0'
  obtain ⟨hv, -, -⟩ := nthWeekday_spec (1900 + year) (show r.mon.toNat < 12 by omega) (hr.week h0)
    (hr.wday h0)
  obtain ⟨hv', -, -⟩ := nthWeekday_spec (1900 + year) (show r'.mon.toNat < 12 by omega)
    (hr'.week h0') (hr'.wday h0')
  have hlast := hv.last
  have hfirst := hv'.first
  have hms := monthStart_mono (1900 + year) (show r.mon.toNat + 1 ≤ r'.mon.toNat by omega) (by omega)
  rw [monthStart_succ _ (by omega)] at hms
  rw [ruleDay, ruleDay, if_pos h0, if_pos h0', Date.dayOfYear, Date.dayOfYear]
  dsimp only at hlast hfirst ⊢
  omega

/-- the order is that of the days -/
theorem checkOrder_iff (junk : ℤ × ℤ) {year : ℤ} (hy : 70 ≤ year ∧ year ≤ 206)
    (hs : g.startDst.Valid) (he : g.endDst.Valid) :
    checkOrder g junk year = true ↔ orderDay g.endDst year < orderDay g.startDst year := by
  rw [checkOrder, calcYday_eq junk hy hs, calcYday_eq junk hy he]
  by_cases h0 : g.startDst.isdst = 0 ∧ g.endDst.isdst = 0
  · have hends : orderDay g.endDst year = ruleDay g.endDst year := if_neg (by omega)
    have hstart : orderDay g.startDst year = ruleDay g.startDst year := if_neg (by omega)
    rw [if_pos h0, hends, hstart]
    by_cases h1 : g.endDst.mon < g.startDst.mon
    · rw [if_pos h1]
      exact iff_of_true rfl (ruleDay_lt he hs h0.2 h0.1 h1 year)
    · rw [if_neg h1]
      by_cases h2 : g.startDst.mon < g.endDst.mon
      · rw [if_pos h2]
        exact iff_of_false Bool.false_ne_true (lt_asymm (ruleDay_lt hs he h0.1 h0.2 h2 year))
      · rw [if_neg h2, decide_eq_true_eq]
  · rw [if_neg h0, decide_eq_true_eq]

/-! ## where the answer is right -/

/-- the order that was found is that of the instants, and the time does not lie between the end and
the instant it is compared with on the side that counts; where the order is the other one, both
answers happen to be the same -/
def Agrees (g : Rules) (junk : ℤ × ℤ) (t : Tm) : Prop :=
  let s := ruleInstant g.startDst t.year
  let e := ruleInstant g.endDst t.year
  let e' := comparedInstant g.endDst t.year
  let x := t.sinceNewYear
  if checkOrder g junk t.year = true ↔ e < s then
    ¬ (min e e' ≤ x ∧ x < max e e' ∧ if e < s then x < s else s ≤ x)
  else if e < s then (s ≤ x ∧ x < e') ∨ (e ≤ x ∧ x < s)
  else (s ≤ x ∧ x < e) ∨ (x < s ∧ e' ≤ x)

end

/-- `EST5EDT,M4.1.0/2,M10.5.0/`: from the first Sunday of April to the last one of October, at an
hour and a minute in standard time -/
def eastern (hour min : ℤ) : Rules :=
  ⟨18000, 3600, 1, ⟨0, 0, 2, 1, 3, 0, 0, 0⟩, ⟨0, min, hour, 5, 9, 0, 0, 0⟩⟩

/-- a date of the form `M` -/
theorem Rule.valid_of_month {r : Rule} (h0 : r.isdst = 0) (hm : 0 ≤ r.mon ∧ r.mon < 12)
    (hn : 1 ≤ r.mday ∧ r.mday ≤ 5) (hd : 0 ≤ r.wday ∧ r.wday < 7) : r.Valid where
  form := .inl h0
  mon := fun _ => hm
  week := fun _ => hn
  wday := fun _ => hd
  julian := fun h => by omega
  day := fun h => by omega

theorem eastern_valid (hour min : ℤ) :
    (eastern hour min).startDst.Valid ∧ (eastern hour min).endDst.Valid :=
  ⟨Rule.valid_of_month rfl (show (0 : ℤ) ≤ 3 ∧ (3 : ℤ) < 12 by decide)
      (show (1 : ℤ) ≤ 1 ∧ (1 : ℤ) ≤ 5 by decide) (show (0 : ℤ) ≤ 0 ∧ (0 : ℤ) < 7 by decide),
    Rule.valid_of_month rfl (show (0 : ℤ) ≤ 9 ∧ (9 : ℤ) < 12 by decide)
      (show (1 : ℤ) ≤ 5 ∧ (5 : ℤ) ≤ 5 by decide) (show (0 : ℤ) ≤ 0 ∧ (0 : ℤ) < 7 by decide)⟩

/-- 30 October 1999, 23:45 -/
def saturdayNight : Tm := ⟨0, 45, 23, 30, 9, 99, 6, 302, -1⟩

theorem saturdayNight_is : saturdayNight.Is 941327100 where
  mon := by decide
  date := ⟨by decide, by decide, by decide⟩
  hour := by decide
  min := by decide
  sec := by decide
  yday := by decide
  wday := by decide
  instant := by decide

end CTime
