import OpenWatcom.Clib.MkTime

/-!
# `localtime` and back: `localtim.c`, `mktime.c`

* `delta`     the difference that `_localtime` comes to
* `localSeconds`     the seconds of the local time, from -12 hours on
* `localtime_is`     the fields are the date of these seconds
* `mktime_localtime_iff`     which values come back
-/

namespace CTime

open Calendar

/-! ## the local time -/

/-- the local time that a value is broken down to: it may lie before 1970 for the first twelve hours
west, and wraps otherwise -/
def localSeconds (timer gmtdelta : ℤ) : ℤ :=
  if timer < 12 * 60 * 60 ∧ 0 < gmtdelta then ulong (timer + 86400 - gmtdelta) - 86400
  else ulong (timer - gmtdelta)

theorem localSeconds_bounds (timer gmtdelta : ℤ) :
    -86400 ≤ localSeconds timer gmtdelta ∧ localSeconds timer gmtdelta < 2 ^ 32 := by
  rw [localSeconds]
  split
  · unfold ulong
    omega
  · unfold ulong
    omega

theorem localSeconds_dvd (timer gmtdelta : ℤ) :
    (2 ^ 32 : ℤ) ∣ localSeconds timer gmtdelta - (timer - gmtdelta) := by
  rw [localSeconds]
  split
  · unfold ulong
    omega
  · unfold ulong
    omega

theorem brktime_local (t : Tm) (timer gmtdelta : ℤ) :
    (brktime daysFrom1900To1970 timer gmtdelta t).Is (localSeconds timer gmtdelta) := by
  have hb := localSeconds_bounds timer gmtdelta
  have hday : (0 : ℤ) ≤ daysFrom1900To1970 + localSeconds timer gmtdelta / 86400 ∧
      daysFrom1900To1970 + localSeconds timer gmtdelta / 86400 < 2 ^ 32 - 1 := by
    unfold daysFrom1900To1970
    omega
  have h := brktime_is t daysFrom1900To1970 timer gmtdelta
    (show _ = daysFrom1900To1970 + localSeconds timer gmtdelta / 86400 by
      unfold localSeconds secondsPerDay
      by_cases hc : timer < 12 * 60 * 60 ∧ 0 < gmtdelta
      · rw [if_pos hc, if_pos hc, if_pos hc]
        omega
      · rw [if_neg hc, if_neg hc, if_neg hc])
    (show _ = localSeconds timer gmtdelta % 86400 by
      unfold localSeconds secondsPerDay
      by_cases hc : timer < 12 * 60 * 60 ∧ 0 < gmtdelta
      · rw [if_pos hc, if_pos hc]
        omega
      · rw [if_neg hc, if_neg hc]) hday.1 hday.2
  have e : (daysFrom1900To1970 + localSeconds timer gmtdelta / 86400 - daysFrom1900To1970) * 86400
      + localSeconds timer gmtdelta % 86400 = localSeconds timer gmtdelta := by omega
  rw [e] at h
  exact h

/-! ## `_localtime` -/

/-- the local standard time that the rules are asked about -/
def Zone.standard (z : Zone) (timer : ℤ) (t : Tm) : Tm :=
  brktime daysFrom1900To1970 timer z.timezone { t with isdst := -1 }

/-- the difference to UTC that is taken in the end -/
def Zone.delta (z : Zone) (timer : ℤ) (t : Tm) : ℤ :=
  if z.rules (z.standard timer t) then long (z.timezone - z.dstAdjust) else z.timezone

theorem brktime_isdst (days wallclock gmtdelta : ℤ) (t : Tm) :
    (brktime days wallclock gmtdelta t).isdst = t.isdst := rfl

/-- the rules are asked once, and their answer stays in the fields -/
theorem localtime_is (z : Zone) (timer : ℤ) (t : Tm) :
    (localtime z timer t).Is (localSeconds timer (z.delta timer t)) ∧
      (localtime z timer t).isdst = if z.rules (z.standard timer t) then 1 else 0 := by
  have hdst : z.isindst (brktime daysFrom1900To1970 timer z.timezone { t with isdst := -1 })
      = if z.rules (z.standard timer t) then 1 else 0 := if_neg (by decide : ¬ (0 : ℤ) ≤ -1)
  rw [localtime, Zone.delta]
  rw [hdst]
  cases z.rules (z.standard timer t) with
  | true =>
    simp only [if_true, ne_eq, one_ne_zero, not_false_eq_true]
    exact ⟨brktime_local _ timer _, rfl⟩
  | false =>
    simp only [Bool.false_eq_true, if_false, ne_eq, not_true_eq_false]
    have h := brktime_local { t with isdst := -1 } timer z.timezone
    exact ⟨⟨h.mon, h.date, h.hour, h.min, h.sec, h.yday, h.wday, h.instant⟩, trivial⟩

/-! ## back -/

theorem long_congr {a b : ℤ} (h : (2 ^ 32 : ℤ) ∣ a - b) : long a = long b := by
  have ha := long_dvd a
  have hb := long_dvd b
  have ha' := long_bounds a
  have hb' := long_bounds b
  omega

/-- what `mktime` returns for a local time: the value, unless a check of the days takes it for one
out of the range -/
theorem mktime_localtime (z : Zone) (junk : ℤ × ℤ) (t : Tm) {timer : ℤ}
    (h : 0 ≤ timer ∧ timer < 2 ^ 32) : (mktime z junk (localtime z timer t)).1 =
      if (timer < 2 ^ 31 ∧ 49709 * 86400 ≤ localSeconds timer (z.delta timer t)) ∨
        (2 ^ 31 ≤ timer ∧ localSeconds timer (z.delta timer t) < 86400) then failed else timer := by
  obtain ⟨his, hdst⟩ := localtime_is z timer t
  have hb := localSeconds_bounds timer (z.delta timer t)
  have hdvd := localSeconds_dvd timer (z.delta timer t)
  have hmk := his.localMktime_eq ⟨hb.1, by omega⟩
  have hlong : long timer = if timer < 2 ^ 31 then timer else timer - 2 ^ 32 := by
    split
    · exact long_eq (by omega) (by omega)
    · rw [long_congr (b := timer - 2 ^ 32) (by omega)]
      exact long_eq (by omega) (by omega)
  generalize hu : brktime (ulong (daysFrom1900To1970 + localSeconds timer (z.delta timer t) / 86400))
    (ulong (localSeconds timer (z.delta timer t) % 86400)) 0 (localtime z timer t) = u
  have hin : z.isindst u = if z.rules (z.standard timer t) then 1 else 0 := by
    have hisdst : u.isdst = if z.rules (z.standard timer t) then 1 else 0 := by
      rw [← hu, ← hdst]
      rfl
    rw [Zone.isindst, hisdst, if_pos]
    split <;> decide
  -- the offset that was subtracted is added again
  have hback : (if z.isindst u ≠ 0
        then long (long (ulong (localSeconds timer (z.delta timer t)) + z.timezone) - z.dstAdjust)
        else long (ulong (localSeconds timer (z.delta timer t)) + z.timezone)) = long timer := by
    rw [hin]
    rw [Zone.delta] at hdvd ⊢
    unfold ulong
    generalize z.rules (z.standard timer t) = r at hdvd ⊢
    cases r with
    | true =>
      simp only [if_true] at hdvd ⊢
      rw [if_pos one_ne_zero]
      have h1 := long_dvd (z.timezone - z.dstAdjust)
      have h2 := long_dvd (localSeconds timer (long (z.timezone - z.dstAdjust)) % 2 ^ 32 + z.timezone)
      exact long_congr (by omega)
    | false =>
      simp only [Bool.false_eq_true, if_false] at hdvd ⊢
      rw [if_neg (not_not.mpr rfl)]
      exact long_congr (by omega)
  rw [mktime, hmk]
  dsimp only [Option.getD_some]
  simp only [hu, hback]
  rw [apply_ite Prod.fst]
  generalize localSeconds timer (z.delta timer t) = L at hb ⊢
  dsimp only
  have hiff : (75279 ≤ daysFrom1900To1970 + L / 86400 ∨
      (0 ≤ long timer ∧ 75276 ≤ daysFrom1900To1970 + L / 86400) ∨
      (long timer < 0 ∧ daysFrom1900To1970 + L / 86400 ≤ daysFrom1900To1970)) ↔
      (timer < 2 ^ 31 ∧ 49709 * 86400 ≤ L) ∨ (2 ^ 31 ≤ timer ∧ L < 86400) := by
    unfold daysFrom1900To1970
    split at hlong <;> omega
  rw [if_congr hiff rfl rfl, show ulong (long timer) = timer by
    unfold ulong
    split at hlong <;> omega]

/-- the value and its local time lie at different ends of the range -/
def Wraps (timer gmtdelta : ℤ) : Prop :=
  (timer < 2 ^ 31 ∧ 49709 * 86400 ≤ localSeconds timer gmtdelta) ∨
    (2 ^ 31 ≤ timer ∧ timer ≠ 2 ^ 32 - 1 ∧ localSeconds timer gmtdelta < 86400)

/-- for an offset of less than a day: the value lies behind the first twelve hours and the local time
before 1970, or the local time behind the end of the range -/
theorem wraps_iff {timer gmtdelta : ℤ} (h : 0 ≤ timer ∧ timer < 2 ^ 32)
    (hg : -86400 < gmtdelta ∧ gmtdelta < 86400) :
    Wraps timer gmtdelta ↔ (12 * 60 * 60 ≤ timer ∧ timer < gmtdelta) ∨
      (2 ^ 32 ≤ timer - gmtdelta ∧ timer ≠ 2 ^ 32 - 1) := by
  rw [Wraps, localSeconds]
  unfold ulong
  by_cases hc : timer < 12 * 60 * 60 ∧ 0 < gmtdelta
  · rw [if_pos hc]
    omega
  · rw [if_neg hc]
    omega

/-- a value comes back unless it and its local time lie at different ends of the range -/
theorem mktime_localtime_iff (z : Zone) (junk : ℤ × ℤ) (t : Tm) {timer : ℤ}
    (h : 0 ≤ timer ∧ timer < 2 ^ 32) :
    (mktime z junk (localtime z timer t)).1 = timer ↔ ¬ Wraps timer (z.delta timer t) := by
  rw [mktime_localtime z junk t h, Wraps]
  split
  · unfold failed
    omega
  · refine iff_of_true rfl ?_
    omega

/-- five hours west, with daylight saving time: the last second of the range -/
theorem last_second : (mktime ⟨18000, 3600, fun _ => true⟩ (0, 0)
    (localtime ⟨18000, 3600, fun _ => true⟩ (2 ^ 32 - 1) ⟨0, 0, 0, 0, 0, 0, 0, 0, 0⟩)).1 = 2 ^ 32 - 1 :=
  (mktime_localtime_iff _ _ _ (by decide)).mpr fun h => by
    have h' := (@wraps_iff _ 14400 (by decide) (by decide)).mp h
    omega

/-- fourteen hours west: noon of 1 January 1970 in UTC -/
theorem noon_lost : (mktime ⟨50400, 0, fun _ => false⟩ (0, 0)
    (localtime ⟨50400, 0, fun _ => false⟩ 43200 ⟨0, 0, 0, 0, 0, 0, 0, 0, 0⟩)).1 ≠ 43200 := by
  rw [mktime_localtime _ _ _ (by decide)]
  decide

end CTime
