import Mathlib

/-!
# The proleptic Gregorian calendar

* `Leap`, `yearLength`, `monthLength`     the lengths of years and months, which are numbered from 0
* `daysBefore`, `monthStart`     the days in front of a year and of a month
* `Date.number`, `Date.weekday`     the days from 1 January of year 1, and 0 for a Sunday
* `Date.number_inj`     a day has one date
* `nthWeekday`     the first to fourth, or the last, of a weekday in a month
-/

namespace Calendar

def Leap (y : ℤ) : Prop := 4 ∣ y ∧ (¬ 100 ∣ y ∨ 400 ∣ y)

instance (y : ℤ) : Decidable (Leap y) := inferInstanceAs (Decidable (_ ∧ _))

def yearLength (y : ℤ) : ℤ := if Leap y then 366 else 365

/-- the days from 1 January of year 1 to 1 January of year `y` -/
def daysBefore (y : ℤ) : ℤ := 365 * (y - 1) + (y - 1) / 4 - (y - 1) / 100 + (y - 1) / 400

theorem yearLength_pos (y : ℤ) : 0 < yearLength y := by
  rw [yearLength]
  split <;> decide

theorem daysBefore_one : daysBefore 1 = 0 := rfl

theorem daysBefore_succ (y : ℤ) : daysBefore (y + 1) = daysBefore y + yearLength y := by
  rw [daysBefore, daysBefore, yearLength]
  by_cases h : Leap y
  · rw [if_pos h]
    unfold Leap at h
    omega
  · rw [if_neg h]
    unfold Leap at h
    omega

theorem daysBefore_strictMono : StrictMono daysBefore :=
  strictMono_int_of_lt_succ fun y => by
    rw [daysBefore_succ]
    exact lt_add_of_pos_right _ (yearLength_pos y)

/-- a day of a year has one year -/
theorem year_unique {y y' k k' : ℤ} (hk : 0 ≤ k ∧ k < yearLength y) (hk' : 0 ≤ k' ∧ k' < yearLength y')
    (h : daysBefore y + k = daysBefore y' + k') : y = y' ∧ k = k' := by
  have key : ∀ {a b i j : ℤ}, i < yearLength a → 0 ≤ j → daysBefore a + i = daysBefore b + j →
      b ≤ a := by
    intro a b i j hi hj he
    by_contra hlt
    have hle := daysBefore_strictMono.monotone (show a + 1 ≤ b by omega)
    rw [daysBefore_succ] at hle
    omega
  have hy : y = y' := le_antisymm (key hk'.2 hk.1 h.symm) (key hk.2 hk'.1 h)
  rw [hy] at h
  exact ⟨hy, by omega⟩

/-! ## months -/

def monthLengths (y : ℤ) : List ℤ :=
  [31, if Leap y then 29 else 28, 31, 30, 31, 30, 31, 31, 30, 31, 30, 31]

def monthLength (y : ℤ) (m : ℕ) : ℤ := (monthLengths y).getD m 0

/-- the days from 1 January to the first day of a month -/
def monthStart (y : ℤ) (m : ℕ) : ℤ := ((monthLengths y).take m).sum

theorem monthLength_pos (y : ℤ) {m : ℕ} (hm : m < 12) : 0 < monthLength y m := by
  rw [monthLength, monthLengths]
  split <;> interval_cases m <;> decide

theorem monthStart_succ (y : ℤ) {m : ℕ} (hm : m < 12) :
    monthStart y (m + 1) = monthStart y m + monthLength y m := by
  have hlen : m < (monthLengths y).length := hm
  rw [monthStart, monthStart, monthLength, List.take_succ_eq_append_getElem hlen, List.sum_append,
    List.sum_singleton, List.getD_eq_getElem _ _ hlen]

theorem monthStart_twelve (y : ℤ) : monthStart y 12 = yearLength y := by
  rw [monthStart, monthLengths, yearLength]
  split <;> rfl

theorem monthStart_mono (y : ℤ) {m m' : ℕ} (h : m ≤ m') (hm : m' ≤ 12) :
    monthStart y m ≤ monthStart y m' := by
  induction m', h using Nat.le_induction with
  | base => exact le_refl _
  | succ k hk ih =>
    rw [monthStart_succ y (by omega)]
    have := monthLength_pos y (show k < 12 by omega)
    have := ih (by omega)
    omega

/-- a day of a month has one month -/
theorem month_unique (y : ℤ) {m m' : ℕ} {d d' : ℤ} (hm : m < 12) (hm' : m' < 12)
    (hd : 1 ≤ d ∧ d ≤ monthLength y m) (hd' : 1 ≤ d' ∧ d' ≤ monthLength y m')
    (h : monthStart y m + d = monthStart y m' + d') : m = m' ∧ d = d' := by
  have key : ∀ {a b : ℕ} {i j : ℤ}, b < 12 → i ≤ monthLength y a → 1 ≤ j →
      monthStart y a + i = monthStart y b + j → b ≤ a := by
    intro a b i j hb hi hj he
    by_contra hlt
    have hle := monthStart_mono y (show a + 1 ≤ b by omega) hb.le
    rw [monthStart_succ y (by omega)] at hle
    omega
  have hmm : m = m' := le_antisymm (key hm hd'.2 hd.1 h.symm) (key hm' hd.2 hd'.1 h)
  rw [hmm] at h
  exact ⟨hmm, by omega⟩

/-! ## dates -/

structure Date where
  year : ℤ
  month : ℕ
  day : ℤ

structure Date.Valid (d : Date) : Prop where
  month : d.month < 12
  first : 1 ≤ d.day
  last : d.day ≤ monthLength d.year d.month

/-- the days of the year in front of a date -/
def Date.dayOfYear (d : Date) : ℤ := monthStart d.year d.month + d.day - 1

def Date.number (d : Date) : ℤ := daysBefore d.year + d.dayOfYear

def Date.weekday (d : Date) : ℤ := (d.number + 1) % 7

section
variable {d d' : Date}

theorem Date.Valid.dayOfYear (h : d.Valid) : 0 ≤ d.dayOfYear ∧ d.dayOfYear < yearLength d.year := by
  have h0 := monthStart_mono d.year (Nat.zero_le d.month) h.month.le
  have h1 := monthStart_mono d.year (show d.month + 1 ≤ 12 from h.month) (le_refl 12)
  rw [monthStart_succ d.year h.month, monthStart_twelve] at h1
  rw [show monthStart d.year 0 = 0 from rfl] at h0
  have := h.first
  have := h.last
  rw [Date.dayOfYear]
  omega

theorem Date.number_inj (h : d.Valid) (h' : d'.Valid) (he : d.number = d'.number) : d = d' := by
  obtain ⟨hy, hk⟩ := year_unique h.dayOfYear h'.dayOfYear he
  obtain ⟨y, m, k⟩ := d
  obtain ⟨y', m', k'⟩ := d'
  obtain rfl : y = y' := hy
  rw [Date.dayOfYear, Date.dayOfYear] at hk
  obtain ⟨hm, hd⟩ := month_unique y h.month h'.month ⟨h.first, h.last⟩ ⟨h'.first, h'.last⟩
    (show monthStart y m + k = monthStart y m' + k' by dsimp only at hk; omega)
  obtain rfl : m = m' := hm
  obtain rfl : k = k' := hd
  rfl

end

/-! ## weekdays of a month -/

/-- the first day of a month that is the weekday `w` -/
def firstWeekday (y : ℤ) (m : ℕ) (w : ℤ) : ℤ := 1 + (w - Date.weekday ⟨y, m, 1⟩) % 7

/-- the day of the month that is the `n`th weekday `w`, the last one for 5 -/
def nthWeekday (y : ℤ) (m : ℕ) (n w : ℤ) : ℤ :=
  if n = 5 then
    if firstWeekday y m w + 28 ≤ monthLength y m then firstWeekday y m w + 28
    else firstWeekday y m w + 21
  else firstWeekday y m w + 7 * (n - 1)

theorem weekday_eq (y : ℤ) (m : ℕ) (d : ℤ) :
    Date.weekday ⟨y, m, d⟩ = (Date.weekday ⟨y, m, 1⟩ + (d - 1)) % 7 := by
  rw [Date.weekday, Date.weekday, Date.number, Date.number, Date.dayOfYear, Date.dayOfYear]
  dsimp only
  omega

theorem monthLength_bounds (y : ℤ) {m : ℕ} (hm : m < 12) :
    28 ≤ monthLength y m ∧ monthLength y m ≤ 31 := by
  rw [monthLength, monthLengths]
  split <;> interval_cases m <;> decide

/-- it is that weekday, in the week that was asked for -/
theorem nthWeekday_spec (y : ℤ) {m : ℕ} {n w : ℤ} (hm : m < 12) (hn : 1 ≤ n ∧ n ≤ 5)
    (hw : 0 ≤ w ∧ w < 7) :
    Date.Valid ⟨y, m, nthWeekday y m n w⟩ ∧ Date.weekday ⟨y, m, nthWeekday y m n w⟩ = w ∧
      if n = 5 then monthLength y m - 7 < nthWeekday y m n w
      else 7 * (n - 1) < nthWeekday y m n w ∧ nthWeekday y m n w ≤ 7 * n := by
  obtain ⟨hlo, hhi⟩ := monthLength_bounds y hm
  have hday : ∀ d, firstWeekday y m w % 7 = d % 7 → Date.weekday ⟨y, m, d⟩ = w := by
    intro d hd
    rw [weekday_eq]
    rw [firstWeekday] at hd
    omega
  have hfirst : 1 ≤ firstWeekday y m w ∧ firstWeekday y m w ≤ 7 := by
    rw [firstWeekday]
    omega
  by_cases h5 : n = 5
  · rw [nthWeekday, if_pos h5, if_pos h5]
    split
    · exact ⟨⟨hm, by dsimp only; omega, by dsimp only; omega⟩, hday _ (by omega), by omega⟩
    · exact ⟨⟨hm, by dsimp only; omega, by dsimp only; omega⟩, hday _ (by omega), by omega⟩
  · rw [nthWeekday, if_neg h5, if_neg h5]
    exact ⟨⟨hm, by dsimp only; omega, by dsimp only; omega⟩, hday _ (by omega), by omega⟩

end Calendar
