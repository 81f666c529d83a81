import OpenWatcom.Cfloat.Divide
import Mathlib.Data.List.GetD
import Mathlib.Algebra.Order.Field.Power
import Mathlib.Algebra.Order.Field.Rat
import Mathlib.Tactic.FieldSimp

/-!
# The normal form and its order

* `size`, `value`     the rational number that a `CFloat` denotes;
* `Normal`            zero, or a mantissa of at most 32 digits with a digit other than 0 at both ends;
* `cfClean_normal`    `CFClean` ends in the normal form unless it cuts digits off behind a 0;
* `cfClean_size`      and keeps the number unless it cuts;
* `cfOrder_size`      on the normal form `CFOrder` is the order of the numbers.
-/

namespace CFloat
open Numerals

/-- the absolute value -/
def size (f : CFloat) : ℚ := (val 10 f.mant : ℚ) * 10 ^ (f.exp - f.len)

/-- the number that `f` denotes -/
def value (f : CFloat) : ℚ := ((f.sign : Int) : ℚ) * f.size

/-- a mantissa of at most 32 digits without outer zeros -/
structure Mantissa (m : List Int) : Prop where
  digits : Digits 10 m
  nonempty : m ≠ []
  head : m.head? ≠ some 0
  last : m.getLast? ≠ some 0
  short : m.length ≤ maxPrec

/-- the normal form -/
def Normal (f : CFloat) : Prop := f = cfAlloc ∨ (f.sign ≠ 0 ∧ Mantissa f.mant)

theorem normal_alloc : cfAlloc.Normal := Or.inl rfl

theorem Normal.mantissa {f : CFloat} (h : f.Normal) (hs : f.sign ≠ 0) : Mantissa f.mant := by
  rcases h with rfl | h
  · exact absurd rfl hs
  · exact h.2

theorem Normal.eq_alloc {f : CFloat} (h : f.Normal) (hs : f.sign = 0) : f = cfAlloc := by
  rcases h with h | h
  · exact h
  · exact absurd hs h.1

theorem Normal.digits {f : CFloat} (h : f.Normal) : Digits 10 f.mant := by
  rcases h with rfl | h
  · decide
  · exact h.2.digits

theorem Normal.nonempty {f : CFloat} (h : f.Normal) : f.mant ≠ [] := by
  rcases h with rfl | h
  · decide
  · exact h.2.nonempty

theorem Mantissa.leading {m : List Int} (h : Mantissa m) : Leading m := by
  refine ⟨h.digits, fun e => ?_⟩
  cases m with
  | nil => exact h.nonempty rfl
  | cons d l => exact h.head (congrArg some e)

/-! ## CFClean -/

/-- a mantissa without its outer zeros -/
def strip (m : List Int) : List Int := (m.rdropWhile (· = 0)).dropWhile (· = 0)

/-- `CFClean` cuts digits off and the last digit that stays is a 0 -/
def Cuts (m : List Int) : Prop := maxPrec < (strip m).length ∧ (strip m).getD (maxPrec - 1) 0 = 0

instance (m : List Int) : Decidable (Cuts m) := inferInstanceAs (Decidable (_ ∧ _))

theorem strip_digits {m : List Int} (h : Digits 10 m) : Digits 10 (strip m) :=
  h.sublist ((List.dropWhile_sublist _).trans (List.rdropWhile_prefix _ _).sublist)

theorem strip_length_le (m : List Int) : (strip m).length ≤ m.length :=
  ((List.dropWhile_sublist _).trans (List.rdropWhile_prefix _ _).sublist).length_le

theorem strip_head (m : List Int) : (strip m).head? ≠ some 0 := head_strip_left _

theorem strip_last (m : List Int) : (strip m).getLast? ≠ some 0 := by
  rw [strip, last_strip_left (last_strip_right m)]
  exact last_strip_right m

/-- only a mantissa of zeros is stripped of everything -/
theorem strip_eq_nil {m : List Int} (h : strip m = []) : ∀ d ∈ m, d = 0 := by
  have h1 : m.rdropWhile (· = 0) = [] := by
    have h2 := List.dropWhile_eq_nil_iff.mp h
    by_contra hne
    have h3 := h2 _ (List.getLast_mem hne)
    have h4 := last_strip_right m
    rw [List.getLast?_eq_some_getLast hne] at h4
    exact h4 (congrArg some (by simpa using h3))
  intro d hd
  have h2 := List.rdropWhile_eq_nil_iff.mp h1 d hd
  simpa using h2

theorem cfClean_zero {f : CFloat} (h : ∀ d ∈ f.mant, d = 0) (hne : f.mant ≠ []) :
    cfClean f = cfAlloc := by
  have e : f.mant.rdropWhile (· = 0) = [] :=
    List.rdropWhile_eq_nil_iff.mpr fun d hd => by simpa using h d hd
  rw [cfClean]
  exact if_pos ⟨e, hne⟩

theorem cfClean_eq {f : CFloat} (h : strip f.mant ≠ []) : cfClean f
    = ⟨f.exp - ((f.mant.rdropWhile (· = 0)).length - (strip f.mant).length : Nat), f.sign,
      (strip f.mant).take maxPrec⟩ := by
  have hne : f.mant.rdropWhile (· = 0) ≠ [] := by
    intro e
    rw [strip, e] at h
    exact h rfl
  rw [cfClean]
  exact if_neg fun hc => hne hc.1

theorem cfClean_sign {f : CFloat} (h : strip f.mant ≠ []) : (cfClean f).sign = f.sign := by
  rw [cfClean_eq h]

/-- what is cut to 32 digits ends in the normal form or behind a 0 -/
theorem take_mantissa {m : List Int} (hd : Digits 10 m) (hne : strip m ≠ []) :
    Mantissa ((strip m).take maxPrec) ↔ ¬ Cuts m := by
  have h32 : maxPrec ≠ 0 := by decide
  have hlast : ((strip m).take maxPrec).getLast? = some 0 ↔ Cuts m := by
    rw [List.getLast?_take, if_neg h32]
    by_cases hl : maxPrec < (strip m).length
    · have hi : maxPrec - 1 < (strip m).length := by omega
      rw [List.getElem?_eq_getElem hi, Option.some_or, Cuts, List.getD_eq_getElem _ _ hi]
      exact ⟨fun e => ⟨hl, Option.some.inj e⟩, fun e => congrArg some e.2⟩
    · constructor
      · intro e
        rcases Nat.lt_or_ge (maxPrec - 1) (strip m).length with hi | hi
        · -- the digit at the end is the last one
          have hlen : maxPrec = (strip m).length := by omega
          rw [List.getElem?_eq_getElem hi, Option.some_or] at e
          have e2 := strip_last m
          rw [List.getLast?_eq_getElem?, ← hlen, List.getElem?_eq_getElem hi] at e2
          exact absurd e e2
        · rw [List.getElem?_eq_none hi, Option.none_or] at e
          exact absurd e (strip_last m)
      · exact fun hc => absurd hc.1 hl
  constructor
  · intro h hc
    exact h.last (hlast.mpr hc)
  · intro hc
    refine ⟨(strip_digits hd).sublist (List.take_sublist _ _), ?_, ?_, fun e => hc (hlast.mp e),
      by simp⟩
    · intro e
      rcases List.take_eq_nil_iff.mp e with h0 | h0
      · exact h32 h0
      · exact hne h0
    · rw [List.head?_take, if_neg h32]
      exact strip_head m

/-- `CFClean` ends in the normal form unless it cuts behind a 0 -/
theorem cfClean_normal {f : CFloat} (hd : Digits 10 f.mant) (hne : f.mant ≠ []) (hs : f.sign ≠ 0) :
    (cfClean f).Normal ↔ ¬ Cuts f.mant := by
  by_cases h0 : strip f.mant = []
  · rw [cfClean_zero (strip_eq_nil h0) hne]
    refine iff_of_true normal_alloc fun hc => ?_
    rw [Cuts, h0] at hc
    exact absurd hc.1 (by decide)
  · rw [cfClean_eq h0, ← take_mantissa hd h0]
    constructor
    · exact fun h => h.mantissa hs
    · exact fun h => Or.inr ⟨hs, h⟩

/-- a mantissa of a number below `10 ^ 32` is not cut -/
theorem strip_short {m : List Int} (hd : Digits 10 m) (h : val 10 m < 10 ^ maxPrec) :
    (strip m).length ≤ maxPrec := by
  by_contra hlt
  obtain ⟨d, l, e⟩ : ∃ d l, strip m = d :: l := by
    cases hs : strip m with
    | nil =>
      rw [hs] at hlt
      exact absurd (Nat.zero_le _) hlt
    | cons d l => exact ⟨d, l, rfl⟩
  have hd0 : d ≠ 0 := by
    rintro rfl
    exact strip_head m (by rw [e]; rfl)
  have h1 := val_ge (b := 10) (by norm_num) (e ▸ strip_digits hd) hd0
  rw [← e, strip, val_strip_left] at h1
  have h2 := val_strip_right (b := 10) m
  have h3 : val 10 (m.rdropWhile (· = 0)) ≤ val 10 m := by
    rw [h2]
    have hp : (1 : Int) ≤ 10 ^ (m.length - (m.rdropWhile (· = 0)).length) :=
      one_le_pow₀ (by norm_num)
    have h4 : 0 ≤ val 10 (m.rdropWhile (· = 0)) :=
      val_nonneg (by norm_num) (hd.sublist (List.rdropWhile_prefix _ _).sublist)
    exact le_mul_of_one_le_right h4 hp
  have h5 : (10 : Int) ^ maxPrec ≤ 10 ^ l.length := by
    refine pow_le_pow_right₀ (by norm_num) ?_
    rw [e, List.length_cons] at hlt
    omega
  omega

theorem size_alloc : cfAlloc.size = 0 := by
  rw [size]
  have h : val 10 cfAlloc.mant = 0 := by decide
  rw [h, Int.cast_zero, zero_mul]

/-- `CFClean` keeps the number unless it cuts digits off -/
theorem cfClean_size {f : CFloat} (hne : f.mant ≠ []) (h : (strip f.mant).length ≤ maxPrec) :
    (cfClean f).size = f.size := by
  by_cases h0 : strip f.mant = []
  · rw [cfClean_zero (strip_eq_nil h0) hne, size_alloc, size, val_of_zeros (strip_eq_nil h0),
      Int.cast_zero, zero_mul]
  · have hle : (strip f.mant).length ≤ (f.mant.rdropWhile (· = 0)).length :=
      (List.dropWhile_sublist _).length_le
    have hle2 : (f.mant.rdropWhile (· = 0)).length ≤ f.mant.length :=
      (List.rdropWhile_prefix _ _).sublist.length_le
    rw [cfClean_eq h0, size, size, len, len]
    dsimp only
    rw [List.take_of_length_le h, val_strip_right f.mant, Int.cast_mul, Int.cast_pow, mul_assoc]
    have e1 : val 10 (strip f.mant) = val 10 (f.mant.rdropWhile (· = 0)) := val_strip_left _
    have e2 : ((10 : Int) : ℚ) = 10 := by norm_num
    rw [e1, e2, ← zpow_natCast, ← zpow_add₀ (by norm_num)]
    congr 2
    omega

/-! ## the order -/

/-- the comparison `c` tells how `x` and `y` are ordered -/
def Orders {α : Type} [LT α] (c : Int) (x y : α) : Prop :=
  (c < 0 ↔ x < y) ∧ (c = 0 ↔ x = y) ∧ (0 < c ↔ y < x)

theorem Orders.of_lt {α : Type} [LinearOrder α] {c : Int} {x y : α} (hc : c < 0) (h : x < y) :
    Orders c x y :=
  ⟨iff_of_true hc h, iff_of_false (by omega) h.ne, iff_of_false (by omega) h.not_gt⟩

theorem Orders.of_gt {α : Type} [LinearOrder α] {c : Int} {x y : α} (hc : 0 < c) (h : y < x) :
    Orders c x y :=
  ⟨iff_of_false (by omega) h.not_gt, iff_of_false (by omega) h.ne', iff_of_true hc h⟩

theorem Orders.of_eq {α : Type} [LinearOrder α] {c : Int} {x y : α} (hc : c = 0) (h : x = y) :
    Orders c x y := by
  subst h
  exact ⟨iff_of_false (by omega) (lt_irrefl _), iff_of_true hc rfl,
    iff_of_false (by omega) (lt_irrefl _)⟩

/-- an order moved along a map that keeps it -/
theorem Orders.map {α β : Type} [LT α] [LT β] {c : Int} {x y : α} {u v : β} (h : Orders c x y)
    (h1 : x < y ↔ u < v) (h2 : x = y ↔ u = v) (h3 : y < x ↔ v < u) : Orders c u v :=
  ⟨h.1.trans h1, h.2.1.trans h2, h.2.2.trans h3⟩

theorem last_tail {d : Int} {m : List Int} (h : (d :: m).getLast? ≠ some 0) :
    m.getLast? ≠ some 0 := by
  cases m with
  | nil => simp
  | cons e m =>
    rw [List.getLast?_cons_cons] at h
    exact h

/-- mantissas that do not end in 0 are ordered as the fractions they stand for -/
theorem mantOrder_val {m1 m2 : List Int} (h1 : Digits 10 m1) (h2 : Digits 10 m2)
    (l1 : m1.getLast? ≠ some 0) (l2 : m2.getLast? ≠ some 0) :
    Orders (mantOrder m1 m2) (val 10 m1 * 10 ^ m2.length) (val 10 m2 * 10 ^ m1.length) := by
  induction m1 generalizing m2 with
  | nil =>
    have e : mantOrder [] m2 = -m2.length := by
      cases m2 <;> simp [mantOrder]
    rw [e, val_nil, zero_mul, List.length_nil, pow_zero, mul_one]
    cases m2 with
    | nil => exact Orders.of_eq rfl rfl
    | cons d m2 =>
      exact Orders.of_lt (by simp; omega) (val_pos (by norm_num) h2 (by simp) l2)
  | cons d1 m1 ih =>
    cases m2 with
    | nil =>
      have hp := val_pos (b := 10) (by norm_num) h1 (by simp) l1
      rw [val_nil, zero_mul, List.length_nil, pow_zero, mul_one]
      exact Orders.of_gt (by simp [mantOrder]) hp
    | cons d2 m2 =>
      obtain ⟨hd1, hm1⟩ := digits_cons.mp h1
      obtain ⟨hd2, hm2⟩ := digits_cons.mp h2
      have hv1 := val_lt (b := 10) (by norm_num) hm1
      have hv2 := val_lt (b := 10) (by norm_num) hm2
      have hn1 := val_nonneg (b := 10) (by norm_num) hm1
      have hn2 := val_nonneg (b := 10) (by norm_num) hm2
      have hih := ih hm1 hm2 (last_tail l1) (last_tail l2)
      have hp : (0 : Int) < 10 ^ m1.length * 10 := by positivity
      have hq : (0 : Int) < 10 ^ m2.length * 10 := by positivity
      have hpq : (0 : Int) < 10 ^ m1.length * 10 ^ m2.length * 10 := by positivity
      rw [mantOrder, val_cons, val_cons, List.length_cons, List.length_cons, pow_succ, pow_succ]
      by_cases hd : d1 = d2
      · rw [if_neg (not_not_intro hd), hd]
        refine hih.map ⟨fun h => ?_, fun h => ?_⟩ ⟨fun h => ?_, fun h => ?_⟩
          ⟨fun h => ?_, fun h => ?_⟩ <;> nlinarith
      · rw [if_pos hd]
        rcases lt_or_gt_of_ne hd with hlt | hlt
        · refine Orders.of_lt (by omega) ?_
          have e1 : (d1 * 10 ^ m1.length + val 10 m1) * (10 ^ m2.length * 10)
              < (d1 * 10 ^ m1.length + 10 ^ m1.length) * (10 ^ m2.length * 10) :=
            mul_lt_mul_of_pos_right (by omega) hq
          have e2 : (d1 + 1) * (10 ^ m1.length * 10 ^ m2.length * 10)
              ≤ d2 * (10 ^ m1.length * 10 ^ m2.length * 10) :=
            mul_le_mul_of_nonneg_right (by omega) hpq.le
          have e3 : 0 ≤ val 10 m2 * (10 ^ m1.length * 10) := mul_nonneg hn2 hp.le
          linarith
        · refine Orders.of_gt (by omega) ?_
          have e1 : (d2 * 10 ^ m2.length + val 10 m2) * (10 ^ m1.length * 10)
              < (d2 * 10 ^ m2.length + 10 ^ m2.length) * (10 ^ m1.length * 10) :=
            mul_lt_mul_of_pos_right (by omega) hp
          have e2 : (d2 + 1) * (10 ^ m1.length * 10 ^ m2.length * 10)
              ≤ d1 * (10 ^ m1.length * 10 ^ m2.length * 10) :=
            mul_le_mul_of_nonneg_right (by omega) hpq.le
          have e3 : 0 ≤ val 10 m1 * (10 ^ m2.length * 10) := mul_nonneg hn1 hq.le
          linarith

/-- the exponent bounds the number from both sides -/
theorem size_range {f : CFloat} (h : Mantissa f.mant) :
    (10 : ℚ) ^ (f.exp - 1) ≤ f.size ∧ f.size < 10 ^ f.exp := by
  obtain ⟨d, l, hm, hd, hl⟩ := h.leading.cons
  have h1 := val_ge (b := 10) (by norm_num) (hm ▸ h.digits) (by omega)
  have h2 := val_lt (b := 10) (by norm_num) h.digits
  have hp : (0 : ℚ) < 10 ^ (f.exp - f.len) := by positivity
  rw [← hm] at h1
  have h1q : ((10 : ℚ) ^ l.length) ≤ (val 10 f.mant : ℚ) := by exact_mod_cast h1
  have h2q : (val 10 f.mant : ℚ) < (10 : ℚ) ^ f.mant.length := by exact_mod_cast h2
  have hlen : (f.mant.length : Int) = l.length + 1 := by rw [hm]; rfl
  constructor
  · have e : (10 : ℚ) ^ (f.exp - 1) = 10 ^ l.length * 10 ^ (f.exp - f.len) := by
      rw [← zpow_natCast, ← zpow_add₀ (by norm_num), len, hlen]
      congr 1
      omega
    rw [e]
    exact mul_le_mul_of_nonneg_right h1q hp.le
  · have e : (10 : ℚ) ^ f.exp = 10 ^ f.mant.length * 10 ^ (f.exp - f.len) := by
      rw [← zpow_natCast, ← zpow_add₀ (by norm_num), len]
      congr 1
      omega
    rw [e]
    exact mul_lt_mul_of_pos_right h2q hp

theorem size_pos {f : CFloat} (h : Mantissa f.mant) : 0 < f.size :=
  lt_of_lt_of_le (by positivity) (size_range h).1

/-- on the normal form `CFOrder` is the order of the absolute values -/
theorem cfOrder_size {f1 f2 : CFloat} (h1 : Mantissa f1.mant) (h2 : Mantissa f2.mant) :
    Orders (cfOrder f1 f2) f1.size f2.size := by
  obtain ⟨lo1, hi1⟩ := size_range h1
  obtain ⟨lo2, hi2⟩ := size_range h2
  rw [cfOrder]
  by_cases he : f1.exp - f2.exp = 0
  · rw [if_pos he]
    have hord := mantOrder_val h1.digits h2.digits h1.last h2.last
    have hp : (0 : ℚ) < 10 ^ (f1.exp - f1.len - f2.len) := by positivity
    have e1 : f1.size = ((val 10 f1.mant * 10 ^ f2.mant.length : Int) : ℚ)
        * 10 ^ (f1.exp - f1.len - f2.len) := by
      rw [size, Int.cast_mul, Int.cast_pow, mul_assoc, Int.cast_ofNat, ← zpow_natCast,
        ← zpow_add₀ (by norm_num)]
      congr 2
      rw [len, len]
      omega
    have e2 : f2.size = ((val 10 f2.mant * 10 ^ f1.mant.length : Int) : ℚ)
        * 10 ^ (f1.exp - f1.len - f2.len) := by
      rw [size, Int.cast_mul, Int.cast_pow, mul_assoc, Int.cast_ofNat, ← zpow_natCast,
        ← zpow_add₀ (by norm_num)]
      congr 2
      rw [len, len]
      omega
    rw [e1, e2]
    refine hord.map ?_ ?_ ?_
    · rw [mul_lt_mul_iff_left₀ hp, Int.cast_lt]
    · rw [mul_left_inj' hp.ne', Int.cast_inj]
    · rw [mul_lt_mul_iff_left₀ hp, Int.cast_lt]
  · rw [if_neg he]
    rcases lt_or_gt_of_ne he with hlt | hlt
    · refine Orders.of_lt hlt (lt_of_lt_of_le hi1 (le_trans ?_ lo2))
      exact zpow_le_zpow_right₀ (by norm_num) (by omega)
    · refine Orders.of_gt hlt (lt_of_lt_of_le hi2 (le_trans ?_ lo1))
      exact zpow_le_zpow_right₀ (by norm_num) (by omega)

end CFloat
