import OpenWatcom.Cfloat.Runs
import OpenWatcom.Cfloat.Integers
import Mathlib.Algebra.Order.Floor.Ring
import Mathlib.Data.Rat.Floor

/-!
# What `CFTrunc` and `CFRound` make of a number

* `size_parts`     the digits in front of the point and those behind it;
* `cfTrunc_value`  `CFTrunc` is the integer part towards zero;
* `cfRound_value`  `CFRound` path by path;
* `rounding_iff`   `CFRound` is off by 1/2 at most, unless a negative number has one digit behind the
                   point and this digit is above 5: that path is meant for the tie.
-/

namespace CFloat
open Numerals

/-- the integer part of a number, towards zero -/
def towardZero (q : ℚ) : ℤ := if 0 ≤ q then ⌊q⌋ else ⌈q⌉

theorem towardZero_signed {s : SignType} {n : ℤ} {r : ℚ} (hn : 0 ≤ n) (h0 : 0 ≤ r) (h1 : r < 1) :
    towardZero (((s : ℤ) : ℚ) * (n + r)) = (s : ℤ) * n := by
  have hnq : (0 : ℚ) ≤ n := by exact_mod_cast hn
  have hfloor : ⌊(n : ℚ) + r⌋ = n := Int.floor_eq_iff.mpr ⟨by linarith, by linarith⟩
  cases s with
  | zero =>
    show towardZero (((0 : ℤ) : ℚ) * (n + r)) = 0 * n
    rw [Int.cast_zero, zero_mul, zero_mul, towardZero, if_pos (le_refl _), Int.floor_zero]
  | pos =>
    show towardZero (((1 : ℤ) : ℚ) * (n + r)) = 1 * n
    rw [Int.cast_one, one_mul, one_mul, towardZero, if_pos (by linarith), hfloor]
  | neg =>
    show towardZero (((-1 : ℤ) : ℚ) * (n + r)) = -1 * n
    have hneg : (((-1 : ℤ) : ℚ)) * (n + r) = -((n : ℚ) + r) := by
      push_cast
      ring
    rw [hneg, towardZero]
    by_cases hz : (n : ℚ) + r = 0
    · have hn0 : (n : ℚ) = 0 := by linarith
      have hn0' : n = 0 := by exact_mod_cast hn0
      rw [hz, hn0']
      simp
    · have hpos : 0 < (n : ℚ) + r := lt_of_le_of_ne (by linarith) (Ne.symm hz)
      rw [if_neg (by linarith), Int.ceil_neg, hfloor]
      ring

/-! ## the digits in front of the point and behind it -/

theorem size_parts {f : CFloat} (hd : Digits 10 f.mant) (h0 : 0 ≤ f.exp) (hlt : f.exp < f.len) :
    ∃ r : ℚ, f.size = (val 10 (f.mant.take f.exp.toNat) : ℚ) + r ∧
      (cfAccess f f.exp : ℚ) / 10 ≤ r ∧ r < ((cfAccess f f.exp : ℚ) + 1) / 10 ∧
      (f.len = f.exp + 1 → r = (cfAccess f f.exp : ℚ) / 10) := by
  have hlen : f.len = f.mant.length := rfl
  have hi : f.exp.toNat < f.mant.length := by omega
  obtain ⟨rest, hrest⟩ : ∃ rest, rest = f.mant.drop (f.exp.toNat + 1) := ⟨_, rfl⟩
  have hdrop : f.mant.drop f.exp.toNat = cfAccess f f.exp :: rest := by
    rw [List.drop_eq_getElem_cons hi, hrest, cfAccess, List.getD_eq_getElem _ _ hi]
  have hrlen : f.mant.length = f.exp.toNat + 1 + rest.length := by
    rw [hrest, List.length_drop]
    omega
  have hval : val 10 f.mant = val 10 (f.mant.take f.exp.toNat) * 10 ^ (rest.length + 1)
      + (cfAccess f f.exp * 10 ^ rest.length + val 10 rest) := by
    conv_lhs => rw [← List.take_append_drop f.exp.toNat f.mant]
    rw [hdrop, val_append, val_cons, List.length_cons]
  have hrd : Digits 10 rest := hrest ▸ hd.sublist (List.drop_sublist _ _)
  have hr0 : (0 : ℚ) ≤ (val 10 rest : ℚ) := by
    exact_mod_cast val_nonneg (b := 10) (by norm_num) hrd
  have hr1 : (val 10 rest : ℚ) < (10 : ℚ) ^ rest.length := by
    exact_mod_cast val_lt (b := 10) (by norm_num) hrd
  have hp : (0 : ℚ) < 10 ^ rest.length := by positivity
  have hexp : f.exp - f.len = -((rest.length + 1 : ℕ) : ℤ) := by
    push_cast
    omega
  refine ⟨(cfAccess f f.exp : ℚ) / 10 + (val 10 rest : ℚ) / (10 ^ rest.length * 10), ?_, ?_, ?_, ?_⟩
  · rw [size, hval, hexp, zpow_neg, zpow_natCast, pow_succ]
    push_cast
    field_simp
    ring
  · have : (0 : ℚ) ≤ (val 10 rest : ℚ) / (10 ^ rest.length * 10) := by positivity
    linarith
  · have : (val 10 rest : ℚ) / (10 ^ rest.length * 10) < 1 / 10 := by
      rw [div_lt_div_iff₀ (by positivity) (by norm_num)]
      linarith
    linarith
  · intro he
    have hnil : rest = [] := List.eq_nil_of_length_eq_zero (by omega)
    rw [hnil]
    simp

/-- what is in front of the point when the digits end there -/
theorem size_take {f : CFloat} (h0 : 0 ≤ f.exp) (hlt : f.exp < f.len) :
    ({ f with mant := f.mant.take f.exp.toNat } : CFloat).size
      = (val 10 (f.mant.take f.exp.toNat) : ℚ) := by
  have hlen : f.len = f.mant.length := rfl
  have hl : (({ f with mant := f.mant.take f.exp.toNat } : CFloat)).len = f.exp := by
    rw [len, List.length_take]
    omega
  rw [size, hl]
  simp

section
variable {f : CFloat}

/-- what `CFTrunc` leaves of a number with digits behind the point -/
theorem cfTrunc_parts (h0 : 0 ≤ f.exp) (hlt : f.exp < f.len) :
    (cfTrunc f).value
      = (((f.sign : ℤ) * val 10 (f.mant.take f.exp.toNat) : ℤ) : ℚ) := by
  rw [cfTrunc]
  by_cases he : f.exp ≤ 0
  · have hz : f.exp.toNat = 0 := by omega
    rw [if_pos he, value_alloc, hz, List.take_zero, val_nil, mul_zero, Int.cast_zero]
  · rw [if_neg he, if_neg (by omega), cfCopy, value, size_take h0 hlt]
    push_cast
    rfl

theorem access_range (h : f.Normal) (h0 : 0 ≤ f.exp) (hlt : f.exp < f.len) :
    0 ≤ cfAccess f f.exp ∧ cfAccess f f.exp ≤ 9 := by
  have hlen : f.len = f.mant.length := rfl
  have hi : f.exp.toNat < f.mant.length := by omega
  have hd := h.digits (cfAccess f f.exp) (by
    rw [cfAccess, List.getD_eq_getElem _ _ hi]
    exact List.getElem_mem hi)
  omega

/-- a number without digits behind the point is an integer -/
theorem whole_value (h : f.Whole) :
    f.value = (((f.sign : ℤ) * (val 10 f.mant * 10 ^ (f.exp - f.len).toNat) : ℤ) : ℚ) := by
  rw [value, whole_size h]
  push_cast
  rfl

theorem size_lt_tenth (h : f.Normal) (hneg : f.exp < 0) : 0 ≤ f.size ∧ f.size < 1 / 10 := by
  refine ⟨size_nonneg h.digits, ?_⟩
  by_cases hs : f.sign = 0
  · rw [h.eq_alloc hs, size_alloc]
    norm_num
  · refine lt_of_lt_of_le (size_range (h.mantissa hs)).2 ?_
    have he : (1 : ℚ) / 10 = 10 ^ (-1 : ℤ) := by norm_num
    rw [he]
    exact zpow_le_zpow_right₀ (by norm_num) (by omega)

theorem cfTrunc_value (h : f.Normal) : (cfTrunc f).value = (towardZero f.value : ℚ) := by
  by_cases hneg : f.exp < 0
  · obtain ⟨h0, h1⟩ := size_lt_tenth h hneg
    have hz := towardZero_signed (s := f.sign) (n := 0) (le_refl _) h0 (by linarith)
    rw [Int.cast_zero, zero_add, mul_zero] at hz
    rw [cfTrunc, if_pos (by omega), value_alloc, value, hz, Int.cast_zero]
  · by_cases hle : f.len ≤ f.exp
    · have hpos : 0 < f.len := by
        have := List.length_pos_of_ne_nil h.nonempty
        rw [len]
        omega
      have hw : f.Whole := by
        rw [Whole]
        omega
      have hn : 0 ≤ val 10 f.mant * 10 ^ (f.exp - f.len).toNat :=
        mul_nonneg (val_nonneg (by norm_num) h.digits) (by positivity)
      have hz := towardZero_signed (s := f.sign) hn (le_refl (0 : ℚ)) (by norm_num)
      rw [add_zero] at hz
      rw [cfTrunc, if_neg (by omega), if_pos hle, cfCopy, value, whole_size hw, hz]
      push_cast
      rfl
    · obtain ⟨r, hr, hlo, hhi, -⟩ := size_parts h.digits (by omega) (not_le.mp hle)
      obtain ⟨hd0, hd9⟩ := access_range h (by omega) (not_le.mp hle)
      have hd0q : (0 : ℚ) ≤ (cfAccess f f.exp : ℚ) := by exact_mod_cast hd0
      have hd9q : (cfAccess f f.exp : ℚ) ≤ 9 := by exact_mod_cast hd9
      have hn : 0 ≤ val 10 (f.mant.take f.exp.toNat) :=
        val_nonneg (by norm_num) (h.digits.sublist (List.take_sublist _ _))
      rw [cfTrunc_parts (by omega) (not_le.mp hle), value, hr,
        towardZero_signed hn (by linarith) (by linarith)]

/-! ## CFRound -/

/-- the sum that `CFRound` makes is one more in absolute value -/
theorem cfRound_up (h : f.Normal) (h0 : 0 ≤ f.exp) (hlt : f.exp < f.len) :
    (cfAdd (cfTrunc f) { cfAlloc with sign := f.sign, mant := [1] }).value
      = (((f.sign : ℤ) * (val 10 (f.mant.take f.exp.toNat) + 1) : ℤ) : ℚ) := by
  have hs : f.sign ≠ 0 := by
    intro e
    rw [h.eq_alloc e] at h0 hlt
    exact absurd hlt (by decide)
  have hadd : ({ cfAlloc with sign := f.sign, mant := [1] } : CFloat) = ⟨1, f.sign, [1]⟩ := rfl
  have hone : Digits 10 (⟨1, f.sign, [1]⟩ : CFloat).mant := (by decide : Digits 10 [1])
  have honesize : (⟨1, f.sign, [1]⟩ : CFloat).size = 1 := by
    rw [size]
    have h1 : val 10 [1] = 1 := by decide
    have h2 : (⟨1, f.sign, [1]⟩ : CFloat).exp - (⟨1, f.sign, [1]⟩ : CFloat).len = 0 := by
      show (1 : ℤ) - 1 = 0
      norm_num
    rw [h1, h2]
    norm_num
  rw [hadd]
  by_cases he : f.exp ≤ 0
  · have hz : f.exp.toNat = 0 := by omega
    rw [cfTrunc, if_pos he, @cfAdd_zero_left cfAlloc ⟨1, f.sign, [1]⟩ rfl hs, value, honesize, hz,
      List.take_zero, val_nil]
    push_cast
    ring
  · have ht : cfTrunc f = { f with mant := f.mant.take f.exp.toNat } := by
      rw [cfTrunc, if_neg he, if_neg (by omega)]
      rfl
    have htd : Digits 10 (cfTrunc f).mant := by
      rw [ht]
      exact h.digits.sublist (List.take_sublist _ _)
    have hts : (cfTrunc f).sign = f.sign := by rw [ht]
    obtain ⟨hd, hne⟩ := adder_digits htd hone
    have hsize : (sumDigits (cfTrunc f) ⟨1, f.sign, [1]⟩ adder).size
        = (val 10 (f.mant.take f.exp.toNat) : ℚ) + 1 := by
      rw [adder_size htd hone, honesize, ht, size_take h0 hlt]
    have hv0 : (0 : ℚ) ≤ (val 10 (f.mant.take f.exp.toNat) : ℚ) := by
      exact_mod_cast val_nonneg (b := 10) (by norm_num) (h.digits.sublist (List.take_sublist _ _))
    have hstrip := strip_ne_nil (f := sumDigits (cfTrunc f) ⟨1, f.sign, [1]⟩ adder)
      (by rw [hsize]; linarith)
    have hshort := le_trans (strip_length_le (sumDigits (cfTrunc f) ⟨1, f.sign, [1]⟩ adder).mant)
      (roundUp_short h (by omega) hlt)
    rw [@cfAdd_same _ ⟨1, f.sign, [1]⟩ hts hs, csSum, value, cfClean_sign hstrip, sumDigits_sign,
      hts, cfClean_size hne hshort, hsize]
    push_cast
    ring

/-- the tie of a negative number, as `CFRound` tells it: one digit behind the point; the digit is
not looked at any more -/
def TakenForTie (f : CFloat) : Prop := f.sign < 0 ∧ f.len = f.exp + 1

instance (f : CFloat) : Decidable (TakenForTie f) :=
  inferInstanceAs (Decidable (f.sign < 0 ∧ f.len = f.exp + 1))

/-- a number with digits behind the point: it is cut, or one more in absolute value -/
theorem cfRound_value (h0 : 0 ≤ f.exp) (hlt : f.exp < f.len) (h : f.Normal) :
    (cfRound f).value = if cfAccess f f.exp < 5 ∨ TakenForTie f
      then (((f.sign : ℤ) * val 10 (f.mant.take f.exp.toNat) : ℤ) : ℚ)
      else (((f.sign : ℤ) * (val 10 (f.mant.take f.exp.toNat) + 1) : ℤ) : ℚ) := by
  rw [cfRound, if_neg (by omega), if_neg (by omega)]
  dsimp only
  by_cases hdown : cfAccess f f.exp < 5
  · rw [if_pos hdown, if_pos (Or.inl hdown), cfTrunc_parts h0 hlt]
  rw [if_neg hdown]
  by_cases htie : f.sign < 0 ∧ f.len = f.exp + 1
  · rw [if_pos htie, if_pos (Or.inr (show TakenForTie f from htie)), cfTrunc_parts h0 hlt]
  · have hno : ¬ (cfAccess f f.exp < 5 ∨ TakenForTie f) := by
      rintro (hd | ht)
      · exact hdown hd
      · exact htie ht
    rw [if_neg htie, if_neg hno, cfRound_up h h0 hlt]

/-- the path for ties is taken with a digit above 5 -/
def FalseTie (f : CFloat) : Prop := 0 ≤ f.exp ∧ TakenForTie f ∧ 5 < cfAccess f f.exp

theorem abs_sign_le (s : SignType) : |((s : ℤ) : ℚ)| ≤ 1 := by
  cases s
  · show |((0 : ℤ) : ℚ)| ≤ 1
    norm_num
  · show |((-1 : ℤ) : ℚ)| ≤ 1
    norm_num
  · show |((1 : ℤ) : ℚ)| ≤ 1
    norm_num

theorem cfRound_whole (h : f.Normal) : ∃ n : ℤ, (cfRound f).value = n := by
  by_cases hneg : f.exp < 0
  · exact ⟨0, by rw [cfRound, if_pos hneg, value_alloc, Int.cast_zero]⟩
  by_cases hle : f.len ≤ f.exp
  · have hw : f.Whole := by
      rw [Whole]
      omega
    rw [cfRound, if_neg hneg, if_pos hle, cfCopy, whole_value hw]
    exact ⟨_, rfl⟩
  · rw [cfRound_value (by omega) (by omega) h]
    split
    · exact ⟨_, rfl⟩
    · exact ⟨_, rfl⟩

theorem cfRound_near (h : f.Normal) : |(cfRound f).value - f.value| ≤ 1 / 2 ↔ ¬ FalseTie f := by
  by_cases hneg : f.exp < 0
  · obtain ⟨h0, h1⟩ := size_lt_tenth h hneg
    refine iff_of_true ?_ fun ht => absurd ht.1 (by omega)
    rw [cfRound, if_pos hneg, value_alloc, zero_sub, abs_neg, value, abs_mul, abs_of_nonneg h0]
    calc |((f.sign : ℤ) : ℚ)| * f.size ≤ 1 * f.size :=
          mul_le_mul_of_nonneg_right (abs_sign_le f.sign) h0
      _ ≤ 1 / 2 := by linarith
  by_cases hle : f.len ≤ f.exp
  · refine iff_of_true ?_ fun ht => absurd ht.2.1.2 (by omega)
    rw [cfRound, if_neg hneg, if_pos hle, cfCopy, sub_self, abs_zero]
    norm_num
  obtain ⟨r, hr, hlo, hhi, hone⟩ := size_parts h.digits (by omega) (not_le.mp hle)
  obtain ⟨hd0, hd9⟩ := access_range h (by omega) (not_le.mp hle)
  have hd0q : (0 : ℚ) ≤ (cfAccess f f.exp : ℚ) := by exact_mod_cast hd0
  have hd9q : (cfAccess f f.exp : ℚ) ≤ 9 := by exact_mod_cast hd9
  have hcut : |((((f.sign : ℤ) * val 10 (f.mant.take f.exp.toNat) : ℤ) : ℚ)) - f.value|
      = |((f.sign : ℤ) : ℚ)| * r := by
    rw [value, hr, ← abs_of_nonneg (by linarith : 0 ≤ r), ← abs_mul, abs_of_nonneg
      (by linarith : 0 ≤ r), ← abs_neg]
    congr 1
    push_cast
    ring
  rw [cfRound_value (by omega) (by omega) h]
  by_cases htie : TakenForTie f
  · -- the digit decides about the distance
    have hsign : |((f.sign : ℤ) : ℚ)| = 1 := by
      have hs : f.sign = -1 := by
        have := htie.1
        revert this
        cases f.sign <;> decide
      rw [hs]
      show |((-1 : ℤ) : ℚ)| = 1
      norm_num
    rw [if_pos (Or.inr htie), hcut, hsign, one_mul, hone htie.2]
    constructor
    · intro hhalf hf
      have h6 : (6 : ℚ) ≤ (cfAccess f f.exp : ℚ) := by exact_mod_cast hf.2.2
      linarith
    · intro hf
      have h5 : cfAccess f f.exp ≤ 5 := by
        by_contra hgt
        exact hf ⟨by omega, htie, by omega⟩
      have h5q : (cfAccess f f.exp : ℚ) ≤ 5 := by exact_mod_cast h5
      linarith
  · refine iff_of_true ?_ fun hf => htie hf.2.1
    by_cases hdown : cfAccess f f.exp < 5
    · have h4 : (cfAccess f f.exp : ℚ) ≤ 4 := by exact_mod_cast Int.lt_add_one_iff.mp hdown
      rw [if_pos (Or.inl hdown), hcut]
      calc |((f.sign : ℤ) : ℚ)| * r ≤ 1 * r :=
            mul_le_mul_of_nonneg_right (abs_sign_le f.sign) (by linarith)
        _ ≤ 1 / 2 := by linarith
    · have hno : ¬ (cfAccess f f.exp < 5 ∨ TakenForTie f) := fun ho => ho.elim hdown htie
      have h5 : (5 : ℚ) ≤ (cfAccess f f.exp : ℚ) := by exact_mod_cast not_lt.mp hdown
      have hup : (((f.sign : ℤ) * (val 10 (f.mant.take f.exp.toNat) + 1) : ℤ) : ℚ) - f.value
          = ((f.sign : ℤ) : ℚ) * (1 - r) := by
        rw [value, hr]
        push_cast
        ring
      rw [if_neg hno, hup, abs_mul, abs_of_nonneg (by linarith : 0 ≤ 1 - r)]
      calc |((f.sign : ℤ) : ℚ)| * (1 - r) ≤ 1 * (1 - r) :=
            mul_le_mul_of_nonneg_right (abs_sign_le f.sign) (by linarith)
        _ ≤ 1 / 2 := by linarith

end

theorem rounding_iff {f : CFloat} (h : f.Normal) :
    (|(cfRound f).value - f.value| ≤ 1 / 2 ∧ (∃ n : ℤ, (cfRound f).value = n) ∧
      (cfTrunc f).value = (towardZero f.value : ℚ)) ↔ ¬ FalseTie f := by
  constructor
  · rintro ⟨hnear, -, -⟩
    exact (cfRound_near h).mp hnear
  · intro hf
    exact ⟨(cfRound_near h).mpr hf, cfRound_whole h, cfTrunc_value h⟩

/-- -2.5 and -2 -/
theorem rounding_iff_tie : (|(cfRound ⟨1, -1, [2, 5]⟩).value - value ⟨1, -1, [2, 5]⟩| ≤ 1 / 2 ∧
      (∃ n : ℤ, (cfRound ⟨1, -1, [2, 5]⟩).value = n) ∧
      (cfTrunc ⟨1, -1, [2, 5]⟩).value = (towardZero (value ⟨1, -1, [2, 5]⟩) : ℚ)) ↔
      ¬ FalseTie ⟨1, -1, [2, 5]⟩ :=
  rounding_iff (Or.inr ⟨by decide, ⟨by decide, by decide, by decide, by decide, by decide⟩⟩)

/-- -2.7 becomes -2 -/
theorem cfRound_not_near : ¬ ∀ f : CFloat, f.Normal → |(cfRound f).value - f.value| ≤ 1 / 2 := by
  intro h
  have hn : Normal ⟨1, -1, [2, 7]⟩ :=
    Or.inr ⟨by decide, ⟨by decide, by decide, by decide, by decide, by decide⟩⟩
  exact (cfRound_near hn).mp (h _ hn) ⟨by decide, by decide, by decide⟩

end CFloat
