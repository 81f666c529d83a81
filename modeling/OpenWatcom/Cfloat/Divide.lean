import OpenWatcom.Cfloat.Number
import OpenWatcom.Lib.Numerals
import Mathlib.Tactic.LinearCombination

/-!
# Division

* `cfDiv`            `CFDiv`: the classical algorithm with a trial digit and at most one correction;
* `divStep_spec`     a trial digit ends as the digit of the quotient, and what is left of the dividend
  is below the divisor;
* `divDigits_digits` all of the quotient are digits.
-/

namespace CFloat
open Numerals

/-- the loop of `scalarMultiply` over the digits from the last one on -/
def scalarLoop (s : Int) : List Int → Int → List Int → List Int
  | [], quot, mant => quot :: mant
  | d :: ds, quot, mant =>
    let n := s * d + quot
    scalarLoop s ds (n.tdiv 10) (n.tmod 10 :: mant)

/-- `scalarMultiply`; only the mantissa of the result is used -/
def scalarMultiply (f : CFloat) (s : Int) : List Int := scalarLoop s f.mant.reverse 0 []

/-- `expandCF` -/
def expandCF (mant : List Int) (scale : Nat) : List Int := mant ++ List.replicate scale 0

/-- `roundupCF` over the digits from the last one on: with whether a digit took the carry -/
def roundupLoop : List Int → List Int × Bool
  | [] => ([], false)
  | d :: ds =>
    if d = 9 then (0 :: (roundupLoop ds).1, (roundupLoop ds).2)
    else ((d + 1) :: ds, true)

/-- `roundupCF` -/
def roundupCF (f : CFloat) : CFloat :=
  let (mant, done) := roundupLoop f.mant.reverse
  if done then { f with mant := mant.reverse }
  else { f with exp := f.exp + 1, mant := mant.reverse.set 0 1 }

/-- `div` with a remainder that is not negative: remainder and quotient -/
def divTen (n : Int) : Int × Int :=
  if n.tmod 10 < 0 then (n.tmod 10 + 10, n.tdiv 10 - 1) else (n.tmod 10, n.tdiv 10)

/-- the window of `u` at the length of `v` less `qa` times `v`, with the carry out of it -/
def subMul (qa : Int) : List Int → List Int → List Int × Int
  | u :: us, v :: vs =>
    let (us, cy) := subMul qa us vs
    let (rem, quot) := divTen (u - qa * v + cy)
    (rem :: us, quot)
  | us, _ => (us, 0)

/-- the window of `u` and `v` added, with the carry out of it -/
def addBack : List Int → List Int → List Int × Int
  | u :: us, v :: vs =>
    let (us, cy) := addBack us vs
    let n := u + v + cy
    (n.tmod 10 :: us, n.tdiv 10)
  | us, _ => (us, 0)

/-- the approximation of the quotient digit -/
def trialDigit (u v : List Int) : Int :=
  let v1 := v.getD 1 0
  let va := 10 * v1 + v.getD 2 0
  if v1 = u.getD 0 0 then 9
  else (u.getD 0 0 * 100 + u.getD 1 0 * 10 + u.getD 2 0).tdiv va

/-- one round of the loop over `j`, where `u` starts at the digit `j`: the digit of the quotient and
what is left of `u` -/
def divStep (v u : List Int) : Int × List Int :=
  let qa := trialDigit u v
  let (u, cy) := subMul qa u v
  if cy ≠ 0 then (qa - 1, (addBack u v).1) else (qa, u)

/-- `n` digits of the quotient, and `u` from the next digit on -/
def divDigits (v : List Int) : Nat → List Int → List Int × List Int
  | 0, u => ([], u)
  | n + 1, u =>
    let (qa, u) := divStep v u
    let (result, u) := divDigits v n u.tail
    (qa :: result, u)

/-- `CF_ERR_EXP` -/
def errExp : Int := 2147483647

/-- the result of `CFDiv` is rounded up: the digit behind it is `qa`, and `left` is what is left of
the dividend -/
def roundsUp (result : List Int) (qa : Int) (left : List Int) : Prop :=
  qa > 5 ∨ (qa = 5 ∧ (left.any (· ≠ 0) = true ∨ result.getD (maxPrec - 1) 0 % 2 ≠ 0))

instance (result : List Int) (qa : Int) (left : List Int) : Decidable (roundsUp result qa left) :=
  inferInstanceAs (Decidable (_ ∨ _))

def divScale (d : Int) : Int := if d < 5 then Int.tdiv 10 (d + 1) else 1

/-- the divisor as the loop has it -/
def divisor (f2 : CFloat) : List Int :=
  let v := scalarMultiply f2 (divScale (cfAccess f2 0))
  if v.length < 3 then expandCF v 1 else v

/-- the dividend as the loop has it, with the digits of `ue` behind it -/
def dividend (f1 f2 : CFloat) : List Int :=
  let v := divisor f2
  let u := scalarMultiply f1 (divScale (cfAccess f2 0))
  (if v.length ≥ u.length then expandCF u (v.length - u.length + 1) else u)
    ++ List.replicate maxPrec 0

/-- what `CFDiv` gives to `CFClean` when `f2` is not zero -/
def quotDigits (f1 f2 : CFloat) : CFloat :=
  let v := divisor f2
  let (mant, u) := divDigits v maxPrec (dividend f1 f2)
  let result : CFloat := ⟨f1.exp - f2.exp + 1, f1.sign * f2.sign, mant⟩
  let (qa, u) := divStep v u
  if roundsUp mant qa (u.take v.length) then roundupCF result else result

/-- `CFDiv` -/
def cfDiv (f1 f2 : CFloat) : CFloat :=
  if f2.sign = 0 then ⟨errExp, 1, [1]⟩ else cfClean (quotDigits f1 f2)

/-! ## one round -/

theorem divTen_eq (n : Int) : divTen n = (n % 10, n / 10) := by
  rw [divTen]
  have h1 := Int.tmod_add_mul_tdiv n 10
  have h2 := Int.tmod_lt_of_pos n (show (0 : Int) < 10 by decide)
  have h3 := Int.lt_tmod_of_pos n (show (0 : Int) < 10 by decide)
  split <;> (refine Prod.ext ?_ ?_ <;> dsimp only <;> omega)

theorem subMul_spec (qa : Int) (us vs : List Int) (h : vs.length ≤ us.length) :
    ∃ w cy, subMul qa us vs = (w ++ us.drop vs.length, cy) ∧ w.length = vs.length ∧ Digits 10 w ∧
      val 10 (us.take vs.length) - qa * val 10 vs = val 10 w + cy * 10 ^ vs.length := by
  induction vs generalizing us with
  | nil =>
    refine ⟨[], 0, ?_, rfl, digits_nil, by simp⟩
    cases us <;> rfl
  | cons v vs ih =>
    obtain ⟨u, us, rfl⟩ : ∃ u us', us = u :: us' := by
      cases us with
      | nil => simp at h
      | cons u us => exact ⟨u, us, rfl⟩
    have hl : vs.length ≤ us.length := by simpa using h
    obtain ⟨w, cy, e, hw, hd, hv⟩ := ih us hl
    refine ⟨(u - qa * v + cy) % 10 :: w, (u - qa * v + cy) / 10, ?_, by simp [hw], ?_, ?_⟩
    · rw [subMul, e]
      dsimp only
      rw [divTen_eq]
      rfl
    · exact digits_cons.mpr ⟨⟨by omega, by omega⟩, hd⟩
    · have hm := Int.emod_add_mul_ediv (u - qa * v + cy) 10
      have ht : (us.take vs.length).length = vs.length := by simp [hl]
      rw [List.length_cons, List.take_succ_cons, val_cons, val_cons, val_cons, hw, ht, pow_succ]
      linear_combination hv - 10 ^ vs.length * hm

theorem addBack_spec (us vs : List Int) (h : vs.length ≤ us.length) (hu : Digits 10 us)
    (hv : Digits 10 vs) :
    ∃ w cy, addBack us vs = (w ++ us.drop vs.length, cy) ∧ w.length = vs.length ∧ Digits 10 w ∧
      (0 ≤ cy ∧ cy ≤ 1) ∧
      val 10 (us.take vs.length) + val 10 vs = val 10 w + cy * 10 ^ vs.length := by
  induction vs generalizing us with
  | nil =>
    refine ⟨[], 0, ?_, rfl, digits_nil, by omega, by simp⟩
    cases us <;> rfl
  | cons v vs ih =>
    obtain ⟨u, us, rfl⟩ : ∃ u us', us = u :: us' := by
      cases us with
      | nil => simp at h
      | cons u us => exact ⟨u, us, rfl⟩
    have hl : vs.length ≤ us.length := by simpa using h
    obtain ⟨⟨hu0, hu9⟩, hus⟩ := digits_cons.mp hu
    obtain ⟨⟨hv0, hv9⟩, hvs⟩ := digits_cons.mp hv
    obtain ⟨w, cy, e, hw, hd, hc, hval⟩ := ih us hl hus hvs
    have h1 := Int.tmod_eq_emod_of_nonneg (b := 10) (show 0 ≤ u + v + cy by omega)
    have h2 := Int.tdiv_eq_ediv_of_nonneg (b := 10) (show 0 ≤ u + v + cy by omega)
    refine ⟨(u + v + cy) % 10 :: w, (u + v + cy) / 10, ?_, by simp [hw], ?_, by omega, ?_⟩
    · rw [addBack, e]
      dsimp only
      rw [h1, h2]
      rfl
    · exact digits_cons.mpr ⟨⟨by omega, by omega⟩, hd⟩
    · have hm := Int.emod_add_mul_ediv (u + v + cy) 10
      have ht : (us.take vs.length).length = vs.length := by simp [hl]
      rw [List.length_cons, List.take_succ_cons, val_cons, val_cons, val_cons, hw, ht, pow_succ]
      linear_combination hval - 10 ^ vs.length * hm

/-- a divisor as the algorithm needs it: a zero, a digit of at least 5 and one more digit in front -/
structure Divisor (v : List Int) : Prop where
  digits : Digits 10 v
  long : 3 ≤ v.length
  zero : v.getD 0 0 = 0
  lead : 5 ≤ v.getD 1 0

/-- the first three digits of a numeral -/
theorem val_three {u : List Int} {n : Nat} (hn : 3 ≤ n) (h : n ≤ u.length) (hd : Digits 10 u) :
    ∃ r, val 10 (u.take n) = (u.getD 0 0 * 100 + u.getD 1 0 * 10 + u.getD 2 0) * 10 ^ (n - 3) + r ∧
      0 ≤ r ∧ r < 10 ^ (n - 3) := by
  obtain ⟨a, b, c, l, rfl⟩ : ∃ a b c l, u = a :: b :: c :: l := by
    match u, h with
    | [], h => exact absurd h (by simp; omega)
    | [_], h => exact absurd h (by simp; omega)
    | [_, _], h => exact absurd h (by simp; omega)
    | a :: b :: c :: l, _ => exact ⟨a, b, c, l, rfl⟩
  obtain ⟨k, rfl⟩ : ∃ k, n = k + 3 := ⟨n - 3, by omega⟩
  have hl : (l.take k).length = k := by
    simp at h ⊢
    omega
  have hdl : Digits 10 (l.take k) :=
    (digits_cons.mp (digits_cons.mp (digits_cons.mp hd).2).2).2.sublist (List.take_sublist k l)
  refine ⟨val 10 (l.take k), ?_, val_nonneg (by norm_num) hdl, ?_⟩
  · show val 10 (a :: b :: c :: l.take k) = _
    rw [val_cons, val_cons, val_cons]
    simp only [List.length_cons, hl, Nat.add_sub_cancel]
    show _ = (a * 100 + b * 10 + c) * 10 ^ k + _
    ring
  · have hlt := val_lt (b := 10) (by norm_num) hdl
    rw [hl] at hlt
    exact hlt

/-- the approximation is a digit, and right or one too large -/
theorem trialDigit_spec {u v : List Int} (hv : Divisor v) (hu : Digits 10 u)
    (hl : v.length ≤ u.length) (hlt : val 10 (u.take v.length) < 10 * val 10 v) :
    (0 ≤ trialDigit u v ∧ trialDigit u v ≤ 9) ∧
      (trialDigit u v - 1) * val 10 v ≤ val 10 (u.take v.length) ∧
      val 10 (u.take v.length) < (trialDigit u v + 1) * val 10 v := by
  obtain ⟨r, er, hr0, hr1⟩ := val_three hv.long hl hu
  obtain ⟨t, et, ht0, ht1⟩ := val_three hv.long (le_refl _) hv.digits
  rw [List.take_length, hv.zero] at et
  have hget : ∀ (l : List Int) (i : Nat), Digits 10 l → 0 ≤ l.getD i 0 ∧ l.getD i 0 ≤ 9 := by
    intro l i h
    rw [List.getD_eq_getElem?_getD]
    cases e : l[i]? with
    | none => simp
    | some x =>
      have hx := h x (List.mem_of_getElem? e)
      simp
      omega
  have hu0 := hget u 0 hu
  have hu1 := hget u 1 hu
  have hu2 := hget u 2 hu
  have hv1 := hget v 1 hv.digits
  have hv2 := hget v 2 hv.digits
  have hlead := hv.lead
  rw [trialDigit]
  generalize val 10 (u.take v.length) = U at *
  generalize val 10 v = V at *
  generalize u.getD 0 0 = u0 at *
  generalize u.getD 1 0 = u1 at *
  generalize u.getD 2 0 = u2 at *
  generalize v.getD 1 0 = v1 at *
  generalize v.getD 2 0 = v2 at *
  generalize (10 : Int) ^ (v.length - 3) = p at *
  have hp : 0 < p := by omega
  -- the first digit of the window is at most that of the divisor
  have hle : u0 ≤ v1 := by
    by_contra hc
    have h1 : (v1 + 1) * 100 * p ≤ (u0 * 100 + u1 * 10 + u2) * p :=
      mul_le_mul_of_nonneg_right (by omega) hp.le
    have h2 : (v1 * 10 + v2 + 1) * p ≤ (v1 * 10 + 10) * p :=
      mul_le_mul_of_nonneg_right (by omega) hp.le
    nlinarith
  by_cases h : v1 = u0
  · rw [if_pos h]
    have h1 : (80 + 80 * v1) * p ≤ 100 * v1 * p := mul_le_mul_of_nonneg_right (by omega) hp.le
    have h2 : (v1 * 10 + v2 + 1) * p ≤ (v1 * 10 + 10) * p :=
      mul_le_mul_of_nonneg_right (by omega) hp.le
    have h3 : 100 * v1 * p ≤ (u0 * 100 + u1 * 10 + u2) * p :=
      mul_le_mul_of_nonneg_right (by omega) hp.le
    refine ⟨by omega, ?_, ?_⟩
    · nlinarith
    · linarith
  · rw [if_neg h]
    have hn : 0 ≤ u0 * 100 + u1 * 10 + u2 := by omega
    have hva : 0 < 10 * v1 + v2 := by omega
    rw [Int.tdiv_eq_ediv_of_nonneg hn]
    have hm := Int.emod_add_mul_ediv (u0 * 100 + u1 * 10 + u2) (10 * v1 + v2)
    have hm0 := Int.emod_nonneg (u0 * 100 + u1 * 10 + u2) hva.ne'
    have hm1 := Int.emod_lt_of_pos (u0 * 100 + u1 * 10 + u2) hva
    have hq0 : 0 ≤ (u0 * 100 + u1 * 10 + u2) / (10 * v1 + v2) := Int.ediv_nonneg hn hva.le
    have hq9 : (u0 * 100 + u1 * 10 + u2) / (10 * v1 + v2) < 10 :=
      Int.ediv_lt_of_lt_mul hva (by omega)
    generalize (u0 * 100 + u1 * 10 + u2) / (10 * v1 + v2) = q at *
    generalize u0 * 100 + u1 * 10 + u2 = ua at *
    generalize ua % (10 * v1 + v2) = m at *
    have hV : V = (10 * v1 + v2) * p + t := by
      rw [et]
      ring
    have hv50 : 50 ≤ 10 * v1 + v2 := by omega
    generalize 10 * v1 + v2 = va at *
    refine ⟨by omega, ?_, ?_⟩
    · -- one less than the approximation is not too large
      have h1 : (q - 1) * (va + 1) ≤ ua := by nlinarith
      have h2 : (q - 1) * (va + 1) * p ≤ ua * p := mul_le_mul_of_nonneg_right h1 hp.le
      have h3 : V ≤ (va + 1) * p := by linarith
      by_cases hq : q = 0
      · have hV0 : 0 ≤ V := by
          have := mul_nonneg (by omega : 0 ≤ va) hp.le
          linarith
        have hU0 : 0 ≤ U := by
          have := mul_nonneg hn hp.le
          linarith
        rw [hq]
        linarith
      · have h4 : (q - 1) * V ≤ (q - 1) * ((va + 1) * p) :=
          mul_le_mul_of_nonneg_left h3 (by omega)
        linarith
    · have h1 : ua + 1 ≤ (q + 1) * va := by nlinarith
      have h2 : (ua + 1) * p ≤ (q + 1) * va * p := mul_le_mul_of_nonneg_right h1 hp.le
      have h3 : 0 ≤ (q + 1) * t := mul_nonneg (by omega) ht0
      rw [hV]
      linarith

theorem Divisor.val_lt {v : List Int} (hv : Divisor v) : val 10 v < 10 ^ (v.length - 1) := by
  obtain ⟨d, l, rfl⟩ : ∃ d l, v = d :: l := by
    cases v with
    | nil => exact absurd hv.long (by simp)
    | cons d l => exact ⟨d, l, rfl⟩
  have hd : d = 0 := hv.zero
  have hlt := Numerals.val_lt (b := 10) (by norm_num) (digits_cons.mp hv.digits).2
  rw [val_cons, hd, zero_mul, zero_add]
  exact hlt

/-- a round gives a digit of the quotient, and leaves less than the divisor in the window -/
theorem divStep_spec {u v : List Int} (hv : Divisor v) (hu : Digits 10 u)
    (hl : v.length ≤ u.length) (hlt : val 10 (u.take v.length) < 10 * val 10 v) :
    ∃ q w, divStep v u = (q, w ++ u.drop v.length) ∧ (0 ≤ q ∧ q ≤ 9) ∧ w.length = v.length ∧
      Digits 10 w ∧ val 10 (u.take v.length) = q * val 10 v + val 10 w ∧ val 10 w < val 10 v := by
  obtain ⟨⟨hq0, hq9⟩, hlo, hhi⟩ := trialDigit_spec hv hu hl hlt
  obtain ⟨w, cy, e, hw, hd, hval⟩ := subMul_spec (trialDigit u v) u v hl
  have hV : val 10 v < 10 ^ v.length := Numerals.val_lt (by norm_num) hv.digits
  have hW0 := val_nonneg (b := 10) (by norm_num) hd
  have hW1 := Numerals.val_lt (b := 10) (by norm_num) hd
  have hU0 : 0 ≤ val 10 (u.take v.length) :=
    val_nonneg (by norm_num) (hu.sublist (List.take_sublist _ _))
  have hV0 := val_nonneg (b := 10) (by norm_num) hv.digits
  rw [hw] at hW1
  have hp : (0 : Int) < 10 ^ v.length := by positivity
  rw [divStep, e]
  dsimp only
  generalize trialDigit u v = qa at *
  by_cases hc : cy = 0
  · rw [if_neg (not_not_intro hc)]
    rw [hc, zero_mul, add_zero] at hval
    refine ⟨qa, w, rfl, ⟨hq0, hq9⟩, hw, hd, by linarith, by linarith⟩
  · rw [if_pos hc]
    -- the trial digit was one too large
    have hneg : cy = -1 := by
      have h1 : cy < 1 := by
        by_contra hge
        have := mul_le_mul_of_nonneg_right (not_lt.mp hge) hp.le
        linarith
      have h2 : -2 < cy := by
        by_contra hge
        have := mul_le_mul_of_nonneg_right (not_lt.mp hge) hp.le
        linarith
      omega
    have hdu : Digits 10 (w ++ u.drop v.length) :=
      digits_append.mpr ⟨hd, hu.sublist (List.drop_sublist _ _)⟩
    obtain ⟨w2, c2, e2, hw2, hd2, hc2, hval2⟩ :=
      addBack_spec (w ++ u.drop v.length) v (by simp [hw]) hdu hv.digits
    rw [List.take_append_of_le_length (by omega), List.take_of_length_le (by omega)] at hval2
    have e3 : (w ++ u.drop v.length).drop v.length = u.drop v.length := by
      rw [← hw, List.drop_left]
    rw [e3] at e2
    have hqa : 1 ≤ qa := by
      by_contra hq
      have : qa = 0 := by omega
      rw [this, hneg] at hval
      linarith
    have hW2 := val_nonneg (b := 10) (by norm_num) hd2
    have hW3 := Numerals.val_lt (b := 10) (by norm_num) hd2
    rw [hw2] at hW3
    rw [hneg] at hval
    have h1 : c2 = 1 := by
      by_contra hne
      have : c2 = 0 := by omega
      rw [this] at hval2
      linarith
    rw [h1] at hval2
    refine ⟨qa - 1, w2, by rw [e2], by omega, hw2, hd2, by linarith, by linarith⟩

/-! ## all rounds -/

/-- the dividend before a round, with `n` digits behind the window -/
structure Left (v u : List Int) (n : Nat) : Prop where
  digits : Digits 10 u
  long : v.length + n ≤ u.length
  small : val 10 (u.take v.length) < 10 * val 10 v

/-- what is left is below the divisor, so that its first digit is 0 -/
theorem head_zero {v w : List Int} (hv : Divisor v) (hw : w.length = v.length) (hd : Digits 10 w)
    (hlt : val 10 w < val 10 v) : ∃ l, w = 0 :: l := by
  have hv3 := hv.long
  obtain ⟨d, l, rfl⟩ : ∃ d l, w = d :: l := by
    cases w with
    | nil => simp at hw; omega
    | cons d l => exact ⟨d, l, rfl⟩
  refine ⟨l, ?_⟩
  by_contra hne
  have hd0 : d ≠ 0 := fun e => hne (by rw [e])
  have h1 := val_ge (by norm_num) hd hd0
  have h2 := hv.val_lt
  have h3 : l.length + 1 = v.length := by simpa using hw
  rw [← h3, Nat.add_sub_cancel] at h2
  omega

theorem val_eq_zero {l : List Int} (hd : Digits 10 l) (h : val 10 l = 0) : ∀ d ∈ l, d = 0 := by
  induction l with
  | nil => exact fun d hd => absurd hd List.not_mem_nil
  | cons d l ih =>
    obtain ⟨hd0, hl⟩ := digits_cons.mp hd
    have h0 : d = 0 := by
      by_contra hne
      have h1 := val_ge (by norm_num) hd hne
      have h2 : (0 : Int) < 10 ^ l.length := by positivity
      omega
    rw [val_cons, h0, zero_mul, zero_add] at h
    exact List.forall_mem_cons.mpr ⟨h0, ih hl h⟩

theorem val_of_zeros {l : List Int} (h : ∀ d ∈ l, d = 0) : val 10 l = 0 := by
  rw [List.eq_replicate_of_mem h, val_zeros]

/-- one round leads to the next window; a dividend of zeros stays one -/
theorem divStep_left {u v : List Int} {n : Nat} (hv : Divisor v) (h : Left v u (n + 1)) :
    (0 ≤ (divStep v u).1 ∧ (divStep v u).1 ≤ 9) ∧ Left v (divStep v u).2.tail n ∧
      ((∀ d ∈ u, d = 0) → (divStep v u).1 = 0 ∧ ∀ d ∈ (divStep v u).2, d = 0) := by
  obtain ⟨q, w, e, hq, hw, hd, hval, hlt⟩ := divStep_spec hv h.digits (by have := h.long; omega) h.small
  have hlong := h.long
  have hv3 := hv.long
  rw [e]
  refine ⟨hq, ?_, ?_⟩
  · obtain ⟨l, rfl⟩ := head_zero hv hw hd hlt
    obtain ⟨x, r, hx⟩ : ∃ x r, u.drop v.length = x :: r := by
      cases hdrop : u.drop v.length with
      | nil =>
        have := List.drop_eq_nil_iff.mp hdrop
        omega
      | cons x r => exact ⟨x, r, rfl⟩
    have hl : l.length + 1 = v.length := by simpa using hw
    have hdr : Digits 10 (x :: r) := hx ▸ h.digits.sublist (List.drop_sublist _ _)
    obtain ⟨⟨hx0, hx9⟩, hr⟩ := digits_cons.mp hdr
    have hdl := (digits_cons.mp hd).2
    have hrl : r.length + 1 = u.length - v.length := by
      have := congrArg List.length hx
      simp at this
      omega
    show Left v (l ++ u.drop v.length) n
    rw [hx]
    refine ⟨digits_append.mpr ⟨hdl, hdr⟩, by simp; omega, ?_⟩
    have ht : (l ++ x :: r).take v.length = l ++ [x] := by
      rw [← hl, List.take_append, List.take_of_length_le (by omega)]
      simp
    rw [val_cons, zero_mul, zero_add] at hlt
    rw [ht, val_append]
    show val 10 l * 10 ^ 1 + (x * 10 ^ 0 + 0) < 10 * val 10 v
    omega
  · intro hz
    have hU : val 10 (u.take v.length) = 0 :=
      val_of_zeros fun d hdm => hz d (List.mem_of_mem_take hdm)
    have hW0 := val_nonneg (b := 10) (by norm_num) hd
    have hq0 : q = 0 := by
      by_contra hne
      have h1 : 1 * val 10 v ≤ q * val 10 v :=
        mul_le_mul_of_nonneg_right (by omega) (by omega)
      omega
    refine ⟨hq0, fun d hdm => ?_⟩
    rw [hq0, zero_mul, zero_add, hU] at hval
    rcases List.mem_append.mp hdm with hm | hm
    · exact val_eq_zero hd hval.symm d hm
    · exact hz d (List.mem_of_mem_drop hm)

theorem divDigits_succ (v : List Int) (n : Nat) (u : List Int) : divDigits v (n + 1) u
    = ((divStep v u).1 :: (divDigits v n (divStep v u).2.tail).1,
      (divDigits v n (divStep v u).2.tail).2) := rfl

theorem divDigits_left {v : List Int} (hv : Divisor v) (n : Nat) {u : List Int} {k : Nat}
    (h : Left v u (n + k)) :
    Digits 10 (divDigits v n u).1 ∧ (divDigits v n u).1.length = n ∧ Left v (divDigits v n u).2 k ∧
      ((∀ d ∈ u, d = 0) → (∀ d ∈ (divDigits v n u).1, d = 0) ∧ ∀ d ∈ (divDigits v n u).2, d = 0) := by
  induction n generalizing u with
  | zero =>
    rw [Nat.zero_add] at h
    exact ⟨digits_nil, rfl, h, fun hz => ⟨fun d hd => absurd hd List.not_mem_nil, hz⟩⟩
  | succ n ih =>
    obtain ⟨hq, hleft, hz⟩ := divStep_left (n := n + k) hv (by convert h using 1; omega)
    obtain ⟨hd, hl, hk, hzn⟩ := ih hleft
    rw [divDigits_succ]
    refine ⟨digits_cons.mpr ⟨by omega, hd⟩, by simp [hl], hk, fun hu => ?_⟩
    obtain ⟨hq0, hu'⟩ := hz hu
    obtain ⟨h1, h2⟩ := hzn fun d hdm => hu' d (List.mem_of_mem_tail hdm)
    exact ⟨List.forall_mem_cons.mpr ⟨hq0, h1⟩, h2⟩

/-! ## divisor and dividend -/

theorem scalarLoop_spec {s : Int} (hs : 0 ≤ s) {ds : List Int} (hd : Digits 10 ds) {quot : Int}
    (hq : 0 ≤ quot) (mant : List Int) :
    ∃ q w, scalarLoop s ds quot mant = q :: (w ++ mant) ∧ w.length = ds.length ∧ Digits 10 w ∧
      0 ≤ q ∧ q * 10 ^ ds.length + val 10 w = s * val 10 ds.reverse + quot := by
  induction ds generalizing quot mant with
  | nil => exact ⟨quot, [], rfl, rfl, digits_nil, hq, by simp⟩
  | cons d ds ih =>
    obtain ⟨⟨hd0, hd9⟩, hds⟩ := digits_cons.mp hd
    have hn : 0 ≤ s * d + quot := add_nonneg (mul_nonneg hs hd0) hq
    have e1 := Int.tdiv_eq_ediv_of_nonneg (b := 10) hn
    have e2 := Int.tmod_eq_emod_of_nonneg (b := 10) hn
    obtain ⟨q, w, e, hw, hwd, hq0, hv⟩ :=
      ih hds (Int.ediv_nonneg hn (by norm_num) : 0 ≤ (s * d + quot) / 10) ((s * d + quot) % 10 :: mant)
    refine ⟨q, w ++ [(s * d + quot) % 10], ?_, by simp [hw], ?_, hq0, ?_⟩
    · rw [scalarLoop]
      rw [e1, e2, e, List.append_assoc]
      rfl
    · refine digits_append.mpr ⟨hwd, digits_cons.mpr ⟨⟨by omega, by omega⟩, digits_nil⟩⟩
    · have hm := Int.emod_add_mul_ediv (s * d + quot) 10
      rw [List.reverse_cons, val_append, val_append, List.length_cons, pow_succ]
      simp only [List.length_singleton, val_cons, List.length_nil, val_nil]
      linear_combination 10 * hv + hm

/-- a mantissa with a digit other than 0 in front -/
structure Leading (m : List Int) : Prop where
  digits : Digits 10 m
  lead : m.getD 0 0 ≠ 0

theorem Leading.cons {m : List Int} (h : Leading m) :
    ∃ d l, m = d :: l ∧ (1 ≤ d ∧ d ≤ 9) ∧ Digits 10 l := by
  cases m with
  | nil => exact absurd rfl h.lead
  | cons d l =>
    obtain ⟨hd, hl⟩ := digits_cons.mp h.digits
    have hne : d ≠ 0 := h.lead
    exact ⟨d, l, rfl, by omega, hl⟩

theorem scalarMultiply_spec {f : CFloat} (hd : Digits 10 f.mant) {s : Int} (hs : 1 ≤ s) :
    ∃ q w, scalarMultiply f s = q :: w ∧ w.length = f.mant.length ∧ Digits 10 w ∧
      (0 ≤ q ∧ q < s) ∧ q * 10 ^ f.mant.length + val 10 w = s * val 10 f.mant := by
  have hr : Digits 10 f.mant.reverse := fun d h => hd d (List.mem_reverse.mp h)
  obtain ⟨q, w, e, hw, hwd, hq0, hv⟩ := scalarLoop_spec (by omega : 0 ≤ s) hr (le_refl 0) []
  rw [List.length_reverse] at hw hv
  rw [List.reverse_reverse, add_zero] at hv
  rw [List.append_nil] at e
  refine ⟨q, w, e, hw, hwd, ⟨hq0, ?_⟩, hv⟩
  have h1 := Numerals.val_lt (b := 10) (by norm_num) hd
  have h2 := val_nonneg (b := 10) (by norm_num) hwd
  have h3 : s * val 10 f.mant < s * 10 ^ f.mant.length :=
    mul_lt_mul_of_pos_left h1 (by omega)
  have h4 : q * 10 ^ f.mant.length < s * 10 ^ f.mant.length := by omega
  exact lt_of_mul_lt_mul_right h4 (by positivity)

theorem divScale_range {d : Int} (hd : 1 ≤ d ∧ d ≤ 9) :
    1 ≤ divScale d ∧ divScale d ≤ 5 ∧ 5 ≤ divScale d * d ∧ divScale d * (d + 1) ≤ 10 ∧
      divScale d ≤ divScale d * d := by
  obtain ⟨h1, h9⟩ := hd
  have h : d = 1 ∨ d = 2 ∨ d = 3 ∨ d = 4 ∨ d = 5 ∨ d = 6 ∨ d = 7 ∨ d = 8 ∨ d = 9 := by omega
  rcases h with rfl | rfl | rfl | rfl | rfl | rfl | rfl | rfl | rfl <;> decide

/-- the divisor scaled: its second digit is at least 5, and at least the scale -/
theorem divisor_spec {f2 : CFloat} (h : Leading f2.mant) :
    Divisor (divisor f2) ∧ divScale (cfAccess f2 0) ≤ (divisor f2).getD 1 0 := by
  obtain ⟨d, l, hm, hd, hl⟩ := h.cons
  have ha : cfAccess f2 0 = d := by
    show f2.mant.getD 0 0 = d
    rw [hm]
    rfl
  obtain ⟨hs1, hs5, hsd, hsd1, hsle⟩ := divScale_range hd
  obtain ⟨q, w, e, hw, hwd, hq, hv⟩ := scalarMultiply_spec h.digits hs1
  have hlen : f2.mant.length = l.length + 1 := by
    rw [hm]
    rfl
  obtain ⟨w0, w', rfl⟩ : ∃ w0 w', w = w0 :: w' := by
    cases w with
    | nil =>
      rw [hlen] at hw
      cases hw
    | cons w0 w' => exact ⟨w0, w', rfl⟩
  have hwl : w'.length = l.length := by simpa [hlen] using hw
  have hp : (0 : Int) < 10 ^ l.length := by positivity
  have hvm : val 10 f2.mant = d * 10 ^ l.length + val 10 l := by rw [hm, val_cons]
  have hl0 := val_nonneg (b := 10) (by norm_num) hl
  have hl1 := Numerals.val_lt (b := 10) (by norm_num) hl
  have hw0 := val_nonneg (b := 10) (by norm_num) (digits_cons.mp hwd).2
  have hw1 := Numerals.val_lt (b := 10) (by norm_num) (digits_cons.mp hwd).2
  rw [hwl] at hw1
  rw [hvm, hlen, pow_succ, val_cons, hwl] at hv
  have hwnn := (digits_cons.mp hwd).1
  have hdiv : divisor f2 = if (q :: w0 :: w').length < 3 then expandCF (q :: w0 :: w') 1
      else q :: w0 :: w' := by
    rw [divisor, ha, e]
  rw [ha, hdiv]
  clear hdiv e
  generalize divScale d = s at *
  generalize (10 : Int) ^ l.length = p at *
  -- the product has no more digits than the divisor
  have hq0 : q = 0 := by
    by_contra hne
    have h1 : 1 * (p * 10) ≤ q * (p * 10) := mul_le_mul_of_nonneg_right (by omega) (by omega)
    have h2 : s * (d + 1) * p ≤ 10 * p := mul_le_mul_of_nonneg_right hsd1 hp.le
    have h3 : 0 ≤ w0 * p := mul_nonneg hwnn.1 hp.le
    nlinarith
  have hge : s * d ≤ w0 := by
    by_contra hlt
    have h1 : (w0 + 1) * p ≤ s * d * p := mul_le_mul_of_nonneg_right (by omega) hp.le
    have h2 : 0 ≤ s * val 10 l := mul_nonneg (by omega) hl0
    rw [hq0, zero_mul, zero_add] at hv
    linarith
  have hdig : Digits 10 (0 :: w0 :: w') := digits_cons.mpr ⟨by omega, hwd⟩
  rw [hq0]
  by_cases h3 : (0 :: w0 :: w').length < 3
  · rw [if_pos h3]
    have hnil : w' = [] := by
      cases w' with
      | nil => rfl
      | cons a b =>
        simp at h3
        omega
    subst hnil
    refine ⟨⟨?_, by simp [expandCF], rfl, ?_⟩, ?_⟩
    · exact digits_append.mpr ⟨hdig, digits_zeros (by norm_num) 1⟩
    · show 5 ≤ w0
      omega
    · show s ≤ w0
      omega
  · rw [if_neg h3]
    refine ⟨⟨hdig, by omega, rfl, ?_⟩, ?_⟩
    · show 5 ≤ w0
      omega
    · show s ≤ w0
      omega

/-- the dividend scaled, with the digits behind it -/
theorem dividend_left {f1 f2 : CFloat} (h1 : Digits 10 f1.mant) (h2 : Leading f2.mant) :
    Left (divisor f2) (dividend f1 f2) (maxPrec + 1) ∧
      ((∀ d ∈ f1.mant, d = 0) → ∀ d ∈ dividend f1 f2, d = 0) := by
  obtain ⟨hv, hlead⟩ := divisor_spec h2
  obtain ⟨d, l, hm, hd, hl⟩ := h2.cons
  have ha : cfAccess f2 0 = d := by
    show f2.mant.getD 0 0 = d
    rw [hm]
    rfl
  rw [ha] at hlead
  obtain ⟨hs1, hs5, -⟩ := divScale_range hd
  obtain ⟨q, w, e, hw, hwd, hq, hval⟩ := scalarMultiply_spec h1 hs1
  -- the digits behind the first one do not matter
  obtain ⟨k, hk, hdk⟩ : ∃ k, dividend f1 f2 = q :: (w ++ List.replicate k 0) ∧
      (divisor f2).length + (maxPrec + 1) ≤ (q :: (w ++ List.replicate k (0 : Int))).length := by
    rw [dividend, ha, e]
    split
    · refine ⟨(divisor f2).length - (q :: w).length + 1 + maxPrec, ?_, ?_⟩
      · rw [expandCF, List.append_assoc, List.replicate_append_replicate]
        rfl
      · simp
        omega
    · refine ⟨maxPrec, rfl, ?_⟩
      simp at *
      omega
  rw [hk]
  have hdw : Digits 10 (w ++ List.replicate k 0) :=
    digits_append.mpr ⟨hwd, digits_zeros (by norm_num) k⟩
  have hv3 := hv.long
  refine ⟨⟨digits_cons.mpr ⟨by omega, hdw⟩, hdk, ?_⟩, ?_⟩
  · obtain ⟨a, b, c, ev⟩ : ∃ a b c, divisor f2 = a :: b :: c := by
      match e : divisor f2, hv3 with
      | a :: b :: c, _ => exact ⟨a, b, c, rfl⟩
    have hb : divScale d ≤ b := by simpa [ev] using hlead
    have ha0 : a = 0 := by simpa [ev] using hv.zero
    have hcd := (digits_cons.mp (digits_cons.mp (ev ▸ hv.digits)).2).2
    have hc0 := val_nonneg (b := 10) (by norm_num) hcd
    rw [ev]
    have hn : (a :: b :: c).length = (c.length + 1) + 1 := rfl
    have hlen : c.length + 1 ≤ (w ++ List.replicate k (0 : Int)).length := by
      rw [ev] at hdk
      simp at hdk ⊢
      omega
    have htd : Digits 10 ((w ++ List.replicate k 0).take (c.length + 1)) :=
      hdw.sublist (List.take_sublist _ _)
    have htl := Numerals.val_lt (b := 10) (by norm_num) htd
    rw [List.length_take_of_le hlen] at htl
    rw [hn, List.take_succ_cons, val_cons, val_cons, val_cons, List.length_take_of_le hlen, ha0]
    rw [pow_succ] at htl ⊢
    have hp : (0 : Int) < 10 ^ c.length := by positivity
    generalize (10 : Int) ^ c.length = p at *
    have h3 : (q + 1) * (p * 10) ≤ b * (p * 10) := mul_le_mul_of_nonneg_right (by omega) (by omega)
    have h4 : (0 : Int) * 10 ^ (b :: c).length = 0 := zero_mul _
    rw [h4]
    linarith
  · intro hz
    have hval0 : val 10 f1.mant = 0 := val_of_zeros hz
    rw [hval0, mul_zero] at hval
    have hp : (0 : Int) < 10 ^ f1.mant.length := by positivity
    have hw0 := val_nonneg (b := 10) (by norm_num) hwd
    have hq0 : q = 0 := by
      by_contra hne
      have := mul_pos (by omega : 0 < q) hp
      omega
    rw [hq0, zero_mul, zero_add] at hval
    rw [hq0]
    refine List.forall_mem_cons.mpr ⟨rfl, fun d hdm => ?_⟩
    rcases List.mem_append.mp hdm with hm | hm
    · exact val_eq_zero hwd hval d hm
    · exact List.eq_of_mem_replicate hm

/-! ## the quotient -/

theorem roundupLoop_digits {l : List Int} (h : Digits 10 l) :
    Digits 10 (roundupLoop l).1 ∧ (roundupLoop l).1.length = l.length := by
  induction l with
  | nil => exact ⟨digits_nil, rfl⟩
  | cons d l ih =>
    obtain ⟨hd, hl⟩ := digits_cons.mp h
    obtain ⟨ih1, ih2⟩ := ih hl
    rw [roundupLoop]
    split
    · exact ⟨digits_cons.mpr ⟨by omega, ih1⟩, by simp [ih2]⟩
    · exact ⟨digits_cons.mpr ⟨by omega, hl⟩, rfl⟩

theorem roundupCF_digits {f : CFloat} (h : Digits 10 f.mant) :
    Digits 10 (roundupCF f).mant ∧ (roundupCF f).mant.length = f.mant.length ∧
      (roundupCF f).sign = f.sign := by
  have hr : Digits 10 f.mant.reverse := fun d hd => h d (List.mem_reverse.mp hd)
  obtain ⟨h1, h2⟩ := roundupLoop_digits hr
  rw [List.length_reverse] at h2
  have h3 : Digits 10 (roundupLoop f.mant.reverse).1.reverse :=
    fun d hd => h1 d (List.mem_reverse.mp hd)
  rw [roundupCF]
  dsimp only
  split
  · exact ⟨h3, by simp [h2], rfl⟩
  · refine ⟨fun d hd => ?_, by simp [h2], rfl⟩
    rcases List.mem_or_eq_of_mem_set hd with hm | hm
    · exact h3 d hm
    · omega

/-- all of the quotient are digits, 32 of them, and zeros when the dividend is zero -/
theorem divDigits_digits {f1 f2 : CFloat} (h1 : Digits 10 f1.mant) (h2 : Leading f2.mant) :
    Digits 10 (quotDigits f1 f2).mant ∧ (quotDigits f1 f2).mant.length = maxPrec ∧
      (quotDigits f1 f2).sign = f1.sign * f2.sign ∧
      ((∀ d ∈ f1.mant, d = 0) → ∀ d ∈ (quotDigits f1 f2).mant, d = 0) := by
  obtain ⟨hleft, hz⟩ := dividend_left h1 h2
  obtain ⟨hv, -⟩ := divisor_spec h2
  obtain ⟨hd, hl, hk, hzn⟩ := divDigits_left hv maxPrec (k := 1) hleft
  obtain ⟨-, -, hz1⟩ := divStep_left hv hk
  rw [quotDigits]
  generalize divDigits (divisor f2) maxPrec (dividend f1 f2) = r at *
  obtain ⟨mant, u⟩ := r
  dsimp only at *
  generalize divStep (divisor f2) u = t at *
  obtain ⟨qa, left⟩ := t
  dsimp only at *
  split
  · rename_i hup
    obtain ⟨hr1, hr2, hr3⟩ :=
      roundupCF_digits (f := ⟨f1.exp - f2.exp + 1, f1.sign * f2.sign, mant⟩) hd
    refine ⟨hr1, hr2.trans hl, hr3, fun h0 => ?_⟩
    -- nothing is left to round up
    obtain ⟨hq0, -⟩ := hz1 (hzn (hz h0)).2
    rw [hq0] at hup
    rcases hup with hup | hup
    · omega
    · omega
  · exact ⟨hd, hl, rfl, fun h0 => (hzn (hz h0)).1⟩

end CFloat
