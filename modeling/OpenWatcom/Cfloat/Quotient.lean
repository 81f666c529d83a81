import OpenWatcom.Cfloat.Runs
import OpenWatcom.Lib.NearestEven

/-!
# The quotient that `CFDiv` computes

* `divStep_value`, `divDigits_value`   the dividend in terms of the digits that were deposited and of
                        what is left;
* `divRound`            a round of the loop: the estimate, the digit and the remainder;
* `quotDigits_value`    the digits are the quotient rounded to 32 places, ties to even;
* `cfDiv_nearest`       `CFDiv` over all numbers in the normal form.
-/

namespace CFloat
open Numerals

/-! ## the rounds -/

/-- the window of the dividend in a round, for a divisor `v` -/
def window (v u : List Int) : Int := val 10 (u.take v.length)

/-- a round of the loop: the estimate is the digit of the quotient or one more, and what is left in
the window is the remainder -/
structure RoundRight (v u : List Int) : Prop where
  estimate : trialDigit u v = window v u / val 10 v ∨ trialDigit u v = window v u / val 10 v + 1
  digit : (divStep v u).1 = window v u / val 10 v
  range : 0 ≤ (divStep v u).1 ∧ (divStep v u).1 ≤ 9
  remainder : window v (divStep v u).2 = window v u % val 10 v
  small : 0 ≤ window v (divStep v u).2 ∧ window v (divStep v u).2 < val 10 v

section
variable {u v : List Int} {n : Nat}

theorem Divisor.val_pos (hv : Divisor v) : 0 < val 10 v := by
  have h5 := hv.lead
  have h0 := hv.zero
  match v, hv.long with
  | a :: b :: l, _ =>
    have hd := digits_cons.mp (digits_cons.mp hv.digits).2
    have hb : 5 ≤ b := h5
    have hge := val_ge (b := 10) (by norm_num) (digits_cons.mpr hd) (by omega : b ≠ 0)
    have ha : a = 0 := h0
    rw [val_cons, ha, zero_mul, zero_add]
    exact lt_of_lt_of_le (by positivity) hge

theorem divRound (hv : Divisor v) (h : Left v u (n + 1)) : RoundRight v u := by
  have hl : v.length ≤ u.length := by
    have := h.long
    omega
  have hV := hv.val_pos
  obtain ⟨q, w, e, hq, hw, hd, hval, hlt⟩ := divStep_spec hv h.digits hl h.small
  obtain ⟨-, hlo, hhi⟩ := trialDigit_spec hv h.digits hl h.small
  have hw0 := val_nonneg (b := 10) (by norm_num) hd
  have hwin : window v (divStep v u).2 = val 10 w := by
    rw [e, window, ← hw, List.take_left]
  have hdiv : window v u / val 10 v = q := by
    rw [window, hval, Int.add_comm, Int.add_mul_ediv_right _ _ hV.ne', Int.ediv_eq_zero_of_lt hw0 hlt,
      zero_add]
  have hmod : window v u % val 10 v = val 10 w := by
    rw [window, hval, Int.add_comm, Int.add_mul_emod_self_right, Int.emod_eq_of_lt hw0 hlt]
  have hfst : (divStep v u).1 = q := by rw [e]
  refine ⟨?_, ?_, ?_, ?_, ?_⟩
  · have h1 : trialDigit u v - 1 ≤ q := by
      rw [← hdiv]
      exact (Int.le_ediv_iff_mul_le hV).mpr hlo
    have h2 : q < trialDigit u v + 1 := by
      rw [← hdiv]
      exact (Int.ediv_lt_iff_lt_mul hV).mpr hhi
    omega
  · rw [hfst, hdiv]
  · rw [hfst]
    exact hq
  · rw [hwin, hmod]
  · rw [hwin]
    exact ⟨hw0, hlt⟩

/-- what a round takes off the dividend -/
theorem divStep_value (hv : Divisor v) (h : Left v u (n + 1)) :
    val 10 u = (divStep v u).1 * val 10 v * 10 ^ (u.length - v.length)
      + val 10 (divStep v u).2.tail ∧ (divStep v u).2.tail.length = u.length - 1 ∧
      (divStep v u).2.tail.drop v.length = u.drop (v.length + 1) := by
  have hl : v.length ≤ u.length := by
    have := h.long
    omega
  obtain ⟨q, w, e, hq, hw, hd, hval, hlt⟩ := divStep_spec hv h.digits hl h.small
  obtain ⟨l, rfl⟩ := head_zero hv hw hd hlt
  have hu : val 10 u = val 10 (u.take v.length) * 10 ^ (u.length - v.length)
      + val 10 (u.drop v.length) := by
    conv_lhs => rw [← List.take_append_drop v.length u]
    rw [val_append, List.length_drop]
  rw [e]
  refine ⟨?_, ?_, ?_⟩
  · show _ = q * val 10 v * 10 ^ (u.length - v.length) + val 10 (l ++ u.drop v.length)
    rw [val_cons, zero_mul, zero_add] at hval
    rw [hu, hval, val_append, List.length_drop]
    ring
  · show (l ++ u.drop v.length).length = _
    rw [List.length_append, List.length_drop]
    simp at hw
    omega
  · show (l ++ u.drop v.length).drop v.length = _
    have h3 : l.length + 1 = v.length := by simpa using hw
    rw [List.drop_append, List.drop_eq_nil_of_le (by omega), List.nil_append, List.drop_drop]
    congr 1
    omega

theorem divDigits_value (hv : Divisor v) (n : Nat) {u : List Int} {k : Nat}
    (h : Left v u (n + k)) :
    val 10 u = val 10 (divDigits v n u).1 * val 10 v * 10 ^ (u.length - v.length + 1 - n)
      + val 10 (divDigits v n u).2 ∧ (divDigits v n u).2.length = u.length - n ∧
      (divDigits v n u).2.drop v.length = u.drop (v.length + n) := by
  induction n generalizing u with
  | zero =>
    refine ⟨?_, rfl, rfl⟩
    show val 10 u = val 10 [] * val 10 v * _ + val 10 u
    rw [val_nil, zero_mul, zero_mul, zero_add]
  | succ n ih =>
    have hk : Left v u (n + k + 1) := by
      convert h using 1
      omega
    obtain ⟨hval, hlen, hdrop⟩ := divStep_value hv hk
    obtain ⟨-, hleft, -⟩ := divStep_left hv hk
    obtain ⟨hval', hlen', hdrop'⟩ := ih hleft
    obtain ⟨-, hn, -, -⟩ := divDigits_left hv n hleft
    have hlong := hk.long
    obtain ⟨m, hm⟩ : ∃ m, u.length = v.length + n + m := ⟨u.length - v.length - n, by omega⟩
    have e1 : u.length - v.length + 1 - (n + 1) = m := by omega
    have e2 : u.length - 1 - v.length + 1 - n = m := by omega
    have e3 : u.length - v.length = n + m := by omega
    rw [divDigits_succ]
    refine ⟨?_, ?_, ?_⟩
    · dsimp only
      rw [hlen, e2] at hval'
      rw [hval, hval', val_cons, hn, e1, e3, pow_add]
      ring
    · dsimp only
      rw [hlen', hlen]
      omega
    · dsimp only
      have h1 : v.length + (n + 1) = v.length + 1 + n := by omega
      rw [hdrop', h1, ← List.drop_drop, ← List.drop_drop, hdrop]

/-! ## scaled operands -/

theorem scalarMultiply_value {f : CFloat} (hd : Digits 10 f.mant) {s : Int} (hs : 1 ≤ s) :
    val 10 (scalarMultiply f s) = s * val 10 f.mant ∧
      (scalarMultiply f s).length = f.mant.length + 1 := by
  obtain ⟨q, w, e, hw, -, -, hval⟩ := scalarMultiply_spec hd hs
  rw [e, val_cons, hw, hval, List.length_cons, hw]
  exact ⟨rfl, rfl⟩

theorem divisor_eq (f2 : CFloat) : ∃ p, divisor f2
    = scalarMultiply f2 (divScale (cfAccess f2 0)) ++ List.replicate p 0 := by
  rw [divisor]
  split
  · exact ⟨1, rfl⟩
  · exact ⟨0, by simp⟩

theorem dividend_eq (f1 f2 : CFloat) : ∃ p, maxPrec ≤ p ∧ dividend f1 f2
    = scalarMultiply f1 (divScale (cfAccess f2 0)) ++ List.replicate p 0 := by
  rw [dividend]
  split
  · refine ⟨(divisor f2).length - (scalarMultiply f1 (divScale (cfAccess f2 0))).length + 1 + maxPrec,
      by omega, ?_⟩
    rw [expandCF, List.append_assoc, List.replicate_append_replicate]
  · exact ⟨maxPrec, le_refl _, rfl⟩

end

/-! ## rounding up -/

theorem roundupLoop_value {l : List Int} :
    ((roundupLoop l).2 = true → val 10 (roundupLoop l).1.reverse = val 10 l.reverse + 1) ∧
    ((roundupLoop l).2 = false → val 10 l.reverse + 1 = 10 ^ l.length ∧
      (roundupLoop l).1 = List.replicate l.length 0) := by
  induction l with
  | nil => exact ⟨fun h => absurd h (by decide), fun _ => ⟨rfl, rfl⟩⟩
  | cons d ds ih =>
    have hrev (x : Int) (xs : List Int) : val 10 (x :: xs).reverse = val 10 xs.reverse * 10 + x := by
      rw [List.reverse_cons, val_append, val_cons]
      simp
    rw [roundupLoop]
    by_cases h9 : d = 9
    · rw [if_pos h9]
      dsimp only
      refine ⟨fun h => ?_, fun h => ?_⟩
      · rw [hrev, hrev, ih.1 h, h9]
        ring
      · obtain ⟨h1, h2⟩ := ih.2 h
        refine ⟨?_, ?_⟩
        · rw [hrev, h9, List.length_cons, pow_succ, ← h1]
          ring
        · rw [h2, List.length_cons, List.replicate_succ]
    · rw [if_neg h9]
      dsimp only
      refine ⟨fun _ => ?_, fun h => absurd h (by decide)⟩
      rw [hrev, hrev]
      ring

/-- `roundupCF` adds one in the last place -/
theorem roundupCF_size {f : CFloat} (hdig : Digits 10 f.mant) (hne : f.mant ≠ []) :
    (roundupCF f).size = f.size + 10 ^ (f.exp - f.len) := by
  obtain ⟨h1, h2⟩ := roundupLoop_value (l := f.mant.reverse)
  rw [List.reverse_reverse, List.length_reverse] at h2
  rw [List.reverse_reverse] at h1
  have hr : Digits 10 f.mant.reverse := fun d hd => hdig d (List.mem_reverse.mp hd)
  have hl : (roundupLoop f.mant.reverse).1.length = f.mant.length := by
    rw [(roundupLoop_digits hr).2, List.length_reverse]
  rw [roundupCF]
  dsimp only
  by_cases hd : (roundupLoop f.mant.reverse).2 = true
  · rw [if_pos hd, size, size, len, len, h1 hd, List.length_reverse, hl]
    push_cast
    ring
  · rw [if_neg hd]
    obtain ⟨h3, h4⟩ := h2 (by simpa using hd)
    obtain ⟨n, hn⟩ : ∃ n, f.mant.length = n + 1 :=
      ⟨f.mant.length - 1, by have := List.length_pos_of_ne_nil hne; omega⟩
    have hset : ((roundupLoop f.mant.reverse).1.reverse.set 0 1) = 1 :: List.replicate n 0 := by
      rw [h4, hn, List.reverse_replicate, List.replicate_succ, List.set_cons_zero]
    have hval : (val 10 f.mant : ℚ) = 10 ^ (n + 1) - 1 := by
      have : val 10 f.mant = 10 ^ (n + 1) - 1 := by
        rw [← hn]
        omega
      rw [this]
      push_cast
      ring
    rw [size, size, len, len, hset, hval, val_cons, val_zeros, List.length_cons, List.length_replicate,
      hn]
    push_cast
    have he : f.exp + 1 - ((n : ℤ) + 1) = f.exp - ((n : ℤ) + 1) + 1 := by ring
    rw [he, zpow_add₀ (by norm_num), pow_succ]
    ring

/-! ## the quotient -/

section
variable {f1 f2 : CFloat}

/-- the digits that are deposited, the one behind them and what is left -/
theorem quotient_exact (h1 : Digits 10 f1.mant) (hs1 : f1.mant.length ≤ maxPrec)
    (h2 : Leading f2.mant) {ms u w : List Int} {qa : Int}
    (hms : divDigits (divisor f2) maxPrec (dividend f1 f2) = (ms, u))
    (hstep : divStep (divisor f2) u = (qa, w)) :
    f1.size / f2.size = ((val 10 ms : ℚ) + ((qa : ℚ)
      + (window (divisor f2) w : ℚ) / (val 10 (divisor f2) : ℚ)) / 10)
        * 10 ^ (f1.exp - f2.exp + 1 - maxPrec) := by
  obtain ⟨hleft, -⟩ := dividend_left h1 h2
  obtain ⟨hv, -⟩ := divisor_spec h2
  obtain ⟨hval, hlen, hdrop⟩ := divDigits_value hv maxPrec (k := 1) hleft
  obtain ⟨-, -, hk, -⟩ := divDigits_left hv maxPrec (k := 1) hleft
  rw [hms] at hval hlen hdrop hk
  dsimp only at hval hlen hdrop hk
  obtain ⟨d, l, hm, hd, -⟩ := h2.cons
  have ha : cfAccess f2 0 = d := by
    show f2.mant.getD 0 0 = d
    rw [hm]
    rfl
  obtain ⟨hsc, -⟩ := divScale_range hd
  obtain ⟨p1, hp1, hu⟩ := dividend_eq f1 f2
  obtain ⟨p2, hvv⟩ := divisor_eq f2
  rw [ha] at hu hvv
  obtain ⟨m1, l1⟩ := scalarMultiply_value h1 hsc
  obtain ⟨m2, l2⟩ := scalarMultiply_value h2.digits hsc
  have hulen : (dividend f1 f2).length = f1.mant.length + 1 + p1 := by
    rw [hu, List.length_append, l1, List.length_replicate]
  have hvlen : (divisor f2).length = f2.mant.length + 1 + p2 := by
    rw [hvv, List.length_append, l2, List.length_replicate]
  have huval : val 10 (dividend f1 f2) = divScale d * val 10 f1.mant * 10 ^ p1 := by
    rw [hu, val_append, m1, val_zeros, List.length_replicate, add_zero]
  have hvval : val 10 (divisor f2) = divScale d * val 10 f2.mant * 10 ^ p2 := by
    rw [hvv, val_append, m2, val_zeros, List.length_replicate, add_zero]
  have hlong := hleft.long
  have hv3 := hv.long
  have h32 : maxPrec = 32 := rfl
  obtain ⟨m, hm⟩ : ∃ m, (dividend f1 f2).length = (divisor f2).length + maxPrec + m :=
    ⟨(dividend f1 f2).length - (divisor f2).length - maxPrec, by omega⟩
  -- behind the last window there are only the zeros of `ue`
  have hrest : val 10 (u.drop (divisor f2).length) = 0 := by
    rw [hdrop, hu]
    refine val_of_zeros fun x hx => ?_
    rw [List.drop_append, List.drop_eq_nil_of_le (by rw [l1]; omega), List.nil_append] at hx
    exact List.eq_of_mem_replicate (List.mem_of_mem_drop hx)
  have hlast : val 10 u = (qa * val 10 (divisor f2) + window (divisor f2) w) * 10 ^ m := by
    obtain ⟨q, w', e, -, hw', -, hval', -⟩ :=
      divStep_spec hv hk.digits (by have := hk.long; omega) hk.small
    rw [hstep] at e
    obtain ⟨rfl, rfl⟩ := Prod.mk.inj e
    have hul : u.length - (divisor f2).length = m := by omega
    rw [window, List.take_append_of_le_length (by omega), List.take_of_length_le (by omega), ← hval']
    conv_lhs => rw [← List.take_append_drop (divisor f2).length u]
    rw [val_append, List.length_drop, hul, hrest, add_zero]
  have hexp : (dividend f1 f2).length - (divisor f2).length + 1 - maxPrec = m + 1 := by omega
  rw [hexp, hlast, huval] at hval
  -- over the rationals
  have hV := hv.val_pos
  have hVq : (val 10 (divisor f2) : ℚ) ≠ 0 := by exact_mod_cast hV.ne'
  have hs0 : (divScale d : ℚ) ≠ 0 := by
    have : divScale d ≠ 0 := by omega
    exact_mod_cast this
  have e1 : (val 10 f1.mant : ℚ) = ((val 10 ms : ℚ) * (val 10 (divisor f2) : ℚ) * 10 ^ (m + 1)
      + ((qa : ℚ) * (val 10 (divisor f2) : ℚ) + (window (divisor f2) w : ℚ)) * 10 ^ m)
        / ((divScale d : ℚ) * 10 ^ p1) := by
    rw [eq_div_iff (by positivity)]
    have := congrArg (fun x : ℤ => (x : ℚ)) hval
    push_cast at this
    linarith
  have e2 : (val 10 f2.mant : ℚ) = (val 10 (divisor f2) : ℚ) / ((divScale d : ℚ) * 10 ^ p2) := by
    rw [eq_div_iff (by positivity)]
    have := congrArg (fun x : ℤ => (x : ℚ)) hvval
    push_cast at this
    linarith
  have hz : (10 : ℚ) ^ (f1.exp - f1.len) = 10 ^ (f1.exp - f2.exp + 1 - (maxPrec : ℤ))
      * 10 ^ (f2.exp - f2.len) * (10 ^ p1 / (10 ^ (m + 1) * 10 ^ p2)) := by
    have hc : (f1.exp - f1.len) + ((m + 1 : ℕ) : ℤ) + (p2 : ℤ)
        = (f1.exp - f2.exp + 1 - (maxPrec : ℤ)) + (f2.exp - f2.len) + (p1 : ℤ) := by
      rw [len, len]
      push_cast
      omega
    have hpow := congrArg (fun x : ℤ => (10 : ℚ) ^ x) hc
    rw [zpow_add₀ (by norm_num), zpow_add₀ (by norm_num), zpow_add₀ (by norm_num),
      zpow_add₀ (by norm_num), zpow_natCast, zpow_natCast, zpow_natCast] at hpow
    rw [mul_div_assoc', eq_div_iff (by positivity), ← mul_assoc]
    exact hpow
  have hg : (10 : ℚ) ^ (f2.exp - f2.len) ≠ 0 := by positivity
  rw [size, size, e1, e2, hz]
  generalize (10 : ℚ) ^ (f1.exp - f2.exp + 1 - (maxPrec : ℤ)) = g
  generalize (10 : ℚ) ^ (f2.exp - f2.len) = g2 at *
  rw [pow_succ]
  field_simp

/-- the last digit of a numeral tells whether the number is even -/
theorem even_val {l : List Int} {n : Nat} (hl : l.length = n + 1) :
    Even (val 10 l) ↔ l.getD n 0 % 2 = 0 := by
  obtain ⟨m, d, rfl⟩ : ∃ m d, l = m ++ [d] := by
    have hne : l ≠ [] := by
      intro e
      rw [e] at hl
      exact absurd hl (by simp)
    exact ⟨l.dropLast, l.getLast hne, (List.dropLast_append_getLast hne).symm⟩
  have hm : m.length = n := by simpa using hl
  have hget : (m ++ [d]).getD n 0 = d := by
    rw [← hm, List.getD_append_right _ _ _ _ (le_refl _)]
    simp
  have hv : val 10 (m ++ [d]) = val 10 m * 10 + d := by
    rw [val_append, val_cons]
    simp
  rw [hget, hv, Int.even_iff]
  omega

/-- the test for rounding up, on a quotient that is known to the digit behind the result -/
theorem roundsUp_nearest {g x : ℚ} {ms w : List Int} {qa y : Int} (hms : ms.length = maxPrec)
    (hw : Digits 10 w) (hlt : val 10 w < y) (hqa : 0 ≤ qa ∧ qa ≤ 9) (hg : 0 < g)
    (hx : x = ((val 10 ms : ℚ) + ((qa : ℚ) + (val 10 w : ℚ) / (y : ℚ)) / 10) * g) :
    NearestEven g x (((if roundsUp ms qa w then val 10 ms + 1 else val 10 ms : ℤ) : ℚ) * g) := by
  have hw0 := val_nonneg (b := 10) (by norm_num) hw
  have hy : (0 : ℚ) < y := by exact_mod_cast lt_of_le_of_lt hw0 hlt
  have ht0 : (0 : ℚ) ≤ (val 10 w : ℚ) / y := div_nonneg (by exact_mod_cast hw0) hy.le
  have ht1 : (val 10 w : ℚ) / y < 1 := (div_lt_one hy).mpr (by exact_mod_cast hlt)
  have hq0 : (0 : ℚ) ≤ qa := by exact_mod_cast hqa.1
  have hq9 : (qa : ℚ) ≤ 9 := by exact_mod_cast hqa.2
  have heven := even_val (n := maxPrec - 1) (hms.trans rfl)
  have hany : w.any (· ≠ 0) = true ↔ val 10 w ≠ 0 := by
    rw [List.any_eq_true]
    constructor
    · rintro ⟨d, hd, hd0⟩ h0
      exact (by simpa using hd0 : d ≠ 0) (val_eq_zero hw h0 d hd)
    · intro h0
      by_contra hno
      refine h0 (val_of_zeros fun d hd => ?_)
      by_contra hd0
      exact hno ⟨d, hd, by simpa using hd0⟩
  by_cases hup : roundsUp ms qa w
  · rw [if_pos hup]
    refine nearestEven_up hg hx (by linarith) ?_
    rcases hup with h6 | ⟨h5, hrest⟩
    · have : (6 : ℚ) ≤ qa := by exact_mod_cast h6
      exact Or.inl (by linarith)
    · have h5q : (qa : ℚ) = 5 := by exact_mod_cast h5
      by_cases h0 : val 10 w = 0
      · have hodd : ms.getD (maxPrec - 1) 0 % 2 ≠ 0 :=
          hrest.resolve_left fun ha => hany.mp ha h0
        refine Or.inr ⟨?_, fun he => hodd (heven.mp he)⟩
        rw [h0, h5q]
        norm_num
      · have hpos : (0 : ℚ) < (val 10 w : ℚ) / y :=
          div_pos (by exact_mod_cast lt_of_le_of_ne hw0 (Ne.symm h0)) hy
        exact Or.inl (by linarith)
  · rw [if_neg hup]
    refine nearestEven_down hg hx (by linarith) ?_
    by_cases h5 : qa = 5
    · have h0 : val 10 w = 0 := by
        by_contra h0
        exact hup (Or.inr ⟨h5, Or.inl (hany.mpr h0)⟩)
      have hev : ms.getD (maxPrec - 1) 0 % 2 = 0 := by
        by_contra hodd
        exact hup (Or.inr ⟨h5, Or.inr hodd⟩)
      have h5q : (qa : ℚ) = 5 := by exact_mod_cast h5
      refine Or.inr ⟨?_, heven.mpr hev⟩
      rw [h0, h5q]
      norm_num
    · have h4 : qa ≤ 4 := by
        by_contra hgt
        exact hup (Or.inl (by omega))
      have h4q : (qa : ℚ) ≤ 4 := by exact_mod_cast h4
      exact Or.inl (by linarith)

/-- the digits that go to `CFClean` are the quotient of the absolute values, rounded -/
theorem quotDigits_nearest (h1 : Digits 10 f1.mant) (hs1 : f1.mant.length ≤ maxPrec)
    (h2 : Leading f2.mant) :
    NearestEven (10 ^ (f1.exp - f2.exp + 1 - maxPrec)) (f1.size / f2.size)
      (quotDigits f1 f2).size := by
  obtain ⟨hleft, -⟩ := dividend_left h1 h2
  obtain ⟨hv, -⟩ := divisor_spec h2
  obtain ⟨hd, hl, hk, -⟩ := divDigits_left hv maxPrec (k := 1) hleft
  have hround := divRound hv hk
  obtain ⟨ms, u, hms⟩ : ∃ ms u, divDigits (divisor f2) maxPrec (dividend f1 f2) = (ms, u) :=
    ⟨_, _, Prod.mk.eta.symm⟩
  obtain ⟨qa, w, hstep⟩ : ∃ qa w, divStep (divisor f2) u = (qa, w) := ⟨_, _, Prod.mk.eta.symm⟩
  have hexact := quotient_exact h1 hs1 h2 hms hstep
  rw [hms] at hd hl hk hround
  dsimp only at hd hl hk hround
  have hwd : Digits 10 (w.take (divisor f2).length) := by
    obtain ⟨q, w', e, -, hw, hwd, -⟩ :=
      divStep_spec hv hk.digits (by have := hk.long; omega) hk.small
    rw [hstep] at e
    obtain ⟨rfl, rfl⟩ := Prod.mk.inj e
    rw [← hw, List.take_left]
    exact hwd
  have hrange := hround.range
  have hsmall := hround.small
  rw [hstep] at hrange hsmall
  have hnear := roundsUp_nearest hl hwd hsmall.2 hrange (by positivity) hexact
  have hlen : (⟨f1.exp - f2.exp + 1, f1.sign * f2.sign, ms⟩ : CFloat).len = maxPrec := by
    rw [len, hl]
  have hsize : (⟨f1.exp - f2.exp + 1, f1.sign * f2.sign, ms⟩ : CFloat).size
      = (val 10 ms : ℚ) * 10 ^ (f1.exp - f2.exp + 1 - (maxPrec : ℤ)) := by
    rw [size, hlen]
  rw [quotDigits, hms]
  dsimp only
  rw [hstep]
  dsimp only
  by_cases hup : roundsUp ms qa (w.take (divisor f2).length)
  · have hne : ms ≠ [] := by
      intro e
      rw [e] at hl
      exact absurd hl (by decide)
    rw [if_pos hup] at hnear
    rw [if_pos hup, roundupCF_size hd hne, hsize, hlen]
    have hsum : (val 10 ms : ℚ) * 10 ^ (f1.exp - f2.exp + 1 - (maxPrec : ℤ))
        + 10 ^ (f1.exp - f2.exp + 1 - (maxPrec : ℤ))
        = ((val 10 ms + 1 : ℤ) : ℚ) * 10 ^ (f1.exp - f2.exp + 1 - (maxPrec : ℤ)) := by
      push_cast
      ring
    rw [hsum]
    exact hnear
  · rw [if_neg hup] at hnear
    rw [if_neg hup, hsize]
    exact hnear

/-- `CFClean` keeps the number when it does not cut -/
theorem cfClean_value {f : CFloat} (hne : f.mant ≠ []) (h : (strip f.mant).length ≤ maxPrec) :
    (cfClean f).value = f.value := by
  by_cases h0 : strip f.mant = []
  · have hz := strip_eq_nil h0
    rw [cfClean_zero hz hne, value_alloc, value, size, val_of_zeros hz, Int.cast_zero, zero_mul,
      mul_zero]
  · rw [value, value, cfClean_sign h0, cfClean_size hne h]

/-- the signs of a product -/
theorem cast_sign_mul (s t : SignType) :
    (((s * t : SignType) : ℤ) : ℚ) = ((s : ℤ) : ℚ) * ((t : ℤ) : ℚ) := by
  cases s <;> cases t <;> norm_num

theorem cfDiv_value (h1 : f1.Normal) (h2 : f2.Normal) (hs : f2.sign ≠ 0) :
    NearestEven (10 ^ (f1.exp - f2.exp + 1 - maxPrec)) (f1.value / f2.value) (cfDiv f1 f2).value := by
  have hm := h2.mantissa hs
  have hs1 : f1.mant.length ≤ maxPrec := by
    rcases h1 with rfl | h1
    · decide
    · exact h1.2.short
  obtain ⟨hd, hl, hsg, -⟩ := divDigits_digits h1.digits hm.leading
  have hne : (quotDigits f1 f2).mant ≠ [] := by
    intro e
    rw [e] at hl
    exact absurd hl (by decide)
  have hval : (cfDiv f1 f2).value = (((f1.sign * f2.sign : SignType) : ℤ) : ℚ)
      * (quotDigits f1 f2).size := by
    rw [cfDiv, if_neg hs, cfClean_value hne (le_trans (strip_length_le _) hl.le), value, hsg]
  have hquot : f1.value / f2.value = (((f1.sign * f2.sign : SignType) : ℤ) : ℚ)
      * (f1.size / f2.size) := by
    have hpos := size_pos hm
    have hsq : ((f2.sign : ℤ) : ℚ) ≠ 0 ∧ ((f2.sign : ℤ) : ℚ) * ((f2.sign : ℤ) : ℚ) = 1 := by
      cases e : f2.sign with
      | zero => exact absurd e hs
      | pos => norm_num
      | neg => norm_num
    rw [value, value, cast_sign_mul, div_eq_iff (mul_ne_zero hsq.1 hpos.ne')]
    have hdiv : f1.size / f2.size * f2.size = f1.size := div_mul_cancel₀ _ hpos.ne'
    linear_combination (-((f1.sign : ℤ) : ℚ)) * hsq.2 * f1.size
      - ((f1.sign : ℤ) : ℚ) * (((f2.sign : ℤ) : ℚ) * ((f2.sign : ℤ) : ℚ)) * hdiv
  rw [hval, hquot]
  exact (quotDigits_nearest h1.digits hs1 hm.leading).signed _ (by positivity)

/-- every round of the loop, the one behind the result included -/
theorem rounds_right (h1 : Digits 10 f1.mant) (h2 : Leading f2.mant) {j : Nat} (hj : j ≤ maxPrec) :
    RoundRight (divisor f2) (divDigits (divisor f2) j (dividend f1 f2)).2 := by
  obtain ⟨hleft, -⟩ := dividend_left h1 h2
  obtain ⟨hv, -⟩ := divisor_spec h2
  have hsplit : maxPrec + 1 = j + (maxPrec - j + 1) := by omega
  rw [hsplit] at hleft
  exact divRound hv (divDigits_left hv j hleft).2.2.1

theorem cfDiv_nearest (h1 : f1.Normal) (h2 : f2.Normal) (hs : f2.sign ≠ 0) :
    (∀ r : ℚ, NearestEven (10 ^ (f1.exp - f2.exp + 1 - 32)) (f1.value / f2.value) r ↔
      (cfDiv f1 f2).value = r) ∧
    (∀ j ≤ 32, RoundRight (divisor f2) (divDigits (divisor f2) j (dividend f1 f2)).2) ∧
    Digits 10 (divDigits (divisor f2) 32 (dividend f1 f2)).1 ∧ Digits 10 (cfDiv f1 f2).mant := by
  have hl := (h2.mantissa hs).leading
  have hnear := cfDiv_value h1 h2 hs
  refine ⟨fun r => ⟨fun h => hnear.unique (by positivity) h, fun h => h ▸ hnear⟩,
    fun j hj => rounds_right h1.digits hl hj, ?_, (normal_div h1 h2).digits⟩
  exact (divDigits_left (divisor_spec hl).1 maxPrec (k := 1) (dividend_left h1.digits hl).1).1

/-- two thirds: a quotient without an end -/
theorem cfDiv_nearest_thirds :
    (∀ r : ℚ, NearestEven (10 ^ ((1 : ℤ) - 1 + 1 - 32))
        (value ⟨1, 1, [2]⟩ / value ⟨1, 1, [3]⟩) r ↔ (cfDiv ⟨1, 1, [2]⟩ ⟨1, 1, [3]⟩).value = r) ∧
    (∀ j ≤ 32, RoundRight (divisor ⟨1, 1, [3]⟩)
      (divDigits (divisor ⟨1, 1, [3]⟩) j (dividend ⟨1, 1, [2]⟩ ⟨1, 1, [3]⟩)).2) ∧
    Digits 10 (divDigits (divisor ⟨1, 1, [3]⟩) 32 (dividend ⟨1, 1, [2]⟩ ⟨1, 1, [3]⟩)).1 ∧
    Digits 10 (cfDiv ⟨1, 1, [2]⟩ ⟨1, 1, [3]⟩).mant :=
  @cfDiv_nearest ⟨1, 1, [2]⟩ ⟨1, 1, [3]⟩
    (Or.inr ⟨by decide, ⟨by decide, by decide, by decide, by decide, by decide⟩⟩)
    (Or.inr ⟨by decide, ⟨by decide, by decide, by decide, by decide, by decide⟩⟩) (by decide)

end

end CFloat
