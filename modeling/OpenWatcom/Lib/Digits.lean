import Mathlib

/-!
# Digits of natural numbers, the lowest one first

* `digitsOf`     the digits of a number, of which 0 has one
* `fixed`     a number of low digits
* `incr`     the next number, digit by digit: `incr_digitsOf`, `incr_fixed`
* `digitsOf_eq_fixed`     the low digits of a number, and those of what is above them
-/

namespace Digits

variable {b : ℕ}

/-- the digits of `n` in base `b` -/
def digitsOf (b n : ℕ) : List ℕ := if n = 0 then [0] else Nat.digits b n

/-- the `p` low digits of `n` -/
def fixed (b : ℕ) : ℕ → ℕ → List ℕ
  | 0, _ => []
  | p + 1, n => n % b :: fixed b p (n / b)

/-- one more, with the carry -/
def incr (b : ℕ) : List ℕ → List ℕ
  | [] => [1]
  | d :: l => if d + 1 = b then 0 :: incr b l else (d + 1) :: l

theorem digitsOf_lt {n : ℕ} (h : n < b) : digitsOf b n = [n] := by
  rw [digitsOf]
  by_cases h0 : n = 0
  · rw [if_pos h0, h0]
  · rw [if_neg h0, Nat.digits_of_lt b n h0 h]

theorem digitsOf_ge (hb : 1 < b) {n : ℕ} (h : b ≤ n) : digitsOf b n = n % b :: digitsOf b (n / b) := by
  have h0 : n ≠ 0 := by omega
  have h1 : n / b ≠ 0 := Nat.ne_of_gt (Nat.div_pos h (by omega))
  rw [digitsOf, digitsOf, if_neg h0, if_neg h1, Nat.digits_def' hb (Nat.pos_of_ne_zero h0)]

theorem digitsOf_ne_nil (b n : ℕ) : digitsOf b n ≠ [] := by
  rw [digitsOf]
  by_cases h : n = 0
  · rw [if_pos h]
    exact List.cons_ne_nil _ _
  · rw [if_neg h]
    exact Nat.digits_ne_nil_iff_ne_zero.mpr h

theorem digitsOf_digit (hb : 1 < b) {n d : ℕ} (hd : d ∈ digitsOf b n) : d < b := by
  rw [digitsOf] at hd
  by_cases h : n = 0
  · rw [if_pos h] at hd
    rw [List.mem_singleton.mp hd]
    omega
  · rw [if_neg h] at hd
    exact Nat.digits_lt_base hb hd

theorem ofDigits_digitsOf (b n : ℕ) : Nat.ofDigits b (digitsOf b n) = n := by
  rw [digitsOf]
  by_cases h : n = 0
  · rw [if_pos h, h, Nat.ofDigits_singleton]
  · rw [if_neg h, Nat.ofDigits_digits]

@[simp] theorem fixed_length (b p n : ℕ) : (fixed b p n).length = p := by
  induction p generalizing n with
  | zero => rfl
  | succ p ih => rw [fixed, List.length_cons, ih]

theorem fixed_digit (hb : 0 < b) {p n d : ℕ} (hd : d ∈ fixed b p n) : d < b := by
  induction p generalizing n with
  | zero => exact absurd hd List.not_mem_nil
  | succ p ih =>
    rcases List.mem_cons.mp hd with rfl | hd
    · exact Nat.mod_lt n hb
    · exact ih hd

/-- the highest of the low digits apart -/
theorem fixed_succ (b p n : ℕ) : fixed b (p + 1) n = fixed b p n ++ [n / b ^ p % b] := by
  induction p generalizing n with
  | zero => rw [fixed, fixed, fixed, pow_zero, Nat.div_one, List.nil_append]
  | succ p ih => rw [fixed, ih, fixed, List.cons_append, Nat.div_div_eq_div_mul, ← pow_succ']

/-- low digits do not depend on the digits above them -/
theorem fixed_add_mul (hb : 0 < b) (p m k : ℕ) : fixed b p (m + k * b ^ p) = fixed b p m := by
  induction p generalizing m with
  | zero => rfl
  | succ p ih =>
    have h1 : m + k * b ^ (p + 1) = m + k * b ^ p * b := by rw [pow_succ, mul_assoc]
    rw [fixed, fixed, h1, Nat.add_mul_mod_self_right, Nat.add_mul_div_right _ _ hb, ih]

/-- the low digits of a number, and the digits of what is above them -/
theorem digitsOf_eq_fixed (hb : 1 < b) {p n : ℕ} (h : b ^ p ≤ n) :
    digitsOf b n = fixed b p n ++ digitsOf b (n / b ^ p) := by
  induction p generalizing n with
  | zero => rw [fixed, pow_zero, Nat.div_one, List.nil_append]
  | succ p ih =>
    have hpos : 0 < b ^ p := pow_pos (by omega) p
    have hge : b ≤ n := by
      rw [pow_succ] at h
      exact le_trans (Nat.le_mul_of_pos_left b hpos) h
    have hdiv : b ^ p ≤ n / b := by
      rw [Nat.le_div_iff_mul_le (by omega), ← pow_succ]
      exact h
    rw [digitsOf_ge hb hge, ih hdiv, fixed, List.cons_append, Nat.div_div_eq_div_mul, ← pow_succ']

/-! ## the next number -/

theorem succ_mod_carry {n : ℕ} (h : n % b + 1 = b) : (n + 1) % b = 0 ∧ (n + 1) / b = n / b + 1 := by
  have hn := Nat.div_add_mod n b
  have hd : b ∣ n + 1 := ⟨n / b + 1, by rw [Nat.mul_succ]; omega⟩
  exact ⟨Nat.mod_eq_zero_of_dvd hd, Nat.succ_div_of_dvd hd⟩

theorem succ_mod_stay (hb : 0 < b) {n : ℕ} (h : n % b + 1 ≠ b) :
    (n + 1) % b = n % b + 1 ∧ (n + 1) / b = n / b := by
  have hlt := Nat.mod_lt n hb
  have hn : n + 1 = n % b + 1 + n / b * b := by
    have := Nat.div_add_mod' n b
    omega
  rw [hn, Nat.add_mul_mod_self_right, Nat.add_mul_div_right _ _ hb,
    Nat.mod_eq_of_lt (by omega), Nat.div_eq_of_lt (by omega), Nat.zero_add]
  exact ⟨rfl, rfl⟩

theorem incr_digitsOf (hb : 1 < b) (n : ℕ) : incr b (digitsOf b n) = digitsOf b (n + 1) := by
  induction n using Nat.strongRecOn with
  | ind n ih =>
    by_cases hn : n < b
    · rw [digitsOf_lt hn, incr]
      by_cases hc : n + 1 = b
      · have h1 : (n + 1) / b = 1 := by rw [hc, Nat.div_self (by omega)]
        have h0 : (n + 1) % b = 0 := by rw [hc, Nat.mod_self]
        rw [if_pos hc, digitsOf_ge hb (Nat.le_of_eq hc.symm), h1, h0, digitsOf_lt hb, incr]
      · rw [if_neg hc, digitsOf_lt (by omega)]
    · have hge : b ≤ n := Nat.le_of_not_lt hn
      have hlt : n / b < n := Nat.div_lt_self (by omega) hb
      rw [digitsOf_ge hb hge, digitsOf_ge hb (Nat.le_succ_of_le hge), incr, ih _ hlt]
      by_cases hc : n % b + 1 = b
      · rw [if_pos hc, (succ_mod_carry hc).1, (succ_mod_carry hc).2]
      · rw [if_neg hc, (succ_mod_stay (by omega) hc).1, (succ_mod_stay (by omega) hc).2]

/-- the low digits of the next number: all of them turn over, or the carry ends among them -/
theorem incr_fixed (hb : 0 < b) (p n : ℕ) :
    ((∀ d ∈ fixed b p n, d + 1 = b) →
      fixed b p (n + 1) = List.replicate p 0 ∧ (n + 1) / b ^ p = n / b ^ p + 1) ∧
    ((¬ ∀ d ∈ fixed b p n, d + 1 = b) →
      fixed b p (n + 1) = incr b (fixed b p n) ∧ (n + 1) / b ^ p = n / b ^ p) := by
  induction p generalizing n with
  | zero =>
    refine ⟨fun _ => ⟨rfl, by rw [pow_zero, Nat.div_one, Nat.div_one]⟩, fun h => absurd ?_ h⟩
    exact fun d hd => absurd hd List.not_mem_nil
  | succ p ih =>
    obtain ⟨ih1, ih2⟩ := ih (n / b)
    rw [fixed, fixed, incr, pow_succ', ← Nat.div_div_eq_div_mul, ← Nat.div_div_eq_div_mul]
    by_cases hc : n % b + 1 = b
    · rw [if_pos hc, (succ_mod_carry hc).1, (succ_mod_carry hc).2]
      have hall : (∀ d ∈ n % b :: fixed b p (n / b), d + 1 = b) ↔
          ∀ d ∈ fixed b p (n / b), d + 1 = b := by
        rw [List.forall_mem_cons]
        exact and_iff_right hc
      rw [hall]
      refine ⟨fun h => ⟨?_, (ih1 h).2⟩, fun h => ⟨by rw [(ih2 h).1], (ih2 h).2⟩⟩
      rw [(ih1 h).1, List.replicate_succ]
    · rw [if_neg hc, (succ_mod_stay hb hc).1, (succ_mod_stay hb hc).2]
      exact ⟨fun h => absurd (h _ List.mem_cons_self) hc, fun _ => ⟨rfl, rfl⟩⟩

/-- the carry out of digits that all turn over -/
theorem incr_turned : ∀ {l : List ℕ}, (∀ d ∈ l, d + 1 = b) →
    incr b l = List.replicate l.length 0 ++ [1]
  | [], _ => rfl
  | d :: l, h => by
    rw [incr, if_pos (h d List.mem_cons_self),
      incr_turned fun d hd => h d (List.mem_cons_of_mem _ hd), List.length_cons,
      List.replicate_succ, List.cons_append]

end Digits
