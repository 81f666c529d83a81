import Mathlib.Data.Rat.Defs
import Mathlib.Algebra.Order.Field.Rat
import Mathlib.Algebra.Ring.Int.Parity
import Mathlib.Tactic

/-!
# Rounding to the nearest multiple of a step, ties to even

* `NearestEven`        `r` is `q` rounded to a multiple of `g`;
* `NearestEven.unique` there is one such `r`;
* `nearestEven_down`, `nearestEven_up`   the two ways to round `(n + t) * g`;
* `NearestEven.signed` rounding keeps signs.
-/

/-- `r` is the multiple of `g` nearest to `q`, the even one of two -/
def NearestEven (g q r : ℚ) : Prop :=
  ∃ n : ℤ, r = n * g ∧ |q - r| ≤ g / 2 ∧ (|q - r| = g / 2 → Even n)

section
variable {g q r : ℚ}

/-- two multiples are a step apart at least, so both would be half a step away -/
theorem nearest_not_lt {n m : ℤ} (hg : 0 < g) (hlt : n < m) (hn : |q - n * g| ≤ g / 2)
    (he : |q - n * g| = g / 2 → Even n) (hm : |q - m * g| ≤ g / 2)
    (he' : |q - m * g| = g / 2 → Even m) : False := by
  obtain ⟨-, hn2⟩ := abs_le.mp hn
  obtain ⟨hm1, -⟩ := abs_le.mp hm
  have hstep : ((n : ℚ) + 1) * g ≤ m * g :=
    mul_le_mul_of_nonneg_right (by exact_mod_cast hlt) hg.le
  have h1 : q - n * g = g / 2 := by linarith
  have h2 : q - m * g = -(g / 2) := by linarith
  have hone : ((m : ℚ) - n - 1) * g = 0 := by linarith
  have hz : (m : ℚ) - n - 1 = 0 := (mul_eq_zero.mp hone).resolve_right hg.ne'
  have hmn : m = n + 1 := by
    have : (m : ℚ) = ((n + 1 : ℤ) : ℚ) := by
      push_cast
      linarith
    exact_mod_cast this
  have e1 := he (by rw [h1, abs_of_pos (by linarith)])
  have e2 := he' (by rw [h2, abs_neg, abs_of_pos (by linarith)])
  rw [hmn, Int.even_add_one] at e2
  exact e2 e1

theorem NearestEven.unique {r' : ℚ} (hg : 0 < g) (h : NearestEven g q r)
    (h' : NearestEven g q r') : r = r' := by
  obtain ⟨n, rfl, hn, he⟩ := h
  obtain ⟨m, rfl, hm, he'⟩ := h'
  rcases lt_trichotomy n m with hlt | heq | hlt
  · exact (nearest_not_lt hg hlt hn he hm he').elim
  · rw [heq]
  · exact (nearest_not_lt hg hlt hm he' hn he).elim

theorem nearestEven_down {n : ℤ} {t : ℚ} (hg : 0 < g) (hq : q = (n + t) * g) (h0 : 0 ≤ t)
    (h : t < 1 / 2 ∨ (t = 1 / 2 ∧ Even n)) : NearestEven g q (n * g) := by
  have hd : |q - n * g| = t * g := by
    have e : q - n * g = t * g := by
      rw [hq]
      ring
    rw [e, abs_of_nonneg (mul_nonneg h0 hg.le)]
  refine ⟨n, rfl, ?_, fun htie => ?_⟩
  · rw [hd]
    have ht : t ≤ 1 / 2 := by
      rcases h with h | h
      · exact h.le
      · exact h.1.le
    have := mul_le_mul_of_nonneg_right ht hg.le
    linarith
  · rcases h with h | h
    · rw [hd] at htie
      have := mul_lt_mul_of_pos_right h hg
      linarith
    · exact h.2

theorem nearestEven_up {n : ℤ} {t : ℚ} (hg : 0 < g) (hq : q = (n + t) * g) (h1 : t ≤ 1)
    (h : 1 / 2 < t ∨ (t = 1 / 2 ∧ ¬ Even n)) : NearestEven g q (((n + 1 : ℤ) : ℚ) * g) := by
  have hd : |q - ((n + 1 : ℤ) : ℚ) * g| = (1 - t) * g := by
    have e : q - ((n + 1 : ℤ) : ℚ) * g = -((1 - t) * g) := by
      rw [hq]
      push_cast
      ring
    rw [e, abs_neg, abs_of_nonneg (mul_nonneg (by linarith) hg.le)]
  refine ⟨n + 1, rfl, ?_, fun htie => ?_⟩
  · rw [hd]
    have ht : 1 - t ≤ 1 / 2 := by
      rcases h with h | h
      · linarith
      · linarith [h.1]
    have := mul_le_mul_of_nonneg_right ht hg.le
    linarith
  · rcases h with h | h
    · rw [hd] at htie
      have := mul_lt_mul_of_pos_right h hg
      linarith
    · exact Int.even_add_one.mpr h.2

theorem NearestEven.signed (h : NearestEven g q r) (s : SignType) (hg : 0 ≤ g) :
    NearestEven g (((s : ℤ) : ℚ) * q) (((s : ℤ) : ℚ) * r) := by
  obtain ⟨n, rfl, hn, he⟩ := h
  cases s with
  | zero =>
    refine ⟨0, ?_, ?_, fun _ => Even.zero⟩
    · show ((0 : ℤ) : ℚ) * (n * g) = ((0 : ℤ) : ℚ) * g
      rw [Int.cast_zero, zero_mul, zero_mul]
    · show |((0 : ℤ) : ℚ) * q - ((0 : ℤ) : ℚ) * (n * g)| ≤ g / 2
      rw [Int.cast_zero, zero_mul, zero_mul, sub_zero, abs_zero]
      linarith
  | pos =>
    have e1 : ((SignType.pos : ℤ) : ℚ) = 1 := Int.cast_one
    refine ⟨n, by rw [e1, one_mul], ?_, fun htie => ?_⟩
    · rw [e1, one_mul, one_mul]
      exact hn
    · rw [e1, one_mul, one_mul] at htie
      exact he htie
  | neg =>
    have e1 : ((SignType.neg : ℤ) : ℚ) = -1 := by
      show ((-1 : ℤ) : ℚ) = -1
      norm_num
    have e2 : -1 * q - -1 * (n * g) = -(q - n * g) := by ring
    refine ⟨-n, ?_, ?_, fun htie => ?_⟩
    · rw [e1]
      push_cast
      ring
    · rw [e1, e2, abs_neg]
      exact hn
    · rw [e1, e2, abs_neg] at htie
      exact (he htie).neg

end
