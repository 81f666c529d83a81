import OpenWatcom.Cfloat.Normal

/-!
# Sums and products

* `sumLoop_spec`      the loop of `CSSum` writes the digits of the sum or the difference;
* `sumDigits_size`    before `CFClean` the number is exactly `f1 + f2` or `f1 - f2`;
* `mulDigits_size`    and exactly `f` times a digit in `SDMul`;
* `mulRounds_spec`    the partial sums of `CFMul`, and what its last `CFClean` is given.
-/

namespace CFloat
open Numerals

/-! ## digits by their places -/

/-- the digit of `f` at the place `pos`, where the place 1 is that of the ones -/
def digitAt (f : CFloat) (pos : Int) : Int :=
  if f.exp - f.len < pos ∧ pos ≤ f.exp then cfAccess f (f.exp - pos) else 0

theorem digitAt_range {f : CFloat} (h : Digits 10 f.mant) (pos : Int) :
    0 ≤ digitAt f pos ∧ digitAt f pos ≤ 9 := by
  rw [digitAt]
  split
  · rw [cfAccess, List.getD_eq_getElem?_getD]
    cases e : f.mant[(f.exp - pos).toNat]? with
    | none => simp
    | some x =>
      have hx := h x (List.mem_of_getElem? e)
      show 0 ≤ x ∧ x ≤ 9
      omega
  · omega

/-- the digits of `f` over the place `r`, `s` places below its last digit -/
theorem digitAt_shift {f : CFloat} {r : Int} {s : Nat} (hr : f.exp - f.len = r + s) (k : Nat) :
    digitAt f (r + 1 + k) = if k < s then 0 else f.mant.reverse.getD (k - s) 0 := by
  have hlen : f.len = f.mant.length := rfl
  rw [digitAt]
  by_cases hk : k < s
  · rw [if_pos hk, if_neg (by omega)]
  · rw [if_neg hk]
    by_cases hin : r + 1 + k ≤ f.exp
    · rw [if_pos ⟨by omega, hin⟩, cfAccess, List.getD_eq_getElem?_getD, List.getD_eq_getElem?_getD,
        List.getElem?_reverse (by omega)]
      congr 2
      omega
    · rw [if_neg (by omega), List.getD_eq_getElem?_getD, List.getElem?_eq_none (by simp; omega)]
      rfl

/-- all digits of `f` over a place below its last digit -/
theorem low_digitAt {f : CFloat} {r : Int} {s n : Nat} (hr : f.exp - f.len = r + s)
    (hn : s + f.mant.length ≤ n) :
    low 10 (fun k => digitAt f (r + 1 + k)) n = 10 ^ s * val 10 f.mant := by
  obtain ⟨m, rfl⟩ : ∃ m, n = s + m := ⟨n - s, by omega⟩
  rw [low_congr fun k _ => digitAt_shift hr k, low_shift (fun j => f.mant.reverse.getD j 0),
    low_reverse f.mant (by omega)]

/-! ## CSSum -/

/-- `Adder` and `Suber` -/
def Signed (arith : Int → Int → Int) (t : Int) : Prop :=
  (t = 1 ∨ t = -1) ∧ ∀ a b, arith a b = a + t * b

theorem signed_adder : Signed adder 1 := ⟨Or.inl rfl, fun a b => by rw [adder, one_mul]⟩

theorem signed_suber : Signed suber (-1) := ⟨Or.inr rfl, fun a b => by rw [suber]; ring⟩

section
variable {f1 f2 : CFloat} {arith : Int → Int → Int} {t : Int}

/-- a round: one digit and a carry of -1, 0 or 1 -/
theorem sumLoop_step (ha : Signed arith t) (h1 : Digits 10 f1.mant) (h2 : Digits 10 f2.mant)
    (n : Nat) (pos : Int) {carry : Int} (hc : -1 ≤ carry ∧ carry ≤ 1) (mant : List Int) :
    ∃ c d, sumLoop f1 f2 arith (n + 1) pos carry mant = sumLoop f1 f2 arith n (pos + 1) c (d :: mant) ∧
      (-1 ≤ c ∧ c ≤ 1) ∧ (0 ≤ d ∧ d < 10) ∧
      10 * c + d = carry + (digitAt f1 pos + t * digitAt f2 pos) := by
  have r1 := digitAt_range h1 pos
  have r2 := digitAt_range h2 pos
  have e1 : (if f1.exp - f1.len < pos ∧ pos ≤ f1.exp then carry + cfAccess f1 (f1.exp - pos)
      else carry) = carry + digitAt f1 pos := by
    rw [digitAt]
    split
    · rfl
    · rw [add_zero]
  have e2 : ∀ x, (if f2.exp - f2.len < pos ∧ pos ≤ f2.exp then arith x (cfAccess f2 (f2.exp - pos))
      else x) = x + t * digitAt f2 pos := by
    intro x
    rw [digitAt]
    split
    · exact ha.2 _ _
    · rw [mul_zero, add_zero]
  rw [sumLoop]
  simp only [e1, e2]
  have ht : -9 ≤ t * digitAt f2 pos ∧ t * digitAt f2 pos ≤ 9 := by
    rcases ha.1 with h | h
    · rw [h]
      omega
    · rw [h]
      omega
  generalize digitAt f1 pos = x1 at *
  generalize t * digitAt f2 pos = x2 at *
  by_cases hlt : carry + x1 + x2 < 0
  · rw [if_pos hlt]
    exact ⟨-1, _, rfl, by omega, by omega, by omega⟩
  · rw [if_neg hlt]
    by_cases hgt : carry + x1 + x2 > 9
    · rw [if_pos hgt]
      exact ⟨1, _, rfl, by omega, by omega, by omega⟩
    · rw [if_neg hgt]
      exact ⟨0, _, rfl, by omega, by omega, by omega⟩

/-- all rounds: the carry that is left and the digits -/
theorem sumLoop_spec (ha : Signed arith t) (h1 : Digits 10 f1.mant) (h2 : Digits 10 f2.mant)
    (n : Nat) (pos : Int) {carry : Int} (hc : -1 ≤ carry ∧ carry ≤ 1) (mant : List Int) :
    ∃ c w, sumLoop f1 f2 arith n pos carry mant = c :: (w ++ mant) ∧ w.length = n ∧ Digits 10 w ∧
      (-1 ≤ c ∧ c ≤ 1) ∧ c * 10 ^ n + val 10 w
        = carry + low 10 (fun k => digitAt f1 (pos + k) + t * digitAt f2 (pos + k)) n := by
  induction n generalizing pos carry mant with
  | zero => exact ⟨carry, [], rfl, rfl, digits_nil, hc, by simp [low]⟩
  | succ n ih =>
    obtain ⟨c, d, e, hc', hd, hv⟩ := sumLoop_step ha h1 h2 n pos hc mant
    obtain ⟨c', w, e', hw, hwd, hc'', hv'⟩ := ih (pos + 1) hc' (d :: mant)
    refine ⟨c', w ++ [d], ?_, by simp [hw], ?_, hc'', ?_⟩
    · rw [e, e', List.append_assoc]
      rfl
    · exact digits_append.mpr ⟨hwd, digits_cons.mpr ⟨hd, digits_nil⟩⟩
    · have e0 : low 10 (fun k : Nat => digitAt f1 (pos + (k + 1 : Nat)) + t * digitAt f2 (pos + (k + 1 : Nat))) n
          = low 10 (fun k : Nat => digitAt f1 (pos + 1 + k) + t * digitAt f2 (pos + 1 + k)) n := by
        refine low_congr fun k _ => ?_
        have : pos + ((k + 1 : Nat) : Int) = pos + 1 + k := by push_cast; ring
        rw [this]
      rw [low_succ_left, e0, val_append, pow_succ]
      simp only [List.length_singleton, val_cons, List.length_nil, val_nil, Nat.cast_zero, add_zero]
      linear_combination 10 * hv' + hv

theorem low_mul (g : Nat → Int) (t : Int) (n : Nat) :
    low 10 (fun k => t * g k) n = t * low 10 g n := by
  induction n with
  | zero => simp [low]
  | succ n ih =>
    rw [low, low, ih]
    ring

/-- the place below the last digits of both numbers -/
def farRight (f1 f2 : CFloat) : Int := min (f1.exp - f1.len) (f2.exp - f2.len)

/-- what `CSSum` gives to `CFClean`: a carry, digits, and the exact number -/
theorem sumDigits_spec (ha : Signed arith t) (h1 : Digits 10 f1.mant) (h2 : Digits 10 f2.mant) :
    ∃ c w, (sumDigits f1 f2 arith).mant = c :: w ∧ Digits 10 w ∧ (-1 ≤ c ∧ c ≤ 1) ∧
      (w.length : Int) = max f1.exp f2.exp - farRight f1 f2 ∧
      (sumDigits f1 f2 arith).size = f1.size + t * f2.size := by
  have hl1 : f1.len = f1.mant.length := rfl
  have hl2 : f2.len = f2.mant.length := rfl
  obtain ⟨s1, hs1⟩ : ∃ s : Nat, f1.exp - f1.len = farRight f1 f2 + s :=
    ⟨(f1.exp - f1.len - farRight f1 f2).toNat, by rw [farRight]; omega⟩
  obtain ⟨s2, hs2⟩ : ∃ s : Nat, f2.exp - f2.len = farRight f1 f2 + s :=
    ⟨(f2.exp - f2.len - farRight f1 f2).toNat, by rw [farRight]; omega⟩
  obtain ⟨n, hn⟩ : ∃ n : Nat, max f1.exp f2.exp - farRight f1 f2 = n :=
    ⟨(max f1.exp f2.exp - farRight f1 f2).toNat, by rw [farRight]; omega⟩
  obtain ⟨c, w, e, hw, hwd, hc, hv⟩ :=
    sumLoop_spec ha h1 h2 n (farRight f1 f2 + 1) (show -1 ≤ (0 : Int) ∧ (0 : Int) ≤ 1 by omega) []
  rw [low_add, low_mul, low_digitAt hs1 (by omega), low_digitAt hs2 (by omega), zero_add] at hv
  have hm : (sumDigits f1 f2 arith).mant = c :: w := by
    have e' : (sumDigits f1 f2 arith).mant = sumLoop f1 f2 arith
        (max f1.exp f2.exp - farRight f1 f2).toNat (farRight f1 f2 + 1) 0 [] := rfl
    rw [e', hn, Int.toNat_natCast, e, List.append_nil]
  refine ⟨c, w, hm, hwd, hc, by omega, ?_⟩
  have hexp : (sumDigits f1 f2 arith).exp - (sumDigits f1 f2 arith).len = farRight f1 f2 := by
    have e1 : (sumDigits f1 f2 arith).exp = max f1.exp f2.exp + 1 := rfl
    rw [e1, len, hm, List.length_cons, hw]
    omega
  have hvq : (val 10 (c :: w) : ℚ) = 10 ^ s1 * (val 10 f1.mant : ℚ) + t * (10 ^ s2 * (val 10 f2.mant : ℚ)) := by
    rw [val_cons, hw, hv]
    push_cast
    ring
  rw [size, hexp, hm, hvq, size, size, hs1, hs2, zpow_add₀ (by norm_num), zpow_add₀ (by norm_num),
    zpow_natCast, zpow_natCast]
  ring

theorem sumDigits_sign : (sumDigits f1 f2 arith).sign = f1.sign := rfl

/-- when the number is not negative the carry is a digit -/
theorem sumDigits_digits (ha : Signed arith t) (h1 : Digits 10 f1.mant) (h2 : Digits 10 f2.mant)
    (hpos : 0 ≤ f1.size + t * f2.size) :
    Digits 10 (sumDigits f1 f2 arith).mant ∧ (sumDigits f1 f2 arith).mant ≠ [] := by
  obtain ⟨c, w, hm, hwd, hc, -, hsize⟩ := sumDigits_spec ha h1 h2
  rw [hm]
  refine ⟨digits_cons.mpr ⟨⟨?_, by omega⟩, hwd⟩, by simp⟩
  by_contra hneg
  rw [← hsize, size, hm] at hpos
  have h3 := val_lt (b := 10) (by norm_num) hwd
  have h4 : val 10 (c :: w) < 0 := by
    have hc1 : c = -1 := by omega
    rw [val_cons, hc1]
    omega
  have h5 : (0 : ℚ) < 10 ^ ((sumDigits f1 f2 arith).exp - (sumDigits f1 f2 arith).len) := by
    positivity
  have h6 : ((val 10 (c :: w) : Int) : ℚ) < 0 := by exact_mod_cast h4
  have h7 := mul_neg_of_neg_of_pos h6 h5
  linarith

end

theorem size_nonneg {f : CFloat} (h : Digits 10 f.mant) : 0 ≤ f.size := by
  have h1 : (0 : ℚ) ≤ (val 10 f.mant : ℚ) := by exact_mod_cast val_nonneg (b := 10) (by norm_num) h
  exact mul_nonneg h1 (by positivity)

theorem adder_digits {f1 f2 : CFloat} (h1 : Digits 10 f1.mant) (h2 : Digits 10 f2.mant) :
    Digits 10 (sumDigits f1 f2 adder).mant ∧ (sumDigits f1 f2 adder).mant ≠ [] := by
  refine sumDigits_digits signed_adder h1 h2 ?_
  have := size_nonneg h1
  have := size_nonneg h2
  push_cast
  linarith

theorem suber_digits {f1 f2 : CFloat} (h1 : Digits 10 f1.mant) (h2 : Digits 10 f2.mant)
    (hle : f2.size ≤ f1.size) :
    Digits 10 (sumDigits f1 f2 suber).mant ∧ (sumDigits f1 f2 suber).mant ≠ [] := by
  refine sumDigits_digits signed_suber h1 h2 ?_
  push_cast
  linarith

theorem adder_size {f1 f2 : CFloat} (h1 : Digits 10 f1.mant) (h2 : Digits 10 f2.mant) :
    (sumDigits f1 f2 adder).size = f1.size + f2.size := by
  obtain ⟨c, w, -, -, -, -, h⟩ := sumDigits_spec signed_adder h1 h2
  rw [h]
  push_cast
  ring

theorem suber_size {f1 f2 : CFloat} (h1 : Digits 10 f1.mant) (h2 : Digits 10 f2.mant) :
    (sumDigits f1 f2 suber).size = f1.size - f2.size := by
  obtain ⟨c, w, -, -, -, -, h⟩ := sumDigits_spec signed_suber h1 h2
  rw [h]
  push_cast
  ring

/-! ## SDMul -/

theorem mulLoop_spec {p : Int} (hp : 0 ≤ p ∧ p ≤ 9) {ds : List Int} (hd : Digits 10 ds) {sum : Int}
    (hs : 0 ≤ sum ∧ sum ≤ 9) (mant : List Int) :
    ∃ w, mulLoop p ds sum mant = w ++ mant ∧ w.length = ds.length + 1 ∧ Digits 10 w ∧
      val 10 w = p * val 10 ds.reverse + sum := by
  induction ds generalizing sum mant with
  | nil =>
    refine ⟨[sum % 10], rfl, rfl, digits_cons.mpr ⟨⟨by omega, by omega⟩, digits_nil⟩, ?_⟩
    simp [val_cons]
    omega
  | cons d ds ih =>
    obtain ⟨hd0, hds⟩ := digits_cons.mp hd
    have h1 : d * p ≤ 9 * 9 := mul_le_mul (by omega) hp.2 hp.1 (by omega)
    have h2 : 0 ≤ d * p := mul_nonneg hd0.1 hp.1
    obtain ⟨w, e, hw, hwd, hv⟩ := ih hds
      (show 0 ≤ (sum + d * p) / 10 ∧ (sum + d * p) / 10 ≤ 9 by omega) ((sum + d * p) % 10 :: mant)
    refine ⟨w ++ [(sum + d * p) % 10], ?_, by simp [hw], ?_, ?_⟩
    · rw [mulLoop]
      rw [e, List.append_assoc]
      rfl
    · exact digits_append.mpr ⟨hwd, digits_cons.mpr ⟨⟨by omega, by omega⟩, digits_nil⟩⟩
    · have hm := Int.emod_add_mul_ediv (sum + d * p) 10
      rw [List.reverse_cons, val_append, val_append]
      simp only [List.length_singleton, val_cons, List.length_nil, val_nil]
      linear_combination 10 * hv + hm

/-- what `SDMul` gives to `CFClean` -/
theorem mulDigits_spec {f : CFloat} (h : Digits 10 f.mant) {p : Int} (hp : 0 ≤ p ∧ p ≤ 9)
    (byexp : Int) : Digits 10 (mulDigits f p byexp).mant ∧
      (mulDigits f p byexp).mant.length = f.mant.length + 1 ∧
      (mulDigits f p byexp).size = f.size * (p * 10 ^ (byexp - 1)) := by
  have hr : Digits 10 f.mant.reverse := fun d hd => h d (List.mem_reverse.mp hd)
  obtain ⟨w, e, hw, hwd, hv⟩ := mulLoop_spec hp hr (show 0 ≤ (0 : Int) ∧ (0 : Int) ≤ 9 by omega) []
  rw [List.append_nil] at e
  rw [List.length_reverse] at hw
  rw [List.reverse_reverse, add_zero] at hv
  have hm : (mulDigits f p byexp).mant = w := e
  rw [hm]
  refine ⟨hwd, hw, ?_⟩
  have hexp : (mulDigits f p byexp).exp - (mulDigits f p byexp).len
      = (f.exp - f.len) + (byexp - 1) := by
    have e1 : (mulDigits f p byexp).exp = f.exp + byexp := rfl
    rw [e1, len, hm, hw, len]
    push_cast
    ring
  rw [size, hm, hv, hexp, size, zpow_add₀ (by norm_num)]
  push_cast
  ring

theorem mulDigits_ne_nil {f : CFloat} (h : Digits 10 f.mant) {p : Int} (hp : 0 ≤ p ∧ p ≤ 9)
    (byexp : Int) : (mulDigits f p byexp).mant ≠ [] := by
  intro e
  have hl := (mulDigits_spec h hp byexp).2.1
  rw [e] at hl
  cases hl

/-! ## CFMul -/

/-- a number that is not 0 keeps a digit -/
theorem strip_ne_nil {f : CFloat} (h : 0 < f.size) : strip f.mant ≠ [] := by
  intro e
  rw [size, val_of_zeros (strip_eq_nil e), Int.cast_zero, zero_mul] at h
  exact lt_irrefl _ h

/-- numbers of one sign are added -/
theorem cfAdd_same {f1 f2 : CFloat} (h : f1.sign = f2.sign) (hne : f2.sign ≠ 0) :
    cfAdd f1 f2 = csSum f1 f2 adder := by
  rw [cfAdd]
  cases e : f2.sign with
  | zero => exact absurd e hne
  | neg => rw [h, e]
  | pos => rw [h, e]

theorem cfAdd_zero_left {f1 f2 : CFloat} (h1 : f1.sign = 0) (h2 : f2.sign ≠ 0) :
    cfAdd f1 f2 = f2 := by
  rw [cfAdd, h1]
  cases e : f2.sign with
  | zero => exact absurd e h2
  | neg => rfl
  | pos => rfl

theorem cfAdd_zero_right {f1 f2 : CFloat} (h1 : f1.sign ≠ 0) (h2 : f2.sign = 0) :
    cfAdd f1 f2 = f1 := by
  rw [cfAdd, h2]
  cases e : f1.sign with
  | zero => exact absurd e h1
  | neg => rfl
  | pos => rfl

theorem cfAdd_zeros {f1 f2 : CFloat} (h1 : f1.sign = 0) (h2 : f2.sign = 0) :
    cfAdd f1 f2 = cfAlloc := by
  rw [cfAdd, h1, h2]

/-- what an operation leaves: zero, or digits under the sign `s` -/
def Part (s : SignType) (f : CFloat) : Prop :=
  f = cfAlloc ∨ (f.sign = s ∧ Digits 10 f.mant ∧ f.mant ≠ [] ∧ 0 < f.size)

theorem Part.digits {s : SignType} {f : CFloat} (h : Part s f) : Digits 10 f.mant := by
  rcases h with rfl | h
  · decide
  · exact h.2.1

/-- digits in front of which no 0 stands make a number -/
theorem leading_pos {f : CFloat} (h : Leading f.mant) : 0 < f.size := by
  obtain ⟨d, l, hm, hd, -⟩ := h.cons
  have h1 := val_ge (b := 10) (by norm_num) (hm ▸ h.digits) (by omega)
  have h2 : (0 : Int) < 10 ^ l.length := by positivity
  have h3 : (0 : ℚ) < (val 10 f.mant : ℚ) := by
    rw [hm]
    exact_mod_cast lt_of_lt_of_le h2 h1
  exact mul_pos h3 (by positivity)

/-- what is cleaned keeps its sign and a digit -/
theorem part_clean {f : CFloat} (hd : Digits 10 f.mant) (h : 0 < f.size) :
    (cfClean f).sign = f.sign ∧ Leading (cfClean f).mant ∧ (cfClean f).mant ≠ [] := by
  have hne := strip_ne_nil h
  have hm : (cfClean f).mant = (strip f.mant).take maxPrec := by rw [cfClean_eq hne]
  refine ⟨cfClean_sign hne, ?_⟩
  rw [hm]
  cases e : strip f.mant with
  | nil => exact absurd e hne
  | cons d l =>
    refine ⟨⟨e ▸ (strip_digits hd).sublist (List.take_sublist _ _), ?_⟩, by simp [maxPrec]⟩
    intro h0
    have hd0 : d = 0 := h0
    exact strip_head f.mant (by rw [e, hd0]; rfl)

theorem part_of_clean {f : CFloat} (hd : Digits 10 f.mant) (h : 0 < f.size) :
    Part f.sign (cfClean f) := by
  obtain ⟨h1, h2, h3⟩ := part_clean hd h
  exact Or.inr ⟨h1, h2.digits, h3, leading_pos h2⟩

section
variable {f1 : CFloat}

theorem sdMul_zero (h1 : Digits 10 f1.mant) (byexp : Int) : sdMul f1 0 byexp = cfAlloc := by
  obtain ⟨hd, -, hsize⟩ := mulDigits_spec h1 (p := 0) (by omega) byexp
  rw [Int.cast_zero, zero_mul, mul_zero] at hsize
  refine cfClean_zero ?_ (mulDigits_ne_nil h1 (by omega) byexp)
  refine val_eq_zero hd ?_
  have hp : (0 : ℚ) < 10 ^ ((mulDigits f1 0 byexp).exp - (mulDigits f1 0 byexp).len) := by positivity
  rcases mul_eq_zero.mp hsize with h | h
  · exact_mod_cast h
  · exact absurd h hp.ne'

theorem mulDigits_pos (h1 : Digits 10 f1.mant) (hpos : 0 < f1.size) {p : Int} (hp : 1 ≤ p ∧ p ≤ 9)
    (byexp : Int) : 0 < (mulDigits f1 p byexp).size := by
  rw [(mulDigits_spec h1 (by omega) byexp).2.2]
  have : (0 : ℚ) < p := by exact_mod_cast hp.1
  positivity

/-- a round of `CFMul` with a digit other than 0 -/
theorem mulRound_part (h1 : Digits 10 f1.mant) (hpos : 0 < f1.size) (hs : f1.sign ≠ 0) {p : Int}
    (hp : 1 ≤ p ∧ p ≤ 9) (byexp : Int) {r : CFloat} (hr : Part f1.sign r) :
    ∃ raw : CFloat, cfAdd r (sdMul f1 p byexp) = cfClean raw ∧ raw.sign = f1.sign ∧
      Digits 10 raw.mant ∧ raw.mant ≠ [] ∧ 0 < raw.size ∧
      raw = if r.sign = 0 then mulDigits f1 p byexp else sumDigits r (sdMul f1 p byexp) adder := by
  have hm := mulDigits_pos h1 hpos hp byexp
  have hmd := (mulDigits_spec h1 (p := p) (by omega) byexp).1
  obtain ⟨ts, tl, tne⟩ := part_clean hmd hm
  change Leading (sdMul f1 p byexp).mant at tl
  have hts : (sdMul f1 p byexp).sign ≠ 0 := by
    rw [sdMul, ts]
    exact hs
  rcases hr with rfl | ⟨rs, rd, rne, rpos⟩
  · refine ⟨mulDigits f1 p byexp, ?_, rfl, hmd, mulDigits_ne_nil h1 (by omega) byexp, hm, rfl⟩
    exact cfAdd_zero_left rfl hts
  · have hsum := @adder_digits r (sdMul f1 p byexp) rd tl.digits
    refine ⟨sumDigits r (sdMul f1 p byexp) adder, ?_, rs, hsum.1, hsum.2, ?_, ?_⟩
    · exact cfAdd_same (rs.trans ts.symm) hts
    · rw [adder_size rd tl.digits]
      exact add_pos rpos (leading_pos tl)
    · rw [if_neg (by rw [rs]; exact hs)]

/-- a round of `CFMul` -/
theorem mulRound (h1 : Digits 10 f1.mant) (hpos : 0 < f1.size) (hs : f1.sign ≠ 0) {p : Int}
    (hp : 0 ≤ p ∧ p ≤ 9) (byexp : Int) {r : CFloat} (hr : Part f1.sign r) :
    Part f1.sign (cfAdd r (sdMul f1 p byexp)) := by
  by_cases h0 : p = 0
  · rw [h0, sdMul_zero h1]
    rcases hr with rfl | hr
    · exact Or.inl rfl
    · rw [cfAdd_zero_right (by rw [hr.1]; exact hs) rfl]
      exact Or.inr hr
  · obtain ⟨raw, e, hsign, hd, -, hraw, -⟩ := mulRound_part h1 hpos hs
      (show 1 ≤ p ∧ p ≤ 9 by omega) byexp hr
    rw [e, ← hsign]
    exact part_of_clean hd hraw

theorem mulRounds_part (h1 : Digits 10 f1.mant) (hpos : 0 < f1.size) (hs : f1.sign ≠ 0)
    {ds : List Int} (hd : Digits 10 ds) (f2exp : Int) {r : CFloat} (hr : Part f1.sign r) :
    Part f1.sign (mulRounds f1 ds f2exp r) := by
  induction ds generalizing f2exp r with
  | nil => exact hr
  | cons d ds ih =>
    obtain ⟨hd0, hds⟩ := digits_cons.mp hd
    exact ih hds (f2exp + 1) (mulRound h1 hpos hs (by omega) f2exp hr)

end

theorem mulRounds_append (f1 : CFloat) (ds : List Int) (d f2exp : Int) (r : CFloat) :
    mulRounds f1 (ds ++ [d]) f2exp r
      = cfAdd (mulRounds f1 ds f2exp r) (sdMul f1 d (f2exp + ds.length)) := by
  induction ds generalizing f2exp r with
  | nil => simp [mulRounds]
  | cons e ds ih =>
    have h : f2exp + ((e :: ds).length : Int) = f2exp + 1 + ds.length := by
      rw [List.length_cons]
      push_cast
      ring
    rw [h]
    exact ih (f2exp + 1) (cfAdd r (sdMul f1 e f2exp))

/-- the partial sum of `CFMul` before the first digit of `f2` -/
def mulPartial (f1 f2 : CFloat) : CFloat :=
  mulRounds f1 f2.mant.tail.reverse (f2.exp - f2.len + 1) cfAlloc

/-- what the last `CFClean` of `CFMul` is given -/
def mulLast (f1 f2 : CFloat) : CFloat :=
  let r := mulPartial f1 f2
  let d := f2.mant.headD 0
  if r.sign = 0 then mulDigits f1 d f2.exp else sumDigits r (sdMul f1 d f2.exp) adder

/-- the product is what `CFClean` makes of the last sum, under the sign of the product -/
theorem mulRounds_spec {f1 f2 : CFloat} (h1 : Leading f1.mant) (h2 : Leading f2.mant)
    (s1 : f1.sign ≠ 0) (s2 : f2.sign ≠ 0) :
    cfMul f1 f2 = { cfClean (mulLast f1 f2) with sign := f1.sign * f2.sign } ∧
      Digits 10 (mulLast f1 f2).mant ∧ (mulLast f1 f2).mant ≠ [] ∧ 0 < (mulLast f1 f2).size := by
  obtain ⟨d, l, hm, hd, hl⟩ := h2.cons
  have hlr : Digits 10 l.reverse := fun x hx => hl x (List.mem_reverse.mp hx)
  have hpart := mulRounds_part h1.digits (leading_pos h1) s1 hlr (f2.exp - f2.len + 1)
    (r := cfAlloc) (Or.inl rfl)
  obtain ⟨raw, e, hsign, hrd, hrne, hraw, hcase⟩ :=
    mulRound_part h1.digits (leading_pos h1) s1 hd f2.exp hpart
  have hlast : mulLast f1 f2 = raw := by
    rw [hcase, mulLast, mulPartial, hm]
    rfl
  rw [hlast]
  refine ⟨?_, hrd, hrne, hraw⟩
  have hprod : f1.sign * f2.sign ≠ 0 := mul_ne_zero s1 s2
  have hexp : f2.exp - f2.len + 1 + (l.reverse.length : Int) = f2.exp := by
    rw [len, hm, List.length_cons, List.length_reverse]
    push_cast
    ring
  rw [cfMul, hm, List.reverse_cons]
  dsimp only
  rw [if_pos hprod, mulRounds_append, hexp, e]

end CFloat
