import OpenWatcom.Watcom.I64
import Mathlib.Data.Nat.Digits.Defs

/-!
# Digits shifted into a 64-bit number

`U64Cnv10`, `U64Cnv8`, `U64Cnv2` and `U64Cnv16` of `i64.c` append a digit to a number held in two
halves and report whether the result lost bits.

* `Exact`            a step appends a digit of a base and reports the bits that are lost;
* `exact_cnv10`      the decimal step, built as `v * 8 + v * 2 + c`;
* `exact_cnvPow`     the steps of the bases 2, 8 and 16;
* `Exact.convert`    a string of digits folded through an exact step;
* `u64Cnv10_exact`   the decimal step and the decimal strings.
-/

namespace I64

/-! ## the functions -/

/-- both halves shifted left, with the bits that pass from `L` to `H` -/
def shlHalves (v : U64) (k : Nat) : U64 :=
  mk ((hi v <<< k) ||| (lo v >>> (32 - k))) (lo v <<< k)

/-- `U64Cnv10`: the number left in `*res` and the overflow `over`; the digit `c` is at most 9 -/
def u64Cnv10 (res : U64) (c : BitVec 32) : U64 × Bool :=
  let overflow := decide (hi res &&& 0xE0000000#32 ≠ 0)
  let overflow := overflow || decide (hi res &&& 0x80000000#32 ≠ 0)
  let tmp8 := shlHalves res 3
  let tmp2 := shlHalves res 1
  let save := lo tmp8 + lo tmp2
  let carry := decide (save < lo tmp8)
  let high8 := if carry then hi tmp8 + 1 else hi tmp8
  let overflow := overflow || (carry && decide (high8 = 0))
  let high2 := high8 + hi tmp2
  let overflow := overflow || decide (high2 < high8)
  let low2 := save + c
  let carry := decide (low2 < c)
  let high := if carry then high2 + 1 else high2
  let overflow := overflow || (carry && decide (high = 0))
  (mk high low2, overflow)

/-- the step of the base `2 ^ k`: `mask` holds the bits that the shift loses -/
def cnvPow (k : Nat) (mask : BitVec 32) (res : U64) (c : BitVec 32) : U64 × Bool :=
  let overflow := decide (hi res &&& mask ≠ 0)
  let tmp := shlHalves res k
  (mk (hi tmp) (lo tmp ||| c), overflow)

/-- `U64Cnv8` -/
def u64Cnv8 : U64 → BitVec 32 → U64 × Bool := cnvPow 3 0xE0000000#32

/-- `U64Cnv2` -/
def u64Cnv2 : U64 → BitVec 32 → U64 × Bool := cnvPow 1 0x80000000#32

/-- `U64Cnv16` -/
def u64Cnv16 : U64 → BitVec 32 → U64 × Bool := cnvPow 4 0xF0000000#32

/-- the digits of a number folded through a step from zero, the overflow flags collected -/
def convert (step : U64 → BitVec 32 → U64 × Bool) (digits : List (BitVec 32)) : U64 × Bool :=
  digits.foldl (fun s c => ((step s.1 c).1, s.2 || (step s.1 c).2)) (0, false)

/-! ## one step -/

theorem shlHalves_toNat (v : U64) {k : Nat} (h1 : 1 ≤ k) (h2 : k < 32) :
    (shlHalves v k).toNat = v.toNat * 2 ^ k % 2 ^ 64 := by
  have hs : shlHalves v k = u64ShiftL v k := by
    rw [u64ShiftL, Nat.mod_eq_of_lt (by omega), if_pos h2, ← BitVec.shiftRight_add,
      show 1 + (31 - k) = 32 - k by omega]
    rfl
  rw [hs, u64ShiftL_eq v (by omega), BitVec.toNat_shiftLeft, Nat.shiftLeft_eq]

theorem eq_zero_iff (x : BitVec 32) : x = 0 ↔ x.toNat = 0 := BitVec.toNat_inj.symm

/-- a mask of the upper bits sees whether one of them is set -/
theorem and_upper_ne_zero (x : BitVec 32) (m : Nat) :
    x &&& (BitVec.allOnes 32 <<< m) ≠ 0 ↔ 2 ^ m ≤ x.toNat := by
  have he : x &&& (BitVec.allOnes 32 <<< m) = (x >>> m) <<< m := by
    apply BitVec.eq_of_getLsbD_eq
    intro i hi
    rw [BitVec.getLsbD_and, BitVec.getLsbD_shiftLeft, BitVec.getLsbD_shiftLeft,
      BitVec.getLsbD_allOnes, BitVec.getLsbD_ushiftRight]
    by_cases h : i < m
    · simp [h]
    · rw [Nat.add_sub_cancel' (Nat.le_of_not_lt h)]
      simp [h, hi, show i - m < 32 by omega]
  have hle : x.toNat / 2 ^ m * 2 ^ m ≤ x.toNat := Nat.div_mul_le_self _ _
  have hlt := x.isLt
  rw [he, ne_eq, eq_zero_iff, BitVec.toNat_shiftLeft, Nat.shiftLeft_eq, BitVec.toNat_ushiftRight,
    Nat.shiftRight_eq_div_pow, Nat.mod_eq_of_lt (lt_of_le_of_lt hle hlt), Nat.mul_eq_zero,
    Nat.div_eq_zero_iff]
  have hp : 2 ^ m ≠ 0 := (Nat.two_pow_pos m).ne'
  omega

theorem add_lt_left (x y : BitVec 32) : x + y < x ↔ 2 ^ 32 ≤ x.toNat + y.toNat := by
  have hx := x.isLt
  have hy := y.isLt
  rw [BitVec.lt_def, BitVec.toNat_add]
  omega

theorem add_lt_right (x y : BitVec 32) : x + y < y ↔ 2 ^ 32 ≤ x.toNat + y.toNat := by
  rw [BitVec.add_comm, add_lt_left, Nat.add_comm]

/-- a number added to the low half, with the carry passed on: the sum and the bits it loses -/
theorem addLow_toNat (h l m : BitVec 32) (carry : Prop) [Decidable carry]
    (hc : carry ↔ 2 ^ 32 ≤ l.toNat + m.toNat) :
    (mk (if carry then h + 1 else h) (l + m)).toNat
        = (h.toNat * 2 ^ 32 + l.toNat + m.toNat) % 2 ^ 64 ∧
      ((carry ∧ (if carry then h + 1 else h) = 0)
        ↔ 2 ^ 64 ≤ h.toNat * 2 ^ 32 + l.toNat + m.toNat) := by
  have h1 := h.isLt
  have h2 := l.isLt
  have h3 := m.isLt
  rw [mk_toNat, BitVec.toNat_add]
  by_cases hcar : carry
  · have hge := hc.mp hcar
    rw [if_pos hcar, eq_zero_iff, add_one_toNat, and_iff_right hcar]
    omega
  · have hlt := mt hc.mpr hcar
    rw [if_neg hcar]
    exact ⟨by omega, iff_of_false (fun h => hcar h.1) (by omega)⟩

/-- a number added to the high half: the sum and the bits it loses -/
theorem addHigh_toNat (h l k : BitVec 32) :
    (mk (h + k) l).toNat = (h.toNat * 2 ^ 32 + l.toNat + k.toNat * 2 ^ 32) % 2 ^ 64 ∧
      (h + k < h ↔ 2 ^ 64 ≤ h.toNat * 2 ^ 32 + l.toNat + k.toNat * 2 ^ 32) := by
  have h1 := h.isLt
  have h2 := l.isLt
  have h3 := k.isLt
  rw [mk_toNat, BitVec.toNat_add, add_lt_left]
  omega

/-- `v * 8 + v * 2 + c`: what is left, and when bits are lost on the way -/
theorem u64Cnv10_spec (v : U64) (c : BitVec 32) (hc : c.toNat ≤ 9) :
    (u64Cnv10 v c).1.toNat = (v.toNat * 10 + c.toNat) % 2 ^ 64 ∧
      ((u64Cnv10 v c).2 = true ↔ 2 ^ 64 ≤ v.toNat * 10 + c.toNat) := by
  have hlt := v.isLt
  have hv := halves v
  have hl := (lo v).isLt
  have hm3 : hi v &&& 0xE0000000#32 ≠ 0 ↔ 2 ^ 29 ≤ (hi v).toNat := and_upper_ne_zero (hi v) 29
  have hm1 : hi v &&& 0x80000000#32 ≠ 0 ↔ 2 ^ 31 ≤ (hi v).toNat := and_upper_ne_zero (hi v) 31
  have h8 := shlHalves_toNat v (show 1 ≤ 3 by omega) (by omega)
  have h2 := shlHalves_toNat v (show 1 ≤ 1 by omega) (by omega)
  rw [halves (shlHalves v 3)] at h8
  rw [halves (shlHalves v 1)] at h2
  simp only [u64Cnv10, Bool.or_eq_true, Bool.and_eq_true, decide_eq_true_eq, hm3, hm1]
  generalize hi (shlHalves v 3) = a at h8 ⊢
  generalize lo (shlHalves v 3) = b at h8 ⊢
  generalize hi (shlHalves v 1) = d at h2 ⊢
  generalize lo (shlHalves v 1) = e at h2 ⊢
  -- the three sums, each on what the one before has left
  obtain ⟨s1, o1⟩ := addLow_toNat a b e (b + e < b) (add_lt_left b e)
  generalize (if b + e < b then a + 1 else a) = a' at s1 o1 ⊢
  obtain ⟨s2, o2⟩ := addHigh_toNat a' (b + e) d
  obtain ⟨s3, o3⟩ := addLow_toNat (a' + d) (b + e) c (b + e + c < c) (add_lt_right (b + e) c)
  rw [mk_toNat] at s1 s2
  rw [o1, o2, o3, s3]
  generalize (a' + d).toNat = q at s2 ⊢
  generalize (b + e).toNat = r at s1 s2 ⊢
  clear s3 o1 o2 o3
  refine ⟨by omega, ?_⟩
  by_cases hbig : 2 ^ 61 ≤ v.toNat
  · exact iff_of_true (by omega) (by omega)
  · rw [Nat.mod_eq_of_lt (by omega)] at h8 h2
    by_cases c1 : 2 ^ 64 ≤ a.toNat * 2 ^ 32 + b.toNat + e.toNat
    · exact iff_of_true (by simp only [c1, or_true, true_or]) (by omega)
    · rw [Nat.mod_eq_of_lt (by omega)] at s1
      by_cases c2 : 2 ^ 64 ≤ a'.toNat * 2 ^ 32 + r + d.toNat * 2 ^ 32
      · exact iff_of_true (by simp only [c2, or_true, true_or]) (by omega)
      · rw [Nat.mod_eq_of_lt (by omega)] at s2
        omega

/-! ## strings of digits -/

/-- a step appends a digit of the base `b`, and its flag says that the number has lost bits -/
def Exact (b : Nat) (step : U64 → BitVec 32 → U64 × Bool) : Prop :=
  ∀ (v : U64) (c : BitVec 32), c.toNat < b →
    (step v c).1.toNat = (v.toNat * b + c.toNat) % 2 ^ 64 ∧
      ((step v c).2 = true ↔ 2 ^ 64 ≤ v.toNat * b + c.toNat)

theorem exact_cnv10 : Exact 10 u64Cnv10 := fun v c hc => u64Cnv10_spec v c (by omega)

theorem exact_cnvPow {k : Nat} (h1 : 1 ≤ k) (h2 : k < 32) :
    Exact (2 ^ k) (cnvPow k (BitVec.allOnes 32 <<< (32 - k))) := by
  intro v c hc
  have hmask := and_upper_ne_zero (hi v) (32 - k)
  have hs := shlHalves_toNat v h1 h2
  have hv := halves v
  have hl := (lo v).isLt
  have hsplit : 2 ^ 32 = 2 ^ (32 - k) * 2 ^ k := by
    rw [← pow_add, Nat.sub_add_cancel (by omega)]
  have hover : 2 ^ (32 - k) ≤ (hi v).toNat ↔ 2 ^ 64 ≤ v.toNat * 2 ^ k + c.toNat := by
    constructor
    · intro h
      have h3 : 2 ^ (32 - k) * 2 ^ 32 ≤ v.toNat := by omega
      have h4 := Nat.mul_le_mul_right (2 ^ k) h3
      have h5 : 2 ^ (32 - k) * 2 ^ 32 * 2 ^ k = 2 ^ 64 := by
        rw [Nat.mul_right_comm, ← hsplit]
        norm_num
      omega
    · intro h
      by_contra hlt
      have h3 : v.toNat + 1 ≤ 2 ^ (32 - k) * 2 ^ 32 := by omega
      have h4 := Nat.mul_le_mul_right (2 ^ k) h3
      have h5 : 2 ^ (32 - k) * 2 ^ 32 * 2 ^ k = 2 ^ 64 := by
        rw [Nat.mul_right_comm, ← hsplit]
        norm_num
      rw [Nat.add_mul, Nat.one_mul, h5] at h4
      omega
  -- the digit goes into the bits that the shift has vacated
  have hlow : (lo (shlHalves v k) ||| c).toNat = (lo (shlHalves v k)).toNat + c.toNat := by
    have hdvd : (lo (shlHalves v k)).toNat = 2 ^ k * ((lo (shlHalves v k)).toNat / 2 ^ k) := by
      refine (Nat.mul_div_cancel' ?_).symm
      rw [lo_toNat, hs, Nat.mod_mod_of_dvd _ (by norm_num), hsplit, Nat.mul_mod_mul_right]
      exact Nat.dvd_mul_left _ _
    rw [BitVec.toNat_or]
    conv_lhs => rw [hdvd]
    rw [← Nat.two_pow_add_eq_or_of_lt hc, ← hdvd]
  constructor
  · show (mk (hi (shlHalves v k)) (lo (shlHalves v k) ||| c)).toNat = _
    have hh := halves (shlHalves v k)
    have hle := (lo (shlHalves v k) ||| c).isLt
    have hlt := (shlHalves v k).isLt
    have hhi := (hi (shlHalves v k)).isLt
    rw [mk_toNat, hlow]
    rw [hlow] at hle
    omega
  · show decide (hi v &&& (BitVec.allOnes 32 <<< (32 - k)) ≠ 0) = true ↔ _
    rw [decide_eq_true_eq, hmask, hover]

theorem exact_cnv8 : Exact 8 u64Cnv8 := exact_cnvPow (k := 3) (by omega) (by omega)

theorem exact_cnv2 : Exact 2 u64Cnv2 := exact_cnvPow (k := 1) (by omega) (by omega)

theorem exact_cnv16 : Exact 16 u64Cnv16 := exact_cnvPow (k := 4) (by omega) (by omega)

/-- the number that a string of digits denotes, the most significant digit first -/
def denotes (b : Nat) (digits : List (BitVec 32)) : Nat :=
  Nat.ofDigits b (digits.reverse.map BitVec.toNat)

theorem denotes_append (b : Nat) (digits : List (BitVec 32)) (c : BitVec 32) :
    denotes b (digits ++ [c]) = denotes b digits * b + c.toNat := by
  unfold denotes
  rw [List.reverse_append, List.reverse_singleton, List.singleton_append, List.map_cons,
    Nat.ofDigits_cons]
  show c.toNat + b * _ = _
  ring

/-- the flags collected over a string say whether its number fits -/
theorem Exact.convert {b : Nat} {step : U64 → BitVec 32 → U64 × Bool} (h : Exact b step)
    (hb : 0 < b) (digits : List (BitVec 32)) (hd : ∀ c ∈ digits, c.toNat < b) :
    (I64.convert step digits).1.toNat = denotes b digits % 2 ^ 64 ∧
      ((I64.convert step digits).2 = true ↔ 2 ^ 64 ≤ denotes b digits) := by
  induction digits using List.reverseRecOn with
  | nil => exact ⟨rfl, iff_of_false Bool.false_ne_true (by show ¬ _ ≤ 0; omega)⟩
  | append_singleton digits c ih =>
    obtain ⟨ih1, ih2⟩ := ih fun d h => hd d (List.mem_append_left _ h)
    have hc : c.toNat < b := hd c (List.mem_append_right _ List.mem_cons_self)
    have hstep : I64.convert step (digits ++ [c])
        = ((step (I64.convert step digits).1 c).1,
          (I64.convert step digits).2 || (step (I64.convert step digits).1 c).2) := by
      rw [I64.convert, List.foldl_append]
      rfl
    obtain ⟨s1, s2⟩ := h (I64.convert step digits).1 c hc
    rw [hstep, denotes_append]
    refine ⟨?_, ?_⟩
    · rw [s1, ih1, Nat.add_mod, Nat.mod_mul_mod, ← Nat.add_mod]
    · rw [Bool.or_eq_true, ih2, s2, ih1]
      by_cases hbig : 2 ^ 64 ≤ denotes b digits
      · have hge : denotes b digits * 1 ≤ denotes b digits * b := Nat.mul_le_mul_left _ hb
        exact iff_of_true (Or.inl hbig) (by omega)
      · rw [Nat.mod_eq_of_lt (by omega)]
        exact or_iff_right hbig

/-- `U64Cnv10` computes `v * 10 + c` and reports exactly the numbers that do not fit; the flags
collected over a decimal string report exactly the strings that do not fit -/
theorem u64Cnv10_exact :
    (∀ (v : U64) (c : BitVec 32), c.toNat ≤ 9 →
      (u64Cnv10 v c).1.toNat = (v.toNat * 10 + c.toNat) % 2 ^ 64 ∧
        ((u64Cnv10 v c).2 = true ↔ 2 ^ 64 ≤ v.toNat * 10 + c.toNat)) ∧
    ∀ digits : List (BitVec 32), (∀ c ∈ digits, c.toNat ≤ 9) →
      (convert u64Cnv10 digits).1.toNat = denotes 10 digits % 2 ^ 64 ∧
        ((convert u64Cnv10 digits).2 = true ↔ 2 ^ 64 ≤ denotes 10 digits) :=
  ⟨u64Cnv10_spec, fun digits hd => exact_cnv10.convert (by omega) digits
    fun c hc => Nat.lt_succ_of_le (hd c hc)⟩

/-- the smallest number that does not fit, `2 ^ 64` -/
theorem u64Cnv10_exact_first : (u64Cnv10 1844674407370955161 6).2 = true :=
  (u64Cnv10_exact.1 1844674407370955161 6 (by decide)).2.mpr (by decide)

end I64
