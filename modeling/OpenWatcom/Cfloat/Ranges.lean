import OpenWatcom.Cfloat.Convert

/-!
# Which numbers `CFIsI8` … `CFIsU64` accept, and the way there and back of 64 bits

* `exact_of_value`    a number in the normal form that is an integer has no digit behind the point;
* `isInt_iff`         the tests, over all numbers in the normal form;
* `conversions_right` they are the ranges of the types, except that `CFIsI64` goes too far on both
                      sides (a wrong digit in `MaxNegI64`); `CFCnvF64` undoes `CFCnvU64F` and
                      `CFCnvI64F`.
-/

namespace CFloat
open Numerals I64

def maxNegI8 : CFloat := ⟨3, -1, [1, 2, 8]⟩
def maxU8 : CFloat := ⟨3, 1, [2, 5, 5]⟩
def maxNegI16 : CFloat := ⟨5, -1, [3, 2, 7, 6, 8]⟩
def maxU16 : CFloat := ⟨5, 1, [6, 5, 5, 3, 5]⟩

def cfIsI8 (f : CFloat) : Bool := cfIsIntType f maxNegI8
def cfIsU8 (f : CFloat) : Bool := cfIsIntType f maxU8
def cfIsI16 (f : CFloat) : Bool := cfIsIntType f maxNegI16
def cfIsU16 (f : CFloat) : Bool := cfIsIntType f maxU16

theorem exact_maxNegI8 : Exact maxNegI8 (-128) :=
  exact_of_decide (by decide) ⟨by decide, by decide, by decide, by decide, by decide⟩ rfl (by decide)

theorem exact_maxU8 : Exact maxU8 255 :=
  exact_of_decide (by decide) ⟨by decide, by decide, by decide, by decide, by decide⟩ rfl (by decide)

theorem exact_maxNegI16 : Exact maxNegI16 (-32768) :=
  exact_of_decide (by decide) ⟨by decide, by decide, by decide, by decide, by decide⟩ rfl (by decide)

theorem exact_maxU16 : Exact maxU16 65535 :=
  exact_of_decide (by decide) ⟨by decide, by decide, by decide, by decide, by decide⟩ rfl (by decide)

/-! ## integers in the normal form -/

/-- the last digit is not 0 -/
theorem val_last {m : List Int} (h : Mantissa m) : ¬ (10 : Int) ∣ val 10 m := by
  obtain ⟨l, d, rfl⟩ : ∃ l d, m = l ++ [d] :=
    ⟨m.dropLast, m.getLast h.nonempty, (List.dropLast_append_getLast h.nonempty).symm⟩
  have hd := h.digits d (by simp)
  have hne : d ≠ 0 := by
    intro e
    have := h.last
    rw [List.getLast?_append, e] at this
    exact this rfl
  have hv : val 10 (l ++ [d]) = val 10 l * 10 + d := by
    rw [val_append, val_cons]
    simp
  rw [hv]
  omega

theorem exact_of_value {f : CFloat} {v : Int} (h : f.Normal) (hv : f.value = v) : Exact f v := by
  rcases h with rfl | ⟨hs, hm⟩
  · have h0 : v = 0 := by
      rw [value_alloc] at hv
      exact_mod_cast hv.symm
    rw [h0]
    exact exact_alloc
  · refine ⟨Or.inr ⟨hs, hm⟩, ?_, hv⟩
    by_contra hw
    obtain ⟨n, hn⟩ : ∃ n : ℕ, f.exp - f.len = -((n + 1 : ℕ) : ℤ) :=
      ⟨(f.len - f.exp - 1).toNat, by rw [Whole] at hw; omega⟩
    -- the digits are ten times an integer
    have hprod : (((f.sign : ℤ) * val 10 f.mant : ℤ) : ℚ) = ((v * 10 ^ (n + 1) : ℤ) : ℚ) := by
      rw [value, size, hn, zpow_neg, zpow_natCast] at hv
      rw [Int.cast_mul, Int.cast_mul, Int.cast_pow, Int.cast_ofNat, ← hv, mul_assoc, mul_assoc,
        inv_mul_cancel₀ (by positivity), mul_one]
    have hz : (f.sign : ℤ) * val 10 f.mant = v * 10 ^ (n + 1) := by exact_mod_cast hprod
    refine val_last hm ?_
    have hdvd : (10 : Int) ∣ (f.sign : ℤ) * val 10 f.mant := by
      rw [hz, pow_succ]
      exact ⟨v * 10 ^ n, by ring⟩
    cases e : f.sign with
    | zero => exact absurd e hs
    | pos =>
      rw [e] at hdvd
      have he : ((SignType.pos : SignType) : ℤ) = 1 := rfl
      rw [he, one_mul] at hdvd
      exact hdvd
    | neg =>
      rw [e] at hdvd
      have he : ((SignType.neg : SignType) : ℤ) = -1 := rfl
      rw [he, neg_one_mul] at hdvd
      exact (Int.dvd_neg).mp hdvd

/-- a number that passes a test is an integer -/
theorem value_of_isInt {f maxval : CFloat} (h : f.Normal) (ht : cfIsIntType f maxval = true) :
    ∃ v : ℤ, Exact f v := by
  rw [cfIsIntType] at ht
  split at ht
  · exact absurd ht (by decide)
  · split at ht
    · exact absurd ht (by decide)
    · split at ht
      · exact absurd ht (by decide)
      · have hw : f.Whole := by
          rw [Whole]
          omega
        refine ⟨(f.sign : ℤ) * (val 10 f.mant * 10 ^ (f.exp - f.len).toNat), h, hw, ?_⟩
        rw [value, whole_size hw]
        push_cast
        rfl

/-- a test in terms of the number, when it is known for integers -/
theorem isInt_iff {f maxval : CFloat} (h : f.Normal) {p : ℤ → Prop}
    (ht : ∀ v, Exact f v → (cfIsIntType f maxval = true ↔ p v)) :
    cfIsIntType f maxval = true ↔ ∃ v : ℤ, f.value = v ∧ p v := by
  constructor
  · intro hb
    obtain ⟨v, hv⟩ := value_of_isInt h hb
    exact ⟨v, hv.value, (ht v hv).mp hb⟩
  · rintro ⟨v, hv, hp⟩
    exact (ht v (exact_of_value h hv)).mpr hp

/-- every test is the range of its type -/
structure RangesRight (f : CFloat) : Prop where
  i8 : cfIsI8 f = true ↔ ∃ v : ℤ, f.value = v ∧ -2 ^ 7 ≤ v ∧ v ≤ 2 ^ 7 - 1
  i16 : cfIsI16 f = true ↔ ∃ v : ℤ, f.value = v ∧ -2 ^ 15 ≤ v ∧ v ≤ 2 ^ 15 - 1
  i32 : cfIsI32 f = true ↔ ∃ v : ℤ, f.value = v ∧ -2 ^ 31 ≤ v ∧ v ≤ 2 ^ 31 - 1
  i64 : cfIsI64 f = true ↔ ∃ v : ℤ, f.value = v ∧ -2 ^ 63 ≤ v ∧ v ≤ 2 ^ 63 - 1
  u8 : cfIsU8 f = true ↔ ∃ v : ℤ, f.value = v ∧ 0 ≤ v ∧ v ≤ 2 ^ 8 - 1
  u16 : cfIsU16 f = true ↔ ∃ v : ℤ, f.value = v ∧ 0 ≤ v ∧ v ≤ 2 ^ 16 - 1
  u32 : cfIsU32 f = true ↔ ∃ v : ℤ, f.value = v ∧ 0 ≤ v ∧ v ≤ 2 ^ 32 - 1
  u64 : cfIsU64 f = true ↔ ∃ v : ℤ, f.value = v ∧ 0 ≤ v ∧ v ≤ 2 ^ 64 - 1

/-- an integer between the signed range of 64 bits and the bound of the table -/
def Overshoot (f : CFloat) : Prop := ∃ v : ℤ, f.value = v ∧
  (-9223372936854775807 ≤ v ∧ v < -2 ^ 63 ∨ 2 ^ 63 ≤ v ∧ v < 9223372936854775807)

section
variable {f : CFloat}

theorem cfIsI64_right_iff (h : f.Normal) :
    (cfIsI64 f = true ↔ ∃ v : ℤ, f.value = v ∧ -2 ^ 63 ≤ v ∧ v ≤ 2 ^ 63 - 1) ↔ ¬ Overshoot f := by
  have ht : cfIsI64 f = true ↔
      ∃ v : ℤ, f.value = v ∧ -9223372936854775807 ≤ v ∧ v < 9223372936854775807 :=
    isInt_iff h fun v hv => cfIsI64_iff hv
  rw [ht]
  constructor
  · rintro hiff ⟨v, hv, hr⟩
    obtain ⟨w, hw, hlo, hhi⟩ := hiff.mp ⟨v, hv, by omega, by omega⟩
    have hvw : v = w := by exact_mod_cast hv.symm.trans hw
    omega
  · intro hno
    constructor
    · rintro ⟨v, hv, hlo, hhi⟩
      refine ⟨v, hv, ?_⟩
      by_contra hr
      exact hno ⟨v, hv, by omega⟩
    · rintro ⟨v, hv, hlo, hhi⟩
      exact ⟨v, hv, by omega, by omega⟩

theorem rangesRight_iff (h : f.Normal) : RangesRight f ↔ ¬ Overshoot f := by
  constructor
  · intro hr
    exact (cfIsI64_right_iff h).mp hr.i64
  · intro hno
    refine ⟨?_, ?_, ?_, (cfIsI64_right_iff h).mpr hno, ?_, ?_, ?_, ?_⟩
    · refine isInt_iff h fun v hv => ?_
      rw [cfIsIntType_iff hv exact_maxNegI8 (by decide), if_neg (by decide)]
      omega
    · refine isInt_iff h fun v hv => ?_
      rw [cfIsIntType_iff hv exact_maxNegI16 (by decide), if_neg (by decide)]
      omega
    · refine isInt_iff h fun v hv => (cfIsI32_iff hv).trans ?_
      omega
    · refine isInt_iff h fun v hv => ?_
      rw [cfIsIntType_iff hv exact_maxU8 (by decide), if_pos (by decide)]
      omega
    · refine isInt_iff h fun v hv => ?_
      rw [cfIsIntType_iff hv exact_maxU16 (by decide), if_pos (by decide)]
      omega
    · refine isInt_iff h fun v hv => (cfIsU32_iff hv).trans ?_
      omega
    · refine isInt_iff h fun v hv => (cfIsU64_iff hv).trans ?_
      omega

end

/-! ## there and back -/

theorem cfCnvF64_cnvU64F (x : U64) : cfCnvF64 (cfCnvU64F (lo x) (hi x)) = x := by
  have he := exact_cnvU64F (lo x) (hi x)
  have hx : (((hi x).toNat : ℤ) * 2 ^ 32 + ((lo x).toNat : ℤ)) = (x.toNat : ℤ) := by
    rw [hi_toNat, lo_toNat]
    omega
  have hlt := x.isLt
  rw [hx] at he
  rw [cfCnvF64_exact he, if_pos ⟨by omega, by omega⟩, BitVec.ofInt_natCast, BitVec.ofNat_toNat,
    BitVec.setWidth_eq]

theorem cfCnvF64_cnvI64F (x : U64) : cfCnvF64 (cfCnvI64F (lo x) (hi x)) = x := by
  have he := exact_cnvI64F (lo x) (hi x)
  have hx : ((hi x).toInt * 2 ^ 32 + ((lo x).toNat : ℤ)) = x.toInt := by
    have hmod : ((x.toNat % 2 ^ 32 : ℕ) : ℤ) = x.toInt % 2 ^ 32 := by
      have := BitVec.toInt_eq_toNat_cond x
      split at this <;> omega
    rw [hi_signed, lo_toNat, hmod]
    omega
  have hlo := BitVec.le_toInt x
  have hhi := BitVec.toInt_lt (x := x)
  rw [hx] at he
  rw [cfCnvF64_exact he, if_pos ⟨by omega, by omega⟩, BitVec.ofInt_toInt]

theorem conversions_right {f : CFloat} (h : f.Normal) (x : U64) :
    (RangesRight f ∧ cfCnvF64 (cfCnvU64F (lo x) (hi x)) = x ∧
      cfCnvF64 (cfCnvI64F (lo x) (hi x)) = x) ↔ ¬ Overshoot f := by
  constructor
  · rintro ⟨hr, -, -⟩
    exact (rangesRight_iff h).mp hr
  · intro hno
    exact ⟨(rangesRight_iff h).mpr hno, cfCnvF64_cnvU64F x, cfCnvF64_cnvI64F x⟩

theorem conversions_right_least :
    (RangesRight maxNegI8 ∧ cfCnvF64 (cfCnvU64F (lo 0x8000000000000000) (hi 0x8000000000000000))
        = 0x8000000000000000 ∧
      cfCnvF64 (cfCnvI64F (lo 0x8000000000000000) (hi 0x8000000000000000))
        = 0x8000000000000000) ↔ ¬ Overshoot maxNegI8 :=
  conversions_right exact_maxNegI8.normal 0x8000000000000000

/-- `2 ^ 63` is taken for a signed number of 64 bits -/
theorem cfIsI64_overshoots : ¬ ∀ f : CFloat, f.Normal →
    (cfIsI64 f = true ↔ ∃ v : ℤ, f.value = v ∧ -2 ^ 63 ≤ v ∧ v ≤ 2 ^ 63 - 1) := by
  intro h
  have he : Exact ⟨19, 1, [9, 2, 2, 3, 3, 7, 2, 0, 3, 6, 8, 5, 4, 7, 7, 5, 8, 0, 8]⟩ (2 ^ 63) :=
    exact_of_decide (by decide) ⟨by decide, by decide, by decide, by decide, by decide⟩ rfl
      (by decide)
  exact (cfIsI64_right_iff he.normal).mp (h _ he.normal) ⟨2 ^ 63, he.value, by norm_num⟩

end CFloat
