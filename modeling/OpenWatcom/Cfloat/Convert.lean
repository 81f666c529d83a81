import OpenWatcom.Cfloat.Integers
import OpenWatcom.Watcom.I64

/-!
# Integers back from numbers

* `cfIsIntType`, `cfIsI32` … `cfIsU64`   which integer types hold a number;
* `cfCnvF32`, `cfCnvF64`                 the integer as a word of 32 or 64 bits;
* `cfIsIntType_iff`                      the test is the range of the type, as far as the bound that
  the table has for it is right;
* `cfCnvF32_exact`, `cfCnvF64_exact`     the word has the number modulo the power of two, and is 0
  when no type of that length holds the number.
-/

namespace CFloat
open Numerals I64

/-! ## cfconv.c -/

/-- `CFIsIntType`; a negative bound is the smallest number of a signed type -/
def cfIsIntType (f maxval : CFloat) : Bool :=
  if f.exp ≤ 0 ∨ f.exp > maxval.exp then false
  else if f.sign = -1 ∧ maxval.sign = 1 then false
  else if f.exp < f.len then false
  else
    let ord := cfOrder f maxval
    if ord > 0 then false
    else if ord = 0 ∧ f.sign = 1 ∧ maxval.sign = -1 then false
    else true

def maxU32 : CFloat := ⟨10, 1, [4, 2, 9, 4, 9, 6, 7, 2, 9, 5]⟩

/-- the eighth digit is 9, and the last 7: the bound is beyond the smallest number of 64 bits -/
def maxNegI64 : CFloat := ⟨19, -1, [9, 2, 2, 3, 3, 7, 2, 9, 3, 6, 8, 5, 4, 7, 7, 5, 8, 0, 7]⟩

def maxU64 : CFloat := ⟨20, 1, [1, 8, 4, 4, 6, 7, 4, 4, 0, 7, 3, 7, 0, 9, 5, 5, 1, 6, 1, 5]⟩

def cfIsI32 (f : CFloat) : Bool := cfIsIntType f maxNegI32
def cfIsU32 (f : CFloat) : Bool := cfIsIntType f maxU32
def cfIsI64 (f : CFloat) : Bool := cfIsIntType f maxNegI64
def cfIsU64 (f : CFloat) : Bool := cfIsIntType f maxU64

def cfIs32 (f : CFloat) : Bool := cfIsI32 f || cfIsU32 f
def cfIs64 (f : CFloat) : Bool := cfIsI64 f || cfIsU64 f

/-- `CFGetDec32` -/
def cfGetDec32 (mant : List Int) : BitVec 32 :=
  mant.foldl (fun number d => number * 10 + BitVec.ofInt 32 d) 0

/-- `CFGetDec64` -/
def cfGetDec64 (mant : List Int) : U64 :=
  mant.foldl (fun number d => u64Add (u64Mul number 10) (BitVec.ofInt 64 d)) 0

/-- a step of a conversion `n` times -/
def times {α : Type} (step : α → α) : Nat → α → α
  | 0, x => x
  | n + 1, x => times step n (step x)

/-- `CFCnvF32` -/
def cfCnvF32 (f : CFloat) : BitVec 32 :=
  if cfIsU32 f || cfIsI32 f then
    let data := cfGetDec32 f.mant
    let exp := f.exp - f.len
    let data := times (fun data => data * 10) exp.toNat data
    let data := times (fun data => data.sdiv 10) (-exp).toNat data
    if f.sign = -1 then -data else data
  else 0

/-- `CFCnvF64` -/
def cfCnvF64 (f : CFloat) : U64 :=
  if cfIsI64 f || cfIsU64 f then
    let data := cfGetDec64 f.mant
    let exp := f.exp - f.len
    let data := times (fun data => u64Mul data 10) exp.toNat data
    let data := times (fun data => (u64Div data 10).1) (-exp).toNat data
    if f.sign = -1 then u64Neg data else data
  else 0

/-! ## the range of a type -/

theorem exact_of_decide {f : CFloat} {v : Int} (hs : f.sign ≠ 0) (hm : Mantissa f.mant)
    (hw : f.exp = f.len) (hv : (f.sign : Int) * val 10 f.mant = v) : Exact f v := by
  refine ⟨Or.inr ⟨hs, hm⟩, by rw [Whole]; omega, ?_⟩
  rw [value, size, ← hv, hw, sub_self, zpow_zero, mul_one, Int.cast_mul]

theorem exact_maxNegI32 : Exact maxNegI32 (-2147483648) :=
  exact_of_decide (by decide) ⟨by decide, by decide, by decide, by decide, by decide⟩ rfl (by decide)

theorem exact_maxU32 : Exact maxU32 4294967295 :=
  exact_of_decide (by decide) ⟨by decide, by decide, by decide, by decide, by decide⟩ rfl (by decide)

theorem exact_maxNegI64 : Exact maxNegI64 (-9223372936854775807) :=
  exact_of_decide (by decide) ⟨by decide, by decide, by decide, by decide, by decide⟩ rfl (by decide)

theorem exact_maxU64 : Exact maxU64 18446744073709551615 :=
  exact_of_decide (by decide) ⟨by decide, by decide, by decide, by decide, by decide⟩ rfl (by decide)

/-- an integer has at least one digit in front of the point -/
theorem Exact.exp_pos {f : CFloat} {v : Int} (h : Exact f v) : 0 < f.exp ∧ f.len ≤ f.exp := by
  have hw := h.whole
  have hne := List.length_pos_of_ne_nil h.normal.nonempty
  rw [Whole, len] at hw
  rw [len]
  omega

/-- the order of two integers that are not both zero by their absolute values -/
theorem Exact.order {f g : CFloat} {v w : Int} (hf : Exact f v) (hg : Exact g w) (hw : w ≠ 0) :
    Orders (cfOrder f g) (v.natAbs : Int) (w.natAbs : Int) := by
  obtain ⟨-, z2, m2, -⟩ := hg.parts hw
  by_cases hv : v = 0
  · subst hv
    obtain ⟨d, l, hm, hd, -⟩ := m2.leading.cons
    have hexp := hg.exp_pos.1
    have hc : cfOrder f g = if 1 - g.exp = 0 then mantOrder [0] g.mant else 1 - g.exp := by
      rw [hf.zero]
      rfl
    have hmo : mantOrder [0] g.mant = 0 - d := by
      rw [hm]
      exact if_pos (by omega)
    refine Orders.of_lt ?_ (by omega)
    rw [hc, hmo]
    by_cases he : 1 - g.exp = 0
    · rw [if_pos he]
      omega
    · rw [if_neg he]
      omega
  · obtain ⟨-, z1, m1, -⟩ := hf.parts hv
    have hord := cfOrder_size m1 m2
    rw [z1, z2] at hord
    exact hord.map Int.cast_lt Int.cast_inj Int.cast_lt

/-- a larger exponent makes a larger number -/
theorem Exact.exp_lt {f g : CFloat} {v w : Int} (hf : Exact f v) (hg : Exact g w) (hw : w ≠ 0)
    (hlt : g.exp < f.exp) : w.natAbs < v.natAbs := by
  have hne : f.exp - g.exp ≠ 0 := by omega
  have hord : cfOrder f g = f.exp - g.exp := if_neg hne
  have h := (hf.order hg hw).2.2.mp (by omega)
  omega

theorem cfIsIntType_iff {f maxval : CFloat} {v m : Int} (hf : Exact f v) (hm : Exact maxval m)
    (h0 : m ≠ 0) :
    cfIsIntType f maxval = true ↔ if 0 < m then 0 ≤ v ∧ v ≤ m else m ≤ v ∧ v < -m := by
  obtain ⟨hexp, hlen⟩ := hf.exp_pos
  have hs1 := hf.sign_eq
  have hs2 := hm.sign_eq
  have hsg : ∀ {g : CFloat} {x : Int}, (g.sign : Int) = x.sign →
      (g.sign = -1 ↔ x < 0) ∧ (g.sign = 1 ↔ 0 < x) := by
    intro g x h
    rw [← Int.sign_eq_neg_one_iff_neg, ← Int.sign_eq_one_iff_pos, ← h]
    cases g.sign <;> decide
  have hord := hf.order hm h0
  rw [cfIsIntType]
  by_cases hbig : f.exp > maxval.exp
  · rw [if_pos (Or.inr hbig)]
    have hlt := hf.exp_lt hm h0 hbig
    refine iff_of_false (by decide) ?_
    split <;> omega
  rw [if_neg (not_or.mpr ⟨by omega, hbig⟩)]
  by_cases hsign : f.sign = -1 ∧ maxval.sign = 1
  · rw [if_pos hsign]
    have h1 := (hsg hs1).1.mp hsign.1
    have h2 := (hsg hs2).2.mp hsign.2
    refine iff_of_false (by decide) ?_
    rw [if_pos h2]
    omega
  rw [if_neg hsign, if_neg (by omega)]
  dsimp only
  by_cases hgt : cfOrder f maxval > 0
  · rw [if_pos hgt]
    have h1 := hord.2.2.mp hgt
    refine iff_of_false (by decide) ?_
    split <;> omega
  rw [if_neg hgt]
  have hle : ¬ (m.natAbs : Int) < v.natAbs := fun h => hgt (hord.2.2.mpr h)
  by_cases heq : cfOrder f maxval = 0 ∧ f.sign = 1 ∧ maxval.sign = -1
  · rw [if_pos heq]
    have h1 := hord.2.1.mp heq.1
    have h2 := (hsg hs1).2.mp heq.2.1
    have h3 := (hsg hs2).1.mp heq.2.2
    refine iff_of_false (by decide) ?_
    rw [if_neg (by omega)]
    omega
  rw [if_neg heq]
  refine iff_of_true rfl ?_
  by_cases hpos : 0 < m
  · rw [if_pos hpos]
    have h1 : ¬ v < 0 := fun h => hsign ⟨(hsg hs1).1.mpr h, (hsg hs2).2.mpr hpos⟩
    omega
  · rw [if_neg hpos]
    have h1 : ¬ (v = -m) := fun h => heq ⟨hord.2.1.mpr (by omega), (hsg hs1).2.mpr (by omega),
      (hsg hs2).1.mpr (by omega)⟩
    omega

section
variable {f : CFloat} {v : Int}

theorem cfIsI32_iff (h : Exact f v) : cfIsI32 f = true ↔ -2 ^ 31 ≤ v ∧ v < 2 ^ 31 := by
  rw [cfIsI32, cfIsIntType_iff h exact_maxNegI32 (by decide), if_neg (by decide)]
  omega

theorem cfIsU32_iff (h : Exact f v) : cfIsU32 f = true ↔ 0 ≤ v ∧ v < 2 ^ 32 := by
  rw [cfIsU32, cfIsIntType_iff h exact_maxU32 (by decide), if_pos (by decide)]
  omega

/-- numbers on both sides of the signed range are taken for an `I64` -/
theorem cfIsI64_iff (h : Exact f v) :
    cfIsI64 f = true ↔ -9223372936854775807 ≤ v ∧ v < 9223372936854775807 := by
  rw [cfIsI64, cfIsIntType_iff h exact_maxNegI64 (by decide), if_neg (by decide)]
  omega

theorem cfIsU64_iff (h : Exact f v) : cfIsU64 f = true ↔ 0 ≤ v ∧ v < 2 ^ 64 := by
  rw [cfIsU64, cfIsIntType_iff h exact_maxU64 (by decide), if_pos (by decide)]
  omega

theorem cfIs32_iff (h : Exact f v) : cfIs32 f = true ↔ -2 ^ 31 ≤ v ∧ v < 2 ^ 32 := by
  rw [cfIs32, Bool.or_eq_true, cfIsI32_iff h, cfIsU32_iff h]
  omega

theorem cfIs64_iff (h : Exact f v) : cfIs64 f = true ↔ -9223372936854775807 ≤ v ∧ v < 2 ^ 64 := by
  rw [cfIs64, Bool.or_eq_true, cfIsI64_iff h, cfIsU64_iff h]
  omega

/-! ## the words -/

theorem foldl_dec {w : Nat} (step : BitVec w → Int → BitVec w)
    (hstep : ∀ n d, step n d = n * 10 + BitVec.ofInt w d) (mant : List Int) (x : Int) :
    mant.foldl step (BitVec.ofInt w x) = BitVec.ofInt w (x * 10 ^ mant.length + val 10 mant) := by
  induction mant generalizing x with
  | nil => simp
  | cons d l ih =>
    have e : step (BitVec.ofInt w x) d = BitVec.ofInt w (x * 10 + d) := by
      rw [hstep, BitVec.ofInt_add, BitVec.ofInt_mul]
      rfl
    rw [List.foldl_cons, e, ih, val_cons, List.length_cons, pow_succ]
    congr 1
    ring

theorem times_ten {w : Nat} (step : BitVec w → BitVec w) (hstep : ∀ x, step x = x * 10) (n : Nat)
    (x : Int) : times step n (BitVec.ofInt w x) = BitVec.ofInt w (x * 10 ^ n) := by
  induction n generalizing x with
  | zero => simp [times]
  | succ n ih =>
    have e : step (BitVec.ofInt w x) = BitVec.ofInt w (x * 10) := by
      rw [hstep, BitVec.ofInt_mul]
      rfl
    rw [times, e, ih, pow_succ]
    congr 1
    ring

/-- the digits and the exponent of an integer -/
theorem Exact.abs_eq (h : Exact f v) :
    val 10 f.mant * 10 ^ (f.exp - f.len).toNat = v.natAbs ∧ (-(f.exp - f.len)).toNat = 0 := by
  have hw := h.whole
  have hz : (-(f.exp - f.len)).toNat = 0 := by
    rw [Whole] at hw
    omega
  refine ⟨?_, hz⟩
  by_cases hv : v = 0
  · subst hv
    rw [h.zero]
    decide
  · have hs := (h.parts hv).2.1
    rw [whole_size hw] at hs
    exact_mod_cast hs

/-- the word under the sign of the number -/
theorem signed_word {w : Nat} (h : Exact f v) :
    (if f.sign = -1 then -BitVec.ofInt w (v.natAbs : Int) else BitVec.ofInt w (v.natAbs : Int))
      = BitVec.ofInt w v := by
  have hs := h.sign_eq
  by_cases hneg : v < 0
  · have h1 : f.sign = -1 := by
      rw [Int.sign_eq_neg_one_of_neg hneg] at hs
      revert hs
      cases f.sign <;> decide
    rw [if_pos h1, ← BitVec.ofInt_neg]
    congr 1
    omega
  · have h1 : f.sign ≠ -1 := by
      intro e
      rw [e] at hs
      exact hneg (Int.sign_eq_neg_one_iff_neg.mp hs.symm)
    rw [if_neg h1]
    congr 1
    omega

theorem cfCnvF32_exact (h : Exact f v) :
    cfCnvF32 f = if -2 ^ 31 ≤ v ∧ v < 2 ^ 32 then BitVec.ofInt 32 v else 0 := by
  obtain ⟨habs, hz⟩ := h.abs_eq
  have hc : (cfIsU32 f || cfIsI32 f) = true ↔ -2 ^ 31 ≤ v ∧ v < 2 ^ 32 := by
    rw [Bool.or_comm]
    exact cfIs32_iff h
  have hdec : cfGetDec32 f.mant = BitVec.ofInt 32 (val 10 f.mant) := by
    have e := foldl_dec (w := 32) (fun number d => number * 10 + BitVec.ofInt 32 d)
      (fun _ _ => rfl) f.mant 0
    rw [zero_mul, zero_add] at e
    exact e
  rw [cfCnvF32]
  by_cases hr : -2 ^ 31 ≤ v ∧ v < 2 ^ 32
  · rw [if_pos (hc.mpr hr), if_pos hr, hdec]
    dsimp only
    rw [times_ten _ (fun _ => rfl), habs, hz]
    exact signed_word h
  · rw [if_neg (fun e => hr (hc.mp e)), if_neg hr]

theorem cfCnvF64_exact (h : Exact f v) :
    cfCnvF64 f = if -9223372936854775807 ≤ v ∧ v < 2 ^ 64 then BitVec.ofInt 64 v else 0 := by
  obtain ⟨habs, hz⟩ := h.abs_eq
  have hdec : cfGetDec64 f.mant = BitVec.ofInt 64 (val 10 f.mant) := by
    have e := foldl_dec (w := 64) (fun number d => u64Add (u64Mul number 10) (BitVec.ofInt 64 d))
      (fun n d => by rw [u64Add_eq, u64Mul_eq]) f.mant 0
    rw [zero_mul, zero_add] at e
    exact e
  have hc : (cfIsI64 f || cfIsU64 f) = true ↔ -9223372936854775807 ≤ v ∧ v < 2 ^ 64 :=
    cfIs64_iff h
  rw [cfCnvF64]
  by_cases hr : -9223372936854775807 ≤ v ∧ v < 2 ^ 64
  · rw [if_pos (hc.mpr hr), if_pos hr, hdec]
    dsimp only
    rw [times_ten _ (fun x => u64Mul_eq x 10), habs, hz]
    dsimp only [times]
    rw [u64Neg_eq]
    exact signed_word h
  · rw [if_neg (fun e => hr (hc.mp e)), if_neg hr]

end

end CFloat
