import OpenWatcom.Cg.TreeFold
import OpenWatcom.Lib.Narrowing
import Mathlib.Data.Int.ModEq

/-!
# The constants that the folds produce

* `intToCF_exact`       a constant is made with the value of the word modulo the length of the type;
* `foldNumbers_right`, `foldBits_right`, …   when each fold is right;
* `fold_right_iff`      the ten folds at once: right modulo `2 ^ (8 * length)`, and without a trap,
  exactly when `FoldOp.Good` holds.
-/

namespace Cg
open CFloat I64

/-! ## words and numbers -/

theorem toInt_ofInt_modEq (w : Nat) (z : Int) : (BitVec.ofInt w z).toInt ≡ z [ZMOD 2 ^ w] := by
  have h : z.bmod (2 ^ w) % ((2 ^ w : Nat) : Int) = z % ((2 ^ w : Nat) : Int) := Int.bmod_emod
  push_cast at h
  rw [BitVec.toInt_ofInt, Int.ModEq]
  exact h

theorem toInt_toNat_modEq {w : Nat} (x : BitVec w) : x.toInt ≡ x.toNat [ZMOD 2 ^ w] := by
  have h : (x.toNat : Int).bmod (2 ^ w) % ((2 ^ w : Nat) : Int) = x.toNat % ((2 ^ w : Nat) : Int) :=
    Int.bmod_emod
  push_cast at h
  rw [BitVec.toInt_eq_toNat_bmod, Int.ModEq]
  exact h

theorem setWidth_modEq {w : Nat} (n : Nat) (x : BitVec w) :
    ((x.setWidth n).toNat : Int) ≡ x.toNat [ZMOD 2 ^ n] := by
  rw [BitVec.toNat_setWidth, Int.ModEq]
  push_cast
  exact Int.emod_emod_of_dvd _ (dvd_refl _)

/-- numbers that agree modulo a power of two agree modulo a smaller one -/
theorem modEq_le {a b : Int} {m n : Nat} (h : a ≡ b [ZMOD 2 ^ n]) (hmn : m ≤ n) :
    a ≡ b [ZMOD 2 ^ m] := h.of_dvd (pow_dvd_pow 2 hmn)

theorem lo_modEq (x : U64) : ((lo x).toNat : Int) ≡ x.toInt [ZMOD 2 ^ 32] := by
  have h1 := modEq_le (toInt_toNat_modEq x) (show 32 ≤ 64 by decide)
  have h2 : ((lo x).toNat : Int) ≡ x.toNat [ZMOD 2 ^ 32] := by
    rw [lo_toNat, Int.ModEq]
    push_cast
    exact Int.emod_emod_of_dvd _ (dvd_refl _)
  exact h2.trans h1.symm

/-- the number in the halves of a word -/
theorem halves_toInt (x : U64) : (hi x).toInt * 2 ^ 32 + (lo x).toNat = x.toInt := by
  have h1 := hi_signed x
  have h2 := lo_toNat x
  have h3 := x.isLt
  have h4 := BitVec.toInt_eq_toNat_cond x
  rw [h1, h2, h4]
  omega

section
variable (tipe : IntType)

/-- the numbers of the type -/
def IntType.Holds (v : Int) : Prop :=
  if tipe.signed then -2 ^ (tipe.bits - 1) ≤ v ∧ v < 2 ^ (tipe.bits - 1)
  else 0 ≤ v ∧ v < 2 ^ tipe.bits

instance (v : Int) : Decidable (tipe.Holds v) := by
  unfold IntType.Holds
  infer_instance

theorem bits_pos : 8 ≤ tipe.bits := by
  rw [IntType.bits]
  cases tipe.length <;> decide

theorem bits_le : tipe.bits ≤ 64 := by
  rw [IntType.bits]
  cases tipe.length <;> decide

theorem bits_narrow (h : hasBigConst tipe = false) : tipe.bits ≤ 32 := by
  rw [hasBigConst] at h
  rw [IntType.bits]
  cases e : tipe.length with
  | b8 => simp [e] at h
  | _ => decide

theorem bits_big (h : hasBigConst tipe = true) : tipe.length = .b8 ∧ tipe.bits = 64 := by
  rw [hasBigConst, decide_eq_true_iff] at h
  exact ⟨h, by rw [IntType.bits, h]; rfl⟩

theorem intToCF_exact (value : U64) :
    ∃ r, Exact (intToCF tipe value) r ∧ r ≡ value.toInt [ZMOD 2 ^ tipe.bits] := by
  have hlo := lo_modEq value
  have hlt := (lo value).isLt
  have h64 := toInt_toNat_modEq value
  obtain ⟨length, signed⟩ := tipe
  cases signed with
  | true =>
    cases length with
    | b1 =>
      refine ⟨_, exact_cnvI32F _, ?_⟩
      rw [BitVec.toInt_signExtend_of_le (by decide)]
      exact (toInt_toNat_modEq _).trans ((setWidth_modEq 8 _).trans (modEq_le hlo (by decide)))
    | b2 =>
      refine ⟨_, exact_cnvI32F _, ?_⟩
      rw [BitVec.toInt_signExtend_of_le (by decide)]
      exact (toInt_toNat_modEq _).trans ((setWidth_modEq 16 _).trans (modEq_le hlo (by decide)))
    | b4 => exact ⟨_, exact_cnvI32F _, (toInt_toNat_modEq _).trans hlo⟩
    | b8 =>
      refine ⟨_, exact_cnvI64F _ _, ?_⟩
      rw [halves_toInt]
  | false =>
    cases length with
    | b1 =>
      refine ⟨_, exact_cnvU32F _, ?_⟩
      rw [BitVec.toNat_setWidth, Nat.mod_eq_of_lt (lt_trans (BitVec.isLt _) (by decide))]
      exact (setWidth_modEq 8 _).trans (modEq_le hlo (by decide))
    | b2 =>
      refine ⟨_, exact_cnvU32F _, ?_⟩
      rw [BitVec.toNat_setWidth, Nat.mod_eq_of_lt (lt_trans (BitVec.isLt _) (by decide))]
      exact (setWidth_modEq 16 _).trans (modEq_le hlo (by decide))
    | b4 => exact ⟨_, exact_cnvU32F _, hlo⟩
    | b8 =>
      refine ⟨_, exact_cnvU64F _ _, ?_⟩
      have h := halves value
      have e : ((hi value).toNat : Int) * 2 ^ 32 + (lo value).toNat = value.toNat := by
        rw [h]
        push_cast
        ring
      rw [e]
      exact h64.symm

/-- a fold gives the number modulo the length of the type, or no constant at all -/
def Fold.Right (target : Int) : Fold → Prop
  | .null => True
  | .trap => False
  | .const cfval => ∃ r, Exact cfval r ∧ r ≡ target [ZMOD 2 ^ tipe.bits]

/-- the number of a `CFloat` is unique -/
theorem Exact.unique {f : CFloat} {v w : Int} (h1 : Exact f v) (h2 : Exact f w) : v = w := by
  have h := h1.value.symm.trans h2.value
  exact_mod_cast h

theorem int64ToType_right (value : U64) (target : Int) :
    (int64ToType tipe value).Right tipe target ↔ value.toInt ≡ target [ZMOD 2 ^ tipe.bits] := by
  obtain ⟨r, hr, hm⟩ := intToCF_exact tipe value
  constructor
  · rintro ⟨s, hs, ht⟩
    rw [Exact.unique hs hr] at ht
    exact hm.symm.trans ht
  · exact fun h => ⟨r, hr, hm.trans h⟩

/-- `Set64ValI32` -/
theorem signed_halves (value : BitVec 32) :
    (mk (if value.toInt < 0 then -1 else 0) value).toInt = value.toInt := by
  have h := mk_toNat (if value.toInt < 0 then -1 else 0) value
  have h1 := BitVec.toInt_eq_toNat_cond value
  have h2 := value.isLt
  rw [BitVec.toInt_eq_toNat_cond, h]
  by_cases hneg : value.toInt < 0
  · rw [if_pos hneg]
    have e : ((-1 : BitVec 32)).toNat = 2 ^ 32 - 1 := rfl
    rw [e]
    omega
  · rw [if_neg hneg]
    have e : ((0 : BitVec 32)).toNat = 0 := rfl
    rw [e]
    omega

theorem intToType_right (value : BitVec 32) (target : Int) :
    (intToType tipe value).Right tipe target ↔ value.toInt ≡ target [ZMOD 2 ^ tipe.bits] := by
  rw [intToType, int64ToType_right, signed_halves]

/-! ## constants -/

variable {tipe} {f : CFloat} {v : Int}

/-- a constant of at most four bytes fits in 32 bits -/
theorem holds_narrow (h : tipe.Holds v) (hn : hasBigConst tipe = false) :
    -2 ^ 31 ≤ v ∧ v < 2 ^ 32 ∧ (tipe.signed = true → v < 2 ^ 31) ∧ (tipe.signed = false → 0 ≤ v) := by
  have hb := bits_narrow tipe hn
  have h1 : (2 : Int) ^ (tipe.bits - 1) ≤ 2 ^ 31 := pow_le_pow_right₀ (by norm_num) (by omega)
  have h2 : (2 : Int) ^ tipe.bits ≤ 2 ^ 32 := pow_le_pow_right₀ (by norm_num) hb
  rw [IntType.Holds] at h
  cases hs : tipe.signed with
  | true =>
    rw [hs, if_pos rfl] at h
    exact ⟨by omega, by omega, fun _ => by omega, fun e => absurd e (by decide)⟩
  | false =>
    rw [hs, if_neg (by decide)] at h
    exact ⟨by omega, by omega, fun e => absurd e (by decide), fun _ => h.1⟩

theorem holds_big (h : tipe.Holds v) :
    -2 ^ 63 ≤ v ∧ v < 2 ^ 64 ∧ (tipe.signed = true → v < 2 ^ 63) ∧ (tipe.signed = false → 0 ≤ v) := by
  have hb := bits_le tipe
  have h1 : (2 : Int) ^ (tipe.bits - 1) ≤ 2 ^ 63 := pow_le_pow_right₀ (by norm_num) (by omega)
  have h2 : (2 : Int) ^ tipe.bits ≤ 2 ^ 64 := pow_le_pow_right₀ (by norm_num) hb
  rw [IntType.Holds] at h
  cases hs : tipe.signed with
  | true =>
    rw [hs, if_pos rfl] at h
    exact ⟨by omega, by omega, fun _ => by omega, fun e => absurd e (by decide)⟩
  | false =>
    rw [hs, if_neg (by decide)] at h
    exact ⟨by omega, by omega, fun e => absurd e (by decide), fun _ => h.1⟩

/-- the word of a constant: 32 bits hold it, and it keeps its value in a narrower type -/
theorem cfConvertByType_exact (h : Exact f v) (hv : tipe.Holds v) (h32 : -2 ^ 31 ≤ v ∧ v < 2 ^ 32) :
    cfConvertByType tipe f = BitVec.ofInt 32 v := by
  have hd : cfCnvF32 f = BitVec.ofInt 32 v := by rw [cfCnvF32_exact h, if_pos h32]
  rw [cfConvertByType, hd]
  have hpos := bits_pos tipe
  have hcast (hb : tipe.bits ≤ 32) :
      Narrowing.castTo tipe.signed tipe.bits (BitVec.ofInt 32 v) = BitVec.ofInt 32 v :=
    Narrowing.castTo_ofInt (by omega) hb hv
  cases hl : tipe.length with
  | b1 =>
    rw [IntType.bits, hl] at hcast
    cases hs : tipe.signed with
    | true =>
      rw [hs] at hcast
      exact hcast (by decide)
    | false =>
      rw [hs, Narrowing.castTo_false] at hcast
      exact hcast (by decide)
  | b2 =>
    rw [IntType.bits, hl] at hcast
    cases hs : tipe.signed with
    | true =>
      rw [hs] at hcast
      exact hcast (by decide)
    | false =>
      rw [hs, Narrowing.castTo_false] at hcast
      exact hcast (by decide)
  | b4 => rfl
  | b8 => rfl

/-- an integer has nothing to cut off -/
theorem cfTrunc_exact (h : Exact f v) : cfTrunc f = f := by
  obtain ⟨h1, h2⟩ := h.exp_pos
  rw [cfTrunc, if_neg (by omega), if_pos h2]
  rfl

theorem cfTest_exact (h : Exact f v) : cfTest f = v.sign := h.sign_eq

/-- the word of an integer: 0 from `2 ^ 64` on -/
theorem cfGetInteger64Value_exact (h : Exact f v) :
    cfGetInteger64Value f = if v.natAbs < 2 ^ 64 then BitVec.ofInt 64 v else 0 := by
  rw [cfGetInteger64Value, cfTrunc_exact h, cfTest_exact h]
  by_cases hneg : v.sign < 0
  · have hlt : v < 0 := by
      by_contra hge
      have := Int.sign_nonneg_iff.mpr (not_lt.mp hge)
      omega
    rw [if_pos hneg, if_pos hneg, cfCnvF64_exact (exact_negate h), u64Neg_eq]
    by_cases hb : v.natAbs < 2 ^ 64
    · rw [if_pos hb, if_pos (by omega), BitVec.ofInt_neg, neg_neg]
    · rw [if_neg hb, if_neg (by omega)]
      rfl
  · have hge : 0 ≤ v := by
      by_contra hlt
      exact hneg (by rw [Int.sign_eq_neg_one_of_neg (not_le.mp hlt)]; decide)
    rw [if_neg hneg, if_neg hneg, cfCnvF64_exact h]
    by_cases hb : v.natAbs < 2 ^ 64
    · rw [if_pos hb, if_pos (by omega)]
    · rw [if_neg hb, if_neg (by omega)]

/-- every number of a type is one of 64 bits -/
theorem cfIs64_holds (h : Exact f v) (hv : tipe.Holds v) : cfIs64 f = true := by
  have := holds_big hv
  exact (cfIs64_iff h).mpr ⟨by omega, by omega⟩

theorem cfGetInteger64Value_holds (h : Exact f v) (hv : tipe.Holds v) :
    cfGetInteger64Value f = BitVec.ofInt 64 v := by
  have := holds_big hv
  rw [cfGetInteger64Value_exact h, if_pos (by omega)]

end

/-! ## sums, differences and products -/

section
variable {tipe : IntType} {lv rv : CFloat} {a b : Int}

theorem ofInt_zero_modEq (z : Int) :
    (0 : BitVec 64).toInt ≡ z [ZMOD 2 ^ 64] ↔ (2 ^ 64 : Int) ∣ z := by
  show (0 : Int) ≡ z [ZMOD 2 ^ 64] ↔ _
  rw [Int.modEq_iff_dvd, sub_zero]

theorem foldNumbers_right {op32 : BitVec 32 → BitVec 32 → BitVec 32}
    {opF : CFloat → CFloat → CFloat} {z : Int} (ha : Exact lv a) (hb : Exact rv b)
    (ta : tipe.Holds a) (tb : tipe.Holds b)
    (h32 : op32 (BitVec.ofInt 32 a) (BitVec.ofInt 32 b) = BitVec.ofInt 32 z)
    (hF : cfGetInteger64Value (opF lv rv) = if z.natAbs < 2 ^ 64 then BitVec.ofInt 64 z else 0) :
    (foldNumbers tipe op32 opF lv rv).Right tipe z
      ↔ (tipe.length = .b8 → z.natAbs < 2 ^ 64 ∨ (2 ^ 64 : Int) ∣ z) := by
  rw [foldNumbers]
  by_cases hbig : hasBigConst tipe = true
  · obtain ⟨hl, hbits⟩ := bits_big tipe hbig
    rw [if_neg (fun h => by rw [hbig] at h; cases h.1)]
    show (int64ToType tipe (cfGetInteger64Value (opF lv rv))).Right tipe z ↔ _
    rw [int64ToType_right, hF, hbits]
    by_cases hz : z.natAbs < 2 ^ 64
    · rw [if_pos hz]
      exact iff_of_true (toInt_ofInt_modEq 64 z) fun _ => Or.inl hz
    · rw [if_neg hz, ofInt_zero_modEq]
      exact ⟨fun h _ => Or.inr h, fun h => (h hl).resolve_left hz⟩
  · have hn : hasBigConst tipe = false := by simpa using hbig
    have h1 := holds_narrow ta hn
    have h2 := holds_narrow tb hn
    have ra : -2 ^ 31 ≤ a ∧ a < 2 ^ 32 := ⟨h1.1, h1.2.1⟩
    have rb : -2 ^ 31 ≤ b ∧ b < 2 ^ 32 := ⟨h2.1, h2.2.1⟩
    rw [if_pos ⟨hn, (cfIs32_iff ha).mpr ra, (cfIs32_iff hb).mpr rb⟩, intToType_right,
      cfConvertByType_exact ha ta ra, cfConvertByType_exact hb tb rb, h32]
    refine iff_of_true (modEq_le (toInt_ofInt_modEq 32 z) (bits_narrow tipe hn)) fun hl => ?_
    rw [hasBigConst, hl] at hn
    exact absurd hn (by decide)

theorem small_prec {m n : Nat} (hm : m < 2 ^ 65) (hn : n < 2 ^ 65) : m + n < 10 ^ maxPrec := by
  have h : 2 ^ 66 < 10 ^ maxPrec := by norm_num [maxPrec]
  omega

theorem natAbs_holds (ta : tipe.Holds a) : a.natAbs < 2 ^ 64 := by
  have h := holds_big ta
  omega

theorem foldPlus_right (ha : Exact lv a) (hb : Exact rv b) (ta : tipe.Holds a) (tb : tipe.Holds b) :
    (foldPlus tipe lv rv).Right tipe (a + b) ↔ (tipe.length = .b8 → a + b ≤ 2 ^ 64) := by
  have na := natAbs_holds ta
  have nb := natAbs_holds tb
  have h1 := holds_big ta
  have h2 := holds_big tb
  have hsum : Exact (cfAdd rv lv) (a + b) := by
    rw [add_comm a b]
    exact exact_add hb ha (small_prec (by omega) (by omega))
  rw [foldPlus, foldNumbers_right (z := a + b) hb ha tb ta
    (by rw [BitVec.ofInt_add, BitVec.add_comm]) (cfGetInteger64Value_exact hsum)]
  refine forall_congr' fun hl => ?_
  cases hs : tipe.signed with
  | true =>
    have := h1.2.2.1 hs
    have := h2.2.2.1 hs
    refine iff_of_true ?_ (by omega)
    -- the smallest sum is `-2 ^ 64`
    by_cases hm : (a + b).natAbs < 2 ^ 64
    · exact Or.inl hm
    · refine Or.inr ⟨-1, by omega⟩
  | false =>
    have := h1.2.2.2 hs
    have := h2.2.2.2 hs
    constructor
    · rintro (h | ⟨k, hk⟩)
      · omega
      · omega
    · intro h
      by_cases he : a + b = 2 ^ 64
      · exact Or.inr ⟨1, by omega⟩
      · exact Or.inl (by omega)

theorem foldMinus_right (ha : Exact lv a) (hb : Exact rv b) (ta : tipe.Holds a)
    (tb : tipe.Holds b) : (foldMinus tipe lv rv).Right tipe (a - b) := by
  have na := natAbs_holds ta
  have nb := natAbs_holds tb
  have h1 := holds_big ta
  have h2 := holds_big tb
  have hdiff : Exact (cfSub lv rv) (a - b) := exact_sub ha hb (small_prec (by omega) (by omega))
  rw [foldMinus, foldNumbers_right (z := a - b) ha hb ta tb
    (by rw [sub_eq_add_neg a b, BitVec.ofInt_add, BitVec.ofInt_neg, ← BitVec.sub_eq_add_neg])
    (cfGetInteger64Value_exact hdiff)]
  intro _
  cases hs : tipe.signed with
  | true =>
    have := h1.2.2.1 hs
    have := h2.2.2.1 hs
    exact Or.inl (by omega)
  | false =>
    have := h1.2.2.2 hs
    have := h2.2.2.2 hs
    exact Or.inl (by omega)

/-- a number with an exponent above 20 is no integer of 64 bits -/
theorem cfGetInteger64Value_large {f : CFloat} (hexp : 20 < f.exp) (hlen : f.len ≤ f.exp) :
    cfGetInteger64Value f = 0 := by
  have ht : cfTrunc f = f := by
    rw [cfTrunc, if_neg (by omega), if_pos hlen]
    rfl
  have hc : ∀ g : CFloat, g.exp = f.exp → cfCnvF64 g = 0 := by
    intro g hg
    have h1 : cfIsI64 g = false := if_pos (Or.inr (by rw [hg]; exact lt_trans (by decide) hexp))
    have h2 : cfIsU64 g = false := if_pos (Or.inr (by rw [hg]; exact hexp))
    rw [cfCnvF64, h1, h2]
    rfl
  rw [cfGetInteger64Value, ht]
  by_cases hneg : cfTest f < 0
  · rw [if_pos hneg, if_pos hneg, hc (cfNegate f) rfl]
    rfl
  · rw [if_neg hneg, if_neg hneg, hc _ rfl]

theorem cfMul_value (ha : Exact lv a) (hb : Exact rv b) (na : a.natAbs < 2 ^ 64)
    (nb : b.natAbs < 2 ^ 64) : cfGetInteger64Value (cfMul lv rv)
      = if (a * b).natAbs < 2 ^ 64 then BitVec.ofInt 64 (a * b) else 0 := by
  by_cases hsmall : a.natAbs * b.natAbs < 10 ^ maxPrec
  · exact cfGetInteger64Value_exact (exact_mul ha hb hsmall)
  · have hp : 2 ^ 64 < 10 ^ 20 := by norm_num
    have hp2 : 2 ^ 64 < 10 ^ maxPrec := by norm_num [maxPrec]
    have ha0 : a ≠ 0 := by
      rintro rfl
      simp [maxPrec] at hsmall
    have hb0 : b ≠ 0 := by
      rintro rfl
      simp [maxPrec] at hsmall
    obtain ⟨-, z1, m1, n1⟩ := ha.parts ha0
    obtain ⟨-, z2, m2, n2⟩ := hb.parts hb0
    have hexp1 : lv.exp ≤ 20 := by
      have h1 := (size_range m1).1
      rw [z1] at h1
      have h2 : ((a.natAbs : Int) : ℚ) < 10 ^ (20 : Int) := by
        have h3 : ((a.natAbs : Int) : ℚ) < ((10 ^ 20 : Int) : ℚ) := by
          have h4 : (a.natAbs : Int) < 10 ^ 20 := by exact_mod_cast lt_trans na hp
          exact_mod_cast h4
        refine lt_of_lt_of_eq h3 ?_
        norm_num
      have h5 := (zpow_lt_zpow_iff_right₀ (by norm_num : (1 : ℚ) < 10)).mp (lt_of_le_of_lt h1 h2)
      omega
    have hlen1 := ha.exp_pos.2
    have hprod : (10 : ℚ) ^ maxPrec ≤ lv.size * rv.size := by
      rw [z1, z2, ← Int.cast_mul]
      have h1 : (10 : Int) ^ maxPrec ≤ (a.natAbs : Int) * b.natAbs := by
        exact_mod_cast not_lt.mp hsmall
      exact_mod_cast h1
    have hexp := cfMul_exp m1.leading m2.leading n1 n2 (by
      have h1 : lv.len = lv.mant.length := rfl
      have h2 : maxPrec = 32 := rfl
      omega) hprod
    have hm32 : maxPrec = 32 := rfl
    have hlen : (cfMul lv rv).len ≤ 32 := by
      obtain ⟨hmul, hrd, -, hpos⟩ := mulRounds_spec m1.leading m2.leading n1 n2
      have e : (cfMul lv rv).mant = (strip (mulLast lv rv).mant).take maxPrec := by
        rw [hmul, cfClean_eq (strip_ne_nil hpos)]
      rw [len, e, List.length_take]
      omega
    have hnot : ¬ (a * b).natAbs < 2 ^ 64 := by
      rw [Int.natAbs_mul]
      omega
    rw [if_neg hnot]
    exact cfGetInteger64Value_large (by omega) (by omega)

theorem foldTimes_right (ha : Exact lv a) (hb : Exact rv b) (ta : tipe.Holds a)
    (tb : tipe.Holds b) : (foldTimes tipe lv rv).Right tipe (a * b)
      ↔ (tipe.length = .b8 → (a * b).natAbs < 2 ^ 64 ∨ (2 ^ 64 : Int) ∣ a * b) := by
  refine foldNumbers_right hb ha tb ta (by rw [BitVec.ofInt_mul, BitVec.mul_comm]) ?_
  rw [cfMul_value hb ha (natAbs_holds tb) (natAbs_holds ta), mul_comm b a]

/-! ## bits -/

theorem foldBits_right (op32 : BitVec 32 → BitVec 32 → BitVec 32) (op64 : U64 → U64 → U64)
    (hop : ∀ x y : U64, op32 (x.setWidth 32) (y.setWidth 32) = (op64 x y).setWidth 32)
    (ha : Exact lv a) (hb : Exact rv b) (ta : tipe.Holds a) (tb : tipe.Holds b) :
    (foldBits tipe op32 op64 lv rv).Right tipe (op64 (BitVec.ofInt 64 a) (BitVec.ofInt 64 b)).toInt
      ↔ (tipe.length = .b8 → (-2 ^ 31 ≤ a ∧ a < 2 ^ 32) → (-2 ^ 31 ≤ b ∧ b < 2 ^ 32) →
        -2 ^ 31 ≤ (op64 (BitVec.ofInt 64 a) (BitVec.ofInt 64 b)).toInt ∧
          (op64 (BitVec.ofInt 64 a) (BitVec.ofInt 64 b)).toInt < 2 ^ 31) := by
  rw [foldBits]
  by_cases h32 : (-2 ^ 31 ≤ a ∧ a < 2 ^ 32) ∧ (-2 ^ 31 ≤ b ∧ b < 2 ^ 32)
  · have hw := hop (BitVec.ofInt 64 a) (BitVec.ofInt 64 b)
    rw [Narrowing.narrow_ofInt (by decide), Narrowing.narrow_ofInt (by decide)] at hw
    rw [if_pos ⟨(cfIs32_iff ha).mpr h32.1, (cfIs32_iff hb).mpr h32.2⟩, intToType_right,
      cfConvertByType_exact ha ta h32.1, cfConvertByType_exact hb tb h32.2, hw]
    generalize op64 (BitVec.ofInt 64 a) (BitVec.ofInt 64 b) = x
    have hlow : (x.setWidth 32).toInt ≡ x.toInt [ZMOD 2 ^ 32] :=
      (toInt_toNat_modEq _).trans ((setWidth_modEq 32 x).trans
        (modEq_le (toInt_toNat_modEq x).symm (by decide)))
    by_cases hbig : hasBigConst tipe = true
    · obtain ⟨hl, hbits⟩ := bits_big tipe hbig
      rw [hbits]
      -- the upper half is that of the sign of the lower one
      have hr := BitVec.toInt_lt (x := x.setWidth 32)
      have hr2 := BitVec.le_toInt (x := x.setWidth 32)
      have hx := BitVec.toInt_lt (x := x)
      have hx2 := BitVec.le_toInt (x := x)
      rw [Int.ModEq] at hlow ⊢
      constructor
      · intro h _ _ _
        omega
      · intro h
        have := h hl h32.1 h32.2
        omega
    · have hn : hasBigConst tipe = false := by simpa using hbig
      refine iff_of_true (modEq_le hlow (bits_narrow tipe hn)) fun hl => ?_
      rw [hasBigConst, hl] at hn
      exact absurd hn (by decide)
  · rw [if_neg fun h => h32 ⟨(cfIs32_iff ha).mp h.1, (cfIs32_iff hb).mp h.2⟩]
    refine iff_of_true ?_ fun _ h1 h2 => absurd ⟨h1, h2⟩ h32
    rw [if_pos ⟨cfIs64_holds ha ta, cfIs64_holds hb tb⟩, int64ToType_right,
      cfGetInteger64Value_holds ha ta, cfGetInteger64Value_holds hb tb]

/-! ## shifts -/

/-- a shift count below the length -/
theorem shift_count (hb : Exact rv b) (tb : tipe.Holds b) (h0 : 0 ≤ b) (hlt : b < tipe.bits) :
    cfConvertByType tipe rv = BitVec.ofInt 32 b ∧ (BitVec.ofInt 32 b).toInt = b ∧
      (BitVec.ofInt 32 b).toNat = b.toNat ∧ b.toNat < tipe.bits := by
  have hbits := bits_le tipe
  refine ⟨cfConvertByType_exact hb tb ⟨by omega, by omega⟩, ?_, ?_, by omega⟩
  · rw [BitVec.toInt_ofInt, Int.bmod_eq_of_le_mul_two (by push_cast; omega) (by push_cast; omega)]
  · rw [BitVec.toNat_ofInt]
    norm_num
    omega

theorem toInt_ofInt_small {w : Nat} {z : Int} (h1 : -2 ^ w ≤ 2 * z) (h2 : 2 * z < 2 ^ w) :
    (BitVec.ofInt w z).toInt = z := by
  rw [BitVec.toInt_ofInt, Int.bmod_eq_of_le_mul_two (by push_cast; omega) (by push_cast; omega)]

theorem toNat_ofInt_small {w : Nat} {z : Int} (h1 : 0 ≤ z) (h2 : z < 2 ^ w) :
    ((BitVec.ofInt w z).toNat : Int) = z := by
  rw [BitVec.toNat_ofInt]
  push_cast
  rw [Int.emod_eq_of_lt h1 h2, Int.toNat_of_nonneg h1]

/-- a shift to the right of a number as a signed word -/
theorem sshiftRight_small {w : Nat} {z : Int} (h1 : -2 ^ w ≤ 2 * z) (h2 : 2 * z < 2 ^ w) (k : Nat) :
    ((BitVec.ofInt w z).sshiftRight k).toInt = z / 2 ^ k := by
  rw [BitVec.toInt_sshiftRight, Int.shiftRight_eq_div_pow, toInt_ofInt_small h1 h2]
  push_cast
  rfl

/-- and of a number that is not negative as an unsigned one -/
theorem ushiftRight_small {w : Nat} {z : Int} (h1 : 0 ≤ z) (h2 : z < 2 ^ w) (k : Nat) :
    (((BitVec.ofInt w z) >>> k).toNat : Int) = z / 2 ^ k := by
  rw [BitVec.toNat_ushiftRight, Nat.shiftRight_eq_div_pow]
  push_cast
  rw [toNat_ofInt_small h1 h2]

theorem foldRShift_right (ha : Exact lv a) (hb : Exact rv b) (ta : tipe.Holds a) (tb : tipe.Holds b)
    (h0 : 0 ≤ b) (hlt : b < tipe.bits) : (foldRShift tipe lv rv).Right tipe (a / 2 ^ b.toNat) := by
  have hbits := bits_le tipe
  obtain ⟨hri, hint, hnat, hk⟩ := shift_count hb tb h0 hlt
  rw [foldRShift, hri, hint]
  dsimp only
  have hbig : ¬ b ≥ tipe.bits := by omega
  rw [if_neg (fun h => hbig h.1), if_neg hbig, hnat]
  by_cases hn : hasBigConst tipe = false
  · have h1 := holds_narrow ta hn
    have h32b : -2 ^ 31 ≤ b ∧ b < 2 ^ 32 := ⟨by omega, by omega⟩
    have h32a : -2 ^ 31 ≤ a ∧ a < 2 ^ 32 := ⟨h1.1, h1.2.1⟩
    rw [if_pos ⟨hn, (cfIs32_iff ha).mpr h32a, (cfIs32_iff hb).mpr h32b⟩, intToType_right,
      cfConvertByType_exact ha ta h32a]
    refine modEq_le (n := 32) ?_ (bits_narrow tipe hn)
    cases hs : tipe.signed with
    | true =>
      have := h1.2.2.1 hs
      rw [if_pos rfl, sshiftRight_small (by norm_num; omega) (by norm_num; omega)]
    | false =>
      rw [if_neg (by decide)]
      refine (toInt_toNat_modEq _).trans ?_
      rw [ushiftRight_small (h1.2.2.2 hs) h32a.2]
  · rw [if_neg fun h => hn h.1]
    have h1 := holds_big ta
    rw [if_pos ⟨cfIs64_holds ha ta, cfIs64_holds hb tb⟩, int64ToType_right,
      cfGetInteger64Value_holds ha ta]
    refine modEq_le (n := 64) ?_ hbits
    cases hs : tipe.signed with
    | true =>
      have := h1.2.2.1 hs
      rw [if_pos rfl, i64ShiftR_eq _ (by omega),
        sshiftRight_small (by norm_num; omega) (by norm_num; omega)]
    | false =>
      rw [if_neg (by decide), u64ShiftR_eq _ (by omega)]
      refine (toInt_toNat_modEq _).trans ?_
      rw [ushiftRight_small (h1.2.2.2 hs) h1.2.1]

theorem shiftLeft_ofInt (w : Nat) (z : Int) (k : Nat) :
    (BitVec.ofInt w z) <<< k = BitVec.ofInt w (z * 2 ^ k) := by
  have e : BitVec.ofInt w (2 ^ k) = BitVec.twoPow w k := by
    apply BitVec.eq_of_toNat_eq
    have h2 : ((2 : Int) ^ k) = ((2 ^ k : Nat) : Int) := by norm_num
    rw [h2, BitVec.ofInt_natCast, BitVec.toNat_twoPow, BitVec.toNat_ofNat]
  rw [BitVec.ofInt_mul, e, BitVec.shiftLeft_eq_mul_twoPow]

theorem foldLShift_right (ha : Exact lv a) (hb : Exact rv b) (ta : tipe.Holds a) (tb : tipe.Holds b)
    (h0 : 0 ≤ b) (hlt : b < tipe.bits) : (foldLShift tipe lv rv).Right tipe (a * 2 ^ b.toNat) := by
  have hbits := bits_le tipe
  obtain ⟨hri, hint, hnat, hk⟩ := shift_count hb tb h0 hlt
  have h32b : cfIs32 rv = true := (cfIs32_iff hb).mpr ⟨by omega, by omega⟩
  rw [foldLShift, if_pos h32b, hri, hint, if_neg (by omega), hnat]
  by_cases hn : hasBigConst tipe = false
  · have h1 := holds_narrow ta hn
    have h32a : -2 ^ 31 ≤ a ∧ a < 2 ^ 32 := ⟨h1.1, h1.2.1⟩
    rw [if_pos ⟨hn, (cfIs32_iff ha).mpr h32a, h32b⟩, intToType_right,
      cfConvertByType_exact ha ta h32a, shiftLeft_ofInt]
    exact modEq_le (toInt_ofInt_modEq 32 _) (bits_narrow tipe hn)
  · rw [if_neg fun h => hn h.1]
    rw [if_pos ⟨cfIs64_holds ha ta, cfIs64_holds hb tb⟩, int64ToType_right,
      cfGetInteger64Value_holds ha ta, u64ShiftL_eq _ (by omega), shiftLeft_ofInt]
    exact modEq_le (toInt_ofInt_modEq 64 _) hbits

/-! ## quotients -/

theorem ofInt_ne_zero {w : Nat} {z : Int} (h0 : z ≠ 0) (h1 : -2 ^ w < z) (h2 : z < 2 ^ w) :
    BitVec.ofInt w z ≠ 0 := by
  intro e
  have h := congrArg BitVec.toNat e
  rw [BitVec.toNat_ofInt] at h
  push_cast at h
  have h3 : z % 2 ^ w = 0 := by
    have := Int.emod_nonneg z (show (2 : Int) ^ w ≠ 0 by positivity)
    have h4 : (z % 2 ^ w).toNat = 0 := by
      rw [h]
      rfl
    omega
  obtain ⟨k, hk⟩ := Int.dvd_of_emod_eq_zero h3
  have hp : (0 : Int) < 2 ^ w := by positivity
  rcases lt_trichotomy k 0 with hk0 | hk0 | hk0
  · have := mul_le_mul_of_nonneg_left (show k ≤ -1 by omega) hp.le
    omega
  · rw [hk0, mul_zero] at hk
    exact h0 hk
  · have := mul_le_mul_of_nonneg_left (show 1 ≤ k by omega) hp.le
    omega

/-- a quotient and a remainder of unsigned words -/
theorem udiv_small {w : Nat} {x y : Int} (hx : 0 ≤ x) (hx2 : x < 2 ^ w) (hy : 0 ≤ y)
    (hy2 : y < 2 ^ w) : ((BitVec.ofInt w x / BitVec.ofInt w y).toNat : Int) = x.tdiv y ∧
      ((BitVec.ofInt w x % BitVec.ofInt w y).toNat : Int) = x.tmod y := by
  have e1 := toNat_ofInt_small hx hx2
  have e2 := toNat_ofInt_small hy hy2
  rw [BitVec.toNat_udiv, BitVec.toNat_umod]
  push_cast
  rw [e1, e2, Int.tdiv_eq_ediv_of_nonneg hx, Int.tmod_eq_emod_of_nonneg hx]
  exact ⟨rfl, rfl⟩

theorem sdiv_modEq {w : Nat} {x y : Int} (hx : -2 ^ w ≤ 2 * x) (hx2 : 2 * x < 2 ^ w)
    (hy : -2 ^ w ≤ 2 * y) (hy2 : 2 * y < 2 ^ w) :
    ((BitVec.ofInt w x).sdiv (BitVec.ofInt w y)).toInt ≡ x.tdiv y [ZMOD 2 ^ w] := by
  rw [BitVec.toInt_sdiv, toInt_ofInt_small hx hx2, toInt_ofInt_small hy hy2, ← BitVec.toInt_ofInt]
  exact toInt_ofInt_modEq w _

theorem srem_small {w : Nat} {x y : Int} (hx : -2 ^ w ≤ 2 * x) (hx2 : 2 * x < 2 ^ w)
    (hy : -2 ^ w ≤ 2 * y) (hy2 : 2 * y < 2 ^ w) :
    ((BitVec.ofInt w x).srem (BitVec.ofInt w y)).toInt = x.tmod y := by
  rw [BitVec.toInt_srem, toInt_ofInt_small hx hx2, toInt_ofInt_small hy hy2]

theorem cfTest_ne (hb : Exact rv b) (h0 : b ≠ 0) : cfTest rv ≠ 0 := by
  rw [cfTest_exact hb]
  exact fun e => h0 (Int.sign_eq_zero_iff_zero.mp e)

/-- 64 bits of a signed type hold the constant as a signed word -/
theorem holds_signed (ta : tipe.Holds a) (hs : tipe.signed = true) :
    -2 ^ 64 ≤ 2 * a ∧ 2 * a < 2 ^ 64 := by
  have h := holds_big ta
  have := h.2.2.1 hs
  omega

/-- when the host divides the most negative number by -1 -/
def Traps (tipe : IntType) (a b : Int) : Prop :=
  tipe = ⟨.b4, true⟩ ∧ a = -2 ^ 31 ∧ b = -1

theorem foldDiv_right (ha : Exact lv a) (hb : Exact rv b) (ta : tipe.Holds a) (tb : tipe.Holds b)
    (h0 : b ≠ 0) : (foldDiv tipe lv rv).Right tipe (a.tdiv b) ↔ ¬ Traps tipe a b := by
  have hbits := bits_le tipe
  have h1 := holds_big ta
  have h2 := holds_big tb
  rw [foldDiv, if_pos (cfTest_ne hb h0)]
  by_cases hbig : hasBigConst tipe = true
  · obtain ⟨hl, -⟩ := bits_big tipe hbig
    have hnt : ¬ Traps tipe a b := by
      intro h
      rw [h.1] at hl
      cases hl
    rw [if_pos hbig]
    dsimp only
    rw [int64ToType_right, cfGetInteger64Value_holds ha ta, cfGetInteger64Value_holds hb tb]
    have hne : BitVec.ofInt 64 b ≠ 0 := ofInt_ne_zero h0 (by omega) (by omega)
    refine iff_of_true (modEq_le (n := 64) ?_ hbits) hnt
    cases hs : tipe.signed with
    | true =>
      obtain ⟨a1, a2⟩ := holds_signed ta hs
      obtain ⟨b1, b2⟩ := holds_signed tb hs
      rw [if_pos rfl, i64Div_eq _ _ hne]
      exact sdiv_modEq a1 a2 b1 b2
    | false =>
      rw [if_neg (by decide), u64Div_eq _ _ hne]
      refine (toInt_toNat_modEq _).trans ?_
      rw [(udiv_small (h1.2.2.2 hs) h1.2.1 (h2.2.2.2 hs) h2.2.1).1]
  · have hn : hasBigConst tipe = false := by simpa using hbig
    have n1 := holds_narrow ta hn
    have n2 := holds_narrow tb hn
    have hnb := bits_narrow tipe hn
    rw [if_neg hbig]
    cases hs : tipe.signed with
    | true =>
      have := n1.2.2.1 hs
      have := n2.2.2.1 hs
      rw [if_pos rfl, if_pos ⟨(cfIsI32_iff ha).mpr ⟨n1.1, by omega⟩, (cfIsI32_iff hb).mpr ⟨n2.1, by omega⟩⟩,
        cfConvertByType_exact ha ta ⟨n1.1, n1.2.1⟩, cfConvertByType_exact hb tb ⟨n2.1, n2.2.1⟩]
      have ea : (BitVec.ofInt 32 a).toInt = a := toInt_ofInt_small (by norm_num; omega) (by norm_num; omega)
      have eb : (BitVec.ofInt 32 b).toInt = b := toInt_ofInt_small (by norm_num; omega) (by norm_num; omega)
      have hne : BitVec.ofInt 32 b ≠ 0 := ofInt_ne_zero h0 (by omega) (by omega)
      have hmin : BitVec.ofInt 32 a = BitVec.intMin 32 ↔ a = -2 ^ 31 := by
        rw [← BitVec.toInt_inj, ea]
        exact Iff.rfl
      have hone : BitVec.ofInt 32 b = -1 ↔ b = -1 := by
        rw [← BitVec.toInt_inj, eb]
        exact Iff.rfl
      have htrap : Traps tipe a b ↔ a = -2 ^ 31 ∧ b = -1 := by
        refine ⟨And.right, fun h => ⟨?_, h⟩⟩
        -- only four bytes hold the number
        obtain ⟨length, signed⟩ := tipe
        obtain rfl : signed = true := hs
        rw [IntType.Holds, if_pos rfl, h.1] at ta
        cases length with
        | b4 => rfl
        | b1 => exact absurd ta.1 (by decide)
        | b2 => exact absurd ta.1 (by decide)
        | b8 => exact absurd hn (by decide)
      have hcond : (BitVec.ofInt 32 b = 0 ∨
          (BitVec.ofInt 32 a = BitVec.intMin 32 ∧ BitVec.ofInt 32 b = -1)) ↔
          (a = -2 ^ 31 ∧ b = -1) := by
        rw [hmin, hone]
        exact or_iff_right hne
      rw [htrap, hostDiv]
      by_cases ht : a = -2 ^ 31 ∧ b = -1
      · rw [if_pos (hcond.mpr ht)]
        exact iff_of_false (fun h => h) (not_not_intro ht)
      · rw [if_neg (fun h => ht (hcond.mp h))]
        dsimp only
        rw [intToType_right]
        refine iff_of_true (modEq_le (n := 32) ?_ hnb) ht
        exact sdiv_modEq (by norm_num; omega) (by norm_num; omega) (by norm_num; omega)
          (by norm_num; omega)
    | false =>
      have p1 := n1.2.2.2 hs
      have p2 := n2.2.2.2 hs
      have hnt : ¬ Traps tipe a b := fun h => by
        rw [h.1] at hs
        cases hs
      rw [if_neg (by decide), if_pos ⟨(cfIsU32_iff ha).mpr ⟨p1, n1.2.1⟩, (cfIsU32_iff hb).mpr ⟨p2, n2.2.1⟩⟩,
        intToType_right, cfCnvF32_exact ha, cfCnvF32_exact hb, if_pos ⟨n1.1, n1.2.1⟩,
        if_pos ⟨n2.1, n2.2.1⟩]
      refine iff_of_true (modEq_le (n := 32) ?_ hnb) hnt
      refine (toInt_toNat_modEq _).trans ?_
      rw [(udiv_small p1 n1.2.1 p2 n2.2.1).1]

theorem foldMod_right (ha : Exact lv a) (hb : Exact rv b) (ta : tipe.Holds a) (tb : tipe.Holds b)
    (h0 : b ≠ 0) : (foldMod tipe lv rv).Right tipe (a.tmod b) := by
  have hbits := bits_le tipe
  have h1 := holds_big ta
  have h2 := holds_big tb
  rw [foldMod, if_pos (cfTest_ne hb h0)]
  rw [if_pos ⟨cfIs64_holds ha ta, cfIs64_holds hb tb⟩]
  dsimp only
  rw [int64ToType_right, cfGetInteger64Value_holds ha ta, cfGetInteger64Value_holds hb tb]
  have hne : BitVec.ofInt 64 b ≠ 0 := ofInt_ne_zero h0 (by omega) (by omega)
  refine modEq_le (n := 64) ?_ hbits
  cases hs : tipe.signed with
  | true =>
    obtain ⟨a1, a2⟩ := holds_signed ta hs
    obtain ⟨b1, b2⟩ := holds_signed tb hs
    rw [if_pos rfl, i64Div_eq _ _ hne]
    rw [srem_small a1 a2 b1 b2]
  | false =>
    rw [if_neg (by decide), u64Div_eq _ _ hne]
    refine (toInt_toNat_modEq _).trans ?_
    rw [(udiv_small (h1.2.2.2 hs) h1.2.1 (h2.2.2.2 hs) h2.2.1).2]

end

/-! ## the ten folds -/

inductive FoldOp where
  | plus
  | minus
  | times
  | div
  | mod
  | and
  | or
  | xor
  | lshift
  | rshift
deriving DecidableEq

/-- the fold of two constants -/
def FoldOp.fold (op : FoldOp) (tipe : IntType) : CFloat → CFloat → Fold :=
  match op with
  | .plus => foldPlus tipe
  | .minus => foldMinus tipe
  | .times => foldTimes tipe
  | .div => foldDiv tipe
  | .mod => foldMod tipe
  | .and => foldAnd tipe
  | .or => foldOr tipe
  | .xor => foldXor tipe
  | .lshift => foldLShift tipe
  | .rshift => foldRShift tipe

/-- the result of the target machine, before it is reduced to the length of the type -/
def FoldOp.target (op : FoldOp) (a b : Int) : Int :=
  match op with
  | .plus => a + b
  | .minus => a - b
  | .times => a * b
  | .div => a.tdiv b
  | .mod => a.tmod b
  | .and => (BitVec.ofInt 64 a &&& BitVec.ofInt 64 b).toInt
  | .or => (BitVec.ofInt 64 a ||| BitVec.ofInt 64 b).toInt
  | .xor => (BitVec.ofInt 64 a ^^^ BitVec.ofInt 64 b).toInt
  | .lshift => a * 2 ^ b.toNat
  | .rshift => a / 2 ^ b.toNat

/-- divisors are not 0 and shift counts below the width -/
def FoldOp.Proper (op : FoldOp) (tipe : IntType) (b : Int) : Prop :=
  match op with
  | .div => b ≠ 0
  | .mod => b ≠ 0
  | .lshift => 0 ≤ b ∧ b < tipe.bits
  | .rshift => 0 ≤ b ∧ b < tipe.bits
  | _ => True

/-- eight bytes whose operands fit in 32 bits: the result is one of 32 bits with a sign -/
def BitsGood (tipe : IntType) (a b r : Int) : Prop :=
  tipe.length = .b8 → (-2 ^ 31 ≤ a ∧ a < 2 ^ 32) → (-2 ^ 31 ≤ b ∧ b < 2 ^ 32) →
    -2 ^ 31 ≤ r ∧ r < 2 ^ 31

/-- when the fold is right -/
def FoldOp.Good (op : FoldOp) (tipe : IntType) (a b : Int) : Prop :=
  match op with
  | .plus => tipe.length = .b8 → a + b ≤ 2 ^ 64
  | .times => tipe.length = .b8 → (a * b).natAbs < 2 ^ 64 ∨ (2 ^ 64 : Int) ∣ a * b
  | .div => ¬ Traps tipe a b
  | .and => BitsGood tipe a b (BitVec.ofInt 64 a &&& BitVec.ofInt 64 b).toInt
  | .or => BitsGood tipe a b (BitVec.ofInt 64 a ||| BitVec.ofInt 64 b).toInt
  | .xor => BitsGood tipe a b (BitVec.ofInt 64 a ^^^ BitVec.ofInt 64 b).toInt
  | _ => True

theorem bitsGood_swap {tipe : IntType} {a b r : Int} : BitsGood tipe b a r ↔ BitsGood tipe a b r :=
  ⟨fun h hl h1 h2 => h hl h2 h1, fun h hl h1 h2 => h hl h2 h1⟩

/-- each fold of two constants of a type gives the result of the target machine modulo the length of
the type, without a trap on the host, exactly when `Good` holds -/
theorem fold_right_iff (op : FoldOp) (tipe : IntType) (lv rv : CFloat) (a b : Int)
    (ha : Exact lv a) (hb : Exact rv b) (ta : tipe.Holds a) (tb : tipe.Holds b)
    (hop : op.Proper tipe b) :
    (op.fold tipe lv rv).Right tipe (op.target a b) ↔ op.Good tipe a b := by
  cases op with
  | plus => exact foldPlus_right ha hb ta tb
  | minus => exact iff_of_true (foldMinus_right ha hb ta tb) trivial
  | times => exact foldTimes_right ha hb ta tb
  | div => exact foldDiv_right ha hb ta tb hop
  | mod => exact iff_of_true (foldMod_right ha hb ta tb hop) trivial
  | and =>
    have h := foldBits_right (· &&& ·) u64And
      (fun x y => by rw [u64And_eq]; exact BitVec.setWidth_and.symm) hb ha tb ta
    rw [u64And_eq, BitVec.and_comm] at h
    exact h.trans bitsGood_swap
  | or =>
    have h := foldBits_right (· ||| ·) u64Or
      (fun x y => by rw [u64Or_eq]; exact BitVec.setWidth_or.symm) hb ha tb ta
    rw [u64Or_eq, BitVec.or_comm] at h
    exact h.trans bitsGood_swap
  | xor =>
    have h := foldBits_right (· ^^^ ·) u64Xor
      (fun x y => by rw [u64Xor_eq]; exact BitVec.setWidth_xor.symm) hb ha tb ta
    rw [u64Xor_eq, BitVec.xor_comm] at h
    exact h.trans bitsGood_swap
  | lshift => exact iff_of_true (foldLShift_right ha hb ta tb hop.1 hop.2) trivial
  | rshift => exact iff_of_true (foldRShift_right ha hb ta tb hop.1 hop.2) trivial

/-- the most negative number of eight bytes divided by -1 -/
theorem fold_div_min :
    (foldDiv ⟨.b8, true⟩ (cfCnvI64F 0 0x80000000) (cfCnvI64F (-1) (-1))).Right ⟨.b8, true⟩ (2 ^ 63) := by
  have h1 : Exact (cfCnvI64F 0 0x80000000) (-2 ^ 63) := exact_cnvI64F 0 0x80000000
  have h2 : Exact (cfCnvI64F (-1) (-1)) (-1) := exact_cnvI64F (-1) (-1)
  refine (fold_right_iff .div ⟨.b8, true⟩ _ _ (-2 ^ 63) (-1) h1 h2 (by decide) (by decide)
    (by show (-1 : Int) ≠ 0; decide)).mpr ?_
  rintro ⟨h, -⟩
  cases h

/-- `0x80000000` and itself in eight unsigned bytes: the fold gives `0xFFFFFFFF80000000` -/
theorem fold_and_extends_sign :
    foldAnd ⟨.b8, false⟩ (cfCnvU32F 0x80000000) (cfCnvU32F 0x80000000)
        = .const (cfCnvU64F 0x80000000 0xFFFFFFFF) ∧
      ¬ (foldAnd ⟨.b8, false⟩ (cfCnvU32F 0x80000000) (cfCnvU32F 0x80000000)).Right ⟨.b8, false⟩
        (2 ^ 31) := by
  have h : foldAnd ⟨.b8, false⟩ (cfCnvU32F 0x80000000) (cfCnvU32F 0x80000000)
      = .const (cfCnvU64F 0x80000000 0xFFFFFFFF) := by decide +kernel
  refine ⟨h, ?_⟩
  rw [h]
  rintro ⟨r, hr, hm⟩
  have e := Exact.unique hr (exact_cnvU64F 0x80000000 0xFFFFFFFF)
  rw [e] at hm
  exact absurd hm (by decide)

end Cg
