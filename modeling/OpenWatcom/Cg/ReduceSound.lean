import OpenWatcom.Cg.FoldReduce

/-!
# The reductions keep the number of the tree

* `getLog2_eq_some_iff`     `GetLog2` finds the powers of two but 1
* `tgLShift_eval`, `tgRShift_eval`, `tgAnd_eval`, `tgUMinus_eval`     the nodes that replace an
  operation
* `signedMod_eval`     the remainder of a signed number from its sign and its low bits
* `reduce_eval`     the three folds
-/

namespace Cg
open CFloat I64

/-! ## Numbers of a type -/

section
variable {tipe : IntType} {a b v : ℤ}

theorem convert_congr (h : a ≡ b [ZMOD 2 ^ tipe.bits]) : tipe.convert a = tipe.convert b := by
  have e : BitVec.ofInt tipe.bits a = BitVec.ofInt tipe.bits b := by
    apply BitVec.eq_of_toNat_eq
    rw [BitVec.toNat_ofInt, BitVec.toNat_ofInt]
    push_cast
    rw [h]
  rw [IntType.convert, IntType.convert, e]

theorem convert_modEq (tipe : IntType) (v : ℤ) : tipe.convert v ≡ v [ZMOD 2 ^ tipe.bits] := by
  have h := toInt_ofInt_modEq tipe.bits v
  rw [IntType.convert]
  by_cases hs : tipe.signed = true
  · rw [if_pos hs]
    exact h
  · rw [if_neg hs]
    exact (toInt_toNat_modEq _).symm.trans h

theorem holds_convert (tipe : IntType) (v : ℤ) : tipe.Holds (tipe.convert v) :=
  Narrowing.fits_read tipe.signed (BitVec.ofInt tipe.bits v)

/-- two numbers of a type that agree modulo its length are one -/
theorem holds_unique (ha : tipe.Holds a) (hb : tipe.Holds b) (h : a ≡ b [ZMOD 2 ^ tipe.bits]) :
    a = b := by
  rw [← convert_holds ha, convert_congr h, convert_holds hb]

theorem convert_mul_left (tipe : IntType) (a b : ℤ) :
    tipe.convert (tipe.convert a * b) = tipe.convert (a * b) :=
  convert_congr ((convert_modEq tipe a).mul_right b)

theorem convert_mul_right (tipe : IntType) (a b : ℤ) :
    tipe.convert (a * tipe.convert b) = tipe.convert (a * b) :=
  convert_congr ((convert_modEq tipe b).mul_left a)

theorem convert_neg (tipe : IntType) (a : ℤ) :
    tipe.convert (-tipe.convert a) = tipe.convert (-a) :=
  convert_congr (convert_modEq tipe a).neg

theorem convert_zero (tipe : IntType) : tipe.convert 0 = 0 := by
  apply convert_holds
  rw [IntType.Holds]
  by_cases hs : tipe.signed = true
  · rw [if_pos hs]
    exact ⟨neg_nonpos.mpr (pow_nonneg (by decide) _), pow_pos (by decide) _⟩
  · rw [if_neg hs]
    exact ⟨le_refl 0, pow_pos (by decide) _⟩

/-- a small number that is not negative is one of every type -/
theorem holds_small (h0 : 0 ≤ v) (h : v < 128) : tipe.Holds v := by
  have h1 : (2 : ℤ) ^ 7 ≤ 2 ^ (tipe.bits - 1) :=
    pow_le_pow_right₀ (by decide) (by have := bits_pos tipe; omega)
  have h2 : (2 : ℤ) ^ 8 ≤ 2 ^ tipe.bits := pow_le_pow_right₀ (by decide) (bits_pos tipe)
  rw [IntType.Holds]
  by_cases hs : tipe.signed = true
  · rw [if_pos hs]
    omega
  · rw [if_neg hs]
    omega

theorem holds_ediv (h : tipe.Holds v) (k : ℕ) : tipe.Holds (v / 2 ^ k) := by
  have pos : (0 : ℤ) < 2 ^ k := pow_pos (by decide) k
  have one : (1 : ℤ) ≤ 2 ^ k := pos
  rw [IntType.Holds] at h ⊢
  by_cases hs : tipe.signed = true
  · rw [if_pos hs] at h ⊢
    have hb : (0 : ℤ) < 2 ^ (tipe.bits - 1) := pow_pos (by decide) _
    refine ⟨(Int.le_ediv_iff_mul_le pos).mpr ?_, (Int.ediv_lt_iff_lt_mul pos).mpr ?_⟩
    · nlinarith
    · nlinarith
  · rw [if_neg hs] at h ⊢
    refine ⟨Int.ediv_nonneg h.1 pos.le, (Int.ediv_lt_iff_lt_mul pos).mpr ?_⟩
    nlinarith

end

/-! ## Constants -/

section
variable {tipe : IntType} {cf : CFloat} {v : ℤ}

/-- `IntToCF` makes the number of the word in the type -/
theorem intToCF_convert (tipe : IntType) (value : U64) :
    Exact (intToCF tipe value) (tipe.convert value.toInt) := by
  obtain ⟨r, hr, hm⟩ := intToCF_exact tipe value
  suffices h : tipe.Holds r by
    rw [← holds_unique h (holds_convert tipe _) (hm.trans (convert_modEq tipe _).symm)]
    exact hr
  obtain ⟨length, signed⟩ := tipe
  have narrow (w : ℕ) (x : BitVec w) (hw : w ≤ 32) :
      (x.signExtend 32).toInt = x.toInt ∧ ((x.setWidth 32).toNat : ℤ) = x.toNat :=
    ⟨BitVec.toInt_signExtend_of_le hw, by
      rw [BitVec.toNat_setWidth,
        Nat.mod_eq_of_lt (lt_of_lt_of_le x.isLt (Nat.pow_le_pow_right (by decide) hw))]⟩
  have fits := @Narrowing.fits_read
  cases signed with
  | true =>
    cases length with
    | b1 =>
      rw [Exact.unique hr (exact_cnvI32F _), (narrow 8 _ (by decide)).1]
      exact fits true _
    | b2 =>
      rw [Exact.unique hr (exact_cnvI32F _), (narrow 16 _ (by decide)).1]
      exact fits true _
    | b4 =>
      rw [Exact.unique hr (exact_cnvI32F _)]
      exact fits true _
    | b8 =>
      rw [Exact.unique hr (exact_cnvI64F _ _), halves_toInt]
      exact fits true _
  | false =>
    cases length with
    | b1 =>
      rw [Exact.unique hr (exact_cnvU32F _), (narrow 8 _ (by decide)).2]
      exact fits false _
    | b2 =>
      rw [Exact.unique hr (exact_cnvU32F _), (narrow 16 _ (by decide)).2]
      exact fits false _
    | b4 =>
      rw [Exact.unique hr (exact_cnvU32F _)]
      exact fits false _
    | b8 =>
      have e : ((hi value).toNat : ℤ) * 2 ^ 32 + (lo value).toNat = value.toNat := by
        rw [halves value]
        push_cast
        ring
      rw [Exact.unique hr (exact_cnvU64F _ _), e]
      exact fits false _

theorem toInt_holds (h : tipe.Holds v) :
    tipe.convert (BitVec.ofInt 64 v).toInt = v := by
  rw [convert_congr (modEq_le (toInt_ofInt_modEq 64 v) (bits_le tipe)), convert_holds h]

/-- a constant taken from its type to another one that holds its number -/
theorem intToCF_holds {wide : IntType} (h : Exact cf v) (hw : wide.Holds v) (hv : tipe.Holds v) :
    Exact (intToCF tipe (cfGetInteger64Value cf)) v := by
  have e := intToCF_convert tipe (cfGetInteger64Value cf)
  rw [cfGetInteger64Value_holds h hw, toInt_holds hv] at e
  rw [cfGetInteger64Value_holds h hw]
  exact e

theorem intConst_exact (value : BitVec 32) (tipe : IntDef) :
    Exact (intConst value tipe) (tipe.convert value.toInt) := by
  have h := intToCF_convert tipe.toIntType (mk (if value.toInt < 0 then -1 else 0) value)
  rw [signed_halves] at h
  exact h

end

/-! ## Trees -/

section
variable (env : ℕ → ℤ)

theorem eval_holds (tree : Tn) : tree.tipe.Holds (tree.eval env) := by
  induction tree with
  | comma left rite _ ih => exact ih
  | _ => exact holds_convert _ _

theorem eval_convert (tree : Tn) : tree.tipe.convert (tree.eval env) = tree.eval env :=
  convert_holds (eval_holds env tree)

theorem eval_cons {cf : CFloat} {v : ℤ} {tipe : IntDef} (h : Exact cf v) (hv : tipe.Holds v) :
    (Tn.cons cf tipe).eval env = v := by
  show tipe.convert (cfGetInteger64Value cf).toInt = v
  rw [cfGetInteger64Value_holds h hv, toInt_holds hv]

theorem eval_intToCF (value : U64) (tipe : IntDef) :
    (Tn.cons (intToCF tipe.toIntType value) tipe).eval env = tipe.convert value.toInt :=
  eval_cons env (intToCF_convert tipe.toIntType value) (holds_convert _ _)

theorem eval_intNode (value : BitVec 32) (tipe : IntDef) :
    (intNode value tipe).eval env = tipe.convert value.toInt :=
  eval_cons env (intConst_exact value tipe) (holds_convert _ _)

theorem eval_intNode_zero (tipe : IntDef) : (intNode 0 tipe).eval env = 0 := by
  rw [eval_intNode]
  exact convert_zero _

theorem wellFormed_intNode (value : BitVec 32) (tipe : IntDef) : (intNode value tipe).WellFormed :=
  ⟨_, intConst_exact value tipe, holds_convert _ _⟩

theorem tgConvert_self {name : Tn} {tipe : IntDef} (h : name.tipe = tipe) :
    tgConvert name tipe = name := if_pos h.symm

/-- a shift count in the type of the counts -/
theorem count_cons {k : ℕ} (hk : k < 32) (s t : IntDef) :
    ∃ rv, tgConvert (intNode (BitVec.ofNat 32 k) s) t = .cons rv t ∧ Exact rv k := by
  have small (d : IntDef) : d.Holds (k : ℤ) := holds_small (by omega) (by omega)
  have e : (BitVec.ofNat 32 k).toInt = k := by
    rw [← BitVec.ofInt_natCast]
    exact toInt_ofInt_small (by omega) (by norm_num; omega)
  have hs : Exact (intConst (BitVec.ofNat 32 k) s) k := by
    have h := intConst_exact (BitVec.ofNat 32 k) s
    rw [e, convert_holds (small s)] at h
    exact h
  by_cases ht : t = s
  · subst ht
    exact ⟨_, tgConvert_self rfl, hs⟩
  · have h1 := @intToCF_holds s.toIntType _ _ _ hs (small s) (small s)
    have h2 : Exact (cfTrunc (intToCF s.toIntType
        (cfGetInteger64Value (intConst (BitVec.ofNat 32 k) s)))) k := by
      rw [cfTrunc_exact h1]
      exact h1
    exact ⟨_, if_neg ht, intToCF_holds h2 (small s) (small t)⟩

end

/-! ## `GetLog2` -/

theorem log2Loop_complete (value : BitVec 32) (found : ℕ) (hv : value.toNat = 2 ^ found) :
    ∀ (fuel : ℕ) (count : BitVec 32) (log : ℕ), found < log + fuel → log ≤ found →
    count.toNat = 2 ^ log → log2Loop value fuel count log = some found := by
  intro fuel
  induction fuel with
  | zero =>
    intro count log h1 h2
    omega
  | succ fuel ih =>
    intro count log h1 h2 hc
    rw [log2Loop]
    by_cases e : log = found
    · subst e
      rw [if_pos (BitVec.eq_of_toNat_eq (hc.trans hv.symm))]
    · have hne : count ≠ value := by
        intro h
        rw [h, hv] at hc
        exact e (Nat.pow_right_injective (le_refl 2) hc).symm
      have lt : 2 ^ (log + 1) < 2 ^ 32 := by
        have := value.isLt
        have : 2 ^ (log + 1) ≤ 2 ^ found := Nat.pow_le_pow_right (by decide) (by omega)
        omega
      rw [if_neg hne]
      refine ih _ (log + 1) (by omega) (by omega) ?_
      rw [BitVec.toNat_add, hc, ← two_mul, ← pow_succ', Nat.mod_eq_of_lt lt]

theorem and_not_eq_iff {w : ℕ} (x y : BitVec w) : x &&& ~~~y = x ↔ x &&& y = 0 := by
  constructor
  · intro h
    rw [← h, BitVec.and_assoc, BitVec.not_and_self]
    exact BitVec.and_zero
  · intro h
    have e : x &&& ~~~y ||| x &&& y = x := by
      rw [← BitVec.and_or_distrib_left, BitVec.not_or_self, BitVec.and_allOnes]
    rw [h] at e
    rw [← BitVec.or_zero (x := x &&& ~~~y)]
    exact e

theorem and_sub_two_iff {n : ℕ} (hn : 2 ≤ n) : n &&& (n - 2) = 0 ↔ ∃ k, 0 < k ∧ n = 2 ^ k := by
  have half : (n &&& (n - 2)) / 2 = n / 2 &&& (n / 2 - 1) := by
    rw [Nat.and_div_two]
    congr 1
    omega
  have odd := @Nat.and_mod_two_eq_one n (n - 2)
  have pow := Nat.and_sub_one_eq_zero_iff_isPowerOfTwo (show n / 2 ≠ 0 by omega)
  rw [← half] at pow
  constructor
  · intro h
    rw [h] at pow odd
    obtain ⟨k, hk⟩ := pow.mp rfl
    exact ⟨k + 1, Nat.succ_pos k, by rw [pow_succ]; omega⟩
  · rintro ⟨k, hk, e⟩
    obtain ⟨k, rfl⟩ : ∃ l, k = l + 1 := ⟨k - 1, by omega⟩
    rw [pow_succ] at e
    have := pow.mpr ⟨k, by omega⟩
    omega

/-- the test of `GetLog2` -/
theorem isPowerOfTwo_iff (value : BitVec 32) :
    (value &&& (1 - value) = value ∧ value ≠ 0) ↔ ∃ k, 0 < k ∧ value.toNat = 2 ^ k := by
  have e : 1 - value = ~~~(value - 2) := by
    rw [BitVec.not_eq_neg_add, neg_sub, sub_right_comm]
    rfl
  rw [e, and_not_eq_iff]
  by_cases h2 : 2 ≤ value.toNat
  · have hs : (value - 2).toNat = value.toNat - 2 := BitVec.toNat_sub_of_le h2
    have h0 : value ≠ 0 := by
      rintro rfl
      exact absurd h2 (by decide)
    rw [← and_sub_two_iff h2, ← hs, ← BitVec.toNat_and]
    exact ⟨fun h => by rw [h.1]; rfl, fun h => ⟨BitVec.eq_of_toNat_eq h, h0⟩⟩
  · have hv : value = 0 ∨ value = 1 := by
      rcases (by omega : value.toNat = 0 ∨ value.toNat = 1) with h | h
      · exact Or.inl (BitVec.eq_of_toNat_eq h)
      · exact Or.inr (BitVec.eq_of_toNat_eq h)
    refine iff_of_false ?_ ?_
    · rcases hv with rfl | rfl
      · exact fun h => h.2 rfl
      · exact fun h => absurd h.1 (by decide)
    · rintro ⟨k, hk, e⟩
      have := Nat.pow_le_pow_right (show 0 < 2 by decide) (show 1 ≤ k from hk)
      omega

theorem getLog2_eq_some_iff (value : BitVec 32) (log : ℕ) :
    getLog2 value = some log ↔ value.toNat = 2 ^ log ∧ 0 < log := by
  rw [getLog2]
  by_cases hp : value &&& (1 - value) = value ∧ value ≠ 0
  · obtain ⟨k, hk, e⟩ := (isPowerOfTwo_iff value).mp hp
    have lt : k < 32 := (Nat.pow_lt_pow_iff_right (by decide)).mp (e ▸ value.isLt)
    rw [if_pos hp, log2Loop_complete value k e 32 1 0 (by omega) (Nat.zero_le k) rfl, Option.some_inj]
    constructor
    · rintro rfl
      exact ⟨e, hk⟩
    · intro h
      exact Nat.pow_right_injective (le_refl 2) (e.symm.trans h.1)
  · rw [if_neg hp]
    refine iff_of_false (Option.some_ne_none _).symm fun h => ?_
    exact hp ((isPowerOfTwo_iff value).mpr ⟨log, h.2, h.1⟩)

/-! ## The nodes that replace an operation -/

section
variable (model : Model) (env : ℕ → ℤ) {left : Tn} {tipe : IntDef} {k : ℕ}

/-- the word of a shift count -/
theorem count_word (hk : k < 32) {rv : CFloat} (h : Exact rv k) (tipe : IntType) :
    cfConvertByType tipe rv = BitVec.ofNat 32 k ∧ (BitVec.ofNat 32 k).toInt = k ∧
      (BitVec.ofNat 32 k = 0 ↔ k = 0) := by
  refine ⟨?_, ?_, ?_⟩
  · rw [cfConvertByType_exact h (holds_small (by omega) (by omega)) ⟨by omega, by omega⟩,
      BitVec.ofInt_natCast]
  · rw [← BitVec.ofInt_natCast]
    exact toInt_ofInt_small (by omega) (by norm_num; omega)
  · constructor
    · intro h
      have e := congrArg BitVec.toNat h
      rw [BitVec.toNat_ofNat, Nat.mod_eq_of_lt (by omega)] at e
      exact e
    · rintro rfl
      rfl

theorem shift_out (x : ℤ) (h : tipe.bits ≤ k) : tipe.convert (x * 2 ^ k) = 0 := by
  have e : x * 2 ^ k ≡ 0 [ZMOD 2 ^ tipe.bits] :=
    Int.modEq_zero_iff_dvd.mpr (dvd_mul_of_dvd_right (pow_dvd_pow 2 h) x)
  rw [convert_congr e, convert_zero]

theorem tgLShift_eval (hk : k < 32) (hl : left.tipe = tipe) :
    (tgLShift model left (intNode (BitVec.ofNat 32 k) model.typeInteger) tipe).eval env =
      tipe.convert (left.eval env * 2 ^ k) := by
  obtain ⟨rv, e, hrv⟩ := count_cons hk model.typeInteger model.typeUnsigned
  obtain ⟨hw, hi, h0⟩ := count_word hk hrv tipe.toIntType
  have h32 : cfIs32 rv = true := (cfIs32_iff hrv).mpr ⟨by omega, by omega⟩
  rw [tgLShift, e, tgConvert_self hl]
  dsimp only
  rw [if_pos h32, hw, hi]
  by_cases hz : k = 0
  · rw [if_pos (h0.mpr hz), hz, pow_zero, mul_one, ← hl, eval_convert]
  · rw [if_neg (mt h0.mp hz)]
    by_cases hb : (k : ℤ) ≥ tipe.bits
    · rw [if_pos hb]
      show (intNode 0 tipe).eval env = _
      rw [eval_intNode_zero, shift_out _ (by omega)]
    · rw [if_neg hb]
      show tipe.convert (left.eval env * 2 ^ ((Tn.cons rv model.typeUnsigned).eval env).toNat) = _
      rw [eval_cons env hrv (holds_small (by omega) (by omega)), Int.toNat_natCast]

theorem tgLShift_wellFormed (hk : k < 32) (hl : left.tipe = tipe) (wl : left.WellFormed) :
    (tgLShift model left (intNode (BitVec.ofNat 32 k) model.typeInteger) tipe).WellFormed ∧
      (tgLShift model left (intNode (BitVec.ofNat 32 k) model.typeInteger) tipe).tipe = tipe := by
  obtain ⟨rv, e, hrv⟩ := count_cons hk model.typeInteger model.typeUnsigned
  obtain ⟨hw, hi, h0⟩ := count_word hk hrv tipe.toIntType
  have h32 : cfIs32 rv = true := (cfIs32_iff hrv).mpr ⟨by omega, by omega⟩
  rw [tgLShift, e, tgConvert_self hl]
  dsimp only
  rw [if_pos h32, hw, hi]
  by_cases hz : BitVec.ofNat 32 k = 0
  · rw [if_pos hz]
    exact ⟨wl, hl⟩
  · rw [if_neg hz]
    by_cases hb : (k : ℤ) ≥ tipe.bits
    · rw [if_pos hb]
      exact ⟨⟨wl, wellFormed_intNode 0 tipe⟩, rfl⟩
    · rw [if_neg hb]
      refine ⟨⟨wl, ⟨k, hrv, holds_small (by omega) (by omega)⟩, hl, ?_, fun h => absurd rfl h⟩, rfl⟩
      rintro - _ _ ⟨⟩ v hv
      rw [Exact.unique hv hrv]
      omega

theorem tgRShift_eval (hk : k < 32) {d : IntDef} (hl : left.tipe = tipe) :
    (tgRShift model left (intNode (BitVec.ofNat 32 k) d) tipe).eval env = left.eval env / 2 ^ k := by
  obtain ⟨rv, e, hrv⟩ := count_cons hk d model.typeUnsigned
  obtain ⟨hw, hi, h0⟩ := count_word hk hrv tipe.toIntType
  have hx := eval_holds env left
  rw [hl] at hx
  rw [tgRShift, e, tgConvert_self hl]
  dsimp only
  rw [hw, hi]
  by_cases hz : k = 0
  · rw [if_pos (h0.mpr hz), hz, pow_zero, Int.ediv_one]
  · rw [if_neg (mt h0.mp hz)]
    by_cases hb : (k : ℤ) ≥ tipe.bits ∧ tipe.signed = false
    · rw [if_pos hb]
      show (intNode 0 tipe).eval env = _
      rw [IntType.Holds, if_neg (by rw [hb.2]; decide)] at hx
      have hpow : (2 : ℤ) ^ tipe.bits ≤ 2 ^ k := pow_le_pow_right₀ (by decide) (by omega)
      rw [eval_intNode_zero, Int.ediv_eq_zero_of_lt hx.1 (lt_of_lt_of_le hx.2 hpow)]
    · rw [if_neg hb]
      show tipe.convert (left.eval env / 2 ^ ((Tn.cons rv model.typeUnsigned).eval env).toNat) = _
      rw [eval_cons env hrv (holds_small (by omega) (by omega)), Int.toNat_natCast]
      exact convert_holds (holds_ediv hx k)

theorem tgUMinus_eval (wl : left.WellFormed) (hl : left.tipe = tipe) :
    (tgUMinus left tipe).eval env = tipe.convert (-left.eval env) := by
  rw [tgUMinus, tgConvert_self hl]
  split
  · rename_i below d
    obtain rfl : d = tipe := hl
    have hb : below.tipe = d := wl.2 (by decide)
    show below.eval env = d.convert (-d.convert (-below.eval env))
    rw [convert_neg, neg_neg, ← hb, eval_convert]
  · rfl

/-- the low bits of a number -/
theorem onBits_and_mask (x : ℤ) (hk : k < 64) : onBits (· &&& ·) x (2 ^ k - 1) = x % 2 ^ k := by
  have e : BitVec.ofInt 64 ((2 : ℤ) ^ k - 1) = BitVec.ofNat 64 (2 ^ k - 1) := by
    rw [← BitVec.ofInt_natCast, Nat.cast_sub Nat.one_le_two_pow]
    push_cast
    rfl
  have lt : 2 ^ k ≤ 2 ^ 63 := Nat.pow_le_pow_right (by decide) (by omega)
  have pos : (0 : ℤ) < 2 ^ k := pow_pos (by decide) k
  have h64 : (2 : ℤ) ^ k ∣ 18446744073709551616 := pow_dvd_pow (2 : ℤ) hk.le
  have n1 := Int.emod_nonneg x (show (18446744073709551616 : ℤ) ≠ 0 by decide)
  have small : ((BitVec.ofInt 64 x &&& BitVec.ofNat 64 (2 ^ k - 1)).toNat : ℤ) = x % 2 ^ k := by
    rw [BitVec.toNat_and, BitVec.toNat_ofNat, Nat.mod_eq_of_lt (by omega), Nat.and_two_pow_sub_one_eq_mod,
      BitVec.toNat_ofInt]
    push_cast
    rw [Int.toNat_of_nonneg n1, Int.emod_emod_of_dvd x h64]
  have hlt := Int.emod_lt_of_pos x pos
  have lt' : (2 : ℤ) ^ k ≤ 2 ^ 63 := by exact_mod_cast lt
  show (BitVec.ofInt 64 x &&& BitVec.ofInt 64 (2 ^ k - 1)).toInt = _
  rw [e, BitVec.toInt_eq_toNat_cond, small, if_pos (by omega)]

theorem tgAnd_eval {rv : CFloat} (hrv : Exact rv (2 ^ k - 1)) (hk : 0 < k) (h32 : k < 32)
    (hh : tipe.Holds (2 ^ k - 1)) :
    (tgAnd left rv tipe).eval env = left.eval env % 2 ^ k := by
  have two : (2 : ℤ) ^ 1 ≤ 2 ^ k := pow_le_pow_right₀ (by decide) hk
  have lt : (2 : ℤ) ^ k ≤ 2 ^ 31 := pow_le_pow_right₀ (by decide) (by omega)
  have h0 : cfTest rv ≠ 0 := cfTest_ne hrv (by omega)
  have hm : ¬ (hasBigConst tipe.toIntType = false ∧ cfCnvF32 rv = -1) := by
    rintro ⟨-, h⟩
    rw [cfCnvF32_exact hrv, if_pos (by omega)] at h
    have e := congrArg BitVec.toInt h
    rw [toInt_ofInt_small (by omega) (by omega)] at e
    have e1 : (-1 : BitVec 32).toInt = -1 := rfl
    omega
  have bound : tipe.Holds (left.eval env % 2 ^ k) := by
    have h1 := Int.emod_nonneg (left.eval env) (show (2 ^ k : ℤ) ≠ 0 by omega)
    have h2 := Int.emod_lt_of_pos (left.eval env) (show (0 : ℤ) < 2 ^ k by omega)
    rw [IntType.Holds] at hh ⊢
    by_cases hs : tipe.signed = true
    · rw [if_pos hs] at hh ⊢
      omega
    · rw [if_neg hs] at hh ⊢
      omega
  rw [tgAnd, if_neg h0, if_neg hm]
  show tipe.convert (onBits (· &&& ·) (left.eval env) ((Tn.cons rv tipe).eval env)) = _
  rw [eval_cons env hrv hh, onBits_and_mask _ (by omega), convert_holds bound]

/-! ## The remainder of a signed number -/

theorem onBits_xor_zero {x : ℤ} (h : tipe.Holds x) :
    tipe.convert (onBits (· ^^^ ·) x 0) = x := by
  show tipe.convert (BitVec.ofInt 64 x ^^^ 0#64).toInt = x
  rw [BitVec.xor_zero, toInt_holds h]

theorem onBits_xor_ones (x : ℤ) : tipe.convert (onBits (· ^^^ ·) x (-1)) = tipe.convert (-x - 1) := by
  have e : BitVec.ofInt 64 x ^^^ BitVec.ofInt 64 (-1) = BitVec.ofInt 64 (-x - 1) := by
    have h1 : BitVec.ofInt 64 (-1) = BitVec.allOnes 64 := rfl
    have h2 : BitVec.ofInt 64 (-1) = -1#64 := rfl
    rw [h1, BitVec.xor_allOnes, BitVec.not_eq_neg_add, ← BitVec.ofInt_neg, Int.sub_eq_add_neg,
      BitVec.ofInt_add, h2, BitVec.sub_eq_add_neg]
  show tipe.convert (BitVec.ofInt 64 x ^^^ BitVec.ofInt 64 (-1)).toInt = _
  rw [e]
  exact convert_congr (modEq_le (toInt_ofInt_modEq 64 _) (bits_le _))

/-- the low bits of a number that is not negative, and of the complement of a negative one, are its
remainder -/
theorem signedMod_eval {ri : BitVec 32} (hs : tipe.signed = true)
    (hn : hasBigConst tipe.toIntType = false) (hl : left.tipe = tipe)
    (hm : Exact (intConst (ri - 1) tipe) (2 ^ k - 1)) (hk : 0 < k) (h32 : k < 32)
    (hh : tipe.Holds (2 ^ k - 1)) :
    (signedMod model left ri tipe).eval env = (left.eval env).tmod (2 ^ k) := by
  have hx := eval_holds env left
  rw [hl] at hx
  obtain ⟨lo31, -, hi31, -⟩ := holds_narrow hx hn
  have hi31 := hi31 hs
  have hb : (tgRShift model left (intNode 31 tipe) tipe).eval env = left.eval env / 2 ^ 31 :=
    @tgRShift_eval model env left tipe 31 (by decide) tipe hl
  have pos : (0 : ℤ) < 2 ^ k := pow_pos (by decide) k
  have kbits : k ≤ tipe.bits := by
    rw [IntType.Holds, if_pos hs] at hh
    have := (pow_le_pow_iff_right₀ (one_lt_two : (1 : ℤ) < 2)).mp
      (show (2 : ℤ) ^ k ≤ 2 ^ (tipe.bits - 1) by omega)
    omega
  rw [signedMod]
  have and_eval (t1 : Tn) := @tgAnd_eval env t1 tipe k _ hm hk h32 hh
  -- the two subtractions, with `b` the number of the sign
  have shape (t2 b : Tn) : (Tn.binary .minus (Tn.binary .xor t2 b tipe) b tipe).eval env =
      tipe.convert (tipe.convert (onBits (· ^^^ ·) (t2.eval env) (b.eval env)) - b.eval env) := rfl
  have hmod (y : ℤ) : tipe.Holds (y % 2 ^ k) := by
    have h1 := Int.emod_nonneg y pos.ne'
    have h2 := Int.emod_lt_of_pos y pos
    rw [IntType.Holds, if_pos hs] at hh ⊢
    omega
  rw [shape, and_eval, shape, hb]
  by_cases hneg : left.eval env < 0
  · have e : left.eval env / 2 ^ 31 = -1 := by omega
    have step (y : ℤ) : tipe.convert (tipe.convert (-y - 1) - -1) = tipe.convert (-y) := by
      have h := (convert_modEq tipe.toIntType (-y - 1)).sub_right (-1)
      rw [show -y - 1 - -1 = -y by ring] at h
      exact convert_congr h
    rw [e, onBits_xor_ones, step, onBits_xor_ones, step]
    have h1 : tipe.convert (-left.eval env) % 2 ^ k = -left.eval env % 2 ^ k :=
      modEq_le (convert_modEq tipe.toIntType _) kbits
    have h2 : (left.eval env).tmod (2 ^ k) = -(-left.eval env % 2 ^ k) := by
      rw [← Int.tmod_eq_emod_of_nonneg (by omega), Int.neg_tmod, neg_neg]
    rw [h1, h2]
    have hc := hmod (-left.eval env)
    have h3 := Int.emod_nonneg (-left.eval env) pos.ne'
    apply convert_holds
    rw [IntType.Holds, if_pos hs] at hc ⊢
    omega
  · have e : left.eval env / 2 ^ 31 = 0 := by omega
    rw [e, onBits_xor_zero hx, sub_zero, sub_zero, convert_holds hx, onBits_xor_zero (hmod _),
      convert_holds (hmod _), Int.tmod_eq_emod_of_nonneg (by omega)]

end

/-! ## The folds -/

section
variable (model : Model) (env : ℕ → ℤ) {left rite t : Tn} {tipe : IntDef} {rv : CFloat} {b : ℤ}

theorem mask_exact {ri : BitVec 32} {k : ℕ} (e : ri.toNat = 2 ^ k) (h32 : k < 32)
    (hh : tipe.Holds (2 ^ k - 1)) : Exact (intConst (ri - 1) tipe) (2 ^ k - 1) := by
  have one : 1 ≤ 2 ^ k := Nat.one_le_two_pow
  have lt : 2 ^ k ≤ 2 ^ 31 := Nat.pow_le_pow_right (by decide) (by omega)
  have hsub : (ri - 1).toNat = 2 ^ k - 1 := by
    rw [BitVec.toNat_sub_of_le (show 1 ≤ ri.toNat by omega), e]
    rfl
  have hi : (ri - 1).toInt = 2 ^ k - 1 := by
    rw [BitVec.toInt_eq_toNat_cond, hsub, if_pos (by omega), Nat.cast_sub one]
    push_cast
    rfl
  have h := intConst_exact (ri - 1) tipe
  rw [hi, convert_holds hh] at h
  exact h

/-- the word of a constant, modulo the length of a narrow type -/
theorem cfConvertByType_modEq (h : Exact rv b) (hr : -2 ^ 31 ≤ b ∧ b < 2 ^ 32)
    (hn : hasBigConst tipe.toIntType = false) :
    ((cfConvertByType tipe.toIntType rv).toNat : ℤ) ≡ b [ZMOD 2 ^ tipe.bits] := by
  have hw : cfCnvF32 rv = BitVec.ofInt 32 b := by rw [cfCnvF32_exact h, if_pos hr]
  have hd : ((cfCnvF32 rv).toNat : ℤ) ≡ b [ZMOD 2 ^ 32] := by
    rw [hw]
    exact (toInt_toNat_modEq _).symm.trans (toInt_ofInt_modEq 32 b)
  have cut (n : ℕ) (hle : n ≤ 32) :
      (((cfCnvF32 rv).setWidth n).toNat : ℤ) ≡ b [ZMOD 2 ^ n] :=
    (setWidth_modEq n _).trans (modEq_le hd hle)
  have up (n : ℕ) (hle : n ≤ 32) :
      ((((cfCnvF32 rv).setWidth n).signExtend 32).toNat : ℤ) ≡ b [ZMOD 2 ^ n] ∧
        ((((cfCnvF32 rv).setWidth n).setWidth 32).toNat : ℤ) ≡ b [ZMOD 2 ^ n] := by
    constructor
    · have h1 := modEq_le (toInt_toNat_modEq (((cfCnvF32 rv).setWidth n).signExtend 32)) hle
      rw [BitVec.toInt_signExtend_of_le hle] at h1
      exact h1.symm.trans ((toInt_toNat_modEq _).trans (cut n hle))
    · rw [BitVec.toNat_setWidth, Nat.mod_eq_of_lt
        (lt_of_lt_of_le (BitVec.isLt _) (Nat.pow_le_pow_right (by decide) hle))]
      exact cut n hle
  rw [hasBigConst, decide_eq_false_iff_not] at hn
  rw [IntType.bits, cfConvertByType]
  cases hl : tipe.length with
  | b1 =>
    dsimp only
    split
    · exact (up 8 (by decide)).1
    · exact (up 8 (by decide)).2
  | b2 =>
    dsimp only
    split
    · exact (up 16 (by decide)).1
    · exact (up 16 (by decide)).2
  | b4 => exact hd
  | b8 => exact absurd hl hn

/-- the fold of two constants of a narrow type -/
theorem foldTimes_node {lv : CFloat} {a : ℤ} (hn : hasBigConst tipe.toIntType = false)
    (ha : Exact lv a) (hb : Exact rv b) (ta : tipe.Holds a) (tb : tipe.Holds b) :
    ∃ cf, (foldTimes tipe.toIntType lv rv).node tipe = some (.cons cf tipe) ∧
      (Tn.cons cf tipe).eval env = tipe.convert (a * b) := by
  have hr := (foldTimes_right ha hb ta tb).mpr fun h8 => by
    rw [hasBigConst, h8] at hn
    exact absurd hn (by decide)
  have shape : ∃ value, foldTimes tipe.toIntType lv rv = .const (intToCF tipe.toIntType value) := by
    rw [foldTimes, foldNumbers]
    split
    · exact ⟨_, rfl⟩
    · exact ⟨_, rfl⟩
  obtain ⟨value, e⟩ := shape
  rw [e] at hr ⊢
  refine ⟨_, rfl, ?_⟩
  rw [eval_intToCF]
  exact convert_congr ((int64ToType_right tipe.toIntType value (a * b)).mp hr)

/-- the word of an operand that is 1 -/
theorem cfCnvF32_eq_one (hn : hasBigConst tipe.toIntType = false) (hb : Exact rv b)
    (tb : tipe.Holds b) : cfCnvF32 rv = 1 ↔ b = 1 := by
  obtain ⟨h1, h2, -⟩ := holds_narrow tb hn
  rw [cfCnvF32_exact hb, if_pos ⟨h1, h2⟩]
  constructor
  · intro h
    have hm := toInt_ofInt_modEq 32 b
    rw [h] at hm
    have e : (1 : BitVec 32).toInt = 1 := rfl
    rw [e, Int.ModEq] at hm
    omega
  · rintro rfl
    rfl

theorem cfTest_eq_zero (hb : Exact rv b) (h : cfTest rv = 0) : b = 0 := by
  rw [cfTest_exact hb] at h
  exact Int.sign_eq_zero_iff_zero.mp h

theorem reduceTimes_eval (wl : left.WellFormed) (hl : left.tipe = tipe) (hb : Exact rv b)
    (tb : tipe.Holds b) (h : reduceTimes model left rv tipe tipe = some t) :
    t.eval env = tipe.convert (left.eval env * b) := by
  rw [reduceTimes] at h
  by_cases h1 : hasBigConst tipe.toIntType = false ∧ cfCnvF32 rv = 1
  · rw [if_pos h1, Option.some_inj] at h
    rw [← h, (cfCnvF32_eq_one h1.1 hb tb).mp h1.2, mul_one, ← hl, eval_convert]
  rw [if_neg h1] at h
  by_cases h0 : cfTest rv = 0
  · have b0 := cfTest_eq_zero hb h0
    rw [if_pos h0, Option.some_inj] at h
    rw [← h, b0, mul_zero, convert_zero]
    show (Tn.cons rv tipe).eval env = 0
    rw [eval_cons env hb tb, b0]
  rw [if_neg h0] at h
  by_cases hbig : hasBigConst tipe.toIntType = true
  · rw [if_pos hbig] at h
    exact absurd h (Option.some_ne_none _).symm
  have hn : hasBigConst tipe.toIntType = false := by simpa using hbig
  obtain ⟨lo31, hi32, -⟩ := holds_narrow tb hn
  rw [if_neg hbig] at h
  have hsign : cfTest rv < 0 ↔ b < 0 := by
    rw [cfTest_exact hb]
    exact Int.sign_neg_iff
  have hpos : Exact (if cfTest rv < 0 then cfNegate rv else rv) |b| := by
    by_cases hneg : cfTest rv < 0
    · rw [if_pos hneg, abs_of_neg (hsign.mp hneg)]
      exact exact_negate hb
    · rw [if_neg hneg, abs_of_nonneg (not_lt.mp (mt hsign.mpr hneg))]
      exact hb
  have habs : -2 ^ 31 ≤ |b| ∧ |b| < 2 ^ 32 := by
    have := abs_nonneg b
    refine ⟨by omega, abs_lt.mpr ⟨by omega, by omega⟩⟩
  have hword := cfConvertByType_modEq hpos habs hn
  dsimp only at h
  generalize (if cfTest rv < 0 then cfNegate rv else rv) = pos at h hword
  by_cases hu : cfIsU32 pos = true
  swap
  · rw [if_neg hu] at h
    exact absurd h (Option.some_ne_none _).symm
  rw [if_pos hu] at h
  obtain ⟨log, hlog, ht⟩ := Option.map_eq_some_iff.mp h
  obtain ⟨e, -⟩ := (getLog2_eq_some_iff _ log).mp hlog
  have h32 : log < 32 := (Nat.pow_lt_pow_iff_right (by decide)).mp (e ▸ BitVec.isLt _)
  rw [e] at hword
  push_cast at hword
  have hfold := @tgLShift_eval model env left tipe log h32 hl
  obtain ⟨wf, htipe⟩ := @tgLShift_wellFormed model left tipe log h32 hl wl
  have hmul : tipe.convert (left.eval env * 2 ^ log) = tipe.convert (left.eval env * |b|) :=
    convert_congr (hword.mul_left _)
  by_cases hneg : cfTest rv < 0
  · rw [if_pos hneg] at ht
    rw [← ht, tgUMinus_eval env wf htipe, hfold, hmul, convert_neg, abs_of_neg (hsign.mp hneg)]
    congr 1
    ring
  · rw [if_neg hneg] at ht
    rw [← ht, hfold, hmul, abs_of_nonneg (not_lt.mp (mt hsign.mpr hneg))]

/-- the word of a shift count is the power of two that it stands for -/
theorem shiftedOne_modEq {cf : CFloat} {v : ℤ} (h : Exact cf v) (h0 : 0 ≤ v) (h31 : v < 2 ^ 31) :
    ((shiftedOne (cfCnvF32 cf)).toNat : ℤ) ≡ 2 ^ v.toNat [ZMOD 2 ^ 32] := by
  have e : cfCnvF32 cf = BitVec.ofInt 32 v := by
    rw [cfCnvF32_exact h, if_pos ⟨by omega, by omega⟩]
  have hi : (BitVec.ofInt 32 v).toInt = v := toInt_ofInt_small (by omega) (by omega)
  have hn : (BitVec.ofInt 32 v).toNat = v.toNat := by
    have := @toNat_ofInt_small 32 v h0 (by omega)
    omega
  rw [shiftedOne, e, hi, hn]
  by_cases hv : v > 0
  · rw [if_pos hv, BitVec.toNat_shiftLeft, Nat.shiftLeft_eq]
    have e1 : (1 : BitVec 32).toNat = 1 := rfl
    rw [e1, one_mul, Int.ModEq]
    push_cast
    exact Int.emod_emod_of_dvd _ (dvd_refl _)
  · rw [if_neg hv]
    obtain rfl : v = 0 := by omega
    rfl

theorem foldTimesCons_eval (wl : left.WellFormed) (hl : left.tipe = tipe) (hc : left.isCons = false)
    (hb : Exact rv b) (tb : tipe.Holds b)
    (h : foldTimesCons model left rv tipe tipe = some t) :
    t.eval env = tipe.convert (left.eval env * b) := by
  have reduced (h : reduceTimes model left rv tipe tipe = some t) :=
    reduceTimes_eval model env wl hl hb tb h
  unfold foldTimesCons at h
  split at h
  · cases hc
  · rename_i lv d below u
    by_cases ht : tipe = u ∧ hasBigConst tipe.toIntType = false
    · obtain ⟨rfl, hn⟩ := ht
      rw [if_pos ⟨rfl, hn⟩] at h
      obtain ⟨⟨a, ha, ta⟩, -, hd, -⟩ := wl
      obtain rfl : d = tipe := hd
      obtain ⟨cf, hcf, he⟩ := foldTimes_node env hn ha hb ta tb
      rw [hcf, Option.map_some, Option.some_inj] at h
      rw [← h]
      show d.convert ((Tn.cons cf d).eval env * below.eval env) =
        d.convert (d.convert ((Tn.cons lv d).eval env * below.eval env) * b)
      rw [he, convert_mul_left, convert_mul_left, eval_cons env ha ta]
      congr 1
      ring
    · rw [if_neg ht] at h
      exact reduced h
  · rename_i below lv d u hne
    by_cases ht : tipe = u ∧ hasBigConst tipe.toIntType = false
    · obtain ⟨rfl, hn⟩ := ht
      rw [if_pos ⟨rfl, hn⟩] at h
      obtain ⟨-, ⟨a, ha, ta⟩, -, -, hd⟩ := wl
      obtain rfl : d = tipe := hd (by decide) (by decide)
      obtain ⟨cf, hcf, he⟩ := foldTimes_node env hn ha hb ta tb
      rw [hcf, Option.map_some, Option.some_inj] at h
      rw [← h]
      show d.convert (below.eval env * (Tn.cons cf d).eval env) =
        d.convert (d.convert (below.eval env * (Tn.cons lv d).eval env) * b)
      rw [he, convert_mul_right, convert_mul_left, eval_cons env ha ta]
      congr 1
      ring
    · rw [if_neg ht] at h
      exact reduced h
  · rename_i below count d u
    by_cases ht : tipe = u ∧ hasBigConst tipe.toIntType = false
    · obtain ⟨rfl, hn⟩ := ht
      rw [if_pos ⟨rfl, hn⟩] at h
      obtain ⟨-, ⟨c, hcnt, tc⟩, -, hrange, -⟩ := wl
      obtain ⟨c0, c31⟩ := hrange rfl count d rfl c hcnt
      have hw := shiftedOne_modEq hcnt c0 c31
      have h1 := intToCF_convert tipe.toIntType
        (cfGetInteger64Value (cfCnvU32F (shiftedOne (cfCnvF32 count))))
      have ex : Exact (cfCnvU32F (shiftedOne (cfCnvF32 count)))
          ((shiftedOne (cfCnvF32 count)).toNat : ℤ) := exact_cnvU32F _
      have hlt := (shiftedOne (cfCnvF32 count)).isLt
      rw [cfGetInteger64Value_exact ex, if_pos (by omega)] at h1
      obtain ⟨cf, hcf, he⟩ := foldTimes_node env hn h1 hb (holds_convert _ _) tb
      rw [cfToType] at h
      dsimp only at h
      rw [cfGetInteger64Value_exact ex, if_pos (by omega), hcf, Option.map_some,
        Option.some_inj] at h
      rw [← h]
      show tipe.convert (below.eval env * (Tn.cons cf tipe).eval env) =
        tipe.convert (tipe.convert (below.eval env * 2 ^ ((Tn.cons count d).eval env).toNat) * b)
      rw [he, convert_mul_right, convert_mul_left, eval_cons env hcnt tc]
      have hp : tipe.convert (BitVec.ofInt 64
          ((shiftedOne (cfCnvF32 count)).toNat : ℤ)).toInt ≡ 2 ^ c.toNat [ZMOD 2 ^ tipe.bits] :=
        (convert_modEq _ _).trans ((modEq_le (toInt_ofInt_modEq 64 _) (bits_le _)).trans
          (modEq_le hw (bits_narrow _ hn)))
      rw [← mul_assoc]
      exact convert_congr ((hp.mul_left _).mul_right b)
    · rw [if_neg ht] at h
      exact reduced h
  · exact reduced h

theorem foldTimesTn_eval (wl : left.WellFormed) (wr : rite.WellFormed) (hl : left.tipe = tipe)
    (hr : rite.tipe = tipe) (hc : ¬ (left.isCons = true ∧ rite.isCons = true))
    (h : foldTimesTn model left rite tipe = some t) :
    t.eval env = tipe.convert (left.eval env * rite.eval env) := by
  unfold foldTimesTn at h
  split at h
  · rename_i cf d
    obtain rfl : d = tipe := hl
    obtain ⟨b, hb, tb⟩ := wl
    have hri : rite.isCons = false := by
      rw [← Bool.not_eq_true]
      exact fun hri => hc ⟨rfl, hri⟩
    rw [eval_cons env hb tb, mul_comm]
    exact foldTimesCons_eval model env wr hr hri hb tb h
  · rename_i cf d _
    obtain rfl : d = tipe := hr
    obtain ⟨b, hb, tb⟩ := wr
    have hle : left.isCons = false := by
      rw [← Bool.not_eq_true]
      exact fun hle => hc ⟨hle, rfl⟩
    rw [eval_cons env hb tb]
    exact foldTimesCons_eval model env wl hl hle hb tb h
  · exact absurd h (Option.some_ne_none _).symm

/-- a power of two that is the word of a narrow constant is the constant -/
theorem getLog2_cfCnvF32 {k : ℕ} (hb : Exact rv b) (h0 : 0 ≤ b) (h32 : b < 2 ^ 32)
    (h : getLog2 (cfCnvF32 rv) = some k) : b = 2 ^ k ∧ k < 32 := by
  obtain ⟨e, -⟩ := (getLog2_eq_some_iff _ k).mp h
  have lt : k < 32 := (Nat.pow_lt_pow_iff_right (by decide)).mp (e ▸ BitVec.isLt _)
  have hw : cfCnvF32 rv = BitVec.ofInt 32 b := by rw [cfCnvF32_exact hb, if_pos ⟨by omega, h32⟩]
  have hn := toNat_ofInt_small h0 h32
  rw [← hw, e] at hn
  push_cast at hn
  exact ⟨hn.symm, lt⟩

theorem foldDivTn_eval (wl : left.WellFormed) (wr : rite.WellFormed) (hl : left.tipe = tipe)
    (hr : rite.tipe = tipe) (hc : ¬ (left.isCons = true ∧ rite.isCons = true))
    (h : foldDivTn model left rite tipe = some t) :
    t.eval env = tipe.convert ((left.eval env).tdiv (rite.eval env)) := by
  unfold foldDivTn at h
  split at h
  · exact absurd ⟨rfl, rfl⟩ hc
  · rename_i rv d _
    obtain rfl : d = tipe := hr
    obtain ⟨b, hb, tb⟩ := wr
    have hx := eval_holds env left
    rw [hl] at hx
    by_cases hbig : hasBigConst d.toIntType = true
    · rw [if_pos hbig] at h
      exact absurd h (Option.some_ne_none _).symm
    have hn : hasBigConst d.toIntType = false := by simpa using hbig
    rw [if_neg hbig] at h
    rw [eval_cons env hb tb]
    by_cases h1 : cfCnvF32 rv = 1
    · rw [if_pos h1, Option.some_inj, tgConvert_self hl] at h
      rw [(cfCnvF32_eq_one hn hb tb).mp h1, Int.tdiv_one, ← h, convert_holds hx]
    rw [if_neg h1] at h
    by_cases hu : left.tipe.signed = false ∧ cfIsU32 rv = true
    · rw [if_pos hu] at h
      obtain ⟨k, hk, ht⟩ := Option.map_eq_some_iff.mp h
      obtain ⟨-, b32, -, b0⟩ := holds_narrow tb hn
      rw [hl] at hu
      obtain ⟨rfl, h32⟩ := getLog2_cfCnvF32 hb (b0 hu.1) b32 hk
      have hp : 0 ≤ left.eval env := by
        rw [IntType.Holds, if_neg (by rw [hu.1]; decide)] at hx
        exact hx.1
      rw [← ht, tgRShift_eval model env h32 hl, Int.tdiv_eq_ediv_of_nonneg hp,
        convert_holds (holds_ediv hx k)]
    · rw [if_neg hu] at h
      exact absurd h (Option.some_ne_none _).symm
  · rename_i lv d _
    obtain rfl : d = tipe := hl
    obtain ⟨a, ha, ta⟩ := wl
    by_cases h0 : cfTest lv = 0
    · have a0 := cfTest_eq_zero ha h0
      rw [if_pos h0, Option.some_inj, tgConvert_self (show (Tn.cons lv d).tipe = d from rfl)] at h
      rw [← h]
      show (Tn.cons lv d).eval env = _
      rw [eval_cons env ha ta, a0, Int.zero_tdiv, convert_zero]
    · rw [if_neg h0] at h
      exact absurd h (Option.some_ne_none _).symm
  · exact absurd h (Option.some_ne_none _).symm

/-- the word of the absolute value of a signed constant, where it is more than 1 -/
theorem abs_word (hs : tipe.signed = true) (hn : hasBigConst tipe.toIntType = false)
    (hb : Exact rv b) (tb : tipe.Holds b) {ri : BitVec 32}
    (hri : ri = if (cfConvertByType tipe.toIntType rv).toInt < 0
      then -cfConvertByType tipe.toIntType rv else cfConvertByType tipe.toIntType rv)
    (h1 : ri.toInt > 1) : (ri.toNat : ℤ) = |b| := by
  obtain ⟨lo31, b32, hi31, -⟩ := holds_narrow tb hn
  have hi31 := hi31 hs
  rw [cfConvertByType_exact hb tb ⟨lo31, b32⟩] at hri
  have hi : (BitVec.ofInt 32 b).toInt = b := toInt_ofInt_small (by omega) (by omega)
  have hpos : (ri.toNat : ℤ) = ri.toInt := by
    have h := BitVec.toInt_eq_toNat_cond ri
    have := ri.isLt
    split at h
    · exact h.symm
    · omega
  rw [hi] at hri
  rw [hpos]
  by_cases hneg : b < 0
  · rw [if_pos hneg, ← BitVec.ofInt_neg] at hri
    rw [abs_of_neg hneg]
    by_cases hmin : b = -2 ^ 31
    · subst hri hmin
      exact absurd h1 (by decide)
    · rw [hri]
      exact toInt_ofInt_small (by omega) (by omega)
  · rw [if_neg hneg] at hri
    rw [abs_of_nonneg (not_lt.mp hneg), hri, hi]

/-- the low bits of an unsigned number -/
theorem maskMod_eval {k : ℕ} (hs : tipe.signed = false) (hn : hasBigConst tipe.toIntType = false)
    (hl : left.tipe = tipe) (hb : Exact rv b) (tb : tipe.Holds b)
    (hk : getLog2 (cfConvertByType tipe.toIntType rv) = some k) :
    (tgAnd left (intConst (cfConvertByType tipe.toIntType rv - 1) tipe) tipe).eval env =
      tipe.convert ((left.eval env).tmod b) := by
  obtain ⟨lo31, b32, -, b0⟩ := holds_narrow tb hn
  have hx := eval_holds env left
  rw [hl] at hx
  have hw : cfCnvF32 rv = cfConvertByType tipe.toIntType rv := by
    rw [cfConvertByType_exact hb tb ⟨lo31, b32⟩, cfCnvF32_exact hb, if_pos ⟨lo31, b32⟩]
  obtain ⟨e, hkpos⟩ := (getLog2_eq_some_iff _ k).mp hk
  rw [← hw] at hk
  obtain ⟨rfl, h32⟩ := getLog2_cfCnvF32 hb (b0 hs) b32 hk
  have pos : (0 : ℤ) < 2 ^ k := pow_pos (by decide) k
  have un : ¬ tipe.signed = true := by rw [hs]; decide
  have hh : tipe.Holds (2 ^ k - 1) := by
    rw [IntType.Holds, if_neg un] at tb ⊢
    omega
  have hp : 0 ≤ left.eval env := by
    rw [IntType.Holds, if_neg un] at hx
    exact hx.1
  have hq : tipe.Holds (left.eval env % 2 ^ k) := by
    have h2 := Int.emod_nonneg (left.eval env) pos.ne'
    have h3 := Int.emod_lt_of_pos (left.eval env) pos
    rw [IntType.Holds, if_neg un] at hh ⊢
    omega
  rw [tgAnd_eval env (mask_exact e h32 hh) hkpos h32 hh, Int.tmod_eq_emod_of_nonneg hp,
    convert_holds hq]

/-- the remainder of a signed number by the constant -/
theorem signedMod_const (hs : tipe.signed = true) (hn : hasBigConst tipe.toIntType = false)
    (hl : left.tipe = tipe) (hb : Exact rv b) (tb : tipe.Holds b) {ri : BitVec 32}
    (hri : ri = if (cfConvertByType tipe.toIntType rv).toInt < 0
      then -cfConvertByType tipe.toIntType rv else cfConvertByType tipe.toIntType rv)
    (hlog : (getLog2 ri).isSome = true) (h1 : ri.toInt > 1) :
    (signedMod model left ri tipe).eval env = tipe.convert ((left.eval env).tmod b) := by
  obtain ⟨k, hk⟩ := Option.isSome_iff_exists.mp hlog
  obtain ⟨e, hkpos⟩ := (getLog2_eq_some_iff _ k).mp hk
  have h32 : k < 32 := (Nat.pow_lt_pow_iff_right (by decide)).mp (e ▸ BitVec.isLt _)
  have habs := abs_word hs hn hb tb hri h1
  rw [e] at habs
  push_cast at habs
  have hh : tipe.Holds (2 ^ k - 1) := by
    have pos : (0 : ℤ) < 2 ^ k := pow_pos (by decide) k
    rw [IntType.Holds, if_pos hs] at tb ⊢
    have := abs_le.mpr ⟨tb.1, tb.2.le⟩
    omega
  have heval := signedMod_eval model env hs hn hl (mask_exact e h32 hh) hkpos h32 hh
  have hq := eval_holds env (signedMod model left ri tipe)
  rw [show (signedMod model left ri tipe).tipe = tipe from rfl, heval] at hq
  have hmod : (left.eval env).tmod b = (left.eval env).tmod (2 ^ k) := by
    rw [habs]
    rcases abs_choice b with hb | hb
    · rw [hb]
    · rw [hb, Int.tmod_neg]
  rw [heval, hmod, convert_holds hq]

theorem foldModTn_eval (wl : left.WellFormed) (wr : rite.WellFormed) (hl : left.tipe = tipe)
    (hr : rite.tipe = tipe) (hc : ¬ (left.isCons = true ∧ rite.isCons = true))
    (h : foldModTn model left rite tipe = some t) :
    t.eval env = tipe.convert ((left.eval env).tmod (rite.eval env)) := by
  unfold foldModTn at h
  split at h
  · exact absurd ⟨rfl, rfl⟩ hc
  · rename_i rv d _
    obtain rfl : d = tipe := hr
    obtain ⟨b, hb, tb⟩ := wr
    by_cases hbig : hasBigConst d.toIntType = true
    · rw [if_pos hbig] at h
      exact absurd h (Option.some_ne_none _).symm
    have hn : hasBigConst d.toIntType = false := by simpa using hbig
    rw [if_neg hbig] at h
    rw [eval_cons env hb tb]
    by_cases h1 : cfCnvF32 rv = 1
    · rw [if_pos h1, Option.some_inj] at h
      rw [(cfCnvF32_eq_one hn hb tb).mp h1, Int.tmod_one, ← h]
      exact eval_intToCF env (cfGetInteger64Value cfAlloc) d
    rw [if_neg h1] at h
    by_cases hs : left.tipe.signed = false
    · rw [if_pos hs] at h
      rw [hl] at hs
      by_cases hu : cfIsU32 rv = true
      · rw [if_pos hu] at h
        obtain ⟨k, hk, ht⟩ := Option.map_eq_some_iff.mp h
        rw [← ht]
        exact maskMod_eval env hs hn hl hb tb hk
      · rw [if_neg hu] at h
        exact absurd h (Option.some_ne_none _).symm
    · rw [if_neg hs] at h
      rw [hl, Bool.not_eq_false] at hs
      by_cases hdup : model.duplicate = true ∧ tgCanDuplicate left = true
      · rw [if_pos hdup] at h
        dsimp only at h
        generalize hri : (if (cfConvertByType d.toIntType rv).toInt < 0
          then -cfConvertByType d.toIntType rv else cfConvertByType d.toIntType rv) = ri at h
        by_cases hlog : (getLog2 ri).isSome = true ∧ ri.toInt > 1
        · rw [if_pos hlog, Option.some_inj] at h
          rw [← h]
          exact signedMod_const model env hs hn hl hb tb hri.symm hlog.1 hlog.2
        · rw [if_neg hlog] at h
          exact absurd h (Option.some_ne_none _).symm
      · rw [if_neg hdup] at h
        exact absurd h (Option.some_ne_none _).symm
  · rename_i lv d _
    obtain rfl : d = tipe := hl
    obtain ⟨a, ha, ta⟩ := wl
    by_cases h0 : cfTest lv = 0
    · have a0 := cfTest_eq_zero ha h0
      rw [if_pos h0, Option.some_inj] at h
      rw [← h, eval_cons env ha ta, a0, Int.zero_tmod, convert_zero]
      exact eval_intNode_zero env d
    · rw [if_neg h0] at h
      exact absurd h (Option.some_ne_none _).symm
  · exact absurd h (Option.some_ne_none _).symm

/-- every tree that one of the three folds makes has the number of the operation that it replaces -/
theorem reduce_eval (op : BinOp) (wl : left.WellFormed) (wr : rite.WellFormed)
    (hl : left.tipe = tipe) (hr : rite.tipe = tipe)
    (hc : ¬ (left.isCons = true ∧ rite.isCons = true))
    (h : reduce model op left rite tipe = some t) :
    t.eval env = (Tn.binary op left rite tipe).eval env := by
  cases op with
  | times => exact foldTimesTn_eval model env wl wr hl hr hc h
  | div => exact foldDivTn_eval model env wl wr hl hr hc h
  | mod => exact foldModTn_eval model env wl wr hl hr hc h
  | _ => exact absurd h (Option.some_ne_none _).symm

end

/-! ## The remainder of a signed byte -/

def byteDef : IntDef := ⟨⟨.b1, true⟩, 0⟩
def byteModel : Model := ⟨⟨⟨.b4, true⟩, 1⟩, ⟨⟨.b4, false⟩, 2⟩, true⟩
def byteLeaf : Tn := .leaf 0 byteDef
def byteEight : Tn := .cons (cfCnvI32F 8) byteDef

theorem reduce_eval_byte : reduce byteModel .mod byteLeaf byteEight byteDef =
      some (signedMod byteModel byteLeaf 8 byteDef) ∧
    ∀ env, (signedMod byteModel byteLeaf 8 byteDef).eval env =
      (Tn.binary .mod byteLeaf byteEight byteDef).eval env :=
  have h : reduce byteModel .mod byteLeaf byteEight byteDef =
    some (signedMod byteModel byteLeaf 8 byteDef) := rfl
  ⟨h, fun env => reduce_eval byteModel env .mod trivial ⟨8, exact_cnvI32F 8, by decide⟩ rfl rfl
    (fun h => Bool.noConfusion h.1) h⟩

example : (signedMod byteModel byteLeaf 8 byteDef).eval (fun _ => -13) = -5 := by decide +kernel

end Cg
