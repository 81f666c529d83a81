import OpenWatcom.Cfloat.Sum

/-!
# Integers

* `Exact f v`     `f` is in the normal form, has no digit behind the point, and denotes `v`;
* `exact_add`, `exact_sub`, `exact_mul`   sums, differences and products below `10 ^ 32` are exact;
* `exact_cnvI32F` … `exact_cnvU64F`       the conversions from integers are.
-/

namespace CFloat
open Numerals

/-- no digit stands behind the point -/
def Whole (f : CFloat) : Prop := 0 ≤ f.exp - f.len

/-- `f` stands for the integer `v` -/
structure Exact (f : CFloat) (v : Int) : Prop where
  normal : f.Normal
  whole : f.Whole
  value : f.value = v

instance (f : CFloat) : Decidable f.Whole := inferInstanceAs (Decidable (0 ≤ f.exp - f.len))

theorem whole_alloc : cfAlloc.Whole := by decide

theorem value_alloc : cfAlloc.value = 0 := by
  rw [value, size_alloc, mul_zero]

theorem exact_alloc : Exact cfAlloc 0 := ⟨normal_alloc, whole_alloc, by simpa using value_alloc⟩

/-! ## the absolute value -/

theorem whole_size {f : CFloat} (h : f.Whole) :
    f.size = ((val 10 f.mant * 10 ^ (f.exp - f.len).toNat : Int) : ℚ) := by
  obtain ⟨n, hn⟩ : ∃ n : Nat, f.exp - f.len = n := ⟨(f.exp - f.len).toNat, by rw [Whole] at h; omega⟩
  rw [size, hn, Int.toNat_natCast, zpow_natCast]
  push_cast
  rfl

/-- an integer below `10 ^ 32` is not cut -/
theorem clean_whole {f : CFloat} (hd : Digits 10 f.mant) (hne : f.mant ≠ []) (hw : f.Whole)
    (hlt : f.size < 10 ^ maxPrec) :
    (strip f.mant).length ≤ maxPrec ∧ (cfClean f).size = f.size ∧ (cfClean f).Whole := by
  have hval : val 10 f.mant < 10 ^ maxPrec := by
    rw [whole_size hw] at hlt
    have h2 : val 10 f.mant * 10 ^ (f.exp - f.len).toNat < 10 ^ maxPrec := by exact_mod_cast hlt
    have h3 : (1 : Int) ≤ 10 ^ (f.exp - f.len).toNat := one_le_pow₀ (by norm_num)
    have h4 := le_mul_of_one_le_right (val_nonneg (b := 10) (by norm_num) hd) h3
    omega
  have hshort := strip_short hd hval
  refine ⟨hshort, cfClean_size hne hshort, ?_⟩
  by_cases h0 : strip f.mant = []
  · rw [cfClean_zero (strip_eq_nil h0) hne]
    exact whole_alloc
  · have hle : (strip f.mant).length ≤ (f.mant.rdropWhile (· = 0)).length :=
      (List.dropWhile_sublist _).length_le
    have hle2 : (f.mant.rdropWhile (· = 0)).length ≤ f.mant.length :=
      (List.rdropWhile_prefix _ _).sublist.length_le
    rw [Whole, len] at hw
    rw [cfClean_eq h0, Whole, len]
    dsimp only
    rw [List.take_of_length_le hshort]
    omega

/-- what `CFClean` makes of an integer below `10 ^ 32` -/
theorem exact_clean {f : CFloat} (hd : Digits 10 f.mant) (hne : f.mant ≠ []) (hs : f.sign ≠ 0)
    (hw : f.Whole) {n : Int} (hn : f.size = n) (hlt : n < 10 ^ maxPrec) :
    Exact (cfClean f) ((f.sign : Int) * n) := by
  obtain ⟨hshort, hsize, hwhole⟩ := clean_whole hd hne hw (by rw [hn]; exact_mod_cast hlt)
  refine ⟨(cfClean_normal hd hne hs).mpr fun hc => absurd hc.1 (by omega), hwhole, ?_⟩
  rw [value, hsize, hn]
  by_cases h0 : strip f.mant = []
  · have hz : n = 0 := by
      rw [size, val_of_zeros (strip_eq_nil h0), Int.cast_zero, zero_mul] at hn
      exact_mod_cast hn.symm
    rw [hz]
    simp
  · rw [cfClean_sign h0]
    push_cast
    rfl

/-- an integer other than 0 -/
theorem Exact.parts {f : CFloat} {v : Int} (h : Exact f v) (hv : v ≠ 0) :
    (f.sign : Int) = v.sign ∧ f.size = ((v.natAbs : Int) : ℚ) ∧ Mantissa f.mant ∧ f.sign ≠ 0 := by
  have hs : f.sign ≠ 0 := by
    intro e
    have h1 := h.value
    rw [CFloat.value, e] at h1
    simp at h1
    exact hv (by exact_mod_cast h1.symm)
  have hm := h.normal.mantissa hs
  have hpos := size_pos hm
  have hval := h.value
  rw [CFloat.value] at hval
  have hn : ((v.natAbs : Int) : ℚ) = |(v : ℚ)| := by
    rw [Int.natCast_natAbs, Int.cast_abs]
  cases hsg : f.sign with
  | zero => exact absurd hsg hs
  | neg =>
    rw [hsg] at hval
    have e1 : (v : ℚ) = -f.size := by
      rw [← hval]
      simp
    have hneg : v < 0 := by
      have : (v : ℚ) < 0 := by rw [e1]; linarith
      exact_mod_cast this
    refine ⟨(Int.sign_eq_neg_one_of_neg hneg).symm, ?_, hm, by decide⟩
    rw [hn, abs_of_neg (by exact_mod_cast hneg), e1, neg_neg]
  | pos =>
    rw [hsg] at hval
    have e1 : (v : ℚ) = f.size := by
      rw [← hval]
      simp
    have hgt : 0 < v := by
      have : (0 : ℚ) < v := by rw [e1]; exact hpos
      exact_mod_cast this
    refine ⟨(Int.sign_eq_one_of_pos hgt).symm, ?_, hm, by decide⟩
    rw [hn, abs_of_pos (by exact_mod_cast hgt), e1]

theorem Exact.zero {f : CFloat} (h : Exact f 0) : f = cfAlloc := by
  refine h.normal.eq_alloc ?_
  by_contra hs
  have hpos := size_pos (h.normal.mantissa hs)
  have hval := h.value
  rw [CFloat.value, Int.cast_zero] at hval
  rcases mul_eq_zero.mp hval with h0 | h0
  · cases hsg : f.sign with
    | zero => exact hs hsg
    | neg =>
      rw [hsg] at h0
      simp at h0
    | pos =>
      rw [hsg] at h0
      simp at h0
  · linarith

theorem Exact.sign_eq {f : CFloat} {v : Int} (h : Exact f v) : (f.sign : Int) = v.sign := by
  by_cases hv : v = 0
  · subst hv
    rw [h.zero]
    rfl
  · exact (h.parts hv).1

theorem sign_neg_ne {s : SignType} (h : s ≠ 0) : -s ≠ 0 := by
  cases s <;> first | exact absurd rfl h | decide

theorem exact_negate {f : CFloat} {v : Int} (h : Exact f v) : Exact (cfNegate f) (-v) := by
  refine ⟨?_, h.whole, ?_⟩
  · rcases h.normal with rfl | ⟨h1, h2⟩
    · exact normal_alloc
    · exact Or.inr ⟨sign_neg_ne h1, h2⟩
  · have hsz : (cfNegate f).size = f.size := rfl
    have hsg : (((cfNegate f).sign : Int) : ℚ) = -((f.sign : Int) : ℚ) := by
      show (((-f.sign : SignType) : Int) : ℚ) = _
      cases f.sign <;> simp
    have hv := h.value
    rw [value] at hv
    rw [value, hsz, hsg, neg_mul, hv]
    push_cast
    rfl

/-! ## sums and differences -/

/-- the integer that `CSSum` gives to `CFClean` -/
theorem exact_sum {f1 f2 : CFloat} {arith : Int → Int → Int} {t n : Int} (ha : Signed arith t)
    (h1 : Digits 10 f1.mant) (h2 : Digits 10 f2.mant) (w1 : f1.Whole) (w2 : f2.Whole)
    (hs : f1.sign ≠ 0) (hn : f1.size + t * f2.size = n) (h0 : 0 ≤ n) (hlt : n < 10 ^ maxPrec) :
    Exact (csSum f1 f2 arith) ((f1.sign : Int) * n) := by
  obtain ⟨c, w, hm, hwd, hc, hl, hsize⟩ := sumDigits_spec ha h1 h2
  have hpos : 0 ≤ f1.size + t * f2.size := by
    rw [hn]
    exact_mod_cast h0
  obtain ⟨hd, hne⟩ := sumDigits_digits ha h1 h2 hpos
  refine exact_clean hd hne hs ?_ (hsize.trans hn) hlt
  have e : (sumDigits f1 f2 arith).exp = max f1.exp f2.exp + 1 := rfl
  rw [Whole] at w1 w2
  rw [farRight] at hl
  rw [Whole, e, len, hm, List.length_cons]
  omega

/-- numbers of one sign -/
theorem exact_adder {f1 f2 : CFloat} {a b : Int} (h1 : Exact f1 a) (h2 : Exact f2 b) (ha : a ≠ 0)
    (hb : b ≠ 0) (hsame : a.sign = b.sign) (hlt : a.natAbs + b.natAbs < 10 ^ maxPrec) :
    Exact (csSum f1 f2 adder) (a + b) := by
  have hbig : ((a.natAbs + b.natAbs : Nat) : Int) < 10 ^ maxPrec := by exact_mod_cast hlt
  obtain ⟨s1, z1, m1, n1⟩ := h1.parts ha
  obtain ⟨s2, z2, m2, n2⟩ := h2.parts hb
  have hres := exact_sum signed_adder m1.digits m2.digits h1.whole h2.whole n1
    (n := (a.natAbs : Int) + b.natAbs) (by rw [z1, z2, Int.cast_add, Int.cast_one]; ring) (by omega)
    (by omega)
  have hval : (f1.sign : Int) * ((a.natAbs : Int) + b.natAbs) = a + b := by
    rw [s1]
    rcases lt_or_gt_of_ne ha with ha' | ha'
    · rw [Int.sign_eq_neg_one_of_neg ha'] at hsame ⊢
      have hb' : b < 0 := Int.sign_eq_neg_one_iff_neg.mp hsame.symm
      omega
    · rw [Int.sign_eq_one_of_pos ha'] at hsame ⊢
      have hb' : 0 < b := Int.sign_eq_one_iff_pos.mp hsame.symm
      omega
  rw [← hval]
  exact hres

/-- numbers of different signs, the larger one first -/
theorem exact_suber {f1 f2 : CFloat} {a b : Int} (h1 : Exact f1 a) (h2 : Exact f2 b) (ha : a ≠ 0)
    (hb : b ≠ 0) (hopp : a.sign = -b.sign) (hle : b.natAbs ≤ a.natAbs)
    (hlt : a.natAbs + b.natAbs < 10 ^ maxPrec) : Exact (csSum f1 f2 suber) (a + b) := by
  have hbig : ((a.natAbs + b.natAbs : Nat) : Int) < 10 ^ maxPrec := by exact_mod_cast hlt
  obtain ⟨s1, z1, m1, n1⟩ := h1.parts ha
  obtain ⟨s2, z2, m2, n2⟩ := h2.parts hb
  have hres := exact_sum signed_suber m1.digits m2.digits h1.whole h2.whole n1
    (n := (a.natAbs : Int) - b.natAbs)
    (by rw [z1, z2, Int.cast_sub, Int.cast_neg, Int.cast_one]; ring) (by omega) (by omega)
  have hval : (f1.sign : Int) * ((a.natAbs : Int) - b.natAbs) = a + b := by
    rw [s1]
    rcases lt_or_gt_of_ne ha with ha' | ha'
    · rw [Int.sign_eq_neg_one_of_neg ha'] at hopp ⊢
      have hb' : 0 < b := Int.sign_eq_one_iff_pos.mp (by omega)
      omega
    · rw [Int.sign_eq_one_of_pos ha'] at hopp ⊢
      have hb' : b < 0 := Int.sign_eq_neg_one_iff_neg.mp (by omega)
      omega
  rw [← hval]
  exact hres

theorem cfAdd_opposite {f1 f2 : CFloat} (h1 : f1.sign ≠ 0) (h2 : f2.sign ≠ 0)
    (hne : f1.sign ≠ f2.sign) : cfAdd f1 f2 = cfAdd.addOrdered f1 f2 := by
  rw [cfAdd]
  cases e1 : f1.sign <;> cases e2 : f2.sign <;>
    first | rfl | exact absurd e1 h1 | exact absurd e2 h2 | exact absurd (e1.trans e2.symm) hne

theorem exact_add {f1 f2 : CFloat} {a b : Int} (h1 : Exact f1 a) (h2 : Exact f2 b)
    (hlt : a.natAbs + b.natAbs < 10 ^ maxPrec) : Exact (cfAdd f1 f2) (a + b) := by
  by_cases ha : a = 0
  · subst ha
    rw [h1.zero, zero_add]
    by_cases hb : b = 0
    · subst hb
      rw [h2.zero]
      exact exact_alloc
    · rw [cfAdd_zero_left rfl (h2.parts hb).2.2.2]
      exact h2
  by_cases hb : b = 0
  · subst hb
    rw [h2.zero, cfAdd_zero_right (h1.parts ha).2.2.2 rfl, add_zero]
    exact h1
  obtain ⟨s1, z1, m1, n1⟩ := h1.parts ha
  obtain ⟨s2, z2, m2, n2⟩ := h2.parts hb
  by_cases hss : f1.sign = f2.sign
  · rw [cfAdd_same hss n2]
    exact exact_adder h1 h2 ha hb (by rw [← s1, ← s2, hss]) hlt
  · -- the smaller number is taken from the larger one
    have hopp : a.sign = -b.sign := by
      rw [← s1, ← s2]
      cases e1 : f1.sign <;> cases e2 : f2.sign <;>
        first | rfl | exact absurd e1 n1 | exact absurd e2 n2 | exact absurd (e1.trans e2.symm) hss
    rw [cfAdd_opposite n1 n2 hss, cfAdd.addOrdered]
    have hord := cfOrder_size m1 m2
    rw [z1, z2] at hord
    replace hord := hord.map (u := (a.natAbs : Int)) (v := (b.natAbs : Int)) Int.cast_lt Int.cast_inj
      Int.cast_lt
    by_cases hl : cfOrder f1 f2 < 0
    · rw [if_pos hl, add_comm a b]
      have := hord.1.mp hl
      exact exact_suber h2 h1 hb ha (by omega) (by omega) (by omega)
    · rw [if_neg hl]
      by_cases hgt : cfOrder f1 f2 > 0
      · rw [if_pos hgt]
        have := hord.2.2.mp hgt
        exact exact_suber h1 h2 ha hb hopp (by omega) hlt
      · rw [if_neg hgt]
        have h4 : (a.natAbs : Int) = b.natAbs := hord.2.1.mp (by omega)
        have h5 : a + b = 0 := by
          rcases lt_or_gt_of_ne ha with ha' | ha'
          · rw [Int.sign_eq_neg_one_of_neg ha'] at hopp
            have hb' : 0 < b := Int.sign_eq_one_iff_pos.mp (by omega)
            omega
          · rw [Int.sign_eq_one_of_pos ha'] at hopp
            have hb' : b < 0 := Int.sign_eq_neg_one_iff_neg.mp (by omega)
            omega
        rw [h5]
        exact exact_alloc

/-! ### a difference is a sum -/

theorem cfClean_negate (f : CFloat) : cfClean (cfNegate f) = cfNegate (cfClean f) := by
  have hm : (cfNegate f).mant = f.mant := rfl
  by_cases h : f.mant.rdropWhile (· = 0) = [] ∧ f.mant ≠ []
  · rw [cfClean, cfClean, hm]
    rw [if_pos h, if_pos h]
    rfl
  · rw [cfClean, cfClean, hm]
    rw [if_neg h, if_neg h]
    rfl

/-- the loop of `CSSum` does not look at signs -/
theorem sumLoop_negate (f1 f2 : CFloat) (arith : Int → Int → Int) (n : Nat) (pos carry : Int)
    (mant : List Int) :
    sumLoop (cfNegate f1) f2 arith n pos carry mant = sumLoop f1 f2 arith n pos carry mant ∧
      sumLoop f1 (cfNegate f2) arith n pos carry mant = sumLoop f1 f2 arith n pos carry mant := by
  induction n generalizing pos carry mant with
  | zero => exact ⟨rfl, rfl⟩
  | succ n ih =>
    constructor
    · rw [sumLoop, sumLoop, (ih _ _ _).1, (ih _ _ _).1, (ih _ _ _).1]
      rfl
    · rw [sumLoop, sumLoop, (ih _ _ _).2, (ih _ _ _).2, (ih _ _ _).2]
      rfl

theorem sumDigits_negate_left (f1 f2 : CFloat) (arith : Int → Int → Int) :
    sumDigits (cfNegate f1) f2 arith = cfNegate (sumDigits f1 f2 arith) := by
  rw [sumDigits, (sumLoop_negate f1 f2 arith _ _ _ _).1]
  rfl

theorem sumDigits_negate_right (f1 f2 : CFloat) (arith : Int → Int → Int) :
    sumDigits f1 (cfNegate f2) arith = sumDigits f1 f2 arith := by
  rw [sumDigits, (sumLoop_negate f1 f2 arith _ _ _ _).2]
  rfl

theorem cfSub_eq (f1 f2 : CFloat) : cfSub f1 f2 = cfAdd f1 (cfNegate f2) := by
  have hord : cfOrder f1 (cfNegate f2) = cfOrder f1 f2 := rfl
  have hsum : csSum (cfNegate f2) f1 suber = cfNegate (csSum f2 f1 suber) := by
    rw [csSum, sumDigits_negate_left, cfClean_negate]
    rfl
  have hright : ∀ arith, csSum f1 (cfNegate f2) arith = csSum f1 f2 arith := fun arith => by
    rw [csSum, sumDigits_negate_right]
    rfl
  have hadd : cfAdd.addOrdered f1 (cfNegate f2) = cfSub.subOrdered f1 f2 := by
    rw [cfAdd.addOrdered, cfSub.subOrdered, hord, hsum, hright]
  have hs : (cfNegate f2).sign = -f2.sign := rfl
  rw [cfSub, cfAdd, hs, hadd, hright]
  cases f1.sign <;> cases f2.sign <;> rfl

theorem exact_sub {f1 f2 : CFloat} {a b : Int} (h1 : Exact f1 a) (h2 : Exact f2 b)
    (hlt : a.natAbs + b.natAbs < 10 ^ maxPrec) : Exact (cfSub f1 f2) (a - b) := by
  rw [cfSub_eq, sub_eq_add_neg]
  exact exact_add h1 (exact_negate h2) (by rwa [Int.natAbs_neg])

/-! ## products -/

section
variable {f1 : CFloat}

theorem sum_whole {r t : CFloat} (hr : Digits 10 r.mant) (ht : Digits 10 t.mant) (wr : r.Whole)
    (wt : t.Whole) : (sumDigits r t adder).Whole := by
  obtain ⟨c, w, hm, -, -, hl, -⟩ := sumDigits_spec signed_adder hr ht
  have e : (sumDigits r t adder).exp = max r.exp t.exp + 1 := rfl
  rw [Whole] at wr wt
  rw [farRight] at hl
  rw [Whole, e, len, hm, List.length_cons]
  omega

theorem mul_whole (h1 : Digits 10 f1.mant) (w1 : f1.Whole) {p : Int} (hp : 0 ≤ p ∧ p ≤ 9)
    {byexp : Int} (he : 1 ≤ byexp) : (mulDigits f1 p byexp).Whole := by
  have hl := (mulDigits_spec h1 hp byexp).2.1
  have e : (mulDigits f1 p byexp).exp = f1.exp + byexp := rfl
  rw [Whole, len] at w1
  rw [Whole, e, len, hl]
  push_cast
  omega

/-- a round of `CFMul` is exact below `10 ^ 32` -/
theorem mulRound_exact (h1 : Digits 10 f1.mant) (hpos : 0 < f1.size) (hs : f1.sign ≠ 0)
    (w1 : f1.Whole) {p : Int} (hp : 1 ≤ p ∧ p ≤ 9) {byexp : Int} (he : 1 ≤ byexp) {r : CFloat}
    (hr : Part f1.sign r) (wr : r.Whole)
    (hlt : r.size + f1.size * (p * 10 ^ (byexp - 1)) < 10 ^ maxPrec) :
    ∃ raw : CFloat, cfAdd r (sdMul f1 p byexp) = cfClean raw ∧ Digits 10 raw.mant ∧ raw.mant ≠ [] ∧
      raw.Whole ∧ raw.size = r.size + f1.size * (p * 10 ^ (byexp - 1)) ∧
      raw = if r.sign = 0 then mulDigits f1 p byexp else sumDigits r (sdMul f1 p byexp) adder := by
  obtain ⟨raw, e, hsign, hd, hne, hraw, hcase⟩ := mulRound_part h1 hpos hs hp byexp hr
  obtain ⟨hmd, -, hms⟩ := mulDigits_spec h1 (p := p) (by omega) byexp
  have hmw := mul_whole h1 w1 (p := p) (by omega) he
  refine ⟨raw, e, hd, hne, ?_, ?_, hcase⟩
  · rcases hr with rfl | hr
    · rw [hcase]
      exact hmw
    · have hrs := size_nonneg hr.2.1
      obtain ⟨-, -, hw⟩ := clean_whole hmd (mulDigits_ne_nil h1 (by omega) byexp) hmw
        (by rw [hms]; linarith)
      rw [hcase, if_neg (by rw [hr.1]; exact hs)]
      exact sum_whole hr.2.1 (part_clean hmd (mulDigits_pos h1 hpos hp byexp)).2.1.digits wr hw
  · rcases hr with rfl | hr
    · rw [hcase, size_alloc, zero_add]
      exact hms
    · have hrs := size_nonneg hr.2.1
      obtain ⟨-, hsz, -⟩ := clean_whole hmd (mulDigits_ne_nil h1 (by omega) byexp) hmw
        (by rw [hms]; linarith)
      have htd : Digits 10 (sdMul f1 p byexp).mant :=
        (part_clean hmd (mulDigits_pos h1 hpos hp byexp)).2.1.digits
      rw [hcase, if_neg (by rw [hr.1]; exact hs), adder_size hr.2.1 htd]
      show r.size + (cfClean (mulDigits f1 p byexp)).size = _
      rw [hsz, hms]

theorem mulRounds_exact (h1 : Digits 10 f1.mant) (hpos : 0 < f1.size) (hs : f1.sign ≠ 0)
    (w1 : f1.Whole) {ds : List Int} (hd : Digits 10 ds) {f2exp : Int} (he : 1 ≤ f2exp) {r : CFloat}
    (hr : Part f1.sign r) (wr : r.Whole)
    (hlt : r.size + f1.size * (val 10 ds.reverse * 10 ^ (f2exp - 1)) < 10 ^ maxPrec) :
    (mulRounds f1 ds f2exp r).Whole ∧ (mulRounds f1 ds f2exp r).size
      = r.size + f1.size * (val 10 ds.reverse * 10 ^ (f2exp - 1)) := by
  induction ds generalizing f2exp r with
  | nil => exact ⟨wr, by simp [mulRounds]⟩
  | cons d ds ih =>
    obtain ⟨hd0, hds⟩ := digits_cons.mp hd
    have hrev : (val 10 (d :: ds).reverse : ℚ) * 10 ^ (f2exp - 1)
        = d * 10 ^ (f2exp - 1) + val 10 ds.reverse * 10 ^ (f2exp + 1 - 1) := by
      have e1 : (10 : ℚ) ^ (f2exp + 1 - 1) = 10 ^ (f2exp - 1) * 10 := by
        rw [← zpow_add_one₀ (by norm_num)]
        congr 1
        ring
      rw [e1, List.reverse_cons, val_append]
      simp only [List.length_singleton, val_cons, List.length_nil, val_nil]
      push_cast
      ring
    rw [hrev, mul_add, ← add_assoc] at hlt ⊢
    have hnn : (0 : ℚ) ≤ f1.size * (val 10 ds.reverse * 10 ^ (f2exp + 1 - 1)) := by
      have h0 : (0 : ℚ) ≤ (val 10 ds.reverse : ℚ) := by
        exact_mod_cast val_nonneg (b := 10) (by norm_num) fun x hx => hds x (List.mem_reverse.mp hx)
      positivity
    have hpart := mulRound h1 hpos hs (p := d) (by omega) f2exp hr
    -- the round keeps the number whole and adds the digit
    have hround : (cfAdd r (sdMul f1 d f2exp)).Whole ∧ (cfAdd r (sdMul f1 d f2exp)).size
        = r.size + f1.size * (d * 10 ^ (f2exp - 1)) := by
      by_cases h0 : d = 0
      · rw [h0, sdMul_zero h1, Int.cast_zero, zero_mul, mul_zero, add_zero]
        rcases hr with rfl | hr
        · exact ⟨whole_alloc, rfl⟩
        · rw [cfAdd_zero_right (by rw [hr.1]; exact hs) rfl]
          exact ⟨wr, rfl⟩
      · obtain ⟨raw, e, hrd, hrne, hrw, hrs, -⟩ := mulRound_exact h1 hpos hs w1
          (show 1 ≤ d ∧ d ≤ 9 by omega) he hr wr (by linarith)
        obtain ⟨-, hsz, hwh⟩ := clean_whole hrd hrne hrw (by rw [hrs]; linarith)
        rw [e, hsz, hrs]
        exact ⟨hwh, rfl⟩
    obtain ⟨hw2, hs2⟩ := ih hds (show 1 ≤ f2exp + 1 by omega) hpart hround.1 (by rw [hround.2]; exact hlt)
    rw [hround.2] at hs2
    exact ⟨hw2, hs2⟩

end

/-- the last number that `CFMul` cleans is the product -/
theorem mulLast_exact {f1 f2 : CFloat} (h1 : Leading f1.mant) (h2 : Leading f2.mant)
    (s1 : f1.sign ≠ 0) (w1 : f1.Whole) (w2 : f2.Whole)
    (hlt : f1.size * f2.size < 10 ^ maxPrec) :
    Digits 10 (mulLast f1 f2).mant ∧ (mulLast f1 f2).mant ≠ [] ∧ (mulLast f1 f2).Whole ∧
      (mulLast f1 f2).size = f1.size * f2.size := by
  obtain ⟨d, l, hm, hd, hl⟩ := h2.cons
  have hpos := leading_pos h1
  have hlr : Digits 10 l.reverse := fun x hx => hl x (List.mem_reverse.mp hx)
  have hexp : f2.exp - f2.len + 1 = f2.exp - l.length := by
    rw [len, hm, List.length_cons]
    push_cast
    ring
  have hsize : f2.size = d * 10 ^ (f2.exp - 1) + val 10 l * 10 ^ (f2.exp - l.length - 1) := by
    have e1 : f2.exp - f2.len = f2.exp - l.length - 1 := by omega
    have e2 : (10 : ℚ) ^ (f2.exp - 1) = 10 ^ l.length * 10 ^ (f2.exp - l.length - 1) := by
      rw [← zpow_natCast, ← zpow_add₀ (by norm_num)]
      congr 1
      ring
    rw [size, e1, hm, val_cons, e2]
    push_cast
    ring
  rw [Whole] at w2
  have hd1 : (1 : ℚ) ≤ d := by exact_mod_cast hd.1
  have hfirst : (0 : ℚ) < f1.size * (d * 10 ^ (f2.exp - 1)) := by positivity
  rw [hsize, mul_add] at hlt
  obtain ⟨hw, hs⟩ := mulRounds_exact h1.digits hpos s1 w1 hlr
    (show 1 ≤ f2.exp - l.length by omega) (r := cfAlloc) (Or.inl rfl) whole_alloc (by
      rw [List.reverse_reverse, size_alloc, zero_add]
      linarith)
  have hpart := mulRounds_part h1.digits hpos s1 hlr (f2.exp - l.length) (r := cfAlloc) (Or.inl rfl)
  rw [List.reverse_reverse, size_alloc, zero_add] at hs
  obtain ⟨raw, -, hrd, hrne, hrw, hrs, hcase⟩ := mulRound_exact h1.digits hpos s1 w1 hd
    (show 1 ≤ f2.exp by omega) hpart hw (by rw [hs]; linarith)
  have hlast : mulLast f1 f2 = raw := by
    rw [hcase, mulLast, mulPartial, hm, hexp]
    rfl
  rw [hlast, hrs, hs, hsize]
  exact ⟨hrd, hrne, hrw, by ring⟩

theorem exact_mul {f1 f2 : CFloat} {a b : Int} (h1 : Exact f1 a) (h2 : Exact f2 b)
    (hlt : a.natAbs * b.natAbs < 10 ^ maxPrec) : Exact (cfMul f1 f2) (a * b) := by
  by_cases ha : a = 0
  · subst ha
    have e : cfMul f1 f2 = cfAlloc := by
      rw [h1.zero, cfMul]
      exact if_neg (not_not_intro (zero_mul _))
    rw [e, zero_mul]
    exact exact_alloc
  by_cases hb : b = 0
  · subst hb
    have e : cfMul f1 f2 = cfAlloc := by
      rw [h2.zero, cfMul]
      exact if_neg (not_not_intro (mul_zero _))
    rw [e, mul_zero]
    exact exact_alloc
  obtain ⟨s1, z1, m1, n1⟩ := h1.parts ha
  obtain ⟨s2, z2, m2, n2⟩ := h2.parts hb
  have hprod : f1.size * f2.size = (((a.natAbs : Int) * b.natAbs : Int) : ℚ) := by
    rw [z1, z2, Int.cast_mul]
  have hq : f1.size * f2.size < 10 ^ maxPrec := by
    rw [hprod]
    exact_mod_cast hlt
  obtain ⟨hrd, hrne, hrw, hrs⟩ := mulLast_exact m1.leading m2.leading n1 h1.whole h2.whole hq
  obtain ⟨hmul, -, -, hpos⟩ := mulRounds_spec m1.leading m2.leading n1 n2
  obtain ⟨hshort, hsz, hwh⟩ := clean_whole hrd hrne hrw (by rw [hrs]; exact hq)
  have hstrip := strip_ne_nil hpos
  have hmant : (cfMul f1 f2).mant = (strip (mulLast f1 f2).mant).take maxPrec := by
    rw [hmul, cfClean_eq hstrip]
  rw [hmul]
  refine ⟨Or.inr ⟨mul_ne_zero n1 n2, ?_⟩, hwh, ?_⟩
  · show Mantissa (cfClean (mulLast f1 f2)).mant
    rw [hmul] at hmant
    rw [hmant]
    exact (take_mantissa hrd hstrip).mpr fun hc => absurd hc.1 (by omega)
  · have hsz2 : CFloat.size { cfClean (mulLast f1 f2) with sign := f1.sign * f2.sign }
        = (cfClean (mulLast f1 f2)).size := rfl
    rw [value, hsz2, hsz, hrs, hprod]
    have hsg : ((f1.sign * f2.sign : SignType) : Int) = a.sign * b.sign := by
      rw [← s1, ← s2]
      cases f1.sign <;> cases f2.sign <;> rfl
    show (((f1.sign * f2.sign : SignType) : Int) : ℚ) * _ = _
    rw [hsg, ← Int.cast_mul]
    congr 1
    calc a.sign * b.sign * (a.natAbs * b.natAbs)
        = (a.sign * a.natAbs) * (b.sign * b.natAbs) := by ring
      _ = a * b := by rw [Int.sign_mul_natAbs, Int.sign_mul_natAbs]

/-- `CFClean` keeps the exponent above the number, also when it cuts -/
theorem clean_exp {f : CFloat} (hd : Digits 10 f.mant) (hpos : 0 < f.size) :
    f.size < 10 ^ (cfClean f).exp := by
  have h0 := strip_ne_nil hpos
  have hle : (strip f.mant).length ≤ (f.mant.rdropWhile (· = 0)).length :=
    (List.dropWhile_sublist _).length_le
  have hle2 : (f.mant.rdropWhile (· = 0)).length ≤ f.mant.length :=
    (List.rdropWhile_prefix _ _).sublist.length_le
  have hexp : (cfClean f).exp
      = f.exp - ((f.mant.rdropWhile (· = 0)).length - (strip f.mant).length : Nat) := by
    rw [cfClean_eq h0]
  have hlt := val_lt (b := 10) (by norm_num) (strip_digits hd)
  have hq : (val 10 (strip f.mant) : ℚ) < 10 ^ (strip f.mant).length := by exact_mod_cast hlt
  have e1 : val 10 (strip f.mant) = val 10 (f.mant.rdropWhile (· = 0)) := val_strip_left _
  rw [e1] at hq
  have hp : (0 : ℚ) < 10 ^ (f.exp - (f.mant.rdropWhile (· = 0)).length) := by positivity
  have hsize : f.size = val 10 (f.mant.rdropWhile (· = 0))
      * 10 ^ (f.exp - (f.mant.rdropWhile (· = 0)).length) := by
    rw [size, val_strip_right f.mant, Int.cast_mul, Int.cast_pow, mul_assoc, Int.cast_ofNat,
      ← zpow_natCast, ← zpow_add₀ (by norm_num), len]
    congr 2
    omega
  have hbig : (10 : ℚ) ^ (cfClean f).exp
      = 10 ^ (strip f.mant).length * 10 ^ (f.exp - (f.mant.rdropWhile (· = 0)).length) := by
    rw [hexp, ← zpow_natCast, ← zpow_add₀ (by norm_num)]
    congr 1
    omega
  rw [hsize, hbig]
  exact mul_lt_mul_of_pos_right hq hp

/-- a product of at least `10 ^ 32` keeps an exponent of 32, whatever is cut off -/
theorem cfMul_exp {f1 f2 : CFloat} (h1 : Leading f1.mant) (h2 : Leading f2.mant)
    (s1 : f1.sign ≠ 0) (s2 : f2.sign ≠ 0) (hlen : f1.mant.length < maxPrec)
    (hbig : 10 ^ maxPrec ≤ f1.size * f2.size) : (maxPrec : Int) ≤ (cfMul f1 f2).exp := by
  obtain ⟨d, l, hm, hd, hl⟩ := h2.cons
  obtain ⟨hmul, hrd, -, hpos⟩ := mulRounds_spec h1 h2 s1 s2
  obtain ⟨hmd, hml, hms⟩ := mulDigits_spec h1.digits (p := d) (by omega) f2.exp
  have hexp : (cfMul f1 f2).exp = (cfClean (mulLast f1 f2)).exp := by rw [hmul]
  have hclean := clean_exp hrd hpos
  -- the first digit of `f2` gives at least half of the product
  have hhalf : f2.size ≤ 2 * (d * 10 ^ (f2.exp - 1)) := by
    have hlq : (val 10 l : ℚ) ≤ 10 ^ l.length := by
      exact_mod_cast (val_lt (b := 10) (by norm_num) hl).le
    have hd1 : (1 : ℚ) ≤ d := by exact_mod_cast hd.1
    have hp : (0 : ℚ) < 10 ^ (f2.exp - l.length - 1) := by positivity
    have e1 : f2.exp - f2.len = f2.exp - l.length - 1 := by
      rw [len, hm, List.length_cons]
      push_cast
      ring
    have e2 : (10 : ℚ) ^ (f2.exp - 1) = 10 ^ l.length * 10 ^ (f2.exp - l.length - 1) := by
      rw [← zpow_natCast, ← zpow_add₀ (by norm_num)]
      congr 1
      ring
    have hpl : (0 : ℚ) < 10 ^ l.length := by positivity
    have e3 : ((d * 10 ^ l.length + val 10 l : Int) : ℚ) ≤ 2 * (d * 10 ^ l.length) := by
      push_cast
      nlinarith
    rw [size, e1, hm, val_cons, e2]
    calc ((d * 10 ^ l.length + val 10 l : Int) : ℚ) * 10 ^ (f2.exp - l.length - 1)
        ≤ 2 * (d * 10 ^ l.length) * 10 ^ (f2.exp - l.length - 1) :=
          mul_le_mul_of_nonneg_right e3 hp.le
      _ = 2 * (d * (10 ^ l.length * 10 ^ (f2.exp - l.length - 1))) := by ring
  have hlast : (mulDigits f1 d f2.exp).size ≤ (mulLast f1 f2).size := by
    have e : mulLast f1 f2 = if (mulPartial f1 f2).sign = 0 then mulDigits f1 d f2.exp
        else sumDigits (mulPartial f1 f2) (sdMul f1 d f2.exp) adder := by
      rw [mulLast, hm]
      rfl
    have hlr : Digits 10 l.reverse := fun x hx => hl x (List.mem_reverse.mp hx)
    have hpart : Part f1.sign (mulPartial f1 f2) := by
      rw [mulPartial, hm]
      exact mulRounds_part h1.digits (leading_pos h1) s1 hlr _ (Or.inl rfl)
    have hshort : (strip (mulDigits f1 d f2.exp).mant).length ≤ maxPrec := by
      have := strip_length_le (mulDigits f1 d f2.exp).mant
      omega
    have hne := mulDigits_ne_nil h1.digits (p := d) (by omega) f2.exp
    have hsz : (sdMul f1 d f2.exp).size = (mulDigits f1 d f2.exp).size := cfClean_size hne hshort
    have htd : Digits 10 (sdMul f1 d f2.exp).mant :=
      (part_clean hmd (mulDigits_pos h1.digits (leading_pos h1) hd f2.exp)).2.1.digits
    rw [e]
    split
    · exact le_refl _
    · have := size_nonneg hpart.digits
      rw [adder_size hpart.digits htd, hsz]
      linarith
  have hf1 := leading_pos h1
  have h3 : f1.size * f2.size ≤ f1.size * (2 * (d * 10 ^ (f2.exp - 1))) :=
    mul_le_mul_of_nonneg_left hhalf hf1.le
  have h4 : (10 : ℚ) ^ ((maxPrec : Int) - 1) < 10 ^ (cfMul f1 f2).exp := by
    rw [hexp]
    refine lt_of_le_of_lt ?_ hclean
    refine le_trans ?_ hlast
    rw [hms]
    have e : (10 : ℚ) ^ maxPrec = 10 * 10 ^ ((maxPrec : Int) - 1) := by norm_num [maxPrec]
    rw [e] at hbig
    have hp : (0 : ℚ) < 10 ^ ((maxPrec : Int) - 1) := by positivity
    linarith
  have h5 := (zpow_lt_zpow_iff_right₀ (by norm_num : (1 : ℚ) < 10)).mp h4
  omega

/-! ## conversions -/

theorem longDigits_spec (n : Nat) {d : Nat} (hlt : d < 10 ^ n) (digits : List Int) :
    ∃ w, longDigits n d digits = w ++ digits ∧ Digits 10 w ∧ val 10 w = d := by
  induction n generalizing d digits with
  | zero =>
    have h0 : d = 0 := by omega
    exact ⟨[], rfl, digits_nil, by rw [h0]; rfl⟩
  | succ n ih =>
    by_cases h0 : d = 0
    · rw [longDigits, if_neg (not_not_intro h0), h0]
      exact ⟨[], rfl, digits_nil, rfl⟩
    · rw [longDigits, if_pos h0]
      obtain ⟨w, e, hw, hv⟩ := ih (d := d / 10) (by rw [pow_succ] at hlt; omega)
        (((d % 10 : Nat) : Int) :: digits)
      refine ⟨w ++ [((d % 10 : Nat) : Int)], ?_, ?_, ?_⟩
      · rw [e, List.append_assoc]
        rfl
      · exact digits_append.mpr ⟨hw, digits_cons.mpr ⟨⟨by omega, by omega⟩, digits_nil⟩⟩
      · rw [val_append, hv]
        simp only [List.length_singleton, val_cons, List.length_nil, val_nil]
        push_cast
        omega

/-- the digits of a number from 1 to `10 ^ 10` under a sign -/
theorem exact_digits {s : SignType} (hs : s ≠ 0) {d : Nat} (h0 : d ≠ 0) (hlt : d < 10 ^ 10) :
    Exact (cfClean ⟨(longDigits 10 d []).length, s, longDigits 10 d []⟩) ((s : Int) * d) := by
  obtain ⟨w, e, hw, hv⟩ := longDigits_spec 10 hlt []
  rw [List.append_nil] at e
  rw [e]
  have hne : w ≠ [] := by
    rintro rfl
    rw [val_nil] at hv
    omega
  refine exact_clean (f := ⟨w.length, s, w⟩) hw hne hs (by simp [Whole, len]) ?_ ?_
  · rw [size, hv]
    simp [len]
  · have h1 : (d : Int) < 10 ^ 10 := by exact_mod_cast hlt
    have h2 : (10 : Int) ^ 10 < 10 ^ maxPrec := by norm_num [maxPrec]
    omega

theorem exact_cnvU32F (x : BitVec 32) : Exact (cfCnvU32F x) x.toNat := by
  rw [cfCnvU32F, cfCnvLongToF]
  by_cases h0 : x = 0
  · rw [if_pos h0, h0]
    exact exact_alloc
  · rw [if_neg h0, if_neg (by simp)]
    have hx : x.toNat ≠ 0 := fun h => h0 (BitVec.eq_of_toNat_eq h)
    have hlt := x.isLt
    have h := exact_digits (s := 1) (by decide) hx (by omega)
    have e : ((1 : SignType) : Int) * (x.toNat : Int) = x.toNat := one_mul _
    rw [e] at h
    exact h

theorem exact_cnvI32F (x : BitVec 32) : Exact (cfCnvI32F x) x.toInt := by
  have hlt := x.isLt
  have hi := BitVec.toInt_eq_toNat_cond x
  rw [cfCnvI32F, cfCnvLongToF]
  by_cases h0 : x = 0
  · rw [if_pos h0, h0]
    exact exact_alloc
  · rw [if_neg h0]
    have hx : x.toNat ≠ 0 := fun h => h0 (BitVec.eq_of_toNat_eq h)
    have hneg : (-x).toNat = 2 ^ 32 - x.toNat := by
      rw [BitVec.toNat_neg]
      omega
    by_cases hmin : -x = x
    · rw [if_pos ⟨rfl, hmin⟩]
      have hxv : x.toNat = 2 ^ 31 := by
        rw [hmin] at hneg
        omega
      have hv : x.toInt = -2147483648 := by
        rw [hi, hxv]
        norm_num
      rw [hv]
      refine ⟨Or.inr ⟨by decide, ⟨by decide, by decide, by decide, by decide, by decide⟩⟩, by decide, ?_⟩
      have e : val 10 maxNegI32.mant = 2147483648 := by decide
      show (((maxNegI32.sign : SignType) : Int) : ℚ) * ((val 10 maxNegI32.mant : ℚ) * 10 ^ ((10 : Int) - (10 : Nat))) = _
      rw [e]
      norm_num [maxNegI32]
    · rw [if_neg (fun h => hmin h.2)]
      by_cases hn : x.toInt < 0
      · have hd : decide (true = true ∧ x.toInt < 0) = true := by simp [hn]
        rw [hd]
        have hx2 : (-x).toNat ≠ 0 := by omega
        have h := exact_digits (s := -1) (by decide) hx2 (by omega)
        have e : (((-1 : SignType)) : Int) * ((-x).toNat : Int) = x.toInt := by
          show (-1 : Int) * _ = _
          omega
        rw [e] at h
        exact h
      · have hd : decide (true = true ∧ x.toInt < 0) = false := by simp [hn]
        rw [hd]
        have h := exact_digits (s := 1) (by decide) hx (by omega)
        have e : ((1 : SignType) : Int) * (x.toNat : Int) = x.toInt := by
          show (1 : Int) * _ = _
          omega
        rw [e] at h
        exact h

theorem exact_high64Mult : Exact high64Mult (2 ^ 32) := by
  refine ⟨Or.inr ⟨by decide, ⟨by decide, by decide, by decide, by decide, by decide⟩⟩, by decide, ?_⟩
  have e : val 10 high64Mult.mant = 4294967296 := by decide
  show (((high64Mult.sign : SignType) : Int) : ℚ) * ((val 10 high64Mult.mant : ℚ) * 10 ^ ((10 : Int) - (10 : Nat))) = _
  rw [e]
  norm_num [high64Mult]

theorem exact_cnvU64F (lo hi : BitVec 32) :
    Exact (cfCnvU64F lo hi) (hi.toNat * 2 ^ 32 + lo.toNat) := by
  have h1 := lo.isLt
  have h2 := hi.isLt
  have hbig : 2 ^ 64 < 10 ^ maxPrec := by norm_num [maxPrec]
  refine exact_add (exact_mul (exact_cnvU32F hi) exact_high64Mult ?_) (exact_cnvU32F lo) ?_
  · have e : (hi.toNat : Int).natAbs * ((2 : Int) ^ 32).natAbs = hi.toNat * 2 ^ 32 := rfl
    rw [e]
    omega
  · have e : ((hi.toNat : Int) * 2 ^ 32).natAbs + (lo.toNat : Int).natAbs
        = hi.toNat * 2 ^ 32 + lo.toNat := by omega
    rw [e]
    omega

/-- the 64 bits that `CFCnvI64F` is given -/
theorem exact_cnvI64F (lo hi : BitVec 32) :
    Exact (cfCnvI64F lo hi) (hi.toInt * 2 ^ 32 + lo.toNat) := by
  have h1 := lo.isLt
  have h2 := hi.isLt
  have hi2 := BitVec.toInt_eq_toNat_cond hi
  rw [cfCnvI64F]
  by_cases hm : hi.msb = true
  · rw [if_pos hm]
    have hge : 2 ^ 31 ≤ hi.toNat := by
      rw [BitVec.msb_eq_decide, decide_eq_true_iff] at hm
      exact hm
    have hl : (~~~lo + 1).toNat = (2 ^ 32 - lo.toNat) % 2 ^ 32 := by
      rw [BitVec.toNat_add, BitVec.toNat_not]
      show (2 ^ 32 - 1 - lo.toNat + 1) % 2 ^ 32 = _
      congr 1
      omega
    have hh1 : (~~~hi + 1).toNat = 2 ^ 32 - hi.toNat := by
      rw [BitVec.toNat_add, BitVec.toNat_not]
      show (2 ^ 32 - 1 - hi.toNat + 1) % 2 ^ 32 = _
      omega
    have hh0 : (~~~hi).toNat = 2 ^ 32 - 1 - hi.toNat := BitVec.toNat_not
    have hzero : ~~~lo + 1 = 0 ↔ lo.toNat = 0 := by
      rw [← BitVec.toNat_inj, hl]
      show (2 ^ 32 - lo.toNat) % 2 ^ 32 = 0 ↔ _
      omega
    dsimp only
    have hu := exact_cnvU64F (~~~lo + 1) (if ~~~lo + 1 = 0 then ~~~hi + 1 else ~~~hi)
    have hv : (((if ~~~lo + 1 = 0 then ~~~hi + 1 else ~~~hi).toNat : Int) * 2 ^ 32
        + (~~~lo + 1).toNat : Int) = -(hi.toInt * 2 ^ 32 + lo.toNat) := by
      by_cases hz : ~~~lo + 1 = 0
      · rw [if_pos hz, hh1, hl]
        have := hzero.mp hz
        omega
      · rw [if_neg hz, hh0, hl]
        have : lo.toNat ≠ 0 := fun h => hz (hzero.mpr h)
        omega
    rw [hv] at hu
    have hne : -(hi.toInt * 2 ^ 32 + lo.toNat) ≠ 0 := by omega
    -- the number was positive, and the sign is set
    have hpos := (hu.parts hne).1
    have hsp : (cfCnvU64F (~~~lo + 1) (if ~~~lo + 1 = 0 then ~~~hi + 1 else ~~~hi)).sign = 1 := by
      rw [Int.sign_eq_one_of_pos (by omega)] at hpos
      revert hpos
      cases (cfCnvU64F (~~~lo + 1) (if ~~~lo + 1 = 0 then ~~~hi + 1 else ~~~hi)).sign <;> decide
    have hneg := exact_negate hu
    rw [neg_neg, cfNegate, hsp] at hneg
    exact hneg
  · rw [if_neg hm]
    have hlt : hi.toNat < 2 ^ 31 := by
      rw [BitVec.msb_eq_decide, decide_eq_true_iff] at hm
      omega
    have hv : hi.toInt = hi.toNat := by
      rw [hi2, if_pos (by omega)]
    rw [hv]
    exact exact_cnvU64F lo hi

end CFloat
