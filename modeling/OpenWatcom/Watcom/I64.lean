import Mathlib.Data.BitVec
import Mathlib.Tactic.Ring

/-!
# 64-bit arithmetic in two halves

The functions of `i64.c`, which work on the two 32-bit halves of a number, and the arithmetic that
they compute.

* `u64Neg_eq`, `u64Add_eq`, `u64Sub_eq`, `u64Mul_eq`   arithmetic modulo `2 ^ 64`;
* `u64Div_eq`, `i64Div_eq`     both results of a division by a number other than zero;
* `u64Cmp_eq`, `i64Cmp_eq`     the comparisons;
* `u64ShiftR_eq`, `i64ShiftR_eq`, `u64ShiftL_eq`   the shifts by less than 64.
-/

namespace I64

/-- `unsigned_64` and `signed_64` -/
abbrev U64 := BitVec 64

/-- `u._32[L]` -/
def lo (a : U64) : BitVec 32 := a.extractLsb' 0 32

/-- `u._32[H]` -/
def hi (a : U64) : BitVec 32 := a.extractLsb' 32 32

def mk (h l : BitVec 32) : U64 := h ++ l

/-! ## halves -/

theorem mk_toNat (h l : BitVec 32) : (mk h l).toNat = h.toNat * 2 ^ 32 + l.toNat := by
  rw [mk, BitVec.toNat_append, ← Nat.shiftLeft_add_eq_or_of_lt l.isLt, Nat.shiftLeft_eq]

theorem lo_toNat (a : U64) : (lo a).toNat = a.toNat % 2 ^ 32 := by
  rw [lo, BitVec.extractLsb'_toNat, Nat.shiftRight_zero]

theorem hi_toNat (a : U64) : (hi a).toNat = a.toNat / 2 ^ 32 := by
  have h := a.isLt
  rw [hi, BitVec.extractLsb'_toNat, Nat.shiftRight_eq_div_pow]
  omega

theorem halves (a : U64) : a.toNat = (hi a).toNat * 2 ^ 32 + (lo a).toNat := by
  rw [hi_toNat, lo_toNat]
  omega

theorem eq_iff (a b : U64) : a = b ↔ hi a = hi b ∧ lo a = lo b := by
  refine ⟨fun h => by rw [h]; exact ⟨rfl, rfl⟩, fun ⟨h1, h2⟩ => BitVec.eq_of_toNat_eq ?_⟩
  rw [halves a, halves b, h1, h2]

theorem hi_signed (a : U64) : (hi a).toInt = a.toInt / 2 ^ 32 := by
  have h := a.isLt
  have e := hi_toNat a
  rw [BitVec.toInt_eq_toNat_cond, BitVec.toInt_eq_toNat_cond]
  omega

/-! ## the functions -/

/-- `U64Not` -/
def u64Not (a : U64) : U64 := mk (~~~hi a) (~~~lo a)

/-- `U64Inc` -/
def u64Inc (a : U64) : U64 := if lo a + 1 = 0 then mk (hi a + 1) (lo a + 1) else mk (hi a) (lo a + 1)

def u64Neg (a : U64) : U64 := u64Inc (u64Not a)

def u64Add (a b : U64) : U64 :=
  let newValue := lo a + lo b
  if newValue < lo a then mk (hi a + hi b + 1) newValue else mk (hi a + hi b) newValue

def u64Sub (a b : U64) : U64 := u64Add a (u64Neg b)

def u64IsZero (a : U64) : Bool := lo a ||| hi a = 0
def u64IsntZero (a : U64) : Bool := lo a ||| hi a ≠ 0
def u64IsEq (a b : U64) : Bool := lo a = lo b ∧ hi a = hi b
def i64IsNeg (a : U64) : Bool := a.msb

def u64And (a b : U64) : U64 := mk (hi a &&& hi b) (lo a &&& lo b)
def u64Or (a b : U64) : U64 := mk (hi a ||| hi b) (lo a ||| lo b)
def u64Xor (a b : U64) : U64 := mk (hi a ^^^ hi b) (lo a ^^^ lo b)

/-- `Set64ValU32` of a truth value -/
def ofBool (b : Bool) : U64 := mk 0 (if b then 1 else 0)

def u64Cmp (a b : U64) : Int :=
  if hi a > hi b then 1
  else if hi a < hi b then -1
  else if lo a > lo b then 1
  else if lo a < lo b then -1
  else 0

def i64Cmp (a b : U64) : Int :=
  if (hi a).toInt > (hi b).toInt then 1
  else if (hi a).toInt < (hi b).toInt then -1
  else if lo a > lo b then 1
  else if lo a < lo b then -1
  else 0

/-- `U64CmpU32` -/
def u64CmpU32 (a : U64) (b : BitVec 32) : Int :=
  if hi a ≠ 0 then 1 else if lo a < b then -1 else if lo a ≠ b then 1 else 0

def i64ShiftR (a : U64) (shift : Nat) : U64 :=
  let shift := shift % 64
  if shift < 32 then
    mk ((hi a).sshiftRight shift) ((lo a >>> shift) ||| ((hi a <<< 1) <<< (31 - shift)))
  else mk (if (hi a).toInt < 0 then -1 else 0) ((hi a).sshiftRight (shift - 32))

def u64ShiftR (a : U64) (shift : Nat) : U64 :=
  let shift := shift % 64
  if shift < 32 then
    mk (hi a >>> shift) ((lo a >>> shift) ||| ((hi a <<< 1) <<< (31 - shift)))
  else mk 0 (hi a >>> (shift - 32))

def u64ShiftL (a : U64) (shift : Nat) : U64 :=
  let shift := shift % 64
  if shift < 32 then
    mk ((hi a <<< shift) ||| ((lo a >>> 1) >>> (31 - shift))) (lo a <<< shift)
  else mk (lo a <<< (shift - 32)) 0

/-- the loop of `U64Mul`: at most 64 rounds -/
def mulLoop : Nat → U64 → U64 → U64 → U64
  | 0, res, _, _ => res
  | n + 1, res, a, b =>
    if u64IsntZero b then
      mulLoop n (if lo b &&& 1 ≠ 0 then u64Add res a else res) (u64ShiftL a 1) (u64ShiftR b 1)
    else res

def u64Mul (a b : U64) : U64 := mulLoop 64 0 a b

/-- the first loop of `U64Div`: `tmp_b` is shifted up; at most 64 rounds -/
def alignLoop : Nat → U64 → U64 → Nat → U64 × Nat
  | 0, _, b, count => (b, count)
  | n + 1, a, b, count =>
    if i64IsNeg b then (b, count)
    else if u64Cmp a b ≤ 0 then (b, count)
    else alignLoop n a (u64ShiftL b 1) (count + 1)

/-- the second loop of `U64Div`, with `count + 1` rounds: the quotient and the remainder -/
def divLoop : Nat → U64 → U64 → U64 → U64 × U64
  | 0, div, a, _ => (div, a)
  | n + 1, div, a, b =>
    let div := u64ShiftL div 1
    if u64Cmp a b ≥ 0 then divLoop n (mk (hi div) (lo div ||| 1)) (u64Sub a b) (u64ShiftR b 1)
    else divLoop n div a (u64ShiftR b 1)

/-- `U64Div`: the quotient and the remainder -/
def u64Div (a b : U64) : U64 × U64 :=
  if hi a = 0 ∧ hi b = 0 then (mk 0 (lo a / lo b), mk 0 (lo a % lo b))
  else
    let r := alignLoop 64 a b 0
    divLoop (r.2 + 1) 0 a r.1

/-- `I64Div`: the quotient and the remainder -/
def i64Div (a b : U64) : U64 × U64 :=
  let tmpA := if i64IsNeg a then u64Neg a else a
  let tmpB := if i64IsNeg b then u64Neg b else b
  let r := u64Div tmpA tmpB
  (if i64IsNeg a ≠ i64IsNeg b then u64Neg r.1 else r.1, if i64IsNeg a then u64Neg r.2 else r.2)

/-! ## sums -/

theorem u64Not_eq (a : U64) : u64Not a = ~~~a := by
  apply BitVec.eq_of_toNat_eq
  have h := a.isLt
  have h1 := hi_toNat a
  have h2 := lo_toNat a
  rw [u64Not, mk_toNat, BitVec.toNat_not, BitVec.toNat_not, BitVec.toNat_not]
  omega

theorem add_one_toNat (x : BitVec 32) : (x + 1).toNat = (x.toNat + 1) % 2 ^ 32 := BitVec.toNat_add x 1

theorem u64Inc_eq (a : U64) : u64Inc a = a + 1 := by
  apply BitVec.eq_of_toNat_eq
  have h := a.isLt
  have h1 := hi_toNat a
  have h2 := lo_toNat a
  have e : (a + 1).toNat = (a.toNat + 1) % 2 ^ 64 := BitVec.toNat_add a 1
  have hc : lo a + 1 = 0 ↔ (lo a).toNat + 1 = 2 ^ 32 := by
    have hl := (lo a).isLt
    rw [← BitVec.toNat_inj, add_one_toNat]
    show (_ % _ = 0) ↔ _
    omega
  rw [u64Inc, e]
  split
  · next hz =>
    have hz' := hc.mp hz
    rw [mk_toNat, add_one_toNat, add_one_toNat]
    omega
  · next hz =>
    have hz' := mt hc.mpr hz
    rw [mk_toNat, add_one_toNat]
    omega

theorem u64Neg_eq (a : U64) : u64Neg a = -a := by
  rw [u64Neg, u64Not_eq, u64Inc_eq, BitVec.neg_eq_not_add]
  rfl

theorem u64Add_eq (a b : U64) : u64Add a b = a + b := by
  apply BitVec.eq_of_toNat_eq
  have ha := halves a
  have hb := halves b
  have h1 := (hi a).isLt
  have h2 := (lo a).isLt
  have h3 := (hi b).isLt
  have h4 := (lo b).isLt
  rw [u64Add, BitVec.toNat_add]
  split
  · next hc =>
    have hc' : (lo a + lo b).toNat < (lo a).toNat := hc
    rw [BitVec.toNat_add] at hc'
    rw [mk_toNat, add_one_toNat, BitVec.toNat_add, BitVec.toNat_add]
    omega
  · next hc =>
    have hc' : ¬ (lo a + lo b).toNat < (lo a).toNat := hc
    rw [BitVec.toNat_add] at hc'
    rw [mk_toNat, BitVec.toNat_add, BitVec.toNat_add]
    omega

theorem u64Sub_eq (a b : U64) : u64Sub a b = a - b := by
  rw [u64Sub, u64Add_eq, u64Neg_eq, BitVec.sub_eq_add_neg]

/-! ## tests and bits -/

theorem or_eq_zero_iff (x y : BitVec 32) : x ||| y = 0 ↔ x = 0 ∧ y = 0 := BitVec.or_eq_zero_iff

theorem zero_iff (a : U64) : lo a ||| hi a = 0 ↔ a = 0 := by
  rw [or_eq_zero_iff, eq_iff, and_comm]
  exact Iff.rfl

theorem u64IsZero_eq (a : U64) : u64IsZero a = decide (a = 0) := decide_eq_decide.mpr (zero_iff a)

theorem u64IsntZero_eq (a : U64) : u64IsntZero a = decide (a ≠ 0) :=
  decide_eq_decide.mpr (not_congr (zero_iff a))

theorem u64IsEq_eq (a b : U64) : u64IsEq a b = decide (a = b) := by
  apply decide_eq_decide.mpr
  rw [eq_iff, and_comm]

theorem ofBool_eq (b : Bool) : ofBool b = if b then 1 else 0 := by
  cases b <;> rfl

theorem mk_halves (a : U64) : mk (hi a) (lo a) = a := by
  apply BitVec.eq_of_toNat_eq
  rw [mk_toNat, ← halves]

theorem mk_getLsbD (h l : BitVec 32) (i : Nat) :
    (mk h l).getLsbD i = if i < 32 then l.getLsbD i else h.getLsbD (i - 32) := by
  rw [mk, BitVec.getLsbD_append]

theorem lo_getLsbD (a : U64) (i : Nat) : (lo a).getLsbD i = (decide (i < 32) && a.getLsbD i) := by
  rw [lo, BitVec.getLsbD_extractLsb', Nat.zero_add]

theorem hi_getLsbD (a : U64) (i : Nat) :
    (hi a).getLsbD i = (decide (i < 32) && a.getLsbD (32 + i)) := by
  rw [hi, BitVec.getLsbD_extractLsb']

section
variable (a b : U64)

theorem u64And_eq : u64And a b = a &&& b := by
  apply BitVec.eq_of_getLsbD_eq
  intro i hi
  rw [u64And, mk_getLsbD, BitVec.getLsbD_and, BitVec.getLsbD_and, BitVec.getLsbD_and, lo_getLsbD,
    lo_getLsbD, hi_getLsbD, hi_getLsbD]
  split
  · next h => simp [h]
  · next h =>
    rw [show 32 + (i - 32) = i by omega]
    simp [show i - 32 < 32 by omega]

theorem u64Or_eq : u64Or a b = a ||| b := by
  apply BitVec.eq_of_getLsbD_eq
  intro i hi
  rw [u64Or, mk_getLsbD, BitVec.getLsbD_or, BitVec.getLsbD_or, BitVec.getLsbD_or, lo_getLsbD,
    lo_getLsbD, hi_getLsbD, hi_getLsbD]
  split
  · next h => simp [h]
  · next h =>
    rw [show 32 + (i - 32) = i by omega]
    simp [show i - 32 < 32 by omega]

theorem u64Xor_eq : u64Xor a b = a ^^^ b := by
  apply BitVec.eq_of_getLsbD_eq
  intro i hi
  rw [u64Xor, mk_getLsbD, BitVec.getLsbD_xor, BitVec.getLsbD_xor, BitVec.getLsbD_xor, lo_getLsbD,
    lo_getLsbD, hi_getLsbD, hi_getLsbD]
  split
  · next h => simp [h]
  · next h =>
    rw [show 32 + (i - 32) = i by omega]
    simp [show i - 32 < 32 by omega]

end

/-! ## comparisons -/

theorem u64Cmp_eq (a b : U64) :
    u64Cmp a b = if a.toNat < b.toNat then -1 else if a = b then 0 else 1 := by
  have ha := halves a
  have hb := halves b
  have h2 := (lo a).isLt
  have h4 := (lo b).isLt
  have he : a = b ↔ a.toNat = b.toNat := BitVec.toNat_inj.symm
  simp only [u64Cmp, gt_iff_lt, BitVec.lt_def, he]
  split_ifs <;> omega

theorem i64Cmp_eq (a b : U64) :
    i64Cmp a b = if a.toInt < b.toInt then -1 else if a = b then 0 else 1 := by
  have ha := hi_signed a
  have hb := hi_signed b
  have la : ((lo a).toNat : Int) = a.toInt % 2 ^ 32 := by
    rw [lo_toNat, BitVec.toInt_eq_toNat_cond]
    omega
  have lb : ((lo b).toNat : Int) = b.toInt % 2 ^ 32 := by
    rw [lo_toNat, BitVec.toInt_eq_toNat_cond]
    omega
  have he : a = b ↔ a.toInt = b.toInt := BitVec.toInt_inj.symm
  simp only [i64Cmp, gt_iff_lt, BitVec.lt_def, he]
  split_ifs <;> omega

theorem u64CmpU32_ge (a : U64) : u64CmpU32 a 64 ≥ 0 ↔ 64 ≤ a.toNat := by
  have ha := halves a
  have h2 := (lo a).isLt
  have hz : hi a = 0 ↔ (hi a).toNat = 0 := by
    rw [← BitVec.toNat_inj]
    exact Iff.rfl
  have hc : lo a = 64 ↔ (lo a).toNat = 64 := by
    rw [← BitVec.toNat_inj]
    exact Iff.rfl
  have hl : lo a < 64 ↔ (lo a).toNat < 64 := BitVec.lt_def
  simp only [u64CmpU32, ne_eq, hz, hc, hl]
  split_ifs <;> omega

/-! ## shifts -/

theorem lo_or (a : U64) {s i : Nat} (hs : s < 32) (h : i < 32) :
    ((lo a >>> s) ||| ((hi a <<< 1) <<< (31 - s))).getLsbD i = a.getLsbD (s + i) := by
  rw [BitVec.getLsbD_or, BitVec.getLsbD_ushiftRight, BitVec.getLsbD_shiftLeft,
    BitVec.getLsbD_shiftLeft, lo_getLsbD, hi_getLsbD]
  by_cases h1 : s + i < 32
  · simp [h1]
    intro _ h2 h3
    omega
  · rw [show 32 + (i - (31 - s) - 1) = s + i by omega]
    simp [h1, h, show ¬ i < 31 - s by omega, show ¬ i - (31 - s) < 1 by omega,
      show i - (31 - s) < 32 by omega, show i - (31 - s) - 1 < 32 by omega]

theorem u64ShiftR_eq (a : U64) {s : Nat} (hs : s < 64) : u64ShiftR a s = a >>> s := by
  apply BitVec.eq_of_getLsbD_eq
  intro i hi'
  rw [u64ShiftR, Nat.mod_eq_of_lt hs, BitVec.getLsbD_ushiftRight]
  split
  · next h =>
    rw [mk_getLsbD]
    split
    · next hi32 => rw [lo_or a h hi32]
    · next hi32 =>
      rw [BitVec.getLsbD_ushiftRight, hi_getLsbD, show 32 + (s + (i - 32)) = s + i by omega]
      by_cases hx : s + (i - 32) < 32
      · simp [hx]
      · simp [hx]
        exact BitVec.getLsbD_of_ge a (s + i) (by omega)
  · next h =>
    rw [mk_getLsbD]
    split
    · next hi32 =>
      rw [BitVec.getLsbD_ushiftRight, hi_getLsbD, show 32 + (s - 32 + i) = s + i by omega]
      by_cases hx : s - 32 + i < 32
      · simp [hx]
      · simp [hx]
        exact BitVec.getLsbD_of_ge a (s + i) (by omega)
    · next hi32 =>
      rw [BitVec.getLsbD_of_ge a (s + i) (by omega)]
      simp

theorem hi_sign (a : U64) : (hi a).toInt < 0 ↔ a.msb = true := by
  rw [hi_signed, BitVec.msb_eq_toInt, decide_eq_true_eq]
  omega

theorem hi_msb (a : U64) : (hi a).msb = a.msb := by
  have h := hi_sign a
  rw [BitVec.msb_eq_toInt]
  by_cases hm : a.msb = true
  · rw [hm, decide_eq_true (h.mpr hm)]
  · rw [decide_eq_false (mt h.mp hm)]
    simpa using hm

theorem i64ShiftR_eq (a : U64) {s : Nat} (hs : s < 64) : i64ShiftR a s = a.sshiftRight s := by
  apply BitVec.eq_of_getLsbD_eq
  intro i hi'
  rw [i64ShiftR, Nat.mod_eq_of_lt hs, BitVec.getLsbD_sshiftRight]
  simp only [show ¬ 64 ≤ i by omega, decide_false, Bool.not_false, Bool.true_and]
  split
  · next h =>
    rw [mk_getLsbD]
    split
    · next hi32 =>
      rw [lo_or a h hi32, if_pos (by omega)]
    · next hi32 =>
      rw [BitVec.getLsbD_sshiftRight, hi_getLsbD, hi_msb, show 32 + (s + (i - 32)) = s + i by omega]
      simp only [show ¬ 32 ≤ i - 32 by omega, decide_false, Bool.not_false, Bool.true_and]
      by_cases hx : s + (i - 32) < 32
      · rw [if_pos hx, if_pos (by omega)]
        simp [hx]
      · rw [if_neg hx, if_neg (by omega)]
  · next h =>
    rw [mk_getLsbD]
    split
    · next hi32 =>
      rw [BitVec.getLsbD_sshiftRight, hi_getLsbD, hi_msb, show 32 + (s - 32 + i) = s + i by omega]
      simp only [show ¬ 32 ≤ i by omega, decide_false, Bool.not_false, Bool.true_and]
      by_cases hx : s - 32 + i < 32
      · rw [if_pos hx, if_pos (by omega)]
        simp [hx]
      · rw [if_neg hx, if_neg (by omega)]
    · next hi32 =>
      rw [if_neg (by omega : ¬ s + i < 64)]
      by_cases hm : a.msb = true
      · rw [if_pos ((hi_sign a).mpr hm), hm]
        show (BitVec.allOnes 32).getLsbD (i - 32) = true
        rw [BitVec.getLsbD_allOnes]
        exact decide_eq_true (by omega)
      · rw [if_neg (mt (hi_sign a).mp hm)]
        simp at hm
        simp [hm]

theorem u64ShiftL_eq (a : U64) {s : Nat} (hs : s < 64) : u64ShiftL a s = a <<< s := by
  apply BitVec.eq_of_getLsbD_eq
  intro i hi'
  rw [u64ShiftL, Nat.mod_eq_of_lt hs, BitVec.getLsbD_shiftLeft]
  split
  · next h =>
    rw [mk_getLsbD]
    split
    · next hi32 =>
      rw [BitVec.getLsbD_shiftLeft, lo_getLsbD]
      by_cases hx : i < s
      · simp [hx]
      · simp [hx, hi32, hi', show i - s < 32 by omega]
    · next hi32 =>
      rw [BitVec.getLsbD_or, BitVec.getLsbD_shiftLeft, BitVec.getLsbD_ushiftRight,
        BitVec.getLsbD_ushiftRight, lo_getLsbD, hi_getLsbD,
        show 1 + (31 - s + (i - 32)) = i - s by omega]
      by_cases hx : i - 32 < s
      · simp [hx, hi', show i - s < 32 by omega, show ¬ i < s by omega]
      · rw [show 32 + (i - 32 - s) = i - s by omega]
        simp [hx, hi', show ¬ i < s by omega, show i - 32 < 32 by omega,
          show i - 32 - s < 32 by omega]
  · next h =>
    rw [mk_getLsbD]
    split
    · next hi32 => simp [show i < s by omega]
    · next hi32 =>
      rw [BitVec.getLsbD_shiftLeft, lo_getLsbD]
      by_cases hx : i - 32 < s - 32
      · simp [hx, show i < s by omega]
      · rw [show i - 32 - (s - 32) = i - s by omega]
        simp [hx, hi', show ¬ i < s by omega, show i - 32 < 32 by omega, show i - s < 32 by omega]

/-! ## products -/

theorem and_one (x : BitVec 32) : x &&& 1 = 0 ↔ x.toNat % 2 = 0 := by
  rw [← BitVec.toNat_inj, BitVec.toNat_and]
  show x.toNat &&& 1 = 0 ↔ _
  rw [Nat.and_one_is_mod]

theorem mulLoop_eq (n : Nat) (res a b : U64) (hb : b.toNat < 2 ^ n) :
    mulLoop n res a b = res + a * b := by
  induction n generalizing res a b with
  | zero =>
    have hz : b = 0 := BitVec.eq_of_toNat_eq (by simpa using hb)
    rw [mulLoop, hz]
    simp
  | succ n ih =>
    rw [mulLoop, u64IsntZero_eq]
    by_cases hz : b = 0
    · simp [hz]
    · rw [if_pos (decide_eq_true hz), u64ShiftL_eq a (by omega), u64ShiftR_eq b (by omega),
        u64Add_eq]
      have hs : (b >>> 1).toNat = b.toNat / 2 := by
        rw [BitVec.toNat_ushiftRight, Nat.shiftRight_eq_div_pow, pow_one]
      rw [ih _ _ _ (by rw [hs]; rw [pow_succ] at hb; omega)]
      have hl : a <<< 1 = a * 2 := by
        rw [BitVec.shiftLeft_eq_mul_twoPow]
        rfl
      have hlt := b.isLt
      have hlo := lo_toNat b
      have hodd : lo b &&& 1 = 0 ↔ b.toNat % 2 = 0 := by
        rw [and_one, hlo]
        omega
      have e2 : ((b >>> 1) * 2).toNat = b.toNat / 2 * 2 := by
        rw [BitVec.toNat_mul, hs]
        show b.toNat / 2 * 2 % 2 ^ 64 = b.toNat / 2 * 2
        omega
      rw [hl]
      by_cases ho : lo b &&& 1 = 0
      · have hb2 : b = (b >>> 1) * 2 := by
          apply BitVec.eq_of_toNat_eq
          rw [e2]
          have := hodd.mp ho
          omega
        rw [if_neg (not_not.mpr ho)]
        conv_rhs => rw [hb2]
        ring
      · have hb2 : b = (b >>> 1) * 2 + 1 := by
          apply BitVec.eq_of_toNat_eq
          have h1 : ((b >>> 1) * 2 + 1).toNat = (((b >>> 1) * 2).toNat + 1) % 2 ^ 64 :=
            BitVec.toNat_add _ 1
          rw [h1, e2]
          have := mt hodd.mpr ho
          omega
        rw [if_pos ho]
        conv_rhs => rw [hb2]
        ring

theorem u64Mul_eq (a b : U64) : u64Mul a b = a * b := by
  rw [u64Mul, mulLoop_eq 64 0 a b b.isLt]
  simp

/-! ## quotients -/

theorem u64Cmp_le (a b : U64) : u64Cmp a b ≤ 0 ↔ a.toNat ≤ b.toNat := by
  rw [u64Cmp_eq]
  have he : a = b ↔ a.toNat = b.toNat := BitVec.toNat_inj.symm
  simp only [he]
  split_ifs <;> omega

theorem u64Cmp_ge (a b : U64) : u64Cmp a b ≥ 0 ↔ b.toNat ≤ a.toNat := by
  rw [u64Cmp_eq]
  have he : a = b ↔ a.toNat = b.toNat := BitVec.toNat_inj.symm
  simp only [he]
  split_ifs <;> omega

theorem shl_one_toNat (b : U64) : (u64ShiftL b 1).toNat = b.toNat * 2 % 2 ^ 64 := by
  rw [u64ShiftL_eq b (by omega), BitVec.toNat_shiftLeft, Nat.shiftLeft_eq, pow_one]

theorem shr_one_toNat (b : U64) : (u64ShiftR b 1).toNat = b.toNat / 2 := by
  rw [u64ShiftR_eq b (by omega), BitVec.toNat_ushiftRight, Nat.shiftRight_eq_div_pow, pow_one]

theorem isNeg_iff (b : U64) : i64IsNeg b = true ↔ 2 ^ 63 ≤ b.toNat := by
  rw [i64IsNeg, BitVec.msb_eq_decide, decide_eq_true_eq]

/-- the first loop leaves `b` shifted up so far that twice the result is above `a` -/
theorem alignLoop_spec (n : Nat) (a b : U64) (count : Nat) (hb : 2 ^ 64 ≤ b.toNat * 2 ^ n)
    (d : Nat) (hd : b.toNat = d * 2 ^ count) :
    (alignLoop n a b count).1.toNat = d * 2 ^ (alignLoop n a b count).2 ∧
      a.toNat < 2 * (alignLoop n a b count).1.toNat := by
  induction n generalizing b count with
  | zero =>
    have h := b.isLt
    omega
  | succ n ih =>
    have hlt := b.isLt
    have hal := a.isLt
    rw [alignLoop]
    by_cases h1 : i64IsNeg b = true
    · rw [if_pos h1]
      have hneg := (isNeg_iff b).mp h1
      exact ⟨hd, by show a.toNat < 2 * b.toNat; omega⟩
    · rw [if_neg h1]
      have hpos := mt (isNeg_iff b).mpr h1
      by_cases h2 : u64Cmp a b ≤ 0
      · rw [if_pos h2]
        have hle := (u64Cmp_le a b).mp h2
        refine ⟨hd, ?_⟩
        show a.toNat < 2 * b.toNat
        have hb0 : b.toNat ≠ 0 := by
          intro hz
          rw [hz] at hb
          omega
        omega
      · rw [if_neg h2]
        have hs : (u64ShiftL b 1).toNat = b.toNat * 2 := by
          rw [shl_one_toNat]
          omega
        refine ih _ _ ?_ ?_
        · rw [hs]
          rw [pow_succ] at hb
          calc 2 ^ 64 ≤ b.toNat * (2 ^ n * 2) := hb
            _ = b.toNat * 2 * 2 ^ n := by ring
        · rw [hs, hd, pow_succ]
          ring

theorem or_one_toNat (x : U64) (h : x.toNat % 2 = 0) :
    (mk (hi x) (lo x ||| 1)).toNat = x.toNat + 1 := by
  have hl := lo_toNat x
  have hx := halves x
  have e : (lo x ||| 1).toNat = (lo x).toNat + 1 := by
    rw [BitVec.toNat_or]
    show (lo x).toNat ||| 1 = (lo x).toNat + 1
    have h2 : (lo x).toNat = 2 ^ 1 * ((lo x).toNat / 2) := by omega
    rw [h2, ← Nat.two_pow_add_eq_or_of_lt (by omega)]
  rw [mk_toNat, e]
  omega

/-- the second loop is a long division, one bit of the quotient each round -/
theorem divLoop_spec (n : Nat) (div a b : U64) (d : Nat) (hd0 : 0 < d)
    (hb : n ≠ 0 → b.toNat * 2 = d * 2 ^ n) (ha : a.toNat < d * 2 ^ n)
    (hdiv : div.toNat * 2 ^ n + 2 ^ n ≤ 2 ^ 64) :
    (divLoop n div a b).1.toNat = div.toNat * 2 ^ n + a.toNat / d ∧
      (divLoop n div a b).2.toNat = a.toNat % d := by
  induction n generalizing div a b with
  | zero =>
    rw [pow_zero, Nat.mul_one] at ha
    rw [divLoop, Nat.div_eq_of_lt ha, Nat.mod_eq_of_lt ha]
    simp
  | succ n ih =>
    have hb' : b.toNat = d * 2 ^ n := by
      have h := hb (by omega)
      rw [pow_succ, ← Nat.mul_assoc] at h
      omega
    have hp : 0 < 2 ^ n := Nat.two_pow_pos n
    have hal := a.isLt
    have h2 : div.toNat * 2 < 2 ^ 64 := by
      rw [pow_succ] at hdiv
      have h3 : div.toNat * 2 * 1 ≤ div.toNat * 2 * 2 ^ n := Nat.mul_le_mul_left _ hp
      have h4 : div.toNat * (2 ^ n * 2) = div.toNat * 2 * 2 ^ n := by ring
      omega
    have hs : (u64ShiftL div 1).toNat = div.toNat * 2 := by
      rw [shl_one_toNat]
      omega
    have hr : n ≠ 0 → (u64ShiftR b 1).toNat * 2 = d * 2 ^ n := by
      intro hn
      obtain ⟨m, rfl⟩ : ∃ m, n = m + 1 := ⟨n - 1, by omega⟩
      rw [shr_one_toNat, hb', pow_succ, ← Nat.mul_assoc]
      omega
    rw [pow_succ] at ha hdiv ⊢
    rw [divLoop]
    by_cases hc : u64Cmp a b ≥ 0
    · have hge := (u64Cmp_ge a b).mp hc
      have hsub : (u64Sub a b).toNat = a.toNat - d * 2 ^ n := by
        rw [u64Sub_eq, BitVec.toNat_sub_of_le (BitVec.le_def.mpr hge), hb']
      have hone : (mk (hi (u64ShiftL div 1)) (lo (u64ShiftL div 1) ||| 1)).toNat
          = div.toNat * 2 + 1 := by
        rw [or_one_toNat _ (by omega), hs]
      rw [if_pos hc]
      obtain ⟨e1, e2⟩ := ih (mk (hi (u64ShiftL div 1)) (lo (u64ShiftL div 1) ||| 1))
        (u64Sub a b) (u64ShiftR b 1) hr
        (by rw [hsub]; have : d * (2 ^ n * 2) = d * 2 ^ n + d * 2 ^ n := by ring
            omega)
        (by rw [hone]; have : (div.toNat * 2 + 1) * 2 ^ n + 2 ^ n
              = div.toNat * (2 ^ n * 2) + 2 ^ n * 2 := by ring
            omega)
      have hq : a.toNat = (a.toNat - d * 2 ^ n) + d * 2 ^ n := by omega
      rw [e1, e2, hone, hsub]
      constructor
      · conv_rhs => rw [hq, Nat.add_mul_div_left _ _ hd0]
        ring
      · conv_rhs => rw [hq, Nat.add_mul_mod_self_left]
    · have hlt := mt (u64Cmp_ge a b).mpr hc
      rw [if_neg hc]
      obtain ⟨e1, e2⟩ := ih (u64ShiftL div 1) a (u64ShiftR b 1) hr (by omega)
        (by rw [hs]; have : div.toNat * 2 * 2 ^ n = div.toNat * (2 ^ n * 2) := by ring
            omega)
      rw [e1, e2, hs]
      exact ⟨by ring, rfl⟩

theorem u64Div_toNat (a b : U64) (hb : b ≠ 0) :
    (u64Div a b).1.toNat = a.toNat / b.toNat ∧ (u64Div a b).2.toNat = a.toNat % b.toNat := by
  have hb0 : 0 < b.toNat := Nat.pos_of_ne_zero fun h => hb (BitVec.eq_of_toNat_eq h)
  rw [u64Div]
  split
  · next h =>
    have ha := halves a
    have hbb := halves b
    have e1 : (hi a).toNat = 0 := by rw [h.1]; rfl
    have e2 : (hi b).toNat = 0 := by rw [h.2]; rfl
    rw [mk_toNat, mk_toNat, BitVec.toNat_udiv, BitVec.toNat_umod]
    rw [e1] at ha
    rw [e2] at hbb
    rw [Nat.zero_mul, Nat.zero_add] at ha hbb
    rw [ha, hbb]
    simp
  · dsimp only
    obtain ⟨e1, e2⟩ := alignLoop_spec 64 a b 0
      (by calc 2 ^ 64 = 1 * 2 ^ 64 := by ring
            _ ≤ b.toNat * 2 ^ 64 := Nat.mul_le_mul_right _ hb0)
      b.toNat (by rw [pow_zero, Nat.mul_one])
    obtain ⟨e3, e4⟩ := divLoop_spec ((alignLoop 64 a b 0).2 + 1) 0 a (alignLoop 64 a b 0).1 b.toNat hb0
      (fun _ => by rw [e1, pow_succ]; ring)
      (by rw [pow_succ, ← Nat.mul_assoc, ← e1]; omega)
      (by
        have hlt := (alignLoop 64 a b 0).1.isLt
        have h1 : 1 * 2 ^ (alignLoop 64 a b 0).2 ≤ b.toNat * 2 ^ (alignLoop 64 a b 0).2 :=
          Nat.mul_le_mul_right _ hb0
        rw [← e1] at h1
        have h2 : 2 ^ (alignLoop 64 a b 0).2 < 2 ^ 64 := by omega
        have h3 : (alignLoop 64 a b 0).2 + 1 ≤ 64 :=
          (Nat.pow_lt_pow_iff_right (by omega)).mp h2
        have h4 : (2 : Nat) ^ ((alignLoop 64 a b 0).2 + 1) ≤ 2 ^ 64 :=
          Nat.pow_le_pow_right (by omega) h3
        show 0 * _ + _ ≤ _
        omega)
    rw [e3, e4]
    simp

theorem u64Div_eq (a b : U64) (hb : b ≠ 0) : u64Div a b = (a / b, a % b) := by
  obtain ⟨h1, h2⟩ := u64Div_toNat a b hb
  refine Prod.ext (BitVec.eq_of_toNat_eq ?_) (BitVec.eq_of_toNat_eq ?_)
  · rw [h1, BitVec.toNat_udiv]
  · rw [h2, BitVec.toNat_umod]

theorem i64Div_eq (a b : U64) (hb : b ≠ 0) : i64Div a b = (a.sdiv b, a.srem b) := by
  have hn : -b ≠ 0 := fun h => hb (by rw [← neg_neg b, h, neg_zero])
  rw [i64Div, BitVec.sdiv_eq, BitVec.srem_eq]
  cases ha : a.msb with
  | false =>
    cases hm : b.msb with
    | false =>
      simp only [i64IsNeg, ha, hm, Bool.false_eq_true, if_false, ne_eq, not_true_eq_false,
        u64Div_eq a b hb, BitVec.udiv_eq]
    | true =>
      simp only [i64IsNeg, ha, hm, Bool.false_eq_true, if_false, if_true, ne_eq,
        not_false_eq_true, u64Neg_eq, u64Div_eq a (-b) hn, BitVec.udiv_eq]
  | true =>
    cases hm : b.msb with
    | false =>
      simp only [i64IsNeg, ha, hm, Bool.false_eq_true, if_false, if_true, ne_eq, reduceCtorEq,
        not_false_eq_true, u64Neg_eq, u64Div_eq (-a) b hb, BitVec.udiv_eq]
    | true =>
      simp only [i64IsNeg, ha, hm, if_true, ne_eq, not_true_eq_false, if_false, u64Neg_eq,
        u64Div_eq (-a) (-b) hn, BitVec.udiv_eq]

end I64
