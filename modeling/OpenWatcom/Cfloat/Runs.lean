import OpenWatcom.Cfloat.Integers

/-!
# Sequences of operations

* `Op`, `step`, `run`     operations on a pool of numbers, as long as every `int` computed from an
  exponent is in range;
* `Op.Keeps`              the operation cuts no digits off behind a 0;
* `result_normal_iff`     on numbers in the normal form an operation ends in it exactly then;
* `reachable_ordered_iff` all numbers of a run are in the normal form and `CFCompare` and `CFOrder`
  order them as the rational numbers they denote, exactly when every step keeps the form and no zero
  is compared with a number below `0.1`.
-/

namespace CFloat
open Numerals

/-- the operations; `i` and `j` are places in the pool -/
inductive Op where
  | cnvSF (str : List Char)
  | cnvI32F (data : BitVec 32)
  | cnvU32F (data : BitVec 32)
  | cnvI64F (lo32 hi32 : BitVec 32)
  | cnvU64F (lo32 hi32 : BitVec 32)
  | add (i j : Nat)
  | sub (i j : Nat)
  | mul (i j : Nat)
  | div (i j : Nat)
  | trunc (i : Nat)
  | round (i : Nat)
  | negate (i : Nat)
  | copy (i : Nat)

/-- an operation with its operands -/
inductive Call where
  | cnvSF (str : List Char)
  | cnvI32F (data : BitVec 32)
  | cnvU32F (data : BitVec 32)
  | cnvI64F (lo32 hi32 : BitVec 32)
  | cnvU64F (lo32 hi32 : BitVec 32)
  | add (f1 f2 : CFloat)
  | sub (f1 f2 : CFloat)
  | mul (f1 f2 : CFloat)
  | div (f1 f2 : CFloat)
  | trunc (f : CFloat)
  | round (f : CFloat)
  | negate (f : CFloat)
  | copy (f : CFloat)

def Call.result : Call → CFloat
  | .cnvSF str => cfCnvSF str
  | .cnvI32F data => cfCnvI32F data
  | .cnvU32F data => cfCnvU32F data
  | .cnvI64F lo32 hi32 => cfCnvI64F lo32 hi32
  | .cnvU64F lo32 hi32 => cfCnvU64F lo32 hi32
  | .add f1 f2 => cfAdd f1 f2
  | .sub f1 f2 => cfSub f1 f2
  | .mul f1 f2 => cfMul f1 f2
  | .div f1 f2 => cfDiv f1 f2
  | .trunc f => cfTrunc f
  | .round f => cfRound f
  | .negate f => cfNegate f
  | .copy f => cfCopy f

/-! ## the range of an `int` -/

def InInt (n : Int) : Prop := -2 ^ 31 ≤ n ∧ n < 2 ^ 31

instance (n : Int) : Decidable (InInt n) := inferInstanceAs (Decidable (_ ∧ _))

/-- what `CSSum` computes from exponents -/
def sumInts (f1 f2 : CFloat) : List Int :=
  [f1.exp - f1.len, f2.exp - f2.len, max f1.exp f2.exp + 1,
    max f1.exp f2.exp - farRight f1 f2 + 1]

def addInts (f1 f2 : CFloat) : List Int :=
  if f1.sign = 0 ∨ f2.sign = 0 then []
  else if f1.sign = f2.sign then sumInts f1 f2
  else (f1.exp - f2.exp) :: if cfOrder f1 f2 = 0 then [] else sumInts f1 f2

/-- what the rounds of `CFMul` compute from exponents -/
def mulInts (f1 : CFloat) : List Int → Int → CFloat → List Int
  | [], f2exp, _ => [f2exp]
  | d :: ds, f2exp, result =>
    [f1.exp - f1.len, f1.exp - f1.len + f2exp, f1.exp + f2exp] ++ addInts result (sdMul f1 d f2exp)
      ++ mulInts f1 ds (f2exp + 1) (cfAdd result (sdMul f1 d f2exp))

def Call.ints : Call → List Int
  | .add f1 f2 => addInts f1 f2
  | .sub f1 f2 => addInts f1 (cfNegate f2)
  | .mul f1 f2 => (f2.exp - f2.len) :: mulInts f1 f2.mant.reverse (f2.exp - f2.len + 1) cfAlloc
  | .div f1 f2 =>
    if f2.sign = 0 then []
    else [f1.exp - f2.exp, f1.exp - f2.exp + 1, (quotDigits f1 f2).exp]
  | .round f => addInts (cfTrunc f) { cfAlloc with sign := f.sign, mant := [1] }
  | _ => []

/-- every `int` that the call computes is in range -/
def Call.Defined (c : Call) : Prop := ∀ n ∈ c.result.exp :: c.ints, InInt n

instance (c : Call) : Decidable c.Defined :=
  inferInstanceAs (Decidable (∀ n ∈ c.result.exp :: c.ints, InInt n))

/-! ## runs -/

/-- the operation with its operands from the pool -/
def Op.call (pool : List CFloat) : Op → Option Call
  | .cnvSF str => some (.cnvSF str)
  | .cnvI32F data => some (.cnvI32F data)
  | .cnvU32F data => some (.cnvU32F data)
  | .cnvI64F lo32 hi32 => some (.cnvI64F lo32 hi32)
  | .cnvU64F lo32 hi32 => some (.cnvU64F lo32 hi32)
  | .add i j => pool[i]?.bind fun f1 => pool[j]?.map fun f2 => .add f1 f2
  | .sub i j => pool[i]?.bind fun f1 => pool[j]?.map fun f2 => .sub f1 f2
  | .mul i j => pool[i]?.bind fun f1 => pool[j]?.map fun f2 => .mul f1 f2
  | .div i j => pool[i]?.bind fun f1 => pool[j]?.map fun f2 => .div f1 f2
  | .trunc i => pool[i]?.map .trunc
  | .round i => pool[i]?.map .round
  | .negate i => pool[i]?.map .negate
  | .copy i => pool[i]?.map .copy

/-- where the result goes: `CFNegate` works in place, every other operation makes a new number -/
def Op.store (pool : List CFloat) (f : CFloat) : Op → List CFloat
  | .negate i => pool.set i f
  | _ => pool ++ [f]

/-- one operation; none when it has no operand, or an `int` leaves its range -/
def step (pool : List CFloat) (op : Op) : Option (List CFloat) :=
  (op.call pool).bind fun c => if c.Defined then some (op.store pool c.result) else none

def run : List CFloat → List Op → Option (List CFloat)
  | pool, [] => some pool
  | pool, op :: ops => (step pool op).bind fun pool => run pool ops

/-! ## steps that keep the form -/

/-- what `CFAdd` gives to `CFClean` -/
def addCleans (f1 f2 : CFloat) : List CFloat :=
  if f1.sign = 0 ∨ f2.sign = 0 then []
  else if f1.sign = f2.sign then [sumDigits f1 f2 adder]
  else if cfOrder f1 f2 < 0 then [sumDigits f2 f1 suber]
  else if cfOrder f1 f2 > 0 then [sumDigits f1 f2 suber]
  else []

/-- what the call gives to its last `CFClean`; the conversions from integers and `CFDiv` never write
more than 32 digits -/
def Call.cleans : Call → List CFloat
  | .cnvSF str => (scanNumber str).toList
  | .add f1 f2 => addCleans f1 f2
  | .sub f1 f2 => addCleans f1 (cfNegate f2)
  | .mul f1 f2 => if f1.sign * f2.sign = 0 then [] else [mulLast f1 f2]
  | _ => []

/-- `CFTrunc` cuts behind a digit other than 0 -/
def TruncKeeps (f : CFloat) : Prop := 0 < f.exp → f.exp < f.len → cfAccess f (f.exp - 1) ≠ 0

/-- `CFRound` adds one to what `CFTrunc` leaves -/
def RoundsUp (f : CFloat) : Prop :=
  ¬ cfAccess f f.exp < 5 ∧ ¬ (f.sign < 0 ∧ f.len = f.exp + 1)

/-- the call cuts no digits off behind a 0 -/
def Call.Keeps (c : Call) : Prop :=
  (∀ f ∈ c.cleans, ¬ Cuts f.mant) ∧
    match c with
    | .trunc f => TruncKeeps f
    | .round f => RoundsUp f ∨ TruncKeeps f
    | _ => True

/-- every step of the run keeps the form -/
def KeepsForm : List CFloat → List Op → Prop
  | _, [] => True
  | pool, op :: ops =>
    (∀ c, op.call pool = some c → c.Keeps) ∧ ∀ pool', step pool op = some pool' → KeepsForm pool' ops

/-! ## one operation -/

section
variable {f f1 f2 : CFloat}

theorem normal_negate (h : f.Normal) : (cfNegate f).Normal := by
  rcases h with rfl | ⟨h1, h2⟩
  · exact normal_alloc
  · exact Or.inr ⟨sign_neg_ne h1, h2⟩

theorem normal_add (h1 : f1.Normal) (h2 : f2.Normal) :
    (cfAdd f1 f2).Normal ↔ ∀ f ∈ addCleans f1 f2, ¬ Cuts f.mant := by
  by_cases s1 : f1.sign = 0
  · have hc : addCleans f1 f2 = [] := if_pos (Or.inl s1)
    rw [hc]
    refine iff_of_true ?_ (fun f hf => absurd hf List.not_mem_nil)
    by_cases s2 : f2.sign = 0
    · rw [cfAdd_zeros s1 s2]
      exact normal_alloc
    · rw [cfAdd_zero_left s1 s2]
      exact h2
  by_cases s2 : f2.sign = 0
  · have hc : addCleans f1 f2 = [] := if_pos (Or.inr s2)
    rw [hc, cfAdd_zero_right s1 s2]
    exact iff_of_true h1 fun f hf => absurd hf List.not_mem_nil
  have m1 := h1.mantissa s1
  have m2 := h2.mantissa s2
  have hone : ∀ {l : List CFloat} {r : CFloat}, addCleans f1 f2 = l → l = [r] → Digits 10 r.mant →
      r.mant ≠ [] → r.sign ≠ 0 → cfAdd f1 f2 = cfClean r →
      ((cfAdd f1 f2).Normal ↔ ∀ f ∈ addCleans f1 f2, ¬ Cuts f.mant) := by
    intro l r hl hr hd hne hs he
    rw [he, hl, hr, cfClean_normal hd hne hs, List.forall_mem_singleton]
  by_cases hss : f1.sign = f2.sign
  · obtain ⟨hd, hne⟩ := adder_digits m1.digits m2.digits
    refine hone (r := sumDigits f1 f2 adder) rfl ?_ hd hne s1 (cfAdd_same hss s2)
    rw [addCleans, if_neg (not_or.mpr ⟨s1, s2⟩), if_pos hss]
  · have he := cfAdd_opposite s1 s2 hss
    have hord := cfOrder_size m1 m2
    rw [cfAdd.addOrdered] at he
    by_cases hlt : cfOrder f1 f2 < 0
    · rw [if_pos hlt] at he
      obtain ⟨hd, hne⟩ := suber_digits m2.digits m1.digits (hord.1.mp hlt).le
      refine hone (r := sumDigits f2 f1 suber) rfl ?_ hd hne s2 he
      rw [addCleans, if_neg (not_or.mpr ⟨s1, s2⟩), if_neg hss, if_pos hlt]
    · rw [if_neg hlt] at he
      by_cases hgt : cfOrder f1 f2 > 0
      · rw [if_pos hgt] at he
        obtain ⟨hd, hne⟩ := suber_digits m1.digits m2.digits (hord.2.2.mp hgt).le
        refine hone (r := sumDigits f1 f2 suber) rfl ?_ hd hne s1 he
        rw [addCleans, if_neg (not_or.mpr ⟨s1, s2⟩), if_neg hss, if_neg hlt, if_pos hgt]
      · rw [if_neg hgt] at he
        have hc : addCleans f1 f2 = [] := by
          rw [addCleans, if_neg (not_or.mpr ⟨s1, s2⟩), if_neg hss, if_neg hlt, if_neg hgt]
        rw [he, hc]
        exact iff_of_true normal_alloc fun f hf => absurd hf List.not_mem_nil

theorem normal_mul (h1 : f1.Normal) (h2 : f2.Normal) :
    (cfMul f1 f2).Normal ↔ ∀ f ∈ Call.cleans (.mul f1 f2), ¬ Cuts f.mant := by
  by_cases hs : f1.sign * f2.sign = 0
  · have hc : Call.cleans (.mul f1 f2) = [] := if_pos hs
    have he : cfMul f1 f2 = cfAlloc := if_neg (not_not_intro hs)
    rw [hc, he]
    exact iff_of_true normal_alloc fun f hf => absurd hf List.not_mem_nil
  · have s1 : f1.sign ≠ 0 := fun e => hs (by rw [e, zero_mul])
    have s2 : f2.sign ≠ 0 := fun e => hs (by rw [e, mul_zero])
    have hc : Call.cleans (.mul f1 f2) = [mulLast f1 f2] := if_neg hs
    obtain ⟨he, hd, -, hpos⟩ := mulRounds_spec (h1.mantissa s1).leading (h2.mantissa s2).leading s1 s2
    have hstrip := strip_ne_nil hpos
    have hm : (cfMul f1 f2).mant = (strip (mulLast f1 f2).mant).take maxPrec := by
      rw [he, cfClean_eq hstrip]
    have hsg : (cfMul f1 f2).sign ≠ 0 := by
      rw [he]
      exact hs
    rw [hc, List.forall_mem_singleton, ← take_mantissa hd hstrip, ← hm]
    exact ⟨fun h => h.mantissa hsg, fun h => Or.inr ⟨hsg, h⟩⟩

theorem normal_div (h1 : f1.Normal) (h2 : f2.Normal) : (cfDiv f1 f2).Normal := by
  by_cases s2 : f2.sign = 0
  · have he : cfDiv f1 f2 = ⟨errExp, 1, [1]⟩ := if_pos s2
    rw [he]
    exact Or.inr ⟨by decide, ⟨by decide, by decide, by decide, by decide, by decide⟩⟩
  · have he : cfDiv f1 f2 = cfClean (quotDigits f1 f2) := if_neg s2
    obtain ⟨hd, hl, hsg, hz⟩ := divDigits_digits h1.digits (h2.mantissa s2).leading
    have hne : (quotDigits f1 f2).mant ≠ [] := by
      intro e
      rw [e] at hl
      exact absurd hl (by decide)
    rw [he]
    by_cases s1 : f1.sign = 0
    · rw [cfClean_zero (hz (by rw [h1.eq_alloc s1]; decide)) hne]
      exact normal_alloc
    · refine (cfClean_normal hd hne (by rw [hsg]; exact mul_ne_zero s1 s2)).mpr fun hc => ?_
      have := strip_length_le (quotDigits f1 f2).mant
      rw [Cuts] at hc
      omega

/-- what is cut behind a digit other than 0 is in the normal form -/
theorem normal_cut (h : f.Normal) (h0 : 0 < f.exp) (hlt : f.exp < f.len) :
    f.sign ≠ 0 ∧ (({ f with mant := f.mant.take f.exp.toNat } : CFloat).Normal
      ↔ cfAccess f (f.exp - 1) ≠ 0) := by
  have hs : f.sign ≠ 0 := by
    intro e
    rw [h.eq_alloc e] at hlt
    exact absurd hlt (by decide)
  have hm := h.mantissa hs
  refine ⟨hs, ?_⟩
  have hlen : f.len = f.mant.length := rfl
  have hi : f.exp.toNat - 1 < f.mant.length := by omega
  have hlast : (f.mant.take f.exp.toNat).getLast? = some (cfAccess f (f.exp - 1)) := by
    rw [List.getLast?_take, if_neg (by omega), List.getElem?_eq_getElem hi, Option.some_or, cfAccess]
    have e : (f.exp - 1).toNat = f.exp.toNat - 1 := by omega
    rw [e, List.getD_eq_getElem _ _ hi]
  constructor
  · intro hn e
    have hl := (hn.mantissa hs).last
    rw [hlast, e] at hl
    exact hl rfl
  · intro hne
    refine Or.inr ⟨hs, hm.digits.sublist (List.take_sublist _ _), ?_, ?_, ?_, ?_⟩
    · intro e
      rcases List.take_eq_nil_iff.mp e with h1 | h1
      · omega
      · exact hm.nonempty h1
    · rw [List.head?_take, if_neg (by omega)]
      exact hm.head
    · rw [hlast]
      exact fun e => hne (Option.some.inj e)
    · exact le_trans (by simp) hm.short

theorem normal_trunc (h : f.Normal) : (cfTrunc f).Normal ↔ TruncKeeps f := by
  rw [cfTrunc, TruncKeeps]
  by_cases h0 : f.exp ≤ 0
  · rw [if_pos h0]
    exact iff_of_true normal_alloc fun hp => absurd hp (by omega)
  · rw [if_neg h0]
    by_cases hle : f.len ≤ f.exp
    · rw [if_pos hle]
      exact iff_of_true h fun _ hlt => absurd hlt (by omega)
    · rw [if_neg hle, cfCopy, (normal_cut h (by omega) (by omega)).2]
      exact ⟨fun hne _ _ => hne, fun hk => hk (by omega) (by omega)⟩

/-- the sum that rounds the digits in front of the point up has at most 32 digits -/
theorem roundUp_short (h : f.Normal) (h0 : 0 < f.exp) (hlt : f.exp < f.len) :
    (sumDigits (cfTrunc f) ⟨1, f.sign, [1]⟩ adder).mant.length ≤ maxPrec := by
  have hs : f.sign ≠ 0 := (normal_cut h h0 hlt).1
  have hm := h.mantissa hs
  have hone : Digits 10 (⟨1, f.sign, [1]⟩ : CFloat).mant := (by decide : Digits 10 [1])
  have hlen : f.len = f.mant.length := rfl
  have hshort := hm.short
  have ht : cfTrunc f = { f with mant := f.mant.take f.exp.toNat } := by
    rw [cfTrunc, if_neg (by omega), if_neg (by omega)]
    rfl
  have htd : Digits 10 (cfTrunc f).mant := by
    rw [ht]
    exact hm.digits.sublist (List.take_sublist _ _)
  obtain ⟨c, w, hcw, -, -, hl, -⟩ := sumDigits_spec signed_adder htd hone
  have htl : (cfTrunc f).len = f.exp := by
    rw [ht, len]
    show ((f.mant.take f.exp.toNat).length : Int) = _
    rw [List.length_take]
    omega
  have hte : (cfTrunc f).exp = f.exp := by rw [ht]
  rw [farRight, htl, hte] at hl
  have e1 : (⟨1, f.sign, [1]⟩ : CFloat).exp = 1 := rfl
  have e2 : (⟨1, f.sign, [1]⟩ : CFloat).len = 1 := rfl
  rw [e1, e2] at hl
  have h2 : (sumDigits (cfTrunc f) ⟨1, f.sign, [1]⟩ adder).mant.length = w.length + 1 := by
    rw [hcw]
    rfl
  have h3 : maxPrec = 32 := rfl
  omega

theorem normal_round (h : f.Normal) : (cfRound f).Normal ↔ RoundsUp f ∨ TruncKeeps f := by
  rw [cfRound]
  by_cases hneg : f.exp < 0
  · rw [if_pos hneg]
    exact iff_of_true normal_alloc (Or.inr fun hp => absurd hp (by omega))
  rw [if_neg hneg]
  by_cases hle : f.len ≤ f.exp
  · rw [if_pos hle]
    exact iff_of_true h (Or.inr fun _ hlt => absurd hlt (by omega))
  rw [if_neg hle]
  dsimp only
  by_cases hdown : cfAccess f f.exp < 5
  · rw [if_pos hdown, normal_trunc h]
    exact ⟨Or.inr, fun hk => hk.resolve_left fun hu => hu.1 hdown⟩
  rw [if_neg hdown]
  by_cases hhalf : f.sign < 0 ∧ f.len = f.exp + 1
  · rw [if_pos hhalf, normal_trunc h]
    exact ⟨Or.inr, fun hk => hk.resolve_left fun hu => hu.2 hhalf⟩
  rw [if_neg hhalf]
  refine iff_of_true ?_ (Or.inl ⟨hdown, hhalf⟩)
  have hs : f.sign ≠ 0 := by
    intro e
    rw [h.eq_alloc e] at hle
    exact hle (by decide)
  have hadd : ({ cfAlloc with sign := f.sign, mant := [1] } : CFloat) = ⟨1, f.sign, [1]⟩ := rfl
  have hone : Digits 10 (⟨1, f.sign, [1]⟩ : CFloat).mant := (by decide : Digits 10 [1])
  rw [hadd]
  by_cases h0 : f.exp ≤ 0
  · rw [cfTrunc, if_pos h0, @cfAdd_zero_left cfAlloc ⟨1, f.sign, [1]⟩ rfl hs]
    exact Or.inr ⟨hs, ⟨hone, by simp, by simp, by simp, by simp [maxPrec]⟩⟩
  · have ht : cfTrunc f = { f with mant := f.mant.take f.exp.toNat } := by
      rw [cfTrunc, if_neg h0, if_neg hle]
      rfl
    have htd : Digits 10 (cfTrunc f).mant := by
      rw [ht]
      exact (h.mantissa hs).digits.sublist (List.take_sublist _ _)
    have hts : (cfTrunc f).sign = f.sign := by rw [ht]
    obtain ⟨hd, hne⟩ := adder_digits htd hone
    rw [@cfAdd_same _ ⟨1, f.sign, [1]⟩ hts hs]
    refine (cfClean_normal hd hne (by rw [sumDigits_sign, hts]; exact hs)).mpr fun hc => ?_
    have h1 := strip_length_le (sumDigits (cfTrunc f) ⟨1, f.sign, [1]⟩ adder).mant
    have h2 := roundUp_short h (by omega) (by omega)
    rw [Cuts] at hc
    omega

end

theorem digitOf_range {c : Char} (h : isDigit c = true) : 0 ≤ digitOf c ∧ digitOf c < 10 := by
  rw [isDigit, decide_eq_true_iff] at h
  have h1 : 48 ≤ c.toNat := h.1
  have h2 : c.toNat ≤ 57 := h.2
  rw [digitOf]
  omega

theorem scanNumber_digits {str : List Char} {f : CFloat} (h : scanNumber str = some f) :
    Digits 10 f.mant ∧ f.mant ≠ [] ∧ f.sign ≠ 0 := by
  have hdig : ∀ l : List Char, Digits 10 ((l.takeWhile isDigit).map digitOf) := by
    intro l d hd
    obtain ⟨c, hc, rfl⟩ := List.mem_map.mp hd
    exact digitOf_range (List.mem_takeWhile_imp hc)
  have hafter : ∀ (P : Prop) [Decidable P] (l : List Char),
      Digits 10 ((if P then l.takeWhile isDigit else []).map digitOf) := by
    intro P _ l
    split
    · exact hdig l
    · exact digits_nil
  rw [scanNumber] at h
  obtain ⟨hne, he⟩ := Option.ite_none_left_eq_some.mp h
  rw [← Option.some.inj he]
  refine ⟨?_, fun e => hne (List.map_eq_nil_iff.mp e), ?_⟩
  · show Digits 10 (List.map digitOf (_ ++ _))
    rw [List.map_append]
    exact digits_append.mpr ⟨hdig _, hafter _ _⟩
  · show (if _ then (-1 : SignType) else 1) ≠ 0
    split <;> decide

theorem normal_cnvSF (str : List Char) :
    (cfCnvSF str).Normal ↔ ∀ f ∈ (scanNumber str).toList, ¬ Cuts f.mant := by
  rw [cfCnvSF]
  cases e : scanNumber str with
  | none => exact iff_of_true normal_alloc fun f hf => absurd hf List.not_mem_nil
  | some f =>
    obtain ⟨hd, hne, hs⟩ := scanNumber_digits e
    rw [Option.toList_some, List.forall_mem_singleton]
    exact cfClean_normal hd hne hs

def Call.operands : Call → List CFloat
  | .add f1 f2 => [f1, f2]
  | .sub f1 f2 => [f1, f2]
  | .mul f1 f2 => [f1, f2]
  | .div f1 f2 => [f1, f2]
  | .trunc f => [f]
  | .round f => [f]
  | .negate f => [f]
  | .copy f => [f]
  | _ => []

/-- on numbers in the normal form an operation ends in it exactly when it keeps it -/
theorem result_normal_iff (c : Call) (h : ∀ f ∈ c.operands, f.Normal) :
    c.result.Normal ↔ c.Keeps := by
  have hnil : ∀ {P : Prop}, (∀ f ∈ ([] : List CFloat), ¬ Cuts f.mant) ∧ P ↔ P :=
    ⟨And.right, fun hp => ⟨fun f hf => absurd hf List.not_mem_nil, hp⟩⟩
  cases c with
  | cnvSF str => exact (normal_cnvSF str).trans (and_iff_left trivial).symm
  | cnvI32F data => exact iff_of_true (exact_cnvI32F data).normal (hnil.mpr trivial)
  | cnvU32F data => exact iff_of_true (exact_cnvU32F data).normal (hnil.mpr trivial)
  | cnvI64F lo hi => exact iff_of_true (exact_cnvI64F lo hi).normal (hnil.mpr trivial)
  | cnvU64F lo hi => exact iff_of_true (exact_cnvU64F lo hi).normal (hnil.mpr trivial)
  | add f1 f2 =>
    have h1 := h f1 (by simp [Call.operands])
    have h2 := h f2 (by simp [Call.operands])
    exact (normal_add h1 h2).trans (and_iff_left trivial).symm
  | sub f1 f2 =>
    have h1 := h f1 (by simp [Call.operands])
    have h2 := h f2 (by simp [Call.operands])
    have hn := normal_add h1 (normal_negate h2)
    rw [← cfSub_eq] at hn
    exact hn.trans (and_iff_left trivial).symm
  | mul f1 f2 =>
    have h1 := h f1 (by simp [Call.operands])
    have h2 := h f2 (by simp [Call.operands])
    exact (normal_mul h1 h2).trans (and_iff_left trivial).symm
  | div f1 f2 =>
    have h1 := h f1 (by simp [Call.operands])
    have h2 := h f2 (by simp [Call.operands])
    exact iff_of_true (normal_div h1 h2) (hnil.mpr trivial)
  | trunc f => exact (normal_trunc (h f (by simp [Call.operands]))).trans hnil.symm
  | round f => exact (normal_round (h f (by simp [Call.operands]))).trans hnil.symm
  | negate f => exact iff_of_true (normal_negate (h f (by simp [Call.operands]))) (hnil.mpr trivial)
  | copy f => exact iff_of_true (h f (by simp [Call.operands])) (hnil.mpr trivial)

/-! ## runs -/

def AllNormal (pool : List CFloat) : Prop := ∀ f ∈ pool, f.Normal

theorem call_operands {pool : List CFloat} {op : Op} {c : Call} (h : op.call pool = some c) :
    ∀ f ∈ c.operands, f ∈ pool := by
  have hone : ∀ {i : Nat} {k : CFloat → Call}, (∀ g, (k g).operands = [g]) →
      pool[i]?.map k = some c → ∀ f ∈ c.operands, f ∈ pool := by
    intro i k hk he f hf
    obtain ⟨g, hg, rfl⟩ := Option.map_eq_some_iff.mp he
    rw [hk, List.mem_singleton] at hf
    rw [hf]
    exact List.mem_of_getElem? hg
  have htwo : ∀ {i j : Nat} {k : CFloat → CFloat → Call}, (∀ g1 g2, (k g1 g2).operands = [g1, g2]) →
      (pool[i]?.bind fun f1 => pool[j]?.map fun f2 => k f1 f2) = some c →
      ∀ f ∈ c.operands, f ∈ pool := by
    intro i j k hk he f hf
    obtain ⟨g1, hg1, he⟩ := Option.bind_eq_some_iff.mp he
    obtain ⟨g2, hg2, rfl⟩ := Option.map_eq_some_iff.mp he
    rw [hk] at hf
    rcases List.mem_cons.mp hf with rfl | hf
    · exact List.mem_of_getElem? hg1
    · rw [List.mem_singleton.mp hf]
      exact List.mem_of_getElem? hg2
  have hnone : c.operands = [] → ∀ f ∈ c.operands, f ∈ pool := by
    intro e f hf
    rw [e] at hf
    exact absurd hf List.not_mem_nil
  cases op with
  | cnvSF str => exact hnone (by rw [← Option.some.inj h]; rfl)
  | cnvI32F data => exact hnone (by rw [← Option.some.inj h]; rfl)
  | cnvU32F data => exact hnone (by rw [← Option.some.inj h]; rfl)
  | cnvI64F lo hi => exact hnone (by rw [← Option.some.inj h]; rfl)
  | cnvU64F lo hi => exact hnone (by rw [← Option.some.inj h]; rfl)
  | add i j => exact htwo (k := Call.add) (fun _ _ => rfl) h
  | sub i j => exact htwo (k := Call.sub) (fun _ _ => rfl) h
  | mul i j => exact htwo (k := Call.mul) (fun _ _ => rfl) h
  | div i j => exact htwo (k := Call.div) (fun _ _ => rfl) h
  | trunc i => exact hone (k := Call.trunc) (fun _ => rfl) h
  | round i => exact hone (k := Call.round) (fun _ => rfl) h
  | negate i => exact hone (k := Call.negate) (fun _ => rfl) h
  | copy i => exact hone (k := Call.copy) (fun _ => rfl) h

/-- what a step does: the result of a call is put behind the pool, or a number is negated in place -/
theorem step_cases {pool pool' : List CFloat} {op : Op} (h : step pool op = some pool') :
    ∃ c, op.call pool = some c ∧ (pool' = pool ++ [c.result] ∨
      ∃ i f, pool[i]? = some f ∧ c = .negate f ∧ pool' = pool.set i (cfNegate f)) := by
  obtain ⟨c, hc, he⟩ := Option.bind_eq_some_iff.mp h
  refine ⟨c, hc, ?_⟩
  obtain ⟨-, he⟩ := Option.ite_none_right_eq_some.mp he
  rw [← Option.some.inj he]
  cases op with
  | negate i =>
    obtain ⟨f, hf, rfl⟩ := Option.map_eq_some_iff.mp hc
    exact Or.inr ⟨i, f, hf, rfl, rfl⟩
  | _ => exact Or.inl rfl

theorem cfNegate_cfNegate (f : CFloat) : cfNegate (cfNegate f) = f := by
  rw [cfNegate, cfNegate, neg_neg]

/-- a number out of the normal form stays in the pool -/
theorem step_normal_back {pool pool' : List CFloat} {op : Op} (h : step pool op = some pool')
    (hn : AllNormal pool') : AllNormal pool := by
  obtain ⟨c, hc, rfl | ⟨i, f, hf, rfl, rfl⟩⟩ := step_cases h
  · exact fun f hf => hn f (List.mem_append_left _ hf)
  · intro g hg
    obtain ⟨j, hj, rfl⟩ := List.mem_iff_getElem.mp hg
    by_cases hij : i = j
    · subst hij
      have hfi : f = pool[i] := by
        rw [List.getElem?_eq_getElem hj] at hf
        exact (Option.some.inj hf).symm
      have h1 := hn (cfNegate f) (List.mem_set hj (cfNegate f))
      have h2 := normal_negate h1
      rw [cfNegate_cfNegate, hfi] at h2
      exact h2
    · refine hn _ (List.mem_iff_getElem.mpr ⟨j, by rwa [List.length_set], ?_⟩)
      exact List.getElem_set_ne hij _

theorem step_normal_iff {pool pool' : List CFloat} {op : Op} (hp : AllNormal pool)
    (h : step pool op = some pool') :
    AllNormal pool' ↔ ∀ c, op.call pool = some c → c.Keeps := by
  obtain ⟨c, hc, hcase⟩ := step_cases h
  have hops : ∀ f ∈ c.operands, f.Normal := fun f hf => hp f (call_operands hc f hf)
  have hres := result_normal_iff c hops
  have hall : (∀ c, op.call pool = some c → c.Keeps) ↔ c.Keeps :=
    ⟨fun hk => hk c hc, fun hk d hd => by rw [← Option.some.inj (hc.symm.trans hd)]; exact hk⟩
  rw [hall, ← hres]
  rcases hcase with rfl | ⟨i, f, hf, rfl, rfl⟩
  · constructor
    · exact fun hn => hn _ (List.mem_append_right _ List.mem_cons_self)
    · intro hr f hf
      rcases List.mem_append.mp hf with hf | hf
      · exact hp f hf
      · rw [List.mem_singleton.mp hf]
        exact hr
  · have hfn := hp f (List.mem_of_getElem? hf)
    refine iff_of_true (fun g hg => ?_) (normal_negate hfn)
    rcases List.mem_or_eq_of_mem_set hg with hg | rfl
    · exact hp g hg
    · exact normal_negate hfn

theorem run_normal_back {pool pool' : List CFloat} {ops : List Op} (h : run pool ops = some pool')
    (hn : AllNormal pool') : AllNormal pool := by
  induction ops generalizing pool with
  | nil =>
    rw [Option.some.inj h]
    exact hn
  | cons op ops ih =>
    obtain ⟨p, hp, hr⟩ := Option.bind_eq_some_iff.mp h
    exact step_normal_back hp (ih hr)

theorem run_normal_iff {pool pool' : List CFloat} {ops : List Op} (hp : AllNormal pool)
    (h : run pool ops = some pool') : AllNormal pool' ↔ KeepsForm pool ops := by
  induction ops generalizing pool with
  | nil =>
    rw [← Option.some.inj h]
    exact iff_of_true hp trivial
  | cons op ops ih =>
    obtain ⟨p, hs, hr⟩ := Option.bind_eq_some_iff.mp h
    have hstep := step_normal_iff hp hs
    constructor
    · intro hn
      have hpn := run_normal_back hr hn
      refine ⟨hstep.mp hpn, fun p' hs' => ?_⟩
      rw [← Option.some.inj (hs.symm.trans hs')]
      exact (ih hpn hr).mp hn
    · intro hk
      exact (ih (hstep.mpr hk.1) hr).mpr (hk.2 p hs)

/-! ## the order of what is reached -/

/-- `CFCompare` and `CFOrder` order the numbers as the rational numbers they denote -/
def OrderedAs (f g : CFloat) : Prop :=
  InInt (f.exp - g.exp) ∧ Orders (cfCompare f g) f.value g.value ∧ Orders (cfOrder f g) f.size g.size

/-- the difference of the exponents is an `int`, and no zero is compared with a number below `0.1` -/
def Comparable (f g : CFloat) : Prop :=
  InInt (f.exp - g.exp) ∧ (f.sign = 0 → g.sign ≠ 0 → 0 < g.exp) ∧
    (g.sign = 0 → f.sign ≠ 0 → 0 < f.exp)

section
variable {f g : CFloat}

theorem value_neg (h : f.Normal) (hs : f.sign = .neg) : f.value = -f.size ∧ 0 < f.size := by
  refine ⟨?_, size_pos (h.mantissa (by rw [hs]; decide))⟩
  rw [value, hs]
  simp

theorem value_pos (h : f.Normal) (hs : f.sign = .pos) : f.value = f.size ∧ 0 < f.size := by
  refine ⟨?_, size_pos (h.mantissa (by rw [hs]; decide))⟩
  rw [value, hs]
  simp

theorem value_zero (h : f.Normal) (hs : f.sign = .zero) : f.value = 0 := by
  rw [h.eq_alloc hs]
  exact value_alloc

/-- `CFCompare` orders numbers in the normal form -/
theorem cfCompare_value (hf : f.Normal) (hg : g.Normal) :
    Orders (cfCompare f g) f.value g.value := by
  rw [cfCompare]
  cases e1 : f.sign with
  | zero =>
    rw [value_zero hf e1]
    cases e2 : g.sign with
    | zero =>
      rw [value_zero hg e2, if_neg (by decide), if_neg (by decide)]
      rw [hf.eq_alloc e1, hg.eq_alloc e2]
      exact Orders.of_eq (by decide) rfl
    | neg =>
      obtain ⟨hv, hp⟩ := value_neg hg e2
      rw [if_neg (by decide), if_pos (by decide), hv]
      exact Orders.of_gt (by decide) (by linarith)
    | pos =>
      obtain ⟨hv, hp⟩ := value_pos hg e2
      rw [if_pos (by decide), hv]
      exact Orders.of_lt (by decide) hp
  | neg =>
    obtain ⟨hv1, hp1⟩ := value_neg hf e1
    rw [hv1]
    cases e2 : g.sign with
    | zero =>
      rw [value_zero hg e2, if_pos (by decide)]
      exact Orders.of_lt (by decide) (by linarith)
    | neg =>
      obtain ⟨hv2, hp2⟩ := value_neg hg e2
      have hord := cfOrder_size (hf.mantissa (by rw [e1]; decide)) (hg.mantissa (by rw [e2]; decide))
      rw [hv2, if_neg (by decide), if_neg (by decide)]
      rcases lt_trichotomy (cfOrder f g) 0 with h | h | h
      · rw [if_neg (by omega), if_neg (by omega)]
        exact Orders.of_gt (by decide) (neg_lt_neg (hord.1.mp h))
      · rw [if_pos h]
        exact Orders.of_eq rfl (congrArg _ (hord.2.1.mp h))
      · rw [if_neg (by omega), if_pos h]
        exact Orders.of_lt (by decide) (neg_lt_neg (hord.2.2.mp h))
    | pos =>
      obtain ⟨hv2, hp2⟩ := value_pos hg e2
      rw [if_pos (by decide), hv2]
      exact Orders.of_lt (by decide) (by linarith)
  | pos =>
    obtain ⟨hv1, hp1⟩ := value_pos hf e1
    rw [hv1]
    cases e2 : g.sign with
    | zero =>
      rw [value_zero hg e2, if_neg (by decide), if_pos (by decide)]
      exact Orders.of_gt (by decide) hp1
    | neg =>
      obtain ⟨hv2, hp2⟩ := value_neg hg e2
      rw [if_neg (by decide), if_pos (by decide), hv2]
      exact Orders.of_gt (by decide) (by linarith)
    | pos =>
      obtain ⟨hv2, hp2⟩ := value_pos hg e2
      have hord := cfOrder_size (hf.mantissa (by rw [e1]; decide)) (hg.mantissa (by rw [e2]; decide))
      rw [hv2, if_neg (by decide), if_neg (by decide)]
      rcases lt_trichotomy (cfOrder f g) 0 with h | h | h
      · rw [if_neg (by omega), if_neg (by omega)]
        exact Orders.of_lt (by decide) (hord.1.mp h)
      · rw [if_pos h]
        exact Orders.of_eq rfl (hord.2.1.mp h)
      · rw [if_neg (by omega), if_pos h]
        exact Orders.of_gt (by decide) (hord.2.2.mp h)

theorem cfOrder_zero {m : List Int} (h : Leading m) (s : SignType) (e : Int) :
    (cfOrder cfAlloc ⟨e, s, m⟩ < 0 ↔ 0 < e) ∧ (0 < cfOrder ⟨e, s, m⟩ cfAlloc ↔ 0 < e) := by
  obtain ⟨d, l, rfl, hd, -⟩ := h.cons
  have h1 : mantOrder [0] (d :: l) = 0 - d := if_pos (by omega)
  have h2 : mantOrder (d :: l) [0] = d - 0 := if_pos (by omega)
  have c1 : cfOrder cfAlloc ⟨e, s, d :: l⟩ = if 1 - e = 0 then mantOrder [0] (d :: l) else 1 - e := rfl
  have c2 : cfOrder ⟨e, s, d :: l⟩ cfAlloc = if e - 1 = 0 then mantOrder (d :: l) [0] else e - 1 := rfl
  rw [c1, c2, h1, h2]
  constructor
  · by_cases he : 1 - e = 0
    · rw [if_pos he]
      omega
    · rw [if_neg he]
      omega
  · by_cases he : e - 1 = 0
    · rw [if_pos he]
      omega
    · rw [if_neg he]
      omega

theorem ordered_iff (hf : f.Normal) (hg : g.Normal) : OrderedAs f g ↔ Comparable f g := by
  have hcmp := cfCompare_value hf hg
  have hkey : Orders (cfOrder f g) f.size g.size
      ↔ (f.sign = 0 → g.sign ≠ 0 → 0 < g.exp) ∧ (g.sign = 0 → f.sign ≠ 0 → 0 < f.exp) := by
    by_cases s1 : f.sign = 0
    · by_cases s2 : g.sign = 0
      · rw [hf.eq_alloc s1, hg.eq_alloc s2]
        exact iff_of_true (Orders.of_eq (by decide) rfl)
          ⟨fun _ h => absurd rfl h, fun _ h => absurd rfl h⟩
      · have hm := hg.mantissa s2
        have hz := (cfOrder_zero hm.leading g.sign g.exp).1
        rw [hf.eq_alloc s1, size_alloc]
        constructor
        · intro ho
          exact ⟨fun _ _ => hz.mp (ho.1.mpr (size_pos hm)), fun h => absurd h s2⟩
        · intro hc
          exact Orders.of_lt (hz.mpr (hc.1 rfl s2)) (size_pos hm)
    · have hm := hf.mantissa s1
      by_cases s2 : g.sign = 0
      · have hz := (cfOrder_zero hm.leading f.sign f.exp).2
        rw [hg.eq_alloc s2, size_alloc]
        constructor
        · intro ho
          exact ⟨fun h => absurd h s1, fun _ _ => hz.mp (ho.2.2.mpr (size_pos hm))⟩
        · intro hc
          exact Orders.of_gt (hz.mpr (hc.2 rfl s1)) (size_pos hm)
      · exact iff_of_true (cfOrder_size hm (hg.mantissa s2)) ⟨fun h => absurd h s1, fun h => absurd h s2⟩
  exact ⟨fun h => ⟨h.1, hkey.mp h.2.2⟩, fun h => ⟨h.1, hcmp, hkey.mpr h.2⟩⟩

end

/-- every number of a run is in the normal form and ordered as it should be, exactly when the run
keeps the form and what is compared is comparable -/
theorem reachable_ordered_iff (ops : List Op) (pool : List CFloat) (h : run [] ops = some pool) :
    (∀ f ∈ pool, f.Normal) ∧ (∀ f ∈ pool, ∀ g ∈ pool, OrderedAs f g)
      ↔ KeepsForm [] ops ∧ ∀ f ∈ pool, ∀ g ∈ pool, Comparable f g := by
  have hrun := run_normal_iff (fun f hf => absurd hf List.not_mem_nil) h
  constructor
  · rintro ⟨hn, ho⟩
    exact ⟨hrun.mp hn, fun f hf g hg => (ordered_iff (hn f hf) (hn g hg)).mp (ho f hf g hg)⟩
  · rintro ⟨hk, hc⟩
    have hn := hrun.mpr hk
    exact ⟨hn, fun f hf g hg => (ordered_iff (hn f hf) (hn g hg)).mpr (hc f hf g hg)⟩

/-- `7` and its quotient by `-2` -/
theorem ordered_quotient : OrderedAs (cfCnvI32F 7) (cfDiv (cfCnvI32F 7) (cfCnvI32F (-2))) := by
  have h : run [] [.cnvI32F 7, .cnvI32F (-2), .div 0 1]
      = some [cfCnvI32F 7, cfCnvI32F (-2), cfDiv (cfCnvI32F 7) (cfCnvI32F (-2))] := by decide +kernel
  refine ((reachable_ordered_iff _ _ h).mpr ⟨?_, ?_⟩).2 _ (by simp) _ (by simp)
  · exact (run_normal_iff (fun f hf => absurd hf List.not_mem_nil) h).mp fun f hf => by
      rcases List.mem_cons.mp hf with rfl | hf
      · exact (exact_cnvI32F 7).normal
      rcases List.mem_cons.mp hf with rfl | hf
      · exact (exact_cnvI32F (-2)).normal
      rw [List.mem_singleton.mp hf]
      exact normal_div (exact_cnvI32F 7).normal (exact_cnvI32F (-2)).normal
  · unfold Comparable
    decide +kernel

/-- `100.5` cut to an integer keeps the zeros of `100`, and `CFCompare` does not find it equal to
`100` -/
theorem trunc_leaves_zeros :
    run [] [.cnvSF "100.5".toList, .trunc 0, .cnvI32F 100]
        = some [⟨3, 1, [1, 0, 0, 5]⟩, ⟨3, 1, [1, 0, 0]⟩, ⟨3, 1, [1]⟩] ∧
      ¬ CFloat.Normal ⟨3, 1, [1, 0, 0]⟩ ∧
      CFloat.value ⟨3, 1, [1, 0, 0]⟩ = CFloat.value ⟨3, 1, [1]⟩ ∧
      cfCompare ⟨3, 1, [1, 0, 0]⟩ ⟨3, 1, [1]⟩ = 1 := by
  refine ⟨by decide +kernel, ?_, ?_, by decide⟩
  · rintro (h | h)
    · exact absurd h (by decide)
    · exact h.2.last rfl
  · have e1 : val 10 [1, 0, 0] = 100 := by decide
    have e2 : val 10 [1] = 1 := by decide
    rw [value, value, size, size, e1, e2]
    norm_num [len]

end CFloat
