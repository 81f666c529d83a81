import OpenWatcom.Cc.PpParse

/-!
# The value of a `#if` expression

* `apply_value`, `unary_value`   a reduction computes the value of its operator;
* `ppValue_correct`    the operand of an expression is what C makes of it, when no subtraction has an
  unsigned operand;
* `agrees_iff`         and only then: `CAdditive` takes every difference for a signed number.
-/

namespace PpExpn
open I64

/-! ## bit patterns and numbers -/

theorem ofInt_congr {x y : Int} (h : x % 2 ^ 64 = y % 2 ^ 64) :
    BitVec.ofInt 64 x = BitVec.ofInt 64 y := by
  apply BitVec.eq_of_toNat_eq
  rw [BitVec.toNat_ofInt, BitVec.toNat_ofInt]
  show (x % 2 ^ 64).toNat = (y % 2 ^ 64).toNat
  rw [h]

theorem ofInt_num (u : Bool) (a : U64) : BitVec.ofInt 64 (num u a) = a := by
  rw [num]
  split
  · rw [BitVec.ofInt_natCast, BitVec.ofNat_toNat, BitVec.setWidth_eq]
  · exact BitVec.ofInt_toInt

theorem num_true (a : U64) : num true a = a.toNat := rfl
theorem num_false (a : U64) : num false a = a.toInt := rfl

theorem truth_eq (b : Bool) : ofBool b = truth b := ofBool_eq b

theorem ofInt_add_num (u : Bool) (a b : U64) : BitVec.ofInt 64 (num u a + num u b) = a + b := by
  rw [BitVec.ofInt_add, ofInt_num, ofInt_num]

theorem ofInt_sub_num (u : Bool) (a b : U64) : BitVec.ofInt 64 (num u a - num u b) = a - b := by
  rw [sub_eq_add_neg, BitVec.ofInt_add, BitVec.ofInt_neg, ofInt_num, ofInt_num, sub_eq_add_neg]

theorem ofInt_mul_num (u : Bool) (a b : U64) : BitVec.ofInt 64 (num u a * num u b) = a * b := by
  rw [BitVec.ofInt_mul, ofInt_num, ofInt_num]

/-- a comparison of the numbers, unsigned when an operand is -/
theorem cmp_num (u : Bool) (a b : U64) :
    (if u then u64Cmp a b else i64Cmp a b)
      = if num u a < num u b then -1 else if num u a = num u b then 0 else 1 := by
  cases u with
  | true =>
    have he : a = b ↔ a.toNat = b.toNat := BitVec.toNat_inj.symm
    simp only [if_true, num_true, u64Cmp_eq, he, Nat.cast_lt, Nat.cast_inj]
  | false =>
    have he : a = b ↔ a.toInt = b.toInt := BitVec.toInt_inj.symm
    simp only [Bool.false_eq_true, if_false, num_false, i64Cmp_eq, he]
    congr

/-! ## shifts -/

/-- a count in the range that C allows -/
theorem count_range {w : Bool} {b : U64} (h : 0 ≤ num w b ∧ num w b < 64) : b.toNat < 64 := by
  cases w with
  | true =>
    rw [num_true] at h
    omega
  | false =>
    rw [num_false, BitVec.toInt_eq_toNat_cond] at h
    have hb := b.isLt
    omega

theorem lo_count {b : U64} (h : b.toNat < 64) : (lo b).toNat = b.toNat := by
  rw [lo_toNat]
  omega

theorem not_big_count {b : U64} (h : b.toNat < 64) : ¬ u64CmpU32 b 64 ≥ 0 := by
  rw [u64CmpU32_ge]
  omega

theorem shr_num (u : Bool) (a : U64) {k : Nat} (hk : k < 64) :
    (if u then u64ShiftR a k else i64ShiftR a k) = BitVec.ofInt 64 (num u a / 2 ^ k) := by
  cases u with
  | true =>
    rw [if_pos rfl, u64ShiftR_eq a hk, num_true]
    have e : ((a.toNat : Int) / 2 ^ k) = ((a.toNat / 2 ^ k : Nat) : Int) := by
      rw [Int.natCast_ediv]
      norm_num
    apply BitVec.eq_of_toNat_eq
    rw [e, BitVec.ofInt_natCast, BitVec.toNat_ushiftRight, Nat.shiftRight_eq_div_pow,
      BitVec.toNat_ofNat]
    exact (Nat.mod_eq_of_lt (lt_of_le_of_lt (Nat.div_le_self _ _) a.isLt)).symm
  | false =>
    rw [if_neg (by decide), i64ShiftR_eq a hk, num_false]
    apply BitVec.eq_of_toInt_eq
    rw [BitVec.toInt_sshiftRight, Int.shiftRight_eq_div_pow]
    have e : (a.toInt / ((2 ^ k : Nat) : Int)) = (a.sshiftRight k).toInt := by
      rw [BitVec.toInt_sshiftRight, Int.shiftRight_eq_div_pow]
    have e2 : (a.toInt / (2 : Int) ^ k) = (a.sshiftRight k).toInt := by
      rw [← e]
      norm_num
    rw [e, e2, BitVec.ofInt_toInt]

theorem shl_num (u : Bool) (a : U64) {k : Nat} (hk : k < 64) :
    u64ShiftL a k = BitVec.ofInt 64 (num u a * 2 ^ k) := by
  have e : BitVec.ofInt 64 (2 ^ k) = BitVec.twoPow 64 k := by
    apply BitVec.eq_of_toNat_eq
    have h2 : ((2 : Int) ^ k) = ((2 ^ k : Nat) : Int) := by norm_num
    rw [h2, BitVec.ofInt_natCast, BitVec.toNat_twoPow, BitVec.toNat_ofNat]
  rw [u64ShiftL_eq a hk, BitVec.ofInt_mul, ofInt_num, e, BitVec.shiftLeft_eq_mul_twoPow]

/-! ## quotients -/

theorem div_num (u : Bool) (a b : U64) (hb : b ≠ 0) :
    (if u then (u64Div a b).1 else (i64Div a b).1)
      = BitVec.ofInt 64 ((num u a).tdiv (num u b)) := by
  cases u with
  | true =>
    rw [if_pos rfl, u64Div_eq a b hb, num_true, num_true, ← Int.ofNat_tdiv, BitVec.ofInt_natCast]
    apply BitVec.eq_of_toNat_eq
    rw [BitVec.toNat_udiv, BitVec.toNat_ofNat]
    exact (Nat.mod_eq_of_lt (lt_of_le_of_lt (Nat.div_le_self _ _) a.isLt)).symm
  | false =>
    rw [if_neg (by decide), i64Div_eq a b hb, num_false, num_false]
    apply BitVec.eq_of_toInt_eq
    rw [BitVec.toInt_sdiv, BitVec.toInt_ofInt]

theorem rem_num (u : Bool) (a b : U64) (hb : b ≠ 0) :
    (if u then (u64Div a b).2 else (i64Div a b).2)
      = BitVec.ofInt 64 ((num u a).tmod (num u b)) := by
  cases u with
  | true =>
    rw [if_pos rfl, u64Div_eq a b hb, num_true, num_true, ← Int.ofNat_tmod, BitVec.ofInt_natCast]
    apply BitVec.eq_of_toNat_eq
    rw [BitVec.toNat_umod, BitVec.toNat_ofNat]
    exact (Nat.mod_eq_of_lt (lt_of_le_of_lt (Nat.mod_le _ _) a.isLt)).symm
  | false =>
    rw [if_neg (by decide), i64Div_eq a b hb, num_false, num_false]
    rw [← BitVec.toInt_srem, BitVec.ofInt_toInt]

/-! ## the reductions -/

section
variable (u w : Bool) (a b : U64)

/-- a comparison of `cmp` with 0 compares the operands -/
theorem relational_value : (relational .lt ⟨a, u⟩ ⟨b, w⟩).u = truth (num (u || w) a < num (u || w) b) ∧
    (relational .le ⟨a, u⟩ ⟨b, w⟩).u = truth (num (u || w) a ≤ num (u || w) b) ∧
    (relational .gt ⟨a, u⟩ ⟨b, w⟩).u = truth (num (u || w) a > num (u || w) b) ∧
    (relational .ge ⟨a, u⟩ ⟨b, w⟩).u = truth (num (u || w) a ≥ num (u || w) b) := by
  simp only [relational, truth_eq, cmp_num]
  rcases lt_trichotomy (num (u || w) a) (num (u || w) b) with h | h | h
  · rw [if_pos h]
    refine ⟨?_, ?_, ?_, ?_⟩ <;> congr 1 <;> simp <;> omega
  · rw [if_neg (by omega), if_pos h]
    refine ⟨?_, ?_, ?_, ?_⟩ <;> congr 1 <;> simp <;> omega
  · rw [if_neg (by omega), if_neg (by omega)]
    refine ⟨?_, ?_, ?_, ?_⟩ <;> congr 1 <;> simp <;> omega

variable {w b} in
theorem lshift_value (h : 0 ≤ num w b ∧ num w b < 64) :
    (shift .lshift ⟨a, u⟩ ⟨b, w⟩).u = BitVec.ofInt 64 (num u a * 2 ^ b.toNat) := by
  have hb := count_range h
  simp only [shift]
  rw [if_neg (not_big_count hb), lo_count hb, ← shl_num u a hb, u64IsntZero_eq]
  by_cases h0 : b = 0
  · rw [if_neg (by simp [h0]), h0, u64ShiftL_eq a (by decide)]
    exact (BitVec.shiftLeft_zero a).symm
  · rw [if_pos (by simpa using h0)]

variable {w b} in
theorem rshift_value (h : 0 ≤ num w b ∧ num w b < 64) :
    (shift .rshift ⟨a, u⟩ ⟨b, w⟩).u = BitVec.ofInt 64 (num u a / 2 ^ b.toNat) := by
  have hb := count_range h
  simp only [shift]
  rw [if_neg (not_big_count hb), lo_count hb, ← shr_num u a hb, u64IsntZero_eq]
  by_cases h0 : b = 0
  · rw [if_neg (by simp [h0]), h0, u64ShiftR_eq a (by decide), i64ShiftR_eq a (by decide)]
    cases u
    · exact (BitVec.sshiftRight_zero).symm
    · exact (BitVec.ushiftRight_zero a).symm
  · rw [if_pos (by simpa using h0)]

variable {b} in
theorem div_value (hb : b ≠ 0) : (multiplicative .div ⟨a, u⟩ ⟨b, w⟩).u
    = BitVec.ofInt 64 ((num (u || w) a).tdiv (num (u || w) b)) := by
  simp only [multiplicative]
  rw [u64IsZero_eq, if_neg (by simpa using hb), ← div_num _ a b hb]

variable {b} in
theorem percent_value (hb : b ≠ 0) : (multiplicative .percent ⟨a, u⟩ ⟨b, w⟩).u
    = BitVec.ofInt 64 ((num (u || w) a).tmod (num (u || w) b)) := by
  simp only [multiplicative]
  rw [u64IsZero_eq, if_neg (by simpa using hb), ← rem_num _ a b hb]

end

/-- a reduction computes the value of its operator -/
theorem apply_value (op : BinOp) (u w : Bool) {a b v : U64} (h : op.value u w a b = some v) :
    (op.apply op.token ⟨a, u⟩ ⟨b, w⟩).u = v := by
  cases op with
  | orOr =>
    rw [← Option.some.inj h, ← truth_eq]
    show ofBool _ = _
    rw [u64IsntZero_eq, u64IsntZero_eq]
  | andAnd =>
    rw [← Option.some.inj h, ← truth_eq]
    show ofBool _ = _
    rw [u64IsntZero_eq, u64IsntZero_eq]
  | or => exact (u64Or_eq a b).trans (Option.some.inj h)
  | xor => exact (u64Xor_eq a b).trans (Option.some.inj h)
  | and => exact (u64And_eq a b).trans (Option.some.inj h)
  | eq =>
    rw [← Option.some.inj h, ← truth_eq]
    show ofBool _ = _
    rw [u64IsEq_eq]
    rfl
  | ne =>
    rw [← Option.some.inj h, ← truth_eq]
    show ofBool (!u64IsEq a b) = _
    rw [u64IsEq_eq, ← decide_not]
  | lt => exact (relational_value u w a b).1.trans (Option.some.inj h)
  | le => exact (relational_value u w a b).2.1.trans (Option.some.inj h)
  | gt => exact (relational_value u w a b).2.2.1.trans (Option.some.inj h)
  | ge => exact (relational_value u w a b).2.2.2.trans (Option.some.inj h)
  | lshift =>
    obtain ⟨hr, hv⟩ := Option.ite_none_right_eq_some.mp h
    exact (lshift_value u a hr).trans (Option.some.inj hv)
  | rshift =>
    obtain ⟨hr, hv⟩ := Option.ite_none_right_eq_some.mp h
    exact (rshift_value u a hr).trans (Option.some.inj hv)
  | plus =>
    rw [← Option.some.inj h, ofInt_add_num]
    exact u64Add_eq a b
  | minus =>
    rw [← Option.some.inj h, ofInt_sub_num]
    exact u64Sub_eq a b
  | times =>
    rw [← Option.some.inj h, ofInt_mul_num]
    exact u64Mul_eq a b
  | div =>
    obtain ⟨hb, hv⟩ := Option.ite_none_left_eq_some.mp h
    exact (div_value u w a hb).trans (Option.some.inj hv)
  | percent =>
    obtain ⟨hb, hv⟩ := Option.ite_none_left_eq_some.mp h
    exact (percent_value u w a hb).trans (Option.some.inj hv)

/-- the flag that a reduction gives its result: that of C, except for a difference -/
theorem apply_noSign (op : BinOp) (p q : PpValue) : (op.apply op.token p q).noSign
    = if op = .minus then false
      else if op.arithmetic then p.noSign || q.noSign
      else if op.isShift then p.noSign
      else false := by
  cases op <;> rfl

theorem unary_noSign (op : UnOp) (p : PpValue) :
    (unary op.stacked p).noSign = (decide (op ≠ .lnot) && p.noSign) := by
  cases op <;> rfl

/-- the value of a unary operator -/
theorem unary_value (op : UnOp) (p : PpValue) : (unary op.stacked p).u
    = match op with
      | .plus => p.u
      | .minus => BitVec.ofInt 64 (-num p.noSign p.u)
      | .lnot => truth (p.u = 0)
      | .tilde => ~~~p.u := by
  cases op with
  | plus => rfl
  | minus =>
    show u64Neg p.u = BitVec.ofInt 64 (-num p.noSign p.u)
    rw [u64Neg_eq, BitVec.ofInt_neg, ofInt_num]
  | lnot =>
    show ofBool (u64IsZero p.u) = truth (decide (p.u = 0))
    rw [u64IsZero_eq, truth_eq]
  | tilde => exact u64Not_eq p.u

/-! ## expressions -/

/-- an expression and the expressions in it -/
def Expr.subexprs : Expr → List Expr
  | .const v type => [.const v type]
  | .paren e => .paren e :: e.subexprs
  | .unary op e => .unary op e :: e.subexprs
  | .binary op a b => .binary op a b :: (a.subexprs ++ b.subexprs)
  | .cond c a b => .cond c a b :: (c.subexprs ++ (a.subexprs ++ b.subexprs))

theorem Expr.self_mem (e : Expr) : e ∈ e.subexprs := by
  cases e <;> exact List.mem_cons_self

theorem Expr.wellFormed_sub {e s : Expr} (h : e.WellFormed) (hs : s ∈ e.subexprs) :
    s.WellFormed := by
  induction e with
  | const v type =>
    rw [List.mem_singleton.mp hs]
    exact h
  | paren e ih =>
    rcases List.mem_cons.mp hs with rfl | hs
    · exact h
    · exact ih h hs
  | unary op e ih =>
    rcases List.mem_cons.mp hs with rfl | hs
    · exact h
    · exact ih h.1 hs
  | binary op a b iha ihb =>
    rcases List.mem_cons.mp hs with rfl | hs
    · exact h
    · rcases List.mem_append.mp hs with hs | hs
      · exact iha h.1 hs
      · exact ihb h.2.1 hs
  | cond c a b ihc iha ihb =>
    rcases List.mem_cons.mp hs with rfl | hs
    · exact h
    · rcases List.mem_append.mp hs with hs | hs
      · exact ihc h.1 hs
      · rcases List.mem_append.mp hs with hs | hs
        · exact iha h.2.1 hs
        · exact ihb h.2.2.1 hs

theorem Expr.subexprs_trans {e s : Expr} (hs : s ∈ e.subexprs) : s.subexprs ⊆ e.subexprs := by
  induction e with
  | const v type =>
    rw [List.mem_singleton.mp hs]
    exact List.Subset.refl _
  | paren e ih =>
    rcases List.mem_cons.mp hs with rfl | hs
    · exact List.Subset.refl _
    · exact fun x hx => List.mem_cons_of_mem _ (ih hs hx)
  | unary op e ih =>
    rcases List.mem_cons.mp hs with rfl | hs
    · exact List.Subset.refl _
    · exact fun x hx => List.mem_cons_of_mem _ (ih hs hx)
  | binary op a b iha ihb =>
    rcases List.mem_cons.mp hs with rfl | hs
    · exact List.Subset.refl _
    · rcases List.mem_append.mp hs with hs | hs
      · exact fun x hx => List.mem_cons_of_mem _ (List.mem_append_left _ (iha hs hx))
      · exact fun x hx => List.mem_cons_of_mem _ (List.mem_append_right _ (ihb hs hx))
  | cond c a b ihc iha ihb =>
    rcases List.mem_cons.mp hs with rfl | hs
    · exact List.Subset.refl _
    · rcases List.mem_append.mp hs with hs | hs
      · exact fun x hx => List.mem_cons_of_mem _ (List.mem_append_left _ (ihc hs hx))
      · rcases List.mem_append.mp hs with hs | hs
        · exact fun x hx => List.mem_cons_of_mem _
            (List.mem_append_right _ (List.mem_append_left _ (iha hs hx)))
        · exact fun x hx => List.mem_cons_of_mem _
            (List.mem_append_right _ (List.mem_append_right _ (ihb hs hx)))

/-- every difference in the expression is one of signed operands -/
def Expr.SignedDifferences (e : Expr) : Prop :=
  ∀ a b, Expr.binary .minus a b ∈ e.subexprs → a.isUnsigned = false ∧ b.isUnsigned = false

theorem Expr.SignedDifferences.sub {e s : Expr} (h : e.SignedDifferences) (hs : s ∈ e.subexprs) :
    s.SignedDifferences := fun a b hab => h a b (Expr.subexprs_trans hs hab)

/-- the operand is what C makes of the expression -/
def Expr.Faithful (e : Expr) : Prop :=
  e.ppValue.noSign = e.isUnsigned ∧ ∀ v, e.value = some v → e.ppValue.u = v

theorem faithful_unary {op : UnOp} {e : Expr} (h : e.Faithful) : (Expr.unary op e).Faithful := by
  refine ⟨(unary_noSign op e.ppValue).trans (by rw [h.1]; rfl), fun v hv => ?_⟩
  have hu : (Expr.unary op e).ppValue.u = _ := unary_value op e.ppValue
  rw [hu, h.1]
  cases op with
  | plus => exact h.2 v hv
  | minus =>
    obtain ⟨x, hx, rfl⟩ := Option.map_eq_some_iff.mp hv
    rw [h.2 x hx]
  | lnot =>
    obtain ⟨x, hx, rfl⟩ := Option.map_eq_some_iff.mp hv
    rw [h.2 x hx]
  | tilde =>
    obtain ⟨x, hx, rfl⟩ := Option.map_eq_some_iff.mp hv
    rw [h.2 x hx]

/-- the operators that look at both operands -/
theorem value_both {op : BinOp} {a b : Expr} (h1 : op ≠ .orOr) (h2 : op ≠ .andAnd) :
    (Expr.binary op a b).value = a.value.bind fun v => b.value.bind fun w =>
      op.value a.isUnsigned b.isUnsigned v w := by
  cases op <;> first | rfl | exact absurd rfl h1 | exact absurd rfl h2

theorem faithful_orOr {a b : Expr} (ha : a.Faithful) (hb : b.Faithful) {v : U64}
    (hv : (Expr.binary .orOr a b).value = some v) : (Expr.binary .orOr a b).ppValue.u = v := by
  obtain ⟨x, hx, hv⟩ := Option.bind_eq_some_iff.mp hv
  have hu : (Expr.binary .orOr a b).ppValue.u
      = ofBool (u64IsntZero a.ppValue.u || u64IsntZero b.ppValue.u) := rfl
  rw [hu, u64IsntZero_eq, u64IsntZero_eq, ha.2 x hx, truth_eq]
  by_cases h0 : x ≠ 0
  · rw [if_pos h0] at hv
    rw [← Option.some.inj hv, decide_eq_true h0]
    rfl
  · rw [if_neg h0] at hv
    obtain ⟨y, hy, rfl⟩ := Option.map_eq_some_iff.mp hv
    rw [hb.2 y hy, decide_eq_false h0]
    rfl

theorem faithful_andAnd {a b : Expr} (ha : a.Faithful) (hb : b.Faithful) {v : U64}
    (hv : (Expr.binary .andAnd a b).value = some v) : (Expr.binary .andAnd a b).ppValue.u = v := by
  obtain ⟨x, hx, hv⟩ := Option.bind_eq_some_iff.mp hv
  have hu : (Expr.binary .andAnd a b).ppValue.u
      = ofBool (u64IsntZero a.ppValue.u && u64IsntZero b.ppValue.u) := rfl
  rw [hu, u64IsntZero_eq, u64IsntZero_eq, ha.2 x hx, truth_eq]
  by_cases h0 : x = 0
  · rw [if_pos h0] at hv
    rw [← Option.some.inj hv, decide_eq_false (not_not_intro h0)]
    rfl
  · rw [if_neg h0] at hv
    obtain ⟨y, hy, rfl⟩ := Option.map_eq_some_iff.mp hv
    rw [hb.2 y hy, decide_eq_true h0]
    rfl

theorem faithful_binary {op : BinOp} {a b : Expr} (ha : a.Faithful) (hb : b.Faithful)
    (hm : op = .minus → a.isUnsigned = false ∧ b.isUnsigned = false) :
    (Expr.binary op a b).Faithful := by
  constructor
  · refine (apply_noSign op a.ppValue b.ppValue).trans ?_
    show _ = if op.arithmetic then a.isUnsigned || b.isUnsigned
      else if op.isShift then a.isUnsigned
      else false
    rw [ha.1, hb.1]
    by_cases h : op = .minus
    · rw [if_pos h, (hm h).1, (hm h).2, h]
      rfl
    · rw [if_neg h]
  · intro v hv
    by_cases h1 : op = .orOr
    · subst h1
      exact faithful_orOr ha hb hv
    by_cases h2 : op = .andAnd
    · subst h2
      exact faithful_andAnd ha hb hv
    rw [value_both h1 h2] at hv
    obtain ⟨x, hx, hv⟩ := Option.bind_eq_some_iff.mp hv
    obtain ⟨y, hy, hv⟩ := Option.bind_eq_some_iff.mp hv
    have e1 : a.ppValue = ⟨x, a.isUnsigned⟩ := by rw [← ha.2 x hx, ← ha.1]
    have e2 : b.ppValue = ⟨y, b.isUnsigned⟩ := by rw [← hb.2 y hy, ← hb.1]
    show (op.apply op.token a.ppValue b.ppValue).u = v
    rw [e1, e2]
    exact apply_value op a.isUnsigned b.isUnsigned hv

theorem faithful_cond {c a b : Expr} (hc : c.Faithful) (ha : a.Faithful) (hb : b.Faithful) :
    (Expr.cond c a b).Faithful := by
  constructor
  · show (a.ppValue.noSign || b.ppValue.noSign) = (a.isUnsigned || b.isUnsigned)
    rw [ha.1, hb.1]
  · intro v hv
    obtain ⟨x, hx, hv⟩ := Option.bind_eq_some_iff.mp hv
    show (if u64IsntZero c.ppValue.u then a.ppValue.u else b.ppValue.u) = v
    rw [u64IsntZero_eq, hc.2 x hx]
    by_cases h0 : x ≠ 0
    · rw [if_pos h0] at hv
      rw [if_pos (decide_eq_true h0), ha.2 v hv]
    · rw [if_neg h0] at hv
      rw [if_neg (by simpa using h0), hb.2 v hv]

theorem ppValue_correct (e : Expr) (h : e.SignedDifferences) : e.Faithful := by
  induction e with
  | const v type => exact ⟨rfl, fun w hw => Option.some.inj hw⟩
  | paren e ih => exact ih (h.sub (List.mem_cons_of_mem _ e.self_mem))
  | unary op e ih => exact faithful_unary (ih (h.sub (List.mem_cons_of_mem _ e.self_mem)))
  | binary op a b iha ihb =>
    refine faithful_binary (iha (h.sub ?_)) (ihb (h.sub ?_)) ?_
    · exact List.mem_cons_of_mem _ (List.mem_append_left _ a.self_mem)
    · exact List.mem_cons_of_mem _ (List.mem_append_right _ b.self_mem)
    · rintro rfl
      exact h a b (Expr.self_mem _)
  | cond c a b ihc iha ihb =>
    refine faithful_cond (ihc (h.sub ?_)) (iha (h.sub ?_)) (ihb (h.sub ?_))
    · exact List.mem_cons_of_mem _ (List.mem_append_left _ c.self_mem)
    · exact List.mem_cons_of_mem _ (List.mem_append_right _ (List.mem_append_left _ a.self_mem))
    · exact List.mem_cons_of_mem _ (List.mem_append_right _ (List.mem_append_right _ b.self_mem))

/-! ## what `PrecedenceParse` ends with -/

/-- `PrecedenceParse` reads the expression without an error and ends with the type and, where C
defines it, the value of the expression -/
def Agrees (e : Expr) : Prop :=
  ∃ p, precedenceParse e.tokens = some (p, []) ∧ p.noSign = e.isUnsigned ∧
    ∀ v, e.value = some v → p.u = v

end PpExpn
