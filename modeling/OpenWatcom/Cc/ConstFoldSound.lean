import OpenWatcom.Cc.ConstFold

/-!
# Folded constants against the target

`DoConstFold` on an operator with constant operands, compared with the target machine, which
computes in registers as wide as the type of the expression.

* `doOp32_eq`, `doOp64_eq`   what the two evaluators compute, and when the host stops;
* `narrow_targetOp`   a 16-bit target's result, computed in 32 bits;
* `evaluate_iff`   an operator that is not a comparison, unless the host stops;
* `compare_iff`   a comparison, unless its words of 16 bits are ordered the other way;
* `fold_iff`   every operator: the leaf has the target's number exactly in these cases.
-/

namespace ConstFold

open I64 Narrowing

/-! ## types and values -/

namespace DataType

def width (cpu : Cpu) : DataType → Nat
  | char | uchar => 8
  | short | ushort => 16
  | int | uint => cpu.int
  | long | ulong | pointer => 32
  | long64 | ulong64 => 64

def signed : DataType → Bool
  | char | short | int | long | long64 => true
  | uchar | ushort | uint | ulong | ulong64 | pointer => false

/-- `TYP_LONG64` and `TYP_ULONG64` -/
def isLong64 : DataType → Bool
  | long64 | ulong64 => true
  | _ => false

/-- `PUS`: the type that an `unsigned short` is promoted to -/
def pus : Cpu → DataType
  | .i86 => uint
  | .i386 => int

/-- `PUI`: the type of an `unsigned int` and a `long` -/
def pui : Cpu → DataType
  | .i86 => long
  | .i386 => ulong

/-- the integers of `BinResult`; `none` where there is no type -/
def binExprTypeDT (cpu : Cpu) : DataType → DataType → Option DataType
  | pointer, _ | _, pointer => none
  | ulong64, _ | _, ulong64 => some ulong64
  | long64, _ | _, long64 => some long64
  | ulong, _ | _, ulong => some ulong
  | uint, long | long, uint => some (pui cpu)
  | long, _ | _, long => some long
  | uint, _ | _, uint => some uint
  | ushort, _ | _, ushort => some (pus cpu)
  | char, char => some char
  | uchar, uchar => some uchar
  | _, _ => some int

/-- the type of `-` and `~` -/
def promote (cpu : Cpu) : DataType → Option DataType
  | pointer => none
  | char | uchar | short => some int
  | ushort => some (pus cpu)
  | t => some t

end DataType

/-- a leaf of type `t` with the bytes `u2` holds the number `v` -/
def Holds (cpu : Cpu) (t : DataType) (u2 : U64) (v : Int) : Prop :=
  Fits t.signed (t.width cpu) v ∧
    if t.isLong64 then u2 = BitVec.ofInt 64 v else lo u2 = BitVec.ofInt 32 v

/-! ## what the target computes -/

/-- an operator on registers of `w` bits; `n` is the count of a shift -/
def targetOp {w : Nat} (sign : Bool) (opr : Opr) (x y : BitVec w) (n : Nat) : BitVec w :=
  match opr with
  | .add => x + y
  | .sub => x - y
  | .mul => x * y
  | .div => if y = 0 then 0 else quot sign x y
  | .mod => if y = 0 then 0 else rem sign x y
  | .rshift => shiftR sign x n
  | .lshift => x <<< n
  | .or => x ||| y
  | .orOr => if x ≠ 0 ∨ y ≠ 0 then 1 else 0
  | .and => x &&& y
  | .andAnd => if x ≠ 0 ∧ y ≠ 0 then 1 else 0
  | .xor => x ^^^ y
  | .neg => -y
  | .com => ~~~y
  | .not => if y = 0 then 1 else 0
  | .cmp => 0

/-- a number converted to a type -/
def convert (cpu : Cpu) (t : DataType) (v : Int) : Int :=
  read t.signed (BitVec.ofInt (t.width cpu) v)

/-- the value of an operator on two numbers -/
def targetValue (cpu : Cpu) (opr : Opr) (cc : Cc) (exprType compareType : DataType) (v1 v2 : Int) :
    Int :=
  if opr = .cmp then
    if cc.test (convert cpu compareType v1) (convert cpu compareType v2) then 1 else 0
  else
    let w := exprType.width cpu
    read exprType.signed
      (targetOp exprType.signed opr (BitVec.ofInt w v1) (BitVec.ofInt w v2) v2.toNat)

/-! ## leaves -/

theorem width_pos (cpu : Cpu) (t : DataType) : 0 < t.width cpu := by
  cases cpu <;> cases t <;> decide

theorem width_le (cpu : Cpu) {t : DataType} (h : t.isLong64 = false) : t.width cpu ≤ 32 := by
  cases cpu <;> cases t <;> first | decide | cases h

theorem lo_ofInt (v : Int) : lo (BitVec.ofInt 64 v) = BitVec.ofInt 32 v := by
  rw [← narrow_ofInt (by decide : 32 ≤ 64) v]
  exact BitVec.eq_of_toNat_eq (by rw [lo_toNat, BitVec.toNat_setWidth])

theorem lo_setLong (u2 : U64) (value : BitVec 32) : lo (setLong u2 value) = value := by
  apply BitVec.eq_of_toNat_eq
  have h := value.isLt
  rw [lo_toNat, setLong, mk_toNat]
  omega

section
variable {cpu : Cpu} {t : DataType} {u2 : U64} {v : Int}

theorem Holds.word (h : Holds cpu t u2 v) : lo u2 = BitVec.ofInt 32 v := by
  have h2 := h.2
  cases ht : t.isLong64 with
  | true =>
    rw [ht, if_pos rfl] at h2
    rw [h2, lo_ofInt]
  | false =>
    rw [ht] at h2
    exact h2

theorem Holds.castTo (h : Holds cpu t u2 v) (ht : t.isLong64 = false) :
    castTo t.signed (t.width cpu) (lo u2) = BitVec.ofInt 32 v := by
  rw [h.word, castTo_ofInt (width_pos cpu t) (width_le cpu ht) h.1]

theorem set64ValI32_ofInt (h : Fits true 32 v) :
    set64ValI32 (BitVec.ofInt 32 v) = BitVec.ofInt 64 v := by
  have e : (BitVec.ofInt 32 v).toInt = v := read_ofInt (by decide) h
  show BitVec.ofInt 64 (BitVec.ofInt 32 v).toInt = _
  rw [e]

theorem set64ValU32_ofInt (h : Fits false 32 v) :
    set64ValU32 (BitVec.ofInt 32 v) = BitVec.ofInt 64 v := by
  have e : ((BitVec.ofInt 32 v).toNat : Int) = v := @read_ofInt 32 false v (by decide) h
  rw [set64ValU32, ← BitVec.ofNat_toNat, ← BitVec.ofInt_natCast, e]

/-- every type is widened to its number -/
theorem longValue64_holds (h : Holds cpu t u2 v) :
    longValue64 cpu (.pushInt t u2) = BitVec.ofInt 64 v := by
  have hI (ht : t.isLong64 = false) (hs : t.signed = true) :
      set64ValI32 (castTo true (t.width cpu) (lo u2)) = BitVec.ofInt 64 v := by
    have hf := h.1
    rw [← hs, h.castTo ht]
    rw [hs] at hf
    exact set64ValI32_ofInt (fits_mono (width_le cpu ht) hf)
  have hU (ht : t.isLong64 = false) (hs : t.signed = false) :
      set64ValU32 (castTo false (t.width cpu) (lo u2)) = BitVec.ofInt 64 v := by
    have hf := h.1
    rw [← hs, h.castTo ht]
    rw [hs] at hf
    exact set64ValU32_ofInt (fits_mono (width_le cpu ht) hf)
  cases t with
  | char | short | int | long => exact hI rfl rfl
  | uchar | ushort | uint | ulong | pointer => exact hU rfl rfl
  | long64 | ulong64 => exact h.2

end

/-! ## the evaluators -/

/-- an operator without a count, or a count below the width -/
def CountBelow (opr : Opr) (count n w : Nat) : Prop :=
  opr = .rshift ∨ opr = .lshift → count = n ∧ n < w

/-- the division stops the host -/
def HostStops (opr : Opr) (sign : Bool) (x y : BitVec 32) : Prop :=
  (opr = .div ∨ opr = .mod) ∧ sign = true ∧ x = BitVec.intMin 32 ∧ y = -1

theorem hostDiv_eq (x y : BitVec 32) (h : ¬ (x = BitVec.intMin 32 ∧ y = -1)) :
    hostDiv x y = some (x.sdiv y, x.srem y) := if_neg h

theorem doOp32_stops {opr : Opr} {sign : Bool} {x y : BitVec 32} (h : HostStops opr sign x y) :
    doOp32 x opr y sign = none := by
  obtain ⟨ho, rfl, rfl, rfl⟩ := h
  obtain rfl | rfl := ho <;> rfl

theorem doOp32_eq {opr : Opr} {sign : Bool} {x y : BitVec 32} {n : Nat}
    (hn : CountBelow opr y.toNat n 32) (h : ¬ HostStops opr sign x y) :
    doOp32 x opr y sign = some (targetOp sign opr x y n) := by
  have hstop (ho : opr = .div ∨ opr = .mod) (hs : sign = true) :
      ¬ (x = BitVec.intMin 32 ∧ y = -1) := fun he => h ⟨ho, hs, he⟩
  cases opr with
  | div =>
    rw [doOp32, targetOp]
    by_cases hy : y = 0
    · rw [if_pos hy, if_pos hy]
    · rw [if_neg hy, if_neg hy]
      cases sign with
      | true => rw [if_pos rfl, hostDiv_eq x y (hstop (Or.inl rfl) rfl)]; rfl
      | false => rfl
  | mod =>
    rw [doOp32, targetOp]
    by_cases hy : y = 0
    · rw [if_pos hy, if_pos hy]
    · rw [if_neg hy, if_neg hy]
      cases sign with
      | true => rw [if_pos rfl, hostDiv_eq x y (hstop (Or.inr rfl) rfl)]; rfl
      | false => rfl
  | rshift =>
    obtain ⟨e, hlt⟩ := hn (Or.inl rfl)
    rw [doOp32, targetOp, shiftR, e, Nat.mod_eq_of_lt hlt]
  | lshift =>
    obtain ⟨e, hlt⟩ := hn (Or.inr rfl)
    rw [doOp32, targetOp, e, Nat.mod_eq_of_lt hlt]
  | orOr =>
    rw [doOp32, targetOp, ofTruth]
    simp only [decide_eq_true_eq]
  | andAnd =>
    rw [doOp32, targetOp, ofTruth]
    simp only [decide_eq_true_eq]
  | not =>
    rw [doOp32, targetOp, ofTruth]
    simp only [decide_eq_true_eq]
  | add | sub | mul | or | and | xor | neg | com | cmp => rfl

/-- a count below 64 is positive, zero or, negated, negative -/
theorem doShift_right {x : U64} {count : BitVec 32} {n : Nat} (sign : Bool) (e : count.toNat = n)
    (hn : n < 64) : doShift x count sign = shiftR sign x n := by
  have hi : count.toInt = n := by
    rw [BitVec.toInt_eq_toNat_cond]
    omega
  rw [doShift, hi, e]
  by_cases hz : n = 0
  · subst hz
    have hc : count = 0 := BitVec.eq_of_toNat_eq e
    rw [if_neg (by decide), hc]
    show u64ShiftL x 0 = _
    rw [u64ShiftL_eq x (by decide), BitVec.shiftLeft_zero, shiftR, BitVec.sshiftRight_zero,
      BitVec.ushiftRight_zero, ite_self]
  · rw [if_pos (by omega), i64ShiftR_eq x hn, u64ShiftR_eq x hn, shiftR]

theorem doShift_left {x : U64} {count : BitVec 32} {n : Nat} (sign : Bool) (e : count.toNat = n)
    (hn : n < 64) : doShift x (-count) sign = x <<< n := by
  have hneg : ¬ (-count).toInt > 0 := by
    have h := BitVec.toNat_neg count
    rw [BitVec.toInt_eq_toNat_cond, h, e]
    omega
  rw [doShift, if_neg hneg, BitVec.neg_neg, e, u64ShiftL_eq x hn]

theorem doOp64_eq {opr : Opr} {sign : Bool} {x y : U64} {n : Nat}
    (hn : CountBelow opr (lo y).toNat n 64) : doOp64 x opr y sign = targetOp sign opr x y n := by
  have hz : u64IsZero y = true ↔ y = 0 := by
    rw [u64IsZero_eq]
    exact decide_eq_true_iff
  cases opr with
  | add => exact u64Add_eq x y
  | sub => exact u64Sub_eq x y
  | mul => exact u64Mul_eq x y
  | div =>
    rw [doOp64, targetOp]
    by_cases hy : y = 0
    · rw [if_pos (hz.mpr hy), if_pos hy]
    · rw [if_neg (mt hz.mp hy), if_neg hy, i64Div_eq x y hy, u64Div_eq x y hy]
      rfl
  | mod =>
    rw [doOp64, targetOp]
    by_cases hy : y = 0
    · rw [if_pos (hz.mpr hy), if_pos hy]
    · rw [if_neg (mt hz.mp hy), if_neg hy, i64Div_eq x y hy, u64Div_eq x y hy]
      rfl
  | rshift => exact doShift_right sign (hn (Or.inl rfl)).1 (hn (Or.inl rfl)).2
  | lshift => exact doShift_left sign (hn (Or.inr rfl)).1 (hn (Or.inr rfl)).2
  | or => exact u64Or_eq x y
  | orOr =>
    rw [doOp64, targetOp, ofBool_eq, u64IsntZero_eq, u64IsntZero_eq]
    simp only [Bool.or_eq_true, decide_eq_true_eq, or_comm]
  | and => exact u64And_eq x y
  | andAnd =>
    rw [doOp64, targetOp, ofBool_eq, u64IsntZero_eq, u64IsntZero_eq]
    simp only [Bool.and_eq_true, decide_eq_true_eq, and_comm]
  | xor => exact u64Xor_eq x y
  | neg => exact u64Neg_eq y
  | com => exact u64Not_eq y
  | not =>
    rw [doOp64, targetOp, ofBool_eq]
    simp only [hz]
  | cmp => rfl

/-! ## narrow results -/

theorem narrow_truth {w m : Nat} (h : w ≤ m) (p : Prop) [Decidable p] :
    (if p then (1 : BitVec m) else 0).setWidth w = if p then 1 else 0 := by
  split
  · exact narrow_ofInt h 1
  · exact narrow_ofInt h 0

/-- what is left of a wide result is the narrow register's -/
theorem narrow_targetOp {w m : Nat} {sign : Bool} {v1 v2 : Int} (hw : 0 < w) (h : w ≤ m)
    (h1 : Fits sign w v1) (h2 : Fits sign w v2) (opr : Opr) (n : Nat) :
    (targetOp sign opr (BitVec.ofInt m v1) (BitVec.ofInt m v2) n).setWidth w =
      targetOp sign opr (BitVec.ofInt w v1) (BitVec.ofInt w v2) n := by
  have hm : 0 < m := by omega
  have z1 : BitVec.ofInt m v1 = 0 ↔ BitVec.ofInt w v1 = 0 :=
    (ofInt_eq_zero hm (fits_mono h h1)).trans (ofInt_eq_zero hw h1).symm
  have z2 : BitVec.ofInt m v2 = 0 ↔ BitVec.ofInt w v2 = 0 :=
    (ofInt_eq_zero hm (fits_mono h h2)).trans (ofInt_eq_zero hw h2).symm
  have e1 := narrow_ofInt h v1
  have e2 := narrow_ofInt h v2
  cases opr with
  | add => rw [targetOp, BitVec.setWidth_add _ _ h, e1, e2, targetOp]
  | sub =>
    rw [targetOp, BitVec.sub_eq_add_neg, BitVec.setWidth_add _ _ h, BitVec.setWidth_neg_of_le h, e1,
      e2, targetOp, BitVec.sub_eq_add_neg]
  | mul => rw [targetOp, BitVec.setWidth_mul _ _ h, e1, e2, targetOp]
  | div =>
    rw [targetOp, targetOp]
    by_cases hz : BitVec.ofInt w v2 = 0
    · rw [if_pos (z2.mpr hz), if_pos hz]
      exact narrow_ofInt h 0
    · rw [if_neg (mt z2.mp hz), if_neg hz, narrow_quot hw h h1 h2]
  | mod =>
    rw [targetOp, targetOp]
    by_cases hz : BitVec.ofInt w v2 = 0
    · rw [if_pos (z2.mpr hz), if_pos hz]
      exact narrow_ofInt h 0
    · rw [if_neg (mt z2.mp hz), if_neg hz, narrow_rem hw h h1 h2]
  | rshift => exact narrow_shiftR hw h h1 n
  | lshift => rw [targetOp, BitVec.setWidth_shiftLeft_of_le h, e1, targetOp]
  | or => rw [targetOp, BitVec.setWidth_or, e1, e2, targetOp]
  | orOr =>
    rw [targetOp, targetOp, narrow_truth h]
    simp only [ne_eq, z1, z2]
  | and => rw [targetOp, BitVec.setWidth_and, e1, e2, targetOp]
  | andAnd =>
    rw [targetOp, targetOp, narrow_truth h]
    simp only [ne_eq, z1, z2]
  | xor => rw [targetOp, BitVec.setWidth_xor, e1, e2, targetOp]
  | neg => rw [targetOp, BitVec.setWidth_neg_of_le h, e2, targetOp]
  | com => rw [targetOp, BitVec.setWidth_not h, e2, targetOp]
  | not =>
    rw [targetOp, targetOp, narrow_truth h]
    simp only [z2]
  | cmp => exact narrow_ofInt h 0

/-! ## the operands -/

def Opr.unary : Opr → Bool
  | .neg | .com | .not => true
  | _ => false

/-- the types that the front end gives a node and its operands, and the counts of its shifts -/
def WellTyped (cpu : Cpu) (opr : Opr) (exprType compareType t1 t2 : DataType) (v2 : Int) : Prop :=
  match opr with
  | .cmp => exprType = .int ∧ DataType.binExprTypeDT cpu t1 t2 = some compareType
  | .orOr | .andAnd => exprType = .int ∧ t1 = .int ∧ t2 = .int
  | .not => exprType = .int ∧ t2 = .int
  | .neg | .com => DataType.promote cpu t2 = some exprType
  | .rshift | .lshift =>
    DataType.promote cpu exprType = some exprType ∧ t1 = exprType ∧
      0 ≤ v2 ∧ v2 < exprType.width cpu
  | _ => DataType.promote cpu exprType = some exprType ∧ t1 = exprType ∧ t2 = exprType

/-- the operands are leaves that hold `v1` and `v2`; one operand is the right one -/
inductive Constants (cpu : Cpu) (opr : Opr) (exprType compareType : DataType) :
    Tree → Tree → Int → Int → Prop where
  | binary {t1 t2 : DataType} {u1 u2 : U64} {v1 v2 : Int} (h : opr.unary = false)
      (h1 : Holds cpu t1 u1 v1) (h2 : Holds cpu t2 u2 v2)
      (ht : WellTyped cpu opr exprType compareType t1 t2 v2) :
      Constants cpu opr exprType compareType (.pushInt t1 u1) (.pushInt t2 u2) v1 v2
  | unary {t2 : DataType} {u2 : U64} {v2 : Int} (h : opr.unary = true) (h2 : Holds cpu t2 u2 v2)
      (ht : WellTyped cpu opr exprType compareType t2 t2 v2) :
      Constants cpu opr exprType compareType .null (.pushInt t2 u2) 0 v2

/-- what an operator other than a comparison meets in its operands -/
structure Ready (cpu : Cpu) (opr : Opr) (exprType : DataType) (left right : Tree) (v1 v2 : Int) :
    Prop where
  foldable : ∀ cc compareType u2,
    foldableTree (.node opr cc exprType compareType u2 left right) = true
  promoted : DataType.promote cpu exprType = some exprType
  fits1 : Fits exprType.signed (exprType.width cpu) v1
  fits2 : Fits exprType.signed (exprType.width cpu) v2
  word1 : left.longValue = BitVec.ofInt 32 v1
  word2 : right.longValue = BitVec.ofInt 32 v2
  long1 : longValue64 cpu left = BitVec.ofInt 64 v1
  long2 : longValue64 cpu right = BitVec.ofInt 64 v2
  count : opr = .rshift ∨ opr = .lshift → 0 ≤ v2 ∧ v2 < exprType.width cpu

theorem fits_zero (cpu : Cpu) (t : DataType) : Fits t.signed (t.width cpu) 0 := by
  cases cpu <;> cases t <;> decide

/-- a promoted operand keeps its number -/
theorem fits_promote {cpu : Cpu} {t e : DataType} {v : Int} (hp : DataType.promote cpu t = some e)
    (hv : Fits t.signed (t.width cpu) v) :
    DataType.promote cpu e = some e ∧ Fits e.signed (e.width cpu) v := by
  cases cpu <;> cases t <;> cases hp <;> refine ⟨rfl, ?_⟩ <;>
    simp only [Fits, DataType.signed, DataType.width, DataType.pus, Cpu.int, if_true,
      Bool.false_eq_true, if_false] at hv ⊢ <;> omega

/-- a count fits the type of the shifted number -/
theorem fits_count {cpu : Cpu} {e : DataType} {v : Int} (h0 : 0 ≤ v) (h : v < e.width cpu) :
    Fits e.signed (e.width cpu) v := by
  cases cpu <;> cases e <;>
    simp only [Fits, DataType.signed, DataType.width, Cpu.int, if_true, Bool.false_eq_true,
      if_false] at h ⊢ <;> omega

theorem Constants.ready {cpu : Cpu} {opr : Opr} {e c : DataType} {l r : Tree} {v1 v2 : Int}
    (h : Constants cpu opr e c l r v1 v2) (ho : opr ≠ .cmp) : Ready cpu opr e l r v1 v2 := by
  cases h with
  | @binary t1 t2 u1 u2 _ _ h h1 h2 ht =>
    have hf (cc : Cc) (c : DataType) (u : U64) :
        foldableTree (.node opr cc e c u (.pushInt t1 u1) (.pushInt t2 u2)) = true := by
      cases opr <;> rfl
    have hfit : DataType.promote cpu e = some e ∧ Fits e.signed (e.width cpu) v1 ∧
        Fits e.signed (e.width cpu) v2 ∧
        (opr = .rshift ∨ opr = .lshift → 0 ≤ v2 ∧ v2 < e.width cpu) := by
      cases opr with
      | cmp => exact absurd rfl ho
      | neg | com | not => cases h
      | orOr | andAnd =>
        obtain ⟨rfl, rfl, rfl⟩ := ht
        exact ⟨rfl, h1.1, h2.1, by simp⟩
      | rshift | lshift =>
        obtain ⟨hp, rfl, h0, hlt⟩ := ht
        exact ⟨hp, h1.1, fits_count h0 hlt, fun _ => ⟨h0, hlt⟩⟩
      | add | sub | mul | div | mod | or | and | xor =>
        obtain ⟨hp, rfl, rfl⟩ := ht
        exact ⟨hp, h1.1, h2.1, by simp⟩
    exact ⟨hf, hfit.1, hfit.2.1, hfit.2.2.1, h1.word, h2.word, longValue64_holds h1,
      longValue64_holds h2, hfit.2.2.2⟩
  | @unary t2 u2 _ h h2 ht =>
    have hf (cc : Cc) (c : DataType) (u : U64) :
        foldableTree (.node opr cc e c u .null (.pushInt t2 u2)) = true := by
      cases opr <;> first | rfl | cases h
    have hfit : DataType.promote cpu e = some e ∧ Fits e.signed (e.width cpu) v2 := by
      cases opr with
      | neg | com => exact fits_promote ht h2.1
      | not =>
        obtain ⟨rfl, rfl⟩ := ht
        exact ⟨rfl, h2.1⟩
      | _ => cases h
    have hc : ¬ (opr = .rshift ∨ opr = .lshift) := by
      rintro (rfl | rfl) <;> cases h
    exact ⟨hf, hfit.1, fits_zero cpu e, hfit.2, rfl, h2.word, rfl, longValue64_holds h2,
      fun hs => absurd hs hc⟩

/-! ## operators other than comparisons -/

section
variable {cpu : Cpu} {opr : Opr} {cc : Cc} {e c : DataType} {u : U64} {l r : Tree} {v1 v2 : Int}

theorem fold_narrow (h : Ready cpu opr e l r v1 v2) (ho : opr ≠ .cmp) (hl : e.isLong64 = false) :
    doConstFold cpu (.node opr cc e c u l r) =
      (doOp32 (BitVec.ofInt 32 v1) opr (BitVec.ofInt 32 v2) e.signed).map fun value =>
        .pushInt e (setLong u (castTo e.signed (e.width cpu) value)) := by
  have hp := h.promoted
  have hcast (sign : Bool) (value : BitVec 32) : castTo sign 32 value = value :=
    castTo_self sign value
  rw [doConstFold, if_pos (h.foldable cc c u)]
  dsimp only
  rw [if_neg ho]
  cases e with
  | char | uchar | short | ushort | pointer => cases cpu <;> cases hp
  | int =>
    show doSignedOp cpu l opr cc .int u r = _
    rw [doSignedOp, if_neg ho, h.word1, h.word2]
    rfl
  | long =>
    show doSignedOp cpu l opr cc .long u r = _
    rw [doSignedOp, if_neg ho, h.word1, h.word2]
    simp only [if_true, DataType.width, DataType.signed, hcast]
  | uint =>
    show doUnSignedOp cpu l opr cc .uint u r = _
    rw [doUnSignedOp, if_neg ho, h.word1, h.word2]
    rfl
  | ulong =>
    show doUnSignedOp cpu l opr cc .ulong u r = _
    rw [doUnSignedOp, if_neg ho, h.word1, h.word2]
    simp only [true_or, if_true, DataType.width, DataType.signed, hcast]
  | long64 | ulong64 => cases hl

theorem fold_wide (h : Ready cpu opr e l r v1 v2) (ho : opr ≠ .cmp) (hl : e.isLong64 = true) :
    doConstFold cpu (.node opr cc e c u l r) =
      some (.pushInt e (doOp64 (BitVec.ofInt 64 v1) opr (BitVec.ofInt 64 v2) e.signed)) := by
  rw [doConstFold, if_pos (h.foldable cc c u)]
  dsimp only
  rw [if_neg ho]
  cases e with
  | long64 =>
    show some (doSignedOp64 cpu l opr cc .long64 u r) = _
    rw [doSignedOp64, if_neg ho, h.long1, h.long2]
    rfl
  | ulong64 =>
    show some (doUnSignedOp64 cpu l opr cc .ulong64 u r) = _
    rw [doUnSignedOp64, if_neg ho, h.long1, h.long2]
    rfl
  | _ => cases hl

/-- the least number of 32 bits is divided by `-1`, and the host divides -/
def LeastByMinusOne (opr : Opr) (exprType : DataType) (v1 v2 : Int) : Prop :=
  (opr = .div ∨ opr = .mod) ∧ arithmeticType exprType = .signedInt ∧ v1 = -2 ^ 31 ∧ v2 = -1

theorem hostStops_iff (h : Ready cpu opr e l r v1 v2) (hl : e.isLong64 = false) :
    HostStops opr e.signed (BitVec.ofInt 32 v1) (BitVec.ofInt 32 v2) ↔
      LeastByMinusOne opr e v1 v2 := by
  have hs : e.signed = true ↔ arithmeticType e = .signedInt := by
    cases e <;> first | decide | cases hl
  refine and_congr_right fun _ => ?_
  rw [hs]
  refine and_congr_right fun he => ?_
  have f1 := fits_mono (width_le cpu hl) h.fits1
  have f2 := fits_mono (width_le cpu hl) h.fits2
  rw [hs.mpr he] at f1 f2
  have d1 : BitVec.intMin 32 = BitVec.ofInt 32 (-2 ^ 31) := by decide
  have d2 : (-1 : BitVec 32) = BitVec.ofInt 32 (-1) := by decide
  rw [d1, d2, ofInt_inj (by decide) f1 (by decide), ofInt_inj (by decide) f2 (by decide)]

theorem countBelow (h : Ready cpu opr e l r v1 v2) {m : Nat} (hm : e.width cpu ≤ m) (h32 : m ≤ 64) :
    CountBelow opr (BitVec.ofInt 32 v2).toNat v2.toNat m := by
  intro hs
  obtain ⟨h0, hlt⟩ := h.count hs
  have e2 : ((BitVec.ofInt 32 v2).toNat : Int) = v2 :=
    @read_ofInt 32 false v2 (by decide) ⟨h0, by omega⟩
  omega

/-- a leaf of the type of the expression that holds the number -/
def Yields (cpu : Cpu) (exprType : DataType) (result : Option Tree) (v : Int) : Prop :=
  ∃ u2, result = some (.pushInt exprType u2) ∧ Holds cpu exprType u2 v

/-- an operator that is not a comparison: the target's value, or the host stops -/
theorem evaluate_iff (h : Ready cpu opr e l r v1 v2) (ho : opr ≠ .cmp) :
    Yields cpu e (doConstFold cpu (.node opr cc e c u l r)) (targetValue cpu opr cc e c v1 v2) ↔
      ¬ LeastByMinusOne opr e v1 v2 := by
  have hw := width_pos cpu e
  rw [targetValue, if_neg ho]
  dsimp only
  cases hl : e.isLong64 with
  | true =>
    have hs : ¬ LeastByMinusOne opr e v1 v2 := by
      rintro ⟨-, he, -⟩
      cases e with
      | long64 | ulong64 => cases he
      | _ => cases hl
    have h64 : e.width cpu = 64 := by
      cases e <;> first | rfl | cases hl
    have hc := countBelow h (by omega : e.width cpu ≤ 64) (by omega)
    rw [← lo_ofInt] at hc
    refine iff_of_true ⟨_, fold_wide h ho hl, fits_read _ _, ?_⟩ hs
    rw [hl, if_pos rfl, doOp64_eq hc, h64, ofInt_read]
  | false =>
    have hle := width_le cpu hl
    have hc := countBelow h (by omega : e.width cpu ≤ 32) (by omega)
    rw [fold_narrow h ho hl, ← hostStops_iff h hl]
    by_cases hs : HostStops opr e.signed (BitVec.ofInt 32 v1) (BitVec.ofInt 32 v2)
    · rw [doOp32_stops hs]
      refine iff_of_false ?_ (fun hn => hn hs)
      rintro ⟨u2, hu, -⟩
      cases hu
    · rw [doOp32_eq hc hs]
      refine iff_of_true ⟨_, rfl, fits_read _ _, ?_⟩ hs
      rw [hl, if_neg (by decide), lo_setLong, castTo, narrow_targetOp hw hle h.fits1 h.fits2]

end

/-! ## comparisons -/

/-- the test that is made: on words of 32 or of 64 bits -/
def foldTest (cc : Cc) (compareType : DataType) (v1 v2 : Int) : Bool :=
  let w := if compareType.isLong64 then 64 else 32
  cc.test (read compareType.signed (BitVec.ofInt w v1))
    (read compareType.signed (BitVec.ofInt w v2))

/-- the sign of a comparison tests as the numbers do -/
theorem test_sign (cc : Cc) {a b t : Int} (h : t = if a < b then -1 else if a = b then 0 else 1) :
    cc.test t 0 = cc.test a b := by
  have e1 : t = 0 ↔ a = b := by split_ifs at h <;> omega
  have e2 : t < 0 ↔ a < b := by split_ifs at h <;> omega
  have e3 : 0 < t ↔ b < a := by split_ifs at h <;> omega
  cases cc with
  | eq => exact decide_eq_decide.mpr e1
  | ne => exact congrArg Bool.not (decide_eq_decide.mpr e1)
  | gt => exact decide_eq_decide.mpr e3
  | ge => exact decide_eq_decide.mpr (by omega)
  | lt => exact decide_eq_decide.mpr e2
  | le => exact decide_eq_decide.mpr (by omega)

theorem test_i64Cmp (cc : Cc) (a b : U64) : cc.test (i64Cmp a b) 0 = cc.test a.toInt b.toInt := by
  refine test_sign cc ?_
  rw [i64Cmp_eq]
  simp only [← BitVec.toInt_inj]

theorem test_u64Cmp (cc : Cc) (a b : U64) : cc.test (u64Cmp a b) 0 = cc.test a.toNat b.toNat := by
  refine test_sign cc ?_
  rw [u64Cmp_eq]
  simp only [← BitVec.toNat_inj, Int.ofNat_lt, Int.ofNat_inj]

theorem castTo_ofTruth (cpu : Cpu) (b : Bool) : castTo true cpu.int (ofTruth b) = ofTruth b := by
  cases cpu <;> cases b <;> decide

section
variable {cpu : Cpu} {cc : Cc} {c t1 t2 : DataType} {u u1 u2 : U64} {v1 v2 : Int}

theorem fold_cmp (h1 : Holds cpu t1 u1 v1) (h2 : Holds cpu t2 u2 v2) :
    doConstFold cpu (.node .cmp cc .int c u (.pushInt t1 u1) (.pushInt t2 u2)) =
      some (.pushInt .int (setLong u (ofTruth (foldTest cc c v1 v2)))) := by
  have hs : doSignedOp cpu (.pushInt t1 u1) .cmp cc .int u (.pushInt t2 u2) =
      some (.pushInt .int (setLong u (ofTruth
        (cc.test (BitVec.ofInt 32 v1).toInt (BitVec.ofInt 32 v2).toInt)))) := by
    simp only [doSignedOp, if_true, castTo_ofTruth, Tree.longValue, h1.word, h2.word]
  have hu : doUnSignedOp cpu (.pushInt t1 u1) .cmp cc .int u (.pushInt t2 u2) =
      some (.pushInt .int (setLong u (ofTruth
        (cc.test (BitVec.ofInt 32 v1).toNat (BitVec.ofInt 32 v2).toNat)))) := by
    simp only [doUnSignedOp, if_true, castTo_ofTruth, Tree.longValue, h1.word, h2.word]
  have hs64 : doSignedOp64 cpu (.pushInt t1 u1) .cmp cc .int u (.pushInt t2 u2) =
      .pushInt .int (setLong u (ofTruth
        (cc.test (BitVec.ofInt 64 v1).toInt (BitVec.ofInt 64 v2).toInt))) := by
    rw [doSignedOp64, if_pos rfl, longValue64_holds h1, longValue64_holds h2, test_i64Cmp]
  have hu64 : doUnSignedOp64 cpu (.pushInt t1 u1) .cmp cc .int u (.pushInt t2 u2) =
      .pushInt .int (setLong u (ofTruth
        (cc.test (BitVec.ofInt 64 v1).toNat (BitVec.ofInt 64 v2).toNat))) := by
    rw [doUnSignedOp64, if_pos rfl, longValue64_holds h1, longValue64_holds h2, test_u64Cmp]
  cases c with
  | char | short | int | long => exact hs
  | uchar | ushort | uint | ulong | pointer => exact hu
  | long64 => exact congrArg some hs64
  | ulong64 => exact congrArg some hu64

/-- the types that a comparison gives its operands -/
theorem cmp_types (h : DataType.binExprTypeDT cpu t1 t2 = some c) :
    c.width cpu = (if c.isLong64 then 64 else 32) ∨ (t1 = c ∧ t2 = c) ∨
      (DataType.promote cpu t1 = some c ∧ DataType.promote cpu t2 = some c) ∨
      (cpu = .i86 ∧ c = .uint ∧
        (DataType.promote .i86 t1 = some .int ∨ DataType.promote .i86 t1 = some .uint) ∧
        (DataType.promote .i86 t2 = some .int ∨ DataType.promote .i86 t2 = some .uint)) := by
  cases cpu <;> cases t1 <;> cases t2 <;> cases h <;> decide

/-- on a target with an `int` of 16 bits, a negative operand and one that is not negative are
ordered as an `unsigned int` as they are in 32 bits -/
def OrderKept (cpu : Cpu) (opr : Opr) (cc : Cc) (compareType : DataType) (v1 v2 : Int) : Prop :=
  opr = .cmp → cpu = .i86 → compareType = .uint →
    (v1 < 0 → 0 ≤ v2 →
      match cc with
      | .eq | .ne => v2 ≠ v1 + 2 ^ 16
      | .lt | .ge => v2 ≤ v1 + 2 ^ 16
      | .gt | .le => v2 < v1 + 2 ^ 16) ∧
    (0 ≤ v1 → v2 < 0 →
      match cc with
      | .eq | .ne => v1 ≠ v2 + 2 ^ 16
      | .lt | .ge => v1 < v2 + 2 ^ 16
      | .gt | .le => v1 ≤ v2 + 2 ^ 16)

/-- a number in the words of 16 and of 32 bits -/
theorem word_short {t : DataType} {v : Int}
    (ht : DataType.promote .i86 t = some .int ∨ DataType.promote .i86 t = some .uint)
    (hv : Fits t.signed (t.width .i86) v) :
    -2 ^ 15 ≤ v ∧ v < 2 ^ 16 := by
  obtain ht | ht := ht
  · obtain ⟨h1, h2⟩ : -2 ^ 15 ≤ v ∧ v < 2 ^ 15 := (fits_promote ht hv).2
    omega
  · obtain ⟨h1, h2⟩ : 0 ≤ v ∧ v < 2 ^ 16 := (fits_promote ht hv).2
    omega

theorem mixed_iff (cc : Cc) (h1 : -2 ^ 15 ≤ v1 ∧ v1 < 2 ^ 16) (h2 : -2 ^ 15 ≤ v2 ∧ v2 < 2 ^ 16) :
    cc.test (v1 % 2 ^ 32) (v2 % 2 ^ 32) = cc.test (v1 % 2 ^ 16) (v2 % 2 ^ 16) ↔
      OrderKept .i86 .cmp cc .uint v1 v2 := by
  rw [Bool.eq_iff_iff]
  cases cc <;>
    simp only [OrderKept, Cc.test, beq_iff_eq, bne_iff_ne, ne_eq, decide_eq_true_eq,
      forall_const] <;>
    omega

/-- the test that is made is the target's, but for the words of a 16-bit `unsigned int` -/
theorem foldTest_iff (h1 : Fits t1.signed (t1.width cpu) v1) (h2 : Fits t2.signed (t2.width cpu) v2)
    (h : DataType.binExprTypeDT cpu t1 t2 = some c) :
    foldTest cc c v1 v2 = cc.test (convert cpu c v1) (convert cpu c v2) ↔
      OrderKept cpu .cmp cc c v1 v2 := by
  -- operands that fit keep their numbers in both words, and an unsigned type has no negative ones
  have hfit (f1 : Fits c.signed (c.width cpu) v1) (f2 : Fits c.signed (c.width cpu) v2) :
      foldTest cc c v1 v2 = cc.test (convert cpu c v1) (convert cpu c v2) ↔
        OrderKept cpu .cmp cc c v1 v2 := by
    have hm : c.width cpu ≤ if c.isLong64 then 64 else 32 := by
      cases cpu <;> cases c <;> decide
    have hw := width_pos cpu c
    refine iff_of_true ?_ ?_
    · rw [foldTest, convert, convert, read_ofInt hw f1, read_ofInt hw f2,
        read_ofInt (by omega) (fits_mono hm f1), read_ofInt (by omega) (fits_mono hm f2)]
    · intro _ hi hu
      subst hi hu
      have n1 : 0 ≤ v1 := f1.1
      have n2 : 0 ≤ v2 := f2.1
      exact ⟨fun hn => by omega, fun _ hn => by omega⟩
  obtain hw | ⟨rfl, rfl⟩ | ⟨p1, p2⟩ | ⟨rfl, rfl, p1, p2⟩ := cmp_types h
  · refine iff_of_true ?_ ?_
    · rw [foldTest, convert, convert, hw]
    · intro _ hi hu
      subst hi hu
      exact absurd hw (by decide)
  · exact hfit h1 h2
  · exact hfit (fits_promote p1 h1).2 (fits_promote p2 h2).2
  · have hu (w : Nat) (v : Int) : read false (BitVec.ofInt w v) = v % (2 ^ w : Nat) := by
      show ((BitVec.ofInt w v).toNat : Int) = _
      rw [BitVec.toNat_ofInt, Int.toNat_of_nonneg (Int.emod_nonneg v (by simp))]
    show (cc.test (read false (BitVec.ofInt 32 v1)) (read false (BitVec.ofInt 32 v2)) =
      cc.test (read false (BitVec.ofInt 16 v1)) (read false (BitVec.ofInt 16 v2))) ↔ _
    rw [hu, hu, hu, hu]
    exact mixed_iff cc (word_short p1 h1) (word_short p2 h2)

theorem truth_holds (cpu : Cpu) (b : Bool) (v : Int) (hv : v = 0 ∨ v = 1) (u : U64) :
    Holds cpu .int (setLong u (ofTruth b)) v ↔ b = decide (v = 1) := by
  have hl : (ofTruth b = BitVec.ofInt 32 v) ↔ b = decide (v = 1) := by
    obtain rfl | rfl := hv <;> cases b <;> decide
  have hf : Fits DataType.int.signed (DataType.int.width cpu) v := by
    obtain rfl | rfl := hv <;> cases cpu <;> decide
  rw [← hl]
  refine ⟨fun h => ?_, fun h => ⟨hf, ?_⟩⟩
  · rw [← h.word, lo_setLong]
  · rw [← h]
    exact lo_setLong u _

/-- a comparison: the target's truth value, but for words that are ordered the other way -/
theorem compare_iff (h1 : Holds cpu t1 u1 v1) (h2 : Holds cpu t2 u2 v2)
    (h : DataType.binExprTypeDT cpu t1 t2 = some c) :
    Yields cpu .int (doConstFold cpu (.node .cmp cc .int c u (.pushInt t1 u1) (.pushInt t2 u2)))
      (targetValue cpu .cmp cc .int c v1 v2) ↔ OrderKept cpu .cmp cc c v1 v2 := by
  rw [← foldTest_iff h1.1 h2.1 h, fold_cmp h1 h2, targetValue, if_pos rfl]
  have hv : (if cc.test (convert cpu c v1) (convert cpu c v2) then (1 : Int) else 0) = 0 ∨
      (if cc.test (convert cpu c v1) (convert cpu c v2) then (1 : Int) else 0) = 1 := by
    split <;> simp
  have hd : decide ((if cc.test (convert cpu c v1) (convert cpu c v2) then (1 : Int) else 0) = 1) =
      cc.test (convert cpu c v1) (convert cpu c v2) := by
    cases cc.test (convert cpu c v1) (convert cpu c v2) <;> rfl
  constructor
  · rintro ⟨u', hu, hh⟩
    cases hu
    rw [(truth_holds cpu _ _ hv u).mp hh, hd]
  · intro ht
    exact ⟨_, rfl, (truth_holds cpu _ _ hv u).mpr (by rw [ht, hd])⟩

end

/-! ## every operator -/

/-- the leaf has the type of the expression and the number that the target computes, unless the host
stops in a division or a 16-bit comparison is made on words that are ordered the other way -/
theorem fold_iff {cpu : Cpu} {opr : Opr} {cc : Cc} {exprType compareType : DataType} {u2 : U64}
    {left right : Tree} {v1 v2 : Int}
    (h : Constants cpu opr exprType compareType left right v1 v2) :
    Yields cpu exprType (doConstFold cpu (.node opr cc exprType compareType u2 left right))
        (targetValue cpu opr cc exprType compareType v1 v2) ↔
      ¬ LeastByMinusOne opr exprType v1 v2 ∧ OrderKept cpu opr cc compareType v1 v2 := by
  by_cases ho : opr = .cmp
  · subst ho
    have hs : ¬ LeastByMinusOne .cmp exprType v1 v2 := by
      rintro ⟨ho | ho, -⟩ <;> cases ho
    cases h with
    | binary _ h1 h2 ht =>
      obtain ⟨rfl, hb⟩ := ht
      rw [compare_iff h1 h2 hb]
      exact (and_iff_right hs).symm
    | unary hu => cases hu
  · rw [evaluate_iff (h.ready ho) ho]
    exact (and_iff_left fun he => absurd he ho).symm

/-- `-7 / 2` on a target with an `int` of 16 bits -/
theorem fold_iff_quotient :
    Yields .i86 .int
      (doConstFold .i86 (.node .div .eq .int .int 0 (.pushInt .int 0xfffffff9) (.pushInt .int 2)))
      (-3) := by
  have h : Constants .i86 .div .int .int (.pushInt .int 0xfffffff9) (.pushInt .int 2) (-7) 2 :=
    .binary rfl ⟨by decide, by decide⟩ ⟨by decide, by decide⟩ ⟨rfl, rfl, rfl⟩
  have hs : ¬ LeastByMinusOne .div .int (-7) 2 := fun hl => absurd hl.2.2.1 (by decide)
  exact (@fold_iff .i86 .div .eq .int .int 0 _ _ (-7) 2 h).mpr ⟨hs, fun he => by cases he⟩

/-- the least `long` divided by `-1` stops the host -/
theorem fold_stops :
    ¬ ∀ (cpu : Cpu) (opr : Opr) (cc : Cc) (exprType compareType : DataType) (u2 : U64)
      (left right : Tree) (v1 v2 : Int),
      Constants cpu opr exprType compareType left right v1 v2 →
        Yields cpu exprType (doConstFold cpu (.node opr cc exprType compareType u2 left right))
          (targetValue cpu opr cc exprType compareType v1 v2) := by
  intro h
  have hc : Constants .i386 .div .long .long (.pushInt .long 0x80000000)
      (.pushInt .long 0xffffffff) (-2 ^ 31) (-1) :=
    .binary rfl ⟨by decide, by decide⟩ ⟨by decide, by decide⟩ ⟨rfl, rfl, rfl⟩
  obtain ⟨u', hu, -⟩ := h .i386 .div .eq .long .long 0 _ _ _ _ hc
  have hn : doConstFold .i386 (.node .div .eq .long .long 0 (.pushInt .long 0x80000000)
      (.pushInt .long 0xffffffff)) = none := by decide
  rw [hn] at hu
  cases hu

end ConstFold
