import OpenWatcom.Cg.FoldValues

/-!
# Comparisons with constants: `FoldCompare`, `FindBase`, `CheckCmpRange`

* `checkCmpRange`     the range of a type against a constant, with the table `cmpResult`;
* `findBase`, `foldCompare`     the fold of a comparison; the bit tests of a binary operand are left out;
* `findBase_value`     the converts that are walked over keep every number of the base;
* `checkCmpRange_right`     what the range test says of a constant below `2 ^ 63`;
* `foldCompare_right_iff`   the truth value is right except for `<`, `<=`, `>`, `>=` of a narrow base with
                            a constant from `2 ^ 63` on.
-/

namespace Cg
open CFloat I64

/-! ## the range test -/

/-- the operators `O_EQ` to `O_GE` -/
inductive CmpOp where
  | eq | ne | gt | le | lt | ge
deriving DecidableEq, Repr

/-- `RevOpcode` -/
def CmpOp.rev : CmpOp → CmpOp
  | .eq => .eq
  | .ne => .ne
  | .gt => .lt
  | .le => .ge
  | .lt => .gt
  | .ge => .le

/-- the comparison of two numbers -/
def CmpOp.holds : CmpOp → Int → Int → Bool
  | .eq, x, c => x = c
  | .ne, x, c => x ≠ c
  | .gt, x, c => x > c
  | .le, x, c => x ≤ c
  | .lt, x, c => x < c
  | .ge, x, c => x ≥ c

/-- `cmp_result` -/
inductive CmpResult where
  | void | false | true
deriving DecidableEq

/-- `rel_op` -/
inductive RelOp where
  | eq | lt | le
deriving DecidableEq

/-- `case_range`; `size` is in no row of the table -/
inductive CaseRange where
  | low | lowEq | high | highEq | size
deriving DecidableEq

/-- `CmpResult`, and `CMP_VOID` for `CASE_SIZE` -/
def cmpResult : RelOp → CaseRange → CmpResult
  | .eq, .low => .false
  | .eq, .lowEq => .void
  | .eq, .high => .false
  | .eq, .highEq => .void
  | .lt, .low => .false
  | .lt, .lowEq => .false
  | .lt, .high => .true
  | .lt, .highEq => .void
  | .le, .low => .false
  | .le, .lowEq => .void
  | .le, .high => .true
  | .le, .highEq => .true
  | _, .size => .void

/-- the flipped result -/
def CmpResult.flip : CmpResult → CmpResult
  | .void => .void
  | .false => .true
  | .true => .false

/-- the relation the opcode stands for, and whether the result is flipped -/
def CmpOp.rel : CmpOp → RelOp × Bool
  | .ne => (.eq, true)
  | .eq => (.eq, false)
  | .ge => (.lt, true)
  | .lt => (.lt, false)
  | .gt => (.le, true)
  | .le => (.le, false)

def numSign (a : Nat) : Nat := a &&& 0x8000
def numBits (a : Nat) : Nat := a &&& 0x7fff

/-- `CmpType` -/
def cmpType (tipe : IntType) : Nat := (tipe.length.bytes * 8) ||| (if tipe.signed then 0x8000 else 0)

/-- the lowest and the highest word of the type -/
def cmpLow (opType : Nat) : U64 :=
  if numSign opType ≠ 0 then i64ShiftR (mk 0x80000000 0) (64 - numBits opType) else 0

def cmpHigh (opType : Nat) : U64 :=
  if numSign opType ≠ 0 then u64Not (cmpLow opType)
  else u64ShiftR (u64Not (cmpLow opType)) (64 - numBits opType)

/-- how the constant lies to the range -/
def caseRange (opType : Nat) (value : U64) : CaseRange :=
  if u64IsEq value (cmpLow opType) then .lowEq
  else if u64IsEq value (cmpHigh opType) then .highEq
  else if numBits opType < 64 then
    if i64Cmp value (cmpLow opType) < 0 then .low
    else if i64Cmp value (cmpHigh opType) > 0 then .high
    else .size
  else .size

/-- `CheckCmpRange` -/
def checkCmpRange (opcode : CmpOp) (opType : Nat) (cf : CFloat) : CmpResult :=
  let ret := cmpResult opcode.rel.1 (caseRange opType (cfCnvF64 cf))
  if opcode.rel.2 then ret.flip else ret

/-! ## trees -/

/-- a `type_def` with the flags of its attribute -/
structure TypeDef extends IntType where
  float : Bool
  pointer : Bool
  code : Bool
deriving DecidableEq, Repr

/-- no `TYPE_FLOAT` and no `TYPE_POINTER` -/
def TypeDef.isInt (tipe : TypeDef) : Bool := !tipe.float && !tipe.pointer

/-- the nodes `FoldCompare` tells apart; a `leaf` is any node that is neither a constant nor has an
operator, and may be the address of an object -/
inductive Tree where
  | cons (cfval : CFloat) (tipe : TypeDef)
  | leaf (tipe : TypeDef) (objectAddr : Bool)
  | convert (tipe : TypeDef) (left : Tree)
  | unary (tipe : TypeDef) (left : Tree)
  | binary (tipe : TypeDef) (left rite : Tree)
deriving DecidableEq

def Tree.tipe : Tree → TypeDef
  | .cons _ tipe => tipe
  | .leaf tipe _ => tipe
  | .convert tipe _ => tipe
  | .unary tipe _ => tipe
  | .binary tipe _ _ => tipe

def Tree.isCons : Tree → Bool
  | .cons _ _ => true
  | _ => false

def Tree.isBinary : Tree → Bool
  | .binary _ _ _ => true
  | _ => false

def Tree.isObjectAddr : Tree → Bool
  | .leaf _ objectAddr => objectAddr
  | _ => false

/-- the two attributes `FindBase` compares agree -/
def sameAttr (opEq : Bool) (child this : TypeDef) : Bool :=
  let childSigned := if opEq then false
    else if this.signed ∧ child.length.bytes < this.length.bytes then true else child.signed
  let thisSigned := if opEq then false else this.signed
  childSigned = thisSigned ∧ child.float = this.float ∧ child.pointer = this.pointer
    ∧ child.code = this.code

/-- `FindBase` -/
def findBase (opEq : Bool) : Tree → Tree
  | .convert tipe left =>
    if left.tipe.length.bytes > tipe.length.bytes then .convert tipe left
    else if sameAttr opEq left.tipe tipe then findBase opEq left
    else .convert tipe left
  | tree => tree

/-- what a fold of a comparison ends with; a truth value is `FETrue()` or 0 -/
inductive Compared where
  | null
  | truth (value : Bool)                -- of two constants
  | comma (value : Bool)                -- from the range, the operand kept for its side effects
  | notNull (value : Bool)              -- of the address of an object with 0
  | compare (opcode : CmpOp) (left rite : Tree)   -- without the converts
  | bitTest                             -- the operand is a `TN_BINARY`: `NULL` or a bit test
deriving DecidableEq

/-- `CnvCFToType` -/
def cnvCFToType (cf : CFloat) (tipe : TypeDef) : CFloat :=
  if tipe.float = false then intToCF tipe.toIntType (cfGetInteger64Value cf) else cf

/-- `FoldCompare` of an operand that is no constant and a constant -/
def foldCompareCons (nullDerefOk : Bool) (opcode : CmpOp) (left : Tree) (cf : CFloat)
    (rite : Tree) (tipe : TypeDef) : Compared :=
  if left.isBinary then .bitTest
  else
    let baseL := findBase false left
    let tipe := if baseL ≠ left then baseL.tipe else tipe
    let cmp := if tipe.isInt then checkCmpRange opcode (cmpType tipe.toIntType) cf else .void
    if cmp ≠ .void then .comma (cmp = .true)
    else if tipe.isInt ∧ nullDerefOk = false ∧ left.isObjectAddr ∧ cfTest cf = 0 then
      .notNull (opcode.holds 1 0)
    else if baseL ≠ left ∧ tipe.float = false then .compare opcode baseL rite
    else .null

/-- `FoldCompare` after a constant has been put on the right -/
def foldCompareOrdered (nullDerefOk : Bool) (opcode : CmpOp) (left rite : Tree) (tipe : TypeDef) :
    Compared :=
  match left, rite with
  | .cons lf _, .cons rf _ =>
    .truth (opcode.holds (cfCompare (cnvCFToType lf tipe) (cnvCFToType rf tipe)) 0)
  | left, .cons cf t => foldCompareCons nullDerefOk opcode left cf (.cons cf t) tipe
  | left, rite =>
    let opEq := opcode = .eq ∨ opcode = .ne
    let baseR := findBase opEq rite
    let baseL := findBase opEq left
    if (baseR ≠ rite ∨ baseL ≠ left) ∧ baseR.tipe = baseL.tipe ∧ opEq then
      .compare opcode baseL baseR
    else .null

/-- `FoldCompare` -/
def foldCompare (nullDerefOk : Bool) (opcode : CmpOp) (left rite : Tree) (tipe : TypeDef) : Compared :=
  if left.isCons then foldCompareOrdered nullDerefOk opcode.rev rite left tipe
  else foldCompareOrdered nullDerefOk opcode left rite tipe

/-! ## what the converts do -/

/-- the number a value becomes when it is converted to the type -/
def IntType.convert (tipe : IntType) (v : Int) : Int :=
  if tipe.signed then (BitVec.ofInt tipe.bits v).toInt else (BitVec.ofInt tipe.bits v).toNat

/-- the number of a tree when `base` has the number `v` -/
def Tree.valueOver (base : Tree) (v : Int) : Tree → Int
  | .convert tipe left =>
    if Tree.convert tipe left = base then v else tipe.convert (valueOver base v left)
  | _ => v

theorem convert_holds {tipe : IntType} {v : Int} (h : tipe.Holds v) : tipe.convert v = v := by
  have hpos : 1 ≤ tipe.bits := by
    rw [IntType.bits]
    cases tipe.length <;> decide
  obtain ⟨k, hk⟩ : ∃ k, tipe.bits = k + 1 := ⟨tipe.bits - 1, by omega⟩
  rw [IntType.convert]
  rw [IntType.Holds, hk, Nat.add_sub_cancel] at h
  rw [hk]
  have hp : (2 : Int) ^ (k + 1) = 2 * 2 ^ k := by rw [pow_succ, mul_comm]
  by_cases hs : tipe.signed = true
  · rw [if_pos hs] at h ⊢
    exact toInt_ofInt_small (by omega) (by omega)
  · rw [if_neg hs] at h ⊢
    exact toNat_ofInt_small h.1 h.2

/-- a type that is walked over has the numbers of the type below -/
theorem holds_of_sameAttr {child this : TypeDef} (hl : ¬ child.length.bytes > this.length.bytes)
    (ha : sameAttr false child this = true) {v : Int} (hv : child.Holds v) : this.Holds v := by
  rw [sameAttr, decide_eq_true_iff] at ha
  obtain ⟨hs, -, -, -⟩ := ha
  rw [if_neg Bool.false_ne_true, if_neg Bool.false_ne_true] at hs
  rw [IntType.Holds, IntType.bits] at hv ⊢
  obtain ⟨⟨cl, cs⟩, _, _, _⟩ := child
  obtain ⟨⟨tl, ts⟩, _, _, _⟩ := this
  cases cl <;> cases tl <;> cases cs <;> cases ts <;>
    simp_all [Width.bytes] <;> omega

/-- what is known of a base: its type is as wide as the tree's only when it is the tree's -/
structure IsBase (base tree : Tree) : Prop where
  int : base.tipe.isInt = tree.tipe.isInt
  le : base.tipe.length.bytes ≤ tree.tipe.length.bytes
  same : base.tipe.length.bytes = tree.tipe.length.bytes → base.tipe.signed = tree.tipe.signed
  sign : base.tipe.signed = true → tree.tipe.signed = true
  value : ∀ v, base.tipe.Holds v → tree.tipe.Holds v ∧ base.valueOver v tree = v

theorem isBase_self (tree : Tree) : IsBase tree tree := by
  refine ⟨rfl, Nat.le_refl _, fun _ => rfl, fun h => h, fun v hv => ⟨hv, ?_⟩⟩
  cases tree with
  | convert tipe left => rw [Tree.valueOver, if_pos rfl]
  | _ => rfl

theorem findBase_size (opEq : Bool) (tree : Tree) : sizeOf (findBase opEq tree) ≤ sizeOf tree := by
  induction tree with
  | convert tipe left ih =>
    have hleft : sizeOf left < sizeOf (Tree.convert tipe left) := by
      rw [Tree.convert.sizeOf_spec]
      omega
    rw [findBase]
    split_ifs
    · exact Nat.le_refl _
    · omega
    · exact Nat.le_refl _
  | _ => exact Nat.le_refl _

theorem findBase_isBase (tree : Tree) : IsBase (findBase false tree) tree := by
  induction tree with
  | convert tipe left ih =>
    rw [findBase]
    by_cases hl : left.tipe.length.bytes > tipe.length.bytes
    · rw [if_pos hl]
      exact isBase_self _
    rw [if_neg hl]
    by_cases ha : sameAttr false left.tipe tipe = true
    · rw [if_pos ha]
      -- the base is the base of the operand
      obtain ⟨hi, hle, hsame, hsign, hval⟩ := ih
      have hattr := ha
      rw [sameAttr, decide_eq_true_iff] at hattr
      obtain ⟨hs, hf, hp, -⟩ := hattr
      rw [if_neg Bool.false_ne_true, if_neg Bool.false_ne_true] at hs
      refine ⟨?_, ?_, ?_, ?_, fun v hv => ?_⟩
      · rw [hi, TypeDef.isInt, TypeDef.isInt, hf, hp]
        rfl
      · show _ ≤ tipe.length.bytes
        omega
      · intro he
        have he' : (findBase false left).tipe.length.bytes = tipe.length.bytes := he
        rw [if_neg (by omega)] at hs
        rw [hsame (by omega), hs]
        rfl
      · intro hb
        show tipe.signed = true
        have hleft := hsign hb
        rw [hleft] at hs
        rw [← hs]
        split_ifs <;> rfl
      · obtain ⟨h1, h2⟩ := hval v hv
        have h3 : tipe.Holds v := holds_of_sameAttr hl ha h1
        have hne : Tree.convert tipe left ≠ findBase false left := by
          intro e
          have h4 := findBase_size false left
          rw [← e, Tree.convert.sizeOf_spec] at h4
          omega
        exact ⟨h3, by rw [Tree.valueOver, if_neg hne, h2, convert_holds h3]⟩
    · rw [if_neg ha]
      exact isBase_self _
  | _ => exact isBase_self _

/-- every number of the base is one of the tree, and the tree has it -/
theorem findBase_value (tree : Tree) {v : Int} (hv : (findBase false tree).tipe.Holds v) :
    (findBase false tree).valueOver v tree = v := ((findBase_isBase tree).value v hv).2

/-! ## the range test on numbers -/

/-- the lowest and the highest number of a type -/
def IntType.least (tipe : IntType) : Int := if tipe.signed then -2 ^ (tipe.bits - 1) else 0
def IntType.greatest (tipe : IntType) : Int :=
  if tipe.signed then 2 ^ (tipe.bits - 1) - 1 else 2 ^ tipe.bits - 1

theorem holds_iff (tipe : IntType) (v : Int) : tipe.Holds v ↔ tipe.least ≤ v ∧ v ≤ tipe.greatest := by
  rw [IntType.Holds, IntType.least, IntType.greatest]
  split_ifs
  · exact and_congr_right fun _ => Int.le_sub_one_iff.symm
  · exact and_congr_right fun _ => Int.le_sub_one_iff.symm

/-- the word of a constant, read as a signed number -/
def wordOf (c : Int) : Int := if c < 2 ^ 63 then c else c - 2 ^ 64

theorem cfCnvF64_toInt {cf : CFloat} {c : Int} (hc : Exact cf c) (h1 : -2 ^ 63 ≤ c) (h2 : c < 2 ^ 64) :
    (cfCnvF64 cf).toInt = wordOf c := by
  rw [cfCnvF64_exact hc, wordOf, if_pos (by omega), BitVec.toInt_ofInt, Int.bmod_def]
  split_ifs <;> omega

theorem cmpLow_toInt (tipe : IntType) : (cmpLow (cmpType tipe)).toInt = tipe.least := by
  obtain ⟨length, signed⟩ := tipe
  cases length <;> cases signed <;> decide

theorem cmpHigh_toInt {tipe : IntType} (h : tipe.length ≠ .b8) :
    (cmpHigh (cmpType tipe)).toInt = tipe.greatest := by
  obtain ⟨length, signed⟩ := tipe
  cases length with
  | b8 => exact absurd rfl h
  | _ => cases signed <;> decide

theorem cmpHigh_big {tipe : IntType} (h : tipe.length = .b8) :
    (cmpHigh (cmpType tipe)).toInt = wordOf tipe.greatest := by
  obtain ⟨length, signed⟩ := tipe
  cases h
  cases signed <;> decide

theorem numBits_cmpType (tipe : IntType) : numBits (cmpType tipe) = tipe.bits := by
  obtain ⟨length, signed⟩ := tipe
  cases length <;> cases signed <;> decide

/-- the case of a constant, from its word and the limits of the type -/
theorem caseRange_eq (opType : Nat) (value : U64) : caseRange opType value
    = if value.toInt = (cmpLow opType).toInt then .lowEq
      else if value.toInt = (cmpHigh opType).toInt then .highEq
      else if numBits opType < 64 then
        if value.toInt < (cmpLow opType).toInt then .low
        else if (cmpHigh opType).toInt < value.toInt then .high else .size
      else .size := by
  rw [caseRange, u64IsEq_eq, u64IsEq_eq, i64Cmp_eq, i64Cmp_eq]
  simp only [decide_eq_true_iff, ← BitVec.toInt_inj]
  split_ifs <;> first | rfl | omega

/-- the case says how the constant lies to the numbers of the type -/
def CaseRange.Places (tipe : IntType) (c : Int) : CaseRange → Prop
  | .low => c < tipe.least
  | .lowEq => c ≤ tipe.least
  | .high => tipe.greatest < c
  | .highEq => c = tipe.greatest
  | .size => True

/-- the result of the range test is right for every number of the type -/
def CmpResult.Right (tipe : IntType) (opcode : CmpOp) (c : Int) (ret : CmpResult) : Prop :=
  ret ≠ .void → ∀ v, tipe.Holds v → decide (ret = .true) = opcode.holds v c

section
variable {tipe : IntType} {cf : CFloat} {c : Int}

/-- the table is right when the case is -/
theorem checkCmpRange_right (opcode : CmpOp)
    (h : (caseRange (cmpType tipe) (cfCnvF64 cf)).Places tipe c) :
    (checkCmpRange opcode (cmpType tipe) cf).Right tipe opcode c := by
  intro hne v hv
  rw [holds_iff] at hv
  revert hne
  rw [checkCmpRange]
  cases hr : caseRange (cmpType tipe) (cfCnvF64 cf) <;> rw [hr] at h <;>
    dsimp only [CaseRange.Places] at h <;>
    cases opcode <;>
    simp only [CmpOp.rel, cmpResult, CmpResult.flip, CmpOp.holds, if_true, Bool.false_eq_true, if_false,
      ne_eq, not_true_eq_false, not_false_eq_true, false_implies, true_implies, decide_eq_decide,
      reduceCtorEq, iff_true, iff_false, true_iff, false_iff, gt_iff_lt, ge_iff_le] <;>
    omega

theorem narrow_limits (hn : tipe.length ≠ .b8) :
    -2 ^ 31 ≤ tipe.least ∧ tipe.least ≤ 0 ∧ 0 < tipe.greatest ∧ tipe.greatest < 2 ^ 32
      ∧ tipe.bits < 64 := by
  obtain ⟨length, signed⟩ := tipe
  cases length with
  | b8 => exact absurd rfl hn
  | _ => cases signed <;> decide

theorem big_limits (h8 : tipe.length = .b8) :
    tipe.least = -2 ^ 63 ∧ tipe.greatest = 2 ^ 63 - 1 ∨ tipe.least = 0 ∧ tipe.greatest = 2 ^ 64 - 1 := by
  obtain ⟨length, signed⟩ := tipe
  cases h8
  cases signed
  · exact Or.inr (by decide)
  · exact Or.inl (by decide)

/-- a constant of an 8-byte base, or one below `2 ^ 63`, is placed right -/
theorem caseRange_places (hc : Exact cf c) (h1 : -2 ^ 63 ≤ c) (h2 : c < 2 ^ 64)
    (h8 : tipe.length = .b8 → tipe.Holds c) (hs : tipe.length ≠ .b8 → c < 2 ^ 63) :
    (caseRange (cmpType tipe) (cfCnvF64 cf)).Places tipe c := by
  rw [caseRange_eq, cfCnvF64_toInt hc h1 h2, cmpLow_toInt, numBits_cmpType]
  by_cases hb : tipe.length = .b8
  · have hbits : tipe.bits = 64 := by rw [IntType.bits, hb]; rfl
    have hh := h8 hb
    rw [holds_iff] at hh
    rw [cmpHigh_big hb, hbits]
    have hl := big_limits hb
    unfold wordOf
    split_ifs <;> first | exact trivial | (show _ ≤ _; omega) | (show _ = _; omega) | omega
  · have hn := narrow_limits hb
    have hs' := hs hb
    rw [cmpHigh_toInt hb]
    unfold wordOf
    split_ifs <;>
      first | exact trivial | (show _ < _; omega) | (show _ ≤ _; omega) | (show _ = _; omega)

/-- from `2 ^ 63` on every constant is taken to be below a narrow type -/
theorem caseRange_large (hc : Exact cf c) (h1 : 2 ^ 63 ≤ c) (h2 : c < 2 ^ 64) (hn : tipe.length ≠ .b8)
    (hu : tipe.signed = false) : caseRange (cmpType tipe) (cfCnvF64 cf) = .low := by
  have hl := narrow_limits hn
  have h0 : tipe.least = 0 := by rw [IntType.least, hu]; rfl
  have hword : wordOf c = c - 2 ^ 64 := by
    rw [wordOf, if_neg (by omega)]
  rw [caseRange_eq, cfCnvF64_toInt hc (by omega) h2, cmpLow_toInt, cmpHigh_toInt hn, numBits_cmpType,
    hword, if_neg (by omega), if_neg (by omega), if_pos hl.2.2.2.2, if_pos (by omega)]

/-- when the range test may be trusted -/
def Trusted (tipe : IntType) (opcode : CmpOp) (c : Int) : Prop :=
  opcode = .eq ∨ opcode = .ne ∨ c < 2 ^ 63 ∨ tipe.bits = 64

/-- the range test of a base of a comparison in `wide` is right exactly when it may be trusted -/
theorem checkCmpRange_right_iff {wide : IntType} (opcode : CmpOp) (hc : Exact cf c) (hw : wide.Holds c)
    (hle : tipe.length.bytes ≤ wide.length.bytes)
    (hsame : tipe.length.bytes = wide.length.bytes → tipe.signed = wide.signed)
    (hsign : tipe.signed = true → wide.signed = true) :
    (checkCmpRange opcode (cmpType tipe) cf).Right tipe opcode c ↔ Trusted tipe opcode c := by
  have hb := holds_big hw
  have h64 : tipe.bits = 64 ↔ tipe.length = .b8 := by
    rw [IntType.bits]
    cases tipe.length <;> decide
  have h8 : tipe.length = .b8 → tipe.Holds c := by
    intro e
    have hl : tipe.length = wide.length := by
      rw [e] at hle ⊢
      revert hle
      cases wide.length <;> decide
    have hs := hsame (by rw [hl])
    rw [IntType.Holds, IntType.bits, hl, hs]
    exact hw
  by_cases hlarge : c < 2 ^ 63 ∨ tipe.length = .b8
  · refine iff_of_true (checkCmpRange_right opcode (caseRange_places hc hb.1 hb.2.1 h8 ?_)) ?_
    · exact fun hn => hlarge.resolve_right hn
    · exact Or.inr (Or.inr (hlarge.imp_right h64.mpr))
  rw [not_or] at hlarge
  obtain ⟨hge, hn⟩ := hlarge
  have hge := not_lt.mp hge
  -- only an unsigned comparison has such a constant
  have hu : tipe.signed = false := by
    cases e : tipe.signed with
    | false => rfl
    | true =>
      have := (holds_signed hw (hsign e)).2
      omega
  have hlow := caseRange_large hc hge hb.2.1 hn hu
  have hlim := narrow_limits hn
  rw [Trusted, h64, CmpResult.Right, checkCmpRange, hlow]
  have hleast : tipe.Holds tipe.least := (holds_iff _ _).mpr ⟨le_refl _, by omega⟩
  constructor
  · intro h
    cases opcode with
    | eq => exact Or.inl rfl
    | ne => exact Or.inr (Or.inl rfl)
    | _ =>
      have h0 := h (by decide) tipe.least hleast
      simp [CmpOp.rel, cmpResult, CmpResult.flip, CmpOp.holds] at h0
      omega
  · intro h hne v hv
    rw [holds_iff] at hv
    obtain rfl | rfl | h | h := h
    · exact decide_eq_decide.mpr (iff_of_false (by decide) (by omega))
    · exact decide_eq_decide.mpr (iff_of_true (by decide) (by omega))
    · omega
    · exact absurd h hn

end

/-! ## the fold -/

section
variable {tree : Tree} {tipe : TypeDef} {cf : CFloat} {c : Int}

/-- what a fold by the range of the base says holds for every number of the base -/
def Compared.Right (base tree : Tree) (holds : Int → Bool) (ret : Compared) : Prop :=
  ∀ value, ret = .comma value → ∀ v, base.tipe.Holds v → value = holds (base.valueOver v tree)

/-- `FoldCompare` only looks at the range when the operand has no binary operator -/
theorem foldCompareCons_right_iff (nullDerefOk : Bool) (opcode : CmpOp) (rite : Tree)
    (htree : tree.tipe = tipe) (hint : tipe.isInt = true) (hc : Exact cf c) (hw : tipe.Holds c) :
    (foldCompareCons nullDerefOk opcode tree cf rite tipe).Right (findBase false tree) tree
        (fun x => opcode.holds x c)
      ↔ Trusted (findBase false tree).tipe.toIntType opcode c := by
  have hbase := findBase_isBase tree
  subst htree
  by_cases hbin : tree.isBinary = true
  · -- the base is the operand itself, and the constant is one of its type
    have hself : findBase false tree = tree := by
      cases tree <;> first | rfl | exact absurd hbin Bool.false_ne_true
    refine iff_of_true ?_ ?_
    · intro value hv
      rw [foldCompareCons, if_pos hbin] at hv
      cases hv
    · rw [hself, Trusted]
      by_cases hlarge : c < 2 ^ 63
      · exact Or.inr (Or.inr (Or.inl hlarge))
      · refine Or.inr (Or.inr (Or.inr ?_))
        by_contra hne
        have hn : tree.tipe.length ≠ .b8 := fun e => hne (by rw [IntType.bits, e]; rfl)
        have hlim := narrow_limits hn
        have := ((holds_iff _ _).mp hw).2
        omega
  rw [← checkCmpRange_right_iff opcode hc hw hbase.le hbase.same hbase.sign]
  have htipe : (if findBase false tree ≠ tree then (findBase false tree).tipe else tree.tipe)
      = (findBase false tree).tipe := by
    split_ifs with h
    · rfl
    · rw [not_not.mp h]
  rw [foldCompareCons, if_neg hbin]
  dsimp only
  rw [htipe, if_pos (hbase.int.trans hint)]
  set ret := checkCmpRange opcode (cmpType (findBase false tree).tipe.toIntType) cf
  constructor
  · intro h hne v hv
    have := h (ret = .true) (by rw [if_pos hne]) v hv
    rw [this, findBase_value tree hv]
  · intro h value hv v hvb
    by_cases hne : ret ≠ .void
    · rw [if_pos hne] at hv
      have hval := Compared.comma.inj hv
      rw [findBase_value tree hvb, ← hval]
      exact h hne v hvb
    · rw [if_neg hne] at hv
      split_ifs at hv

theorem rev_holds (opcode : CmpOp) (x y : Int) : opcode.rev.holds x y = opcode.holds y x := by
  cases opcode <;> simp only [CmpOp.rev, CmpOp.holds, decide_eq_decide] <;> omega

/-- the truth value a comparison with a constant is replaced by is right for every number of the base
exactly when the operator is `=` or `<>`, or the constant is below `2 ^ 63`, or the base has 64 bits -/
theorem foldCompare_right_iff (nullDerefOk onLeft : Bool) (opcode : CmpOp) (tree : Tree) (tipe : TypeDef)
    (cf : CFloat) (c : Int) (hcons : tree.isCons = false) (htree : tree.tipe = tipe)
    (hint : tipe.isInt = true) (hc : Exact cf c) (hw : tipe.Holds c) :
    (if onLeft then
      (foldCompare nullDerefOk opcode (.cons cf tipe) tree tipe).Right (findBase false tree) tree
        (fun x => opcode.holds c x)
    else
      (foldCompare nullDerefOk opcode tree (.cons cf tipe) tipe).Right (findBase false tree) tree
        (fun x => opcode.holds x c)) ↔
    opcode = .eq ∨ opcode = .ne ∨ c < 2 ^ 63 ∨ (findBase false tree).tipe.bits = 64 := by
  have hord : ∀ op, foldCompareOrdered nullDerefOk op tree (.cons cf tipe) tipe
      = foldCompareCons nullDerefOk op tree cf (.cons cf tipe) tipe := by
    intro op
    cases tree <;> first | rfl | exact absurd hcons Bool.noConfusion
  cases onLeft with
  | true =>
    have hrev := foldCompareCons_right_iff nullDerefOk opcode.rev (.cons cf tipe) htree hint hc hw
    have htrust : Trusted (findBase false tree).tipe.toIntType opcode.rev c
        ↔ Trusted (findBase false tree).tipe.toIntType opcode c := by
      cases opcode <;> simp [Trusted, CmpOp.rev]
    rw [if_pos rfl, foldCompare, show (Tree.cons cf tipe).isCons = true from rfl, if_pos rfl, hord]
    rw [funext fun x => rev_holds opcode x c, htrust] at hrev
    exact hrev
  | false =>
    rw [if_neg Bool.false_ne_true, foldCompare, hcons, if_neg Bool.false_ne_true, hord]
    exact foldCompareCons_right_iff nullDerefOk opcode (.cons cf tipe) htree hint hc hw

end

/-- an unsigned byte, made 64 bits wide, compared with the largest number -/
def byteTree : Tree :=
  .convert ⟨⟨.b8, false⟩, false, false, false⟩ (.leaf ⟨⟨.b1, false⟩, false, false, false⟩ false)

def maxConst : CFloat := cfCnvU64F 0xffffffff 0xffffffff

theorem maxConst_exact : Exact maxConst (2 ^ 64 - 1) := exact_cnvU64F 0xffffffff 0xffffffff

/-- `(unsigned char) x < 0xffffffffffffffff` is made false -/
theorem byte_less_max :
    foldCompare false .lt byteTree (.cons maxConst byteTree.tipe) byteTree.tipe = .comma false
      ∧ Exact maxConst (2 ^ 64 - 1) ∧ (findBase false byteTree).tipe.Holds 5
      ∧ CmpOp.lt.holds ((findBase false byteTree).valueOver 5 byteTree) (2 ^ 64 - 1) = true :=
  ⟨by decide +kernel, maxConst_exact, by decide, by decide +kernel⟩

theorem foldCompare_right_byte :
    (foldCompare false .eq byteTree (.cons maxConst byteTree.tipe) byteTree.tipe).Right
      (findBase false byteTree) byteTree (fun x => CmpOp.eq.holds x (2 ^ 64 - 1)) :=
  (foldCompare_right_iff false false .eq byteTree byteTree.tipe maxConst (2 ^ 64 - 1) rfl rfl rfl
    maxConst_exact (by decide)).mpr (Or.inl rfl)

end Cg
