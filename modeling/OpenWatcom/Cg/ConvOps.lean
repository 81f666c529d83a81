import OpenWatcom.Cg.FoldValues
import OpenWatcom.Lib.Narrowing
import OpenWatcom.Lib.Stores

/-!
# Conversions in a row: `peepopt.c`

* `TypeClass`, `Conversion`, `ConvIns`     the type classes, a conversion, and the instructions of a block;
* `doConversionOps`     two conversions of a block become one;
* `Conversion.value`     what a conversion makes of its operand;
* `conversions_folded_iff`     the fold keeps every value exactly when the second conversion does not
  extend, or the first one keeps the number;
* `conversions_folded_block`     then the whole block keeps its meaning.

`_IsReDefinedBy` is a parameter.
-/

namespace Cg

/-- `type_class_def` -/
inductive TypeClass where
  | u1 | i1 | u2 | i2 | u4 | i4 | u8 | i8 | cp | pt | fs | fd | fl | xx
deriving DecidableEq, Repr

namespace TypeClass

/-- the value of the enumeration -/
def num : TypeClass → Nat
  | .u1 => 0
  | .i1 => 1
  | .u2 => 2
  | .i2 => 3
  | .u4 => 4
  | .i4 => 5
  | .u8 => 6
  | .i8 => 7
  | .cp => 8
  | .pt => 9
  | .fs => 10
  | .fd => 11
  | .fl => 12
  | .xx => 13

/-- `_IsPointer` -/
def isPointer (c : TypeClass) : Bool := c = .pt ∨ c = .cp

/-- the integer type of a class, for those that are one -/
def intType : TypeClass → Option IntType
  | .u1 => some ⟨.b1, false⟩
  | .i1 => some ⟨.b1, true⟩
  | .u2 => some ⟨.b2, false⟩
  | .i2 => some ⟨.b2, true⟩
  | .u4 => some ⟨.b4, false⟩
  | .i4 => some ⟨.b4, true⟩
  | .u8 => some ⟨.b8, false⟩
  | .i8 => some ⟨.b8, true⟩
  | _ => none

end TypeClass

inductive ConvOpcode where
  | convert | ptrToNative | ptrToForeign
deriving DecidableEq, Repr

/-- a conversion from `baseTypeClass` to `typeClass` -/
structure Conversion (N : Type) where
  opcode : ConvOpcode
  baseTypeClass : TypeClass
  typeClass : TypeClass
  operand : N
  result : N
deriving DecidableEq

/-- an instruction of a block -/
inductive ConvIns (N K : Type) where
  | conv (ins : Conversion N)
  | mov (typeClass : TypeClass) (operand result : N)
  | other (k : K)

/-- a fold: the instructions before `next`, `next` and what it becomes, and the instructions after it -/
structure ConvFold (N K : Type) where
  before : List (ConvIns N K)
  next : Conversion N
  folded : ConvIns N K
  after : List (ConvIns N K)

section
variable {N K : Type} [DecidableEq N]

/-- the two opcodes that undo each other -/
def ConvOpcode.undoes (a b : ConvOpcode) : Bool :=
  (a = .ptrToNative ∧ b = .ptrToForeign) ∨ (a = .ptrToForeign ∧ b = .ptrToNative)

variable (reDefinedBy : ConvIns N K → N → Bool)

/-- the loop of `DoConversionOps`; `before` is what it has passed -/
def foldNext (ins : Conversion N) (before : List (ConvIns N K)) :
    List (ConvIns N K) → Option (ConvFold N K)
  | [] => none
  | next :: rest =>
    if reDefinedBy next ins.result then none
    else if reDefinedBy next ins.operand then none
    else
      match next with
      | .conv c =>
        if (ins.opcode = .convert ∧ c.opcode = .convert) ∧
            (ins.result = c.operand ∧ ins.typeClass = c.baseTypeClass) then
          if c.typeClass.isPointer ∨ c.baseTypeClass.isPointer then none
          else if ins.typeClass.isPointer then none
          else if ins.typeClass.num < ins.baseTypeClass.num then none
          else
            let folded := { c with baseTypeClass := ins.baseTypeClass, operand := ins.operand }
            some ⟨before, c, .conv folded, rest⟩
        else if ins.opcode.undoes c.opcode ∧ ins.result = c.operand then
          some ⟨before, c, .mov c.typeClass ins.operand c.result, rest⟩
        else foldNext ins (before ++ [next]) rest
      | _ => foldNext ins (before ++ [next]) rest

/-- `DoConversionOps` at the first instruction of a list that ends with the block -/
def doConversionOps : List (ConvIns N K) → Option (ConvFold N K)
  | .conv ins :: rest =>
    if reDefinedBy (.conv ins) ins.operand then none else foldNext reDefinedBy ins [] rest
  | _ => none

end

/-! ## what the conversions do -/

/-- an integer conversion on 64-bit words; a narrower value has zeros above it -/
def cnv (base type : IntType) (x : BitVec 64) : BitVec 64 :=
  (Narrowing.extend base.signed type.bits (x.setWidth base.bits)).setWidth 64

section
variable {N K σ : Type} (otherCnv : ConvOpcode → TypeClass → TypeClass → BitVec 64 → BitVec 64)

/-- the value that a conversion gives for an operand -/
def Conversion.value (c : Conversion N) (x : BitVec 64) : BitVec 64 :=
  match c.opcode, c.baseTypeClass.intType, c.typeClass.intType with
  | .convert, some base, some type => cnv base type x
  | opcode, _, _ => otherCnv opcode c.baseTypeClass c.typeClass x

variable (st : Store N σ (BitVec 64)) (otherEffect : K → σ → σ)

def ConvIns.exec : ConvIns N K → σ → σ
  | .conv c, s => st.set c.result (c.value otherCnv (st.get c.operand s)) s
  | .mov _ operand result, s => st.set result (st.get operand s) s
  | .other k, s => otherEffect k s

end

/-! ## what a fold does -/

section
variable {N K σ : Type} [DecidableEq N] {reDefinedBy : ConvIns N K → N → Bool}

/-- what is known of a fold of `ins` and a later instruction of the list -/
structure ConvFold.Folds (reDefinedBy : ConvIns N K → N → Bool) (ins : Conversion N)
    (rest : List (ConvIns N K)) (r : ConvFold N K) : Prop where
  list : rest = r.before ++ .conv r.next :: r.after
  resultKept : ∀ i ∈ r.before, reDefinedBy i ins.result = false
  operandKept : ∀ i ∈ r.before, reDefinedBy i ins.operand = false
  operand : r.next.operand = ins.result
  folded : (ins.opcode = .convert ∧ r.next.opcode = .convert ∧
      ins.typeClass = r.next.baseTypeClass ∧ ins.baseTypeClass.num ≤ ins.typeClass.num ∧
      r.folded = .conv { r.next with
        baseTypeClass := ins.baseTypeClass, operand := ins.operand }) ∨
    (ins.opcode.undoes r.next.opcode = true ∧
      r.folded = .mov r.next.typeClass ins.operand r.next.result)

theorem foldNext_spec (ins : Conversion N) (l : List (ConvIns N K)) :
    ∀ {before : List (ConvIns N K)} {r : ConvFold N K},
      foldNext reDefinedBy ins before l = some r →
      (∀ i ∈ before, reDefinedBy i ins.result = false) →
      (∀ i ∈ before, reDefinedBy i ins.operand = false) →
      r.Folds reDefinedBy ins (before ++ l) := by
  induction l with
  | nil =>
    intro before r h
    cases h
  | cons next rest ih =>
    intro before r h hr ho
    unfold foldNext at h
    by_cases c1 : reDefinedBy next ins.result = true
    · rw [if_pos c1] at h
      cases h
    by_cases c2 : reDefinedBy next ins.operand = true
    · rw [if_neg c1, if_pos c2] at h
      cases h
    rw [if_neg c1, if_neg c2] at h
    have step (hn : foldNext reDefinedBy ins (before ++ [next]) rest = some r) :
        r.Folds reDefinedBy ins (before ++ next :: rest) := by
      have snoc {n : N} (hb : ∀ i ∈ before, reDefinedBy i n = false) (hx : ¬ reDefinedBy next n = true) :
          ∀ i ∈ before ++ [next], reDefinedBy i n = false := by
        intro i hi
        rw [List.mem_append, List.mem_singleton] at hi
        obtain hi | rfl := hi
        · exact hb i hi
        · exact Bool.eq_false_iff.mpr hx
      have := ih hn (snoc hr c1) (snoc ho c2)
      rwa [List.append_assoc, List.singleton_append] at this
    cases next with
    | conv c =>
      dsimp only at h
      by_cases c3 : (ins.opcode = .convert ∧ c.opcode = .convert) ∧
          (ins.result = c.operand ∧ ins.typeClass = c.baseTypeClass)
      · rw [if_pos c3] at h
        by_cases c6 : ins.typeClass.num < ins.baseTypeClass.num
        · simp [c6] at h
        · simp only [if_neg c6, Option.ite_none_left_eq_some] at h
          obtain ⟨-, -, h⟩ := h
          obtain rfl := Option.some.inj h
          exact ⟨rfl, hr, ho, c3.2.1.symm,
            Or.inl ⟨c3.1.1, c3.1.2, c3.2.2, Nat.not_lt.mp c6, rfl⟩⟩
      · rw [if_neg c3] at h
        by_cases c7 : ins.opcode.undoes c.opcode ∧ ins.result = c.operand
        · rw [if_pos c7] at h
          obtain rfl := Option.some.inj h
          exact ⟨rfl, hr, ho, c7.2.symm, Or.inr ⟨c7.1, rfl⟩⟩
        · rw [if_neg c7] at h
          exact step h
    | mov => exact step h
    | other => exact step h

theorem doConversionOps_spec {ins : Conversion N} {rest : List (ConvIns N K)} {r : ConvFold N K}
    (h : doConversionOps reDefinedBy (.conv ins :: rest) = some r) :
    reDefinedBy (.conv ins) ins.operand = false ∧ r.Folds reDefinedBy ins rest := by
  rw [doConversionOps] at h
  split_ifs at h with c
  exact ⟨Bool.eq_false_iff.mpr c,
    foldNext_spec ins rest h (fun _ hi => by cases hi) (fun _ hi => by cases hi)⟩

end

/-! ## the values -/

theorem IntType.bits_lt_iff {t1 t2 : TypeClass} {a b : IntType} (h1 : t1.intType = some a)
    (h2 : t2.intType = some b) (h : t1.num ≤ t2.num) : a.bits ≤ b.bits := by
  cases t1 <;> cases t2 <;> cases h1 <;> cases h2 <;> revert h <;> decide

section
variable (t1 t2 t3 : IntType) (x : BitVec 64)

theorem cnv_fits (v : BitVec t1.bits) : (v.setWidth 64).setWidth t1.bits = v := by
  rw [BitVec.setWidth_setWidth_of_le _ (bits_le t1), BitVec.setWidth_eq]

theorem word_inj {u v : BitVec t1.bits} : u.setWidth 64 = v.setWidth 64 ↔ u = v := by
  refine ⟨fun h => ?_, fun h => by rw [h]⟩
  rw [← cnv_fits t1 u, h, cnv_fits]

theorem cnv_cnv : cnv t2 t3 (cnv t1 t2 x) = (Narrowing.extend t2.signed t3.bits
    (Narrowing.extend t1.signed t2.bits (x.setWidth t1.bits))).setWidth 64 := by
  rw [cnv, cnv, cnv_fits]

/-- the second conversion narrows, or the first one keeps the number -/
def FoldsRight : Prop :=
  t3.bits ≤ t2.bits ∨ t1.signed = t2.signed ∨ (t1.signed = false ∧ t1.bits < t2.bits)

instance : Decidable (FoldsRight t1 t2 t3) := by
  unfold FoldsRight
  infer_instance

theorem cnv_cnv_iff (h : t1.bits ≤ t2.bits) :
    (∀ x, cnv t1 t3 x = cnv t2 t3 (cnv t1 t2 x)) ↔ FoldsRight t1 t2 t3 := by
  have h8 := bits_pos t1
  rw [FoldsRight, ← Narrowing.extend_extend_iff (by omega) h]
  constructor
  · intro hx v
    have e := hx (v.setWidth 64)
    rw [cnv_cnv, cnv, cnv_fits, word_inj] at e
    exact e.symm
  · intro hv x
    rw [cnv_cnv, cnv, hv]

end

section
variable {N K σ : Type} [DecidableEq N] {reDefinedBy : ConvIns N K → N → Bool}
  (otherCnv : ConvOpcode → TypeClass → TypeClass → BitVec 64 → BitVec 64)

omit [DecidableEq N] in
theorem value_convert {c : Conversion N} {base type : IntType} (hc : c.opcode = .convert)
    (hb : c.baseTypeClass.intType = some base) (ht : c.typeClass.intType = some type)
    (x : BitVec 64) : c.value otherCnv x = cnv base type x := by
  rw [Conversion.value, hc, hb, ht]

variable {ins folded : Conversion N} {rest : List (ConvIns N K)} {r : ConvFold N K}
  {t1 t2 t3 : IntType}

/-- the fold of two integer conversions is right for every operand exactly when `FoldsRight` holds -/
theorem conversions_folded_iff (h : doConversionOps reDefinedBy (.conv ins :: rest) = some r)
    (hf : r.folded = .conv folded) (h1 : ins.baseTypeClass.intType = some t1)
    (h2 : ins.typeClass.intType = some t2) (h3 : r.next.typeClass.intType = some t3) :
    (∀ x, folded.value otherCnv x = r.next.value otherCnv (ins.value otherCnv x)) ↔
      FoldsRight t1 t2 t3 := by
  obtain ⟨-, hs⟩ := doConversionOps_spec h
  obtain ⟨ho, hn, ht, hle, he⟩ | ⟨-, he⟩ := hs.folded
  · obtain rfl := ConvIns.conv.inj (hf.symm.trans he)
    have e (x : BitVec 64) : r.next.value otherCnv (ins.value otherCnv x) =
        cnv t2 t3 (cnv t1 t2 x) := by
      rw [value_convert otherCnv ho h1 h2, value_convert otherCnv hn (ht ▸ h2) h3]
    have e' (x : BitVec 64) : Conversion.value otherCnv { r.next with
        baseTypeClass := ins.baseTypeClass, operand := ins.operand } x = cnv t1 t3 x :=
      value_convert (c := { r.next with
        baseTypeClass := ins.baseTypeClass, operand := ins.operand }) otherCnv hn h1 h3 x
    simp only [e, e']
    exact cnv_cnv_iff t1 t2 t3 (IntType.bits_lt_iff h1 h2 hle)
  · rw [he] at hf
    cases hf

/-- leaves every word as it is -/
def sameWord (_ : ConvOpcode) (_ _ : TypeClass) (x : BitVec 64) : BitVec 64 := x

/-- `int1 -> int2 -> int4` on three names -/
def signedChain : List (ConvIns Nat Empty) :=
  [.conv ⟨.convert, .i1, .i2, 0, 1⟩, .conv ⟨.convert, .i2, .i4, 1, 2⟩]

def signedFold : ConvFold Nat Empty :=
  ⟨[], ⟨.convert, .i2, .i4, 1, 2⟩, .conv ⟨.convert, .i1, .i4, 0, 2⟩, []⟩

theorem signedChain_fold : doConversionOps (fun _ _ => false) signedChain = some signedFold := rfl

theorem signedChain_right :
    Conversion.value sameWord (⟨.convert, .i1, .i4, 0, 2⟩ : Conversion Nat) 0x80 =
      signedFold.next.value sameWord
        (Conversion.value sameWord (⟨.convert, .i1, .i2, 0, 1⟩ : Conversion Nat) 0x80) :=
  (conversions_folded_iff sameWord signedChain_fold rfl rfl rfl rfl).mpr (by decide) 0x80

/-- a signed character that is made unsigned on its way to a long: `int1 -> uint2 -> int4` -/
def mixedChain : List (ConvIns Nat Empty) :=
  [.conv ⟨.convert, .i1, .u2, 0, 1⟩, .conv ⟨.convert, .u2, .i4, 1, 2⟩]

theorem mixedChain_wrong : ∃ r, doConversionOps (fun _ _ => false) mixedChain = some r ∧
    r.folded = .conv ⟨.convert, .i1, .i4, 0, 2⟩ ∧
    Conversion.value sameWord (⟨.convert, .i1, .i4, 0, 2⟩ : Conversion Nat) 0xFF = 0xFFFFFFFF ∧
    r.next.value sameWord (Conversion.value sameWord
      (⟨.convert, .i1, .u2, 0, 1⟩ : Conversion Nat) 0xFF) = 0xFFFF :=
  ⟨_, rfl, rfl, by decide, by decide⟩

/-! ## the block -/

variable (st : Store N σ (BitVec 64)) (otherEffect : K → σ → σ)

/-- a fold of integer conversions that is right keeps what the block does -/
theorem conversions_folded_block (h : doConversionOps reDefinedBy (.conv ins :: rest) = some r)
    (hf : r.folded = .conv folded) (h1 : ins.baseTypeClass.intType = some t1)
    (h2 : ins.typeClass.intType = some t2) (h3 : r.next.typeClass.intType = some t3)
    (hright : FoldsRight t1 t2 t3)
    (sound : ∀ i n, reDefinedBy i n = false → st.Keeps (i.exec otherCnv st otherEffect) n)
    (hfits : ∀ x, st.Fits ins.result (cnv t1 t2 x)) (s : σ) :
    Store.runAll (ConvIns.exec otherCnv st otherEffect)
        (.conv ins :: (r.before ++ .conv folded :: r.after)) s =
      Store.runAll (ConvIns.exec otherCnv st otherEffect) (.conv ins :: rest) s := by
  have hvalue := (conversions_folded_iff otherCnv h hf h1 h2 h3).mpr hright
  obtain ⟨hop, hs⟩ := doConversionOps_spec h
  obtain ⟨ho, hn, ht, -, he⟩ | ⟨-, he⟩ := hs.folded
  · obtain rfl := ConvIns.conv.inj (hf.symm.trans he)
    rw [hs.list, Store.runAll_cons, Store.runAll_cons, Store.runAll_append, Store.runAll_append,
      Store.runAll_cons, Store.runAll_cons]
    congr 1
    generalize hs1 : ConvIns.exec otherCnv st otherEffect (.conv ins) s = s1
    generalize hs2 : Store.runAll (ConvIns.exec otherCnv st otherEffect) r.before s1 = s2
    -- the operand and the result of the first conversion still have their values
    have operand : st.get ins.operand s2 = st.get ins.operand s := by
      rw [← hs2, Store.runAll_keeps (fun i hi => sound i _ (hs.operandKept i hi)), ← hs1,
        sound _ _ hop]
    have result : st.get ins.result s2 = ins.value otherCnv (st.get ins.operand s) := by
      rw [← hs2, Store.runAll_keeps (fun i hi => sound i _ (hs.resultKept i hi)), ← hs1]
      refine st.get_set _ _ _ ?_
      rw [value_convert otherCnv ho h1 h2]
      exact hfits _
    show st.set r.next.result _ s2 = st.set r.next.result _ s2
    rw [operand, hs.operand, result, ← hvalue]
  · rw [he] at hf
    cases hf

end

end Cg
