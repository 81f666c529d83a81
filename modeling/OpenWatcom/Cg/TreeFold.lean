import OpenWatcom.Cfloat.Convert
import OpenWatcom.Cg.BldSel

/-!
# Folding of integer constants: `treefold.c`

* `IntType`, `Fold`   the type of a constant, and what a fold ends with;
* `cfConvertByType`, `cfGetInteger64Value`, `intToCF`   from numbers to words and back;
* `foldTimes`, `foldMinus`, `foldPlus`, `foldAnd`, `foldOr`, `foldXor`, `foldRShift`, `foldLShift`,
  `foldDiv`, `foldMod`   the folds of two constants.

The two assertions of `FoldDiv` are left out, as in a build with `NDEBUG`.
-/

namespace Cg
open CFloat I64

/-- an integer type of `type_def` -/
structure IntType where
  length : Width
  signed : Bool
deriving DecidableEq, Repr

/-- what a fold ends with: `NULL`, a division that traps on the host, or a constant of the type -/
inductive Fold where
  | null
  | trap
  | const (cfval : CFloat)
deriving DecidableEq

section
variable (tipe : IntType)

/-- `HasBigConst` -/
def hasBigConst : Bool := tipe.length = .b8

/-- the number of bits -/
def IntType.bits : Nat := 8 * tipe.length.bytes

/-- `CFConvertByType` -/
def cfConvertByType (cf : CFloat) : BitVec 32 :=
  let data := cfCnvF32 cf
  match tipe.length with
  | .b1 => if tipe.signed then (data.setWidth 8).signExtend 32 else (data.setWidth 8).setWidth 32
  | .b2 => if tipe.signed then (data.setWidth 16).signExtend 32 else (data.setWidth 16).setWidth 32
  | _ => data

/-- `CFGetInteger64Value` -/
def cfGetInteger64Value (cf : CFloat) : U64 :=
  let trunc := cfTrunc cf
  let neg := cfTest trunc
  let trunc := if neg < 0 then cfNegate trunc else trunc
  let value := cfCnvF64 trunc
  if neg < 0 then u64Neg value else value

/-- `IntToCF` -/
def intToCF (value : U64) : CFloat :=
  if tipe.signed then
    match tipe.length with
    | .b1 => cfCnvI32F (((lo value).setWidth 8).signExtend 32)
    | .b2 => cfCnvI32F (((lo value).setWidth 16).signExtend 32)
    | .b4 => cfCnvI32F (lo value)
    | .b8 => cfCnvI64F (lo value) (hi value)
  else
    match tipe.length with
    | .b1 => cfCnvU32F (((lo value).setWidth 8).setWidth 32)
    | .b2 => cfCnvU32F (((lo value).setWidth 16).setWidth 32)
    | .b4 => cfCnvU32F (lo value)
    | .b8 => cfCnvU64F (lo value) (hi value)

/-- `Int64ToType` -/
def int64ToType (value : U64) : Fold := .const (intToCF tipe value)

/-- `IntToType` -/
def intToType (value : BitVec 32) : Fold := int64ToType tipe (mk (if value.toInt < 0 then -1 else 0) value)

/-- `CFToType` of an integer type -/
def cfToType (cf : CFloat) : Fold := .const (intToCF tipe (cfGetInteger64Value cf))

/-! ## the folds -/

/-- the folds that compute in 32 bits when both constants fit, and with `cfloat`s otherwise -/
def foldNumbers (op32 : BitVec 32 → BitVec 32 → BitVec 32) (opF : CFloat → CFloat → CFloat)
    (lv rv : CFloat) : Fold :=
  if hasBigConst tipe = false ∧ cfIs32 lv ∧ cfIs32 rv then
    intToType tipe (op32 (cfConvertByType tipe lv) (cfConvertByType tipe rv))
  else cfToType tipe (opF lv rv)

/-- `FoldTimes`; the operands are exchanged first -/
def foldTimes (left rite : CFloat) : Fold := foldNumbers tipe (· * ·) cfMul rite left

/-- `FoldMinus` -/
def foldMinus (left rite : CFloat) : Fold := foldNumbers tipe (· - ·) cfSub left rite

/-- `FoldPlus`; the operands are exchanged first -/
def foldPlus (left rite : CFloat) : Fold := foldNumbers tipe (· + ·) cfAdd rite left

/-- the folds that compute in 32 bits when both constants fit, whatever the type, and in 64 bits
otherwise -/
def foldBits (op32 : BitVec 32 → BitVec 32 → BitVec 32) (op64 : U64 → U64 → U64)
    (lv rv : CFloat) : Fold :=
  if cfIs32 lv ∧ cfIs32 rv then
    intToType tipe (op32 (cfConvertByType tipe lv) (cfConvertByType tipe rv))
  else if cfIs64 lv ∧ cfIs64 rv then
    int64ToType tipe (op64 (cfGetInteger64Value lv) (cfGetInteger64Value rv))
  else .null

/-- `FoldAnd`; the operands are exchanged first -/
def foldAnd (left rite : CFloat) : Fold := foldBits tipe (· &&& ·) u64And rite left

/-- `FoldOr`; the operands are exchanged first -/
def foldOr (left rite : CFloat) : Fold := foldBits tipe (· ||| ·) u64Or rite left

/-- `FoldXor`; the operands are exchanged first -/
def foldXor (left rite : CFloat) : Fold := foldBits tipe (· ^^^ ·) u64Xor rite left

/-- `FoldRShift` -/
def foldRShift (left rite : CFloat) : Fold :=
  let ri := cfConvertByType tipe rite
  let big := ri.toInt ≥ tipe.bits
  let ri := if big then BitVec.ofNat 32 (tipe.bits - 1) else ri
  if big ∧ tipe.signed = false then intToType tipe 0
  else if hasBigConst tipe = false ∧ cfIs32 left ∧ cfIs32 rite then
    let li := cfConvertByType tipe left
    intToType tipe (if tipe.signed then li.sshiftRight ri.toNat else li >>> ri.toNat)
  else if cfIs64 left ∧ cfIs64 rite then
    let li := cfGetInteger64Value left
    int64ToType tipe (if tipe.signed then i64ShiftR li ri.toNat else u64ShiftR li ri.toNat)
  else .null

/-- `FoldLShift` -/
def foldLShift (left rite : CFloat) : Fold :=
  let ri : BitVec 32 :=
    if cfIs32 rite then cfConvertByType tipe rite else if cfIs64 rite then 0xffff else 0
  if ri.toInt ≥ tipe.bits then intToType tipe 0
  else if hasBigConst tipe = false ∧ cfIs32 left ∧ cfIs32 rite then
    intToType tipe (cfConvertByType tipe left <<< ri.toNat)
  else if cfIs64 left ∧ cfIs64 rite then
    int64ToType tipe (u64ShiftL (cfGetInteger64Value left) ri.toNat)
  else .null

/-- the quotient of two `int_32`; the host traps when it is out of range -/
def hostDiv (li ri : BitVec 32) : Option (BitVec 32) :=
  if ri = 0 ∨ (li = BitVec.intMin 32 ∧ ri = -1) then none else some (li.sdiv ri)

/-- `FoldDiv` -/
def foldDiv (left rite : CFloat) : Fold :=
  if cfTest rite ≠ 0 then
    if hasBigConst tipe then
      let li := cfGetInteger64Value left
      let ri := cfGetInteger64Value rite
      int64ToType tipe (if tipe.signed then (i64Div li ri).1 else (u64Div li ri).1)
    else if tipe.signed then
      if cfIsI32 left ∧ cfIsI32 rite then
        match hostDiv (cfConvertByType tipe left) (cfConvertByType tipe rite) with
        | none => .trap
        | some value => intToType tipe value
      else .null
    else if cfIsU32 left ∧ cfIsU32 rite then
      intToType tipe (cfCnvF32 left / cfCnvF32 rite)
    else .null
  else .null

/-- `FoldMod` -/
def foldMod (left rite : CFloat) : Fold :=
  if cfTest rite ≠ 0 then
    if cfIs64 left ∧ cfIs64 rite then
      let li := cfGetInteger64Value left
      let ri := cfGetInteger64Value rite
      int64ToType tipe (if tipe.signed then (i64Div li ri).2 else (u64Div li ri).2)
    else if tipe.signed then
      if cfIsI32 left ∧ cfIsI32 rite then
        match hostDiv (cfConvertByType tipe left) (cfConvertByType tipe rite) with
        | none => .trap
        | some _ =>
          intToType tipe ((cfConvertByType tipe left).srem (cfConvertByType tipe rite))
      else .null
    else if cfIsU32 left ∧ cfIsU32 rite then
      intToType tipe (cfConvertByType tipe left % cfConvertByType tipe rite)
    else .null
  else .null

end

end Cg
