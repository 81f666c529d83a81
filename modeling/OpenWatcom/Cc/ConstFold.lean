import OpenWatcom.Lib.Narrowing
import OpenWatcom.Watcom.I64

/-!
# Folding of constant expressions (`cc/c/cfold.c`)

`DoConstFold` on the nodes of an expression: the operation is done on the host, in 32 bits or on the
two halves of a 64-bit number, and the node becomes the constant.  A leaf keeps its constant in a
union of eight bytes, of which the types up to `long` use the low four; `none` is a division that
stops the host.
-/

namespace ConstFold

open I64 Narrowing

/-- `_CPU`: a target with an `int` of 16 or of 32 bits -/
inductive Cpu where
  | i86
  | i386
  deriving Repr, DecidableEq

/-- the bits of `target_int` -/
def Cpu.int : Cpu → Nat
  | .i86 => 16
  | .i386 => 32

inductive DataType where
  | char
  | uchar
  | short
  | ushort
  | int
  | uint
  | long
  | ulong
  | long64
  | ulong64
  | pointer
  deriving Repr, DecidableEq

inductive Opr where
  | add
  | sub
  | mul
  | div
  | mod
  | cmp
  | or
  | and
  | xor
  | rshift
  | lshift
  | orOr
  | andAnd
  | neg
  | com
  | not
  deriving Repr, DecidableEq

/-- the test of a comparison -/
inductive Cc where
  | eq
  | ne
  | gt
  | ge
  | lt
  | le
  deriving Repr, DecidableEq

/-- a node of an expression; `u2` are the bytes of the union, in an operator's node those of a
pointer to a type or of a label -/
inductive Tree where
  | null
  | pushInt (constType : DataType) (u2 : U64)
  | node (opr : Opr) (cc : Cc) (exprType compareType : DataType) (u2 : U64) (left right : Tree)
  deriving Repr, DecidableEq

namespace Tree

/-- `u2.long_value`, zero where there is no operand -/
def longValue : Tree → BitVec 32
  | null => 0
  | pushInt _ u2 => lo u2
  | node _ _ _ _ u2 _ _ => lo u2

def isConstLeaf : Tree → Bool
  | pushInt _ _ => true
  | _ => false

end Tree

/-- the low half of the union is stored -/
def setLong (u2 : U64) (value : BitVec 32) : U64 := mk (hi u2) value

def Cc.test (cc : Cc) (left right : Int) : Bool :=
  match cc with
  | .eq => left == right
  | .ne => left != right
  | .gt => left > right
  | .ge => left ≥ right
  | .lt => left < right
  | .le => left ≤ right

/-- the value of a truth value -/
def ofTruth (b : Bool) : BitVec 32 := if b then 1 else 0

/-! ## the two evaluators -/

/-- the host's signed division, which stops on the least number divided by `-1` -/
def hostDiv (left right : BitVec 32) : Option (BitVec 32 × BitVec 32) :=
  if left = BitVec.intMin 32 ∧ right = -1 then none
  else some (left.sdiv right, left.srem right)

/-- `DoOp32`; the host takes the low five bits of a count -/
def doOp32 (left : BitVec 32) (opr : Opr) (right : BitVec 32) (sign : Bool) : Option (BitVec 32) :=
  match opr with
  | .add => some (left + right)
  | .sub => some (left - right)
  | .mul => some (left * right)
  | .div =>
    if right = 0 then some 0
    else if sign then (hostDiv left right).map Prod.fst
    else some (left / right)
  | .mod =>
    if right = 0 then some 0
    else if sign then (hostDiv left right).map Prod.snd
    else some (left % right)
  | .rshift =>
    let count := right.toNat % 32
    some (if sign then left.sshiftRight count else left >>> count)
  | .lshift => some (left <<< (right.toNat % 32))
  | .or => some (left ||| right)
  | .orOr => some (ofTruth (left ≠ 0 ∨ right ≠ 0))
  | .and => some (left &&& right)
  | .andAnd => some (ofTruth (left ≠ 0 ∧ right ≠ 0))
  | .xor => some (left ^^^ right)
  | .neg => some (-right)
  | .com => some (~~~right)
  | .not => some (ofTruth (right = 0))
  | .cmp => some 0

/-- `do_shift`: to the right by a positive count, else to the left -/
def doShift (left : U64) (shift : BitVec 32) (sign : Bool) : U64 :=
  if shift.toInt > 0 then
    if sign then i64ShiftR left shift.toNat else u64ShiftR left shift.toNat
  else u64ShiftL left (-shift).toNat

/-- `DoOp64` -/
def doOp64 (left : U64) (opr : Opr) (right : U64) (sign : Bool) : U64 :=
  match opr with
  | .add => u64Add left right
  | .sub => u64Sub left right
  | .mul => u64Mul left right
  | .div =>
    if u64IsZero right then 0
    else if sign then (i64Div left right).1
    else (u64Div left right).1
  | .mod =>
    if u64IsZero right then 0
    else if sign then (i64Div left right).2
    else (u64Div left right).2
  | .lshift => doShift left (-lo right) sign
  | .rshift => doShift left (lo right) sign
  | .or => u64Or left right
  | .orOr => ofBool (u64IsntZero right || u64IsntZero left)
  | .and => u64And left right
  | .andAnd => ofBool (u64IsntZero right && u64IsntZero left)
  | .xor => u64Xor left right
  | .neg => u64Neg right
  | .com => u64Not right
  | .not => ofBool (u64IsZero right)
  | .cmp => 0

/-! ## the operations on leaves -/

/-- `Set64ValI32` -/
def set64ValI32 (value : BitVec 32) : U64 := value.signExtend 64

/-- `Set64ValU32` -/
def set64ValU32 (value : BitVec 32) : U64 := value.setWidth 64

/-- `LongValue64`, zero where there is no operand -/
def longValue64 (cpu : Cpu) : Tree → U64
  | .pushInt constType u2 =>
    match constType with
    | .char => set64ValI32 (castTo true 8 (lo u2))
    | .uchar => set64ValU32 (castTo false 8 (lo u2))
    | .short => set64ValI32 (castTo true 16 (lo u2))
    | .ushort => set64ValU32 (castTo false 16 (lo u2))
    | .int => set64ValI32 (castTo true cpu.int (lo u2))
    | .uint => set64ValU32 (castTo false cpu.int (lo u2))
    | .long => set64ValI32 (castTo true 32 (lo u2))
    | .pointer | .ulong => set64ValU32 (castTo false 32 (lo u2))
    | .long64 | .ulong64 => u2
  | _ => 0

section
variable (cpu : Cpu) (op1 : Tree) (opr : Opr) (cc : Cc) (exprType : DataType) (u2 : U64)
variable (op2 : Tree)

/-- `DoSignedOp` -/
def doSignedOp : Option Tree :=
  let left := op1.longValue
  let right := op2.longValue
  if opr = .cmp then
    let value := ofTruth (cc.test left.toInt right.toInt)
    some (.pushInt .int (setLong u2 (castTo true cpu.int value)))
  else
    (doOp32 left opr right true).map fun value =>
      .pushInt exprType
        (setLong u2 (if exprType = .long then value else castTo true cpu.int value))

/-- `DoUnSignedOp` -/
def doUnSignedOp : Option Tree :=
  let left := op1.longValue
  let right := op2.longValue
  if opr = .cmp then
    let value := ofTruth (cc.test left.toNat right.toNat)
    some (.pushInt .int (setLong u2 (castTo true cpu.int value)))
  else
    (doOp32 left opr right false).map fun value =>
      .pushInt exprType
        (setLong u2
          (if exprType = .ulong ∨ exprType = .pointer then value else castTo false cpu.int value))

/-- `DoUnSignedOp64` -/
def doUnSignedOp64 : Tree :=
  let left := longValue64 cpu op1
  let right := longValue64 cpu op2
  if opr = .cmp then
    .pushInt .int (setLong u2 (ofTruth (cc.test (u64Cmp left right) 0)))
  else
    let value := doOp64 left opr right false
    .pushInt exprType (if exprType = .ulong64 then value else setLong u2 (lo value))

/-- `DoSignedOp64` -/
def doSignedOp64 : Tree :=
  let left := longValue64 cpu op1
  let right := longValue64 cpu op2
  if opr = .cmp then
    .pushInt .int (setLong u2 (ofTruth (cc.test (i64Cmp left right) 0)))
  else
    let value := doOp64 left opr right true
    .pushInt exprType (if exprType = .long64 then value else setLong u2 (lo value))

end

/-! ## DoConstFold -/

/-- `arithmetic_type`, of the integers -/
inductive ArithmeticType where
  | signedInt
  | unsignedInt
  | signedInt64
  | unsignedInt64
  deriving Repr, DecidableEq

/-- `ArithmeticType` -/
def arithmeticType : DataType → ArithmeticType
  | .char | .short | .int | .long => .signedInt
  | .long64 => .signedInt64
  | .uchar | .ushort | .uint | .ulong | .pointer => .unsignedInt
  | .ulong64 => .unsignedInt64

/-- `FoldableTree`, for these operators -/
def foldableTree : Tree → Bool
  | .node opr _ _ _ _ left right =>
    match opr with
    | .neg | .com | .not => right.isConstLeaf
    | _ => left.isConstLeaf && right.isConstLeaf
  | _ => false

/-- `DoConstFold` -/
def doConstFold (cpu : Cpu) (tree : Tree) : Option Tree :=
  if foldableTree tree then
    match tree with
    | .node opr cc exprType compareType u2 left right =>
      let declType := if opr = .cmp then compareType else exprType
      match arithmeticType declType with
      | .signedInt => doSignedOp cpu left opr cc exprType u2 right
      | .signedInt64 => some (doSignedOp64 cpu left opr cc exprType u2 right)
      | .unsignedInt => doUnSignedOp cpu left opr cc exprType u2 right
      | .unsignedInt64 => some (doUnSignedOp64 cpu left opr cc exprType u2 right)
    | _ => some tree
  else some tree

end ConstFold
