import OpenWatcom.Cg.FoldCompare

/-!
# Reductions by a constant: `FoldTimes`, `FoldDiv` and `FoldMod` (treefold.c)

* `Tn`     the trees, with the operators the reductions look at or make
* `foldTimesTn`, `foldDivTn`, `foldModTn`     the folds where an operand is no constant
* `Tn.eval`     the number of a tree, in its type

Both operands of the three operations have been converted to the type of the result, so `TGConvert`
leaves them alone.
-/

namespace Cg
open CFloat I64

/-! ## Trees -/

/-- an integer `type_def`; two of them may have one length and sign -/
structure IntDef extends IntType where
  refno : ℕ
  deriving DecidableEq

/-- a node with one operand -/
inductive UnOp
  | uminus
  | complement
  | convert
  deriving DecidableEq

/-- a `TN_BINARY` -/
inductive BinOp
  | plus
  | minus
  | times
  | div
  | mod
  | and
  | or
  | xor
  | lshift
  | rshift
  deriving DecidableEq

/-- a tree; `call` is any node that may not be duplicated -/
inductive Tn
  | cons (cfval : CFloat) (tipe : IntDef)
  | leaf (addr : ℕ) (tipe : IntDef)
  | call (addr : ℕ) (tipe : IntDef)
  | unary (op : UnOp) (left : Tn) (tipe : IntDef)
  | binary (op : BinOp) (left rite : Tn) (tipe : IntDef)
  | comma (left rite : Tn)

def Tn.tipe : Tn → IntDef
  | .cons _ tipe => tipe
  | .leaf _ tipe => tipe
  | .call _ tipe => tipe
  | .unary _ _ tipe => tipe
  | .binary _ _ _ tipe => tipe
  | .comma _ rite => rite.tipe

def Tn.isCons : Tn → Bool
  | .cons _ _ => true
  | _ => false

/-- `TGCanDuplicate` -/
def tgCanDuplicate : Tn → Bool
  | .cons _ _ => true
  | .leaf _ _ => true
  | .call _ _ => false
  | .unary _ left _ => tgCanDuplicate left
  | .binary _ left rite _ => tgCanDuplicate left && tgCanDuplicate rite
  | .comma _ _ => false

/-- the target: the types of a shift count, and whether `FoldMod` may take a tree several times -/
structure Model where
  typeInteger : IntDef
  typeUnsigned : IntDef
  duplicate : Bool

/-- the constant of a fold -/
def Fold.node (tipe : IntDef) : Fold → Option Tn
  | .const cfval => some (.cons cfval tipe)
  | _ => none

/-- the constant of `IntToType` -/
def intConst (value : BitVec 32) (tipe : IntDef) : CFloat :=
  intToCF tipe.toIntType (mk (if value.toInt < 0 then -1 else 0) value)

/-- `IntToType` -/
def intNode (value : BitVec 32) (tipe : IntDef) : Tn := .cons (intConst value tipe) tipe

/-- `TGConvert` -/
def tgConvert (name : Tn) (tipe : IntDef) : Tn :=
  if tipe = name.tipe then name
  else
    match name with
    | .cons cf t =>
      let cf := intToCF t.toIntType (cfGetInteger64Value cf)
      .cons (intToCF tipe.toIntType (cfGetInteger64Value (cfTrunc cf))) tipe
    | name => .unary .convert name tipe

/-- `FoldLShift` of a tree that is no constant, and the node where it does not fold -/
def tgLShift (model : Model) (left rite : Tn) (tipe : IntDef) : Tn :=
  let left := tgConvert left tipe
  match tgConvert rite model.typeUnsigned with
  | .cons rv t =>
    let ri : BitVec 32 :=
      if cfIs32 rv then cfConvertByType tipe.toIntType rv else if cfIs64 rv then 0xffff else 0
    if ri = 0 then left
    else if ri.toInt ≥ tipe.bits then .comma left (intNode 0 tipe)
    else .binary .lshift left (.cons rv t) tipe
  | rite => .binary .lshift left rite tipe

/-- `FoldRShift` of a tree that is no constant, and the node where it does not fold -/
def tgRShift (model : Model) (left rite : Tn) (tipe : IntDef) : Tn :=
  let left := tgConvert left tipe
  match tgConvert rite model.typeUnsigned with
  | .cons rv t =>
    let ri := cfConvertByType tipe.toIntType rv
    if ri = 0 then left
    else if ri.toInt ≥ tipe.bits ∧ tipe.signed = false then .comma left (intNode 0 tipe)
    else .binary .rshift left (.cons rv t) tipe
  | rite => .binary .rshift left rite tipe

/-- `FoldAnd` of a tree and a constant, and the node where it does not fold -/
def tgAnd (left : Tn) (rv : CFloat) (tipe : IntDef) : Tn :=
  if cfTest rv = 0 then .comma left (intNode 0 tipe)
  else if hasBigConst tipe.toIntType = false ∧ cfCnvF32 rv = -1 then tgConvert left tipe
  else .binary .and left (.cons rv tipe) tipe

/-- `FoldUMinus` of a tree that is no constant, and the node where it does not fold -/
def tgUMinus (left : Tn) (tipe : IntDef) : Tn :=
  match tgConvert left tipe with
  | .unary .uminus left _ => left
  | left => .unary .uminus left tipe

/-- the loop of `GetLog2` -/
def log2Loop (value : BitVec 32) : ℕ → BitVec 32 → ℕ → Option ℕ
  | 0, _, _ => none
  | fuel + 1, count, log =>
    if count = value then some log else log2Loop value fuel (count + count) (log + 1)

/-- `GetLog2`; the test leaves 1 out too -/
def getLog2 (value : BitVec 32) : Option ℕ :=
  if value &&& (1 - value) = value ∧ value ≠ 0 then log2Loop value 32 1 0 else none

/-! ## The folds -/

section
variable (model : Model)

/-- `FoldTimes` of a tree and a constant, from the test for 1 on -/
def reduceTimes (left : Tn) (rv : CFloat) (rt tipe : IntDef) : Option Tn :=
  if hasBigConst tipe.toIntType = false ∧ cfCnvF32 rv = 1 then some left
  else if cfTest rv = 0 then some (.comma left (.cons rv rt))
  else if hasBigConst tipe.toIntType then none
  else
    let pos := if cfTest rv < 0 then cfNegate rv else rv
    if cfIsU32 pos then
      (getLog2 (cfConvertByType tipe.toIntType pos)).map fun log =>
        let fold := tgLShift model left (intNode (BitVec.ofNat 32 log) model.typeInteger) tipe
        if cfTest rv < 0 then tgUMinus fold tipe else fold
    else none

/-- the power of two of a shift count, in 32 bits -/
def shiftedOne (count : BitVec 32) : BitVec 32 :=
  if count.toInt > 0 then (1 : BitVec 32) <<< count.toNat else 1

/-- `FoldTimes` of a tree and a constant -/
def foldTimesCons (left : Tn) (rv : CFloat) (rt tipe : IntDef) : Option Tn :=
  match left with
  | .cons lv _ => (foldTimes tipe.toIntType lv rv).node tipe
  | .binary .times (.cons lv _) rite t =>
    if tipe = t ∧ hasBigConst tipe.toIntType = false then
      ((foldTimes tipe.toIntType lv rv).node tipe).map fun cons => .binary .times cons rite t
    else reduceTimes model left rv rt tipe
  | .binary .times left' (.cons lv _) t =>
    if tipe = t ∧ hasBigConst tipe.toIntType = false then
      ((foldTimes tipe.toIntType lv rv).node tipe).map fun cons => .binary .times left' cons t
    else reduceTimes model left rv rt tipe
  | .binary .lshift left' (.cons count _) t =>
    if tipe = t ∧ hasBigConst tipe.toIntType = false then
      match cfToType tipe.toIntType (cfCnvU32F (shiftedOne (cfCnvF32 count))) with
      | .const lv =>
        ((foldTimes tipe.toIntType lv rv).node tipe).map fun cons => .binary .times left' cons t
      | _ => none
    else reduceTimes model left rv rt tipe
  | left => reduceTimes model left rv rt tipe

/-- `FoldTimes` -/
def foldTimesTn (left rite : Tn) (tipe : IntDef) : Option Tn :=
  match left, rite with
  | .cons rv rt, left => foldTimesCons model left rv rt tipe
  | left, .cons rv rt => foldTimesCons model left rv rt tipe
  | _, _ => none

/-- `FoldDiv` -/
def foldDivTn (left rite : Tn) (tipe : IntDef) : Option Tn :=
  match left, rite with
  | .cons lv _, .cons rv _ => (foldDiv tipe.toIntType lv rv).node tipe
  | left, .cons rv _ =>
    if hasBigConst tipe.toIntType then none
    else if cfCnvF32 rv = 1 then some (tgConvert left tipe)
    else if left.tipe.signed = false ∧ cfIsU32 rv then
      (getLog2 (cfCnvF32 rv)).map fun log =>
        tgRShift model left (intNode (BitVec.ofNat 32 log) model.typeInteger) tipe
    else none
  | .cons lv lt, rite =>
    if cfTest lv = 0 then some (.comma rite (tgConvert (.cons lv lt) tipe)) else none
  | _, _ => none

/-- the remainder of a signed number: its sign `b` taken off, the low bits, and the sign put back -/
def signedMod (left : Tn) (ri : BitVec 32) (tipe : IntDef) : Tn :=
  let b := tgRShift model left (intNode 31 tipe) tipe
  let t1 := .binary .minus (.binary .xor left b tipe) b tipe
  let t2 := tgAnd t1 (intConst (ri - 1) tipe) tipe
  .binary .minus (.binary .xor t2 b tipe) b tipe

/-- `FoldMod` -/
def foldModTn (left rite : Tn) (tipe : IntDef) : Option Tn :=
  match left, rite with
  | .cons lv _, .cons rv _ => (foldMod tipe.toIntType lv rv).node tipe
  | left, .cons rv _ =>
    if hasBigConst tipe.toIntType then none
    else if cfCnvF32 rv = 1 then
      some (.comma left (.cons (intToCF tipe.toIntType (cfGetInteger64Value cfAlloc)) tipe))
    else if left.tipe.signed = false then
      if cfIsU32 rv then
        let ri := cfConvertByType tipe.toIntType rv
        (getLog2 ri).map fun _ => tgAnd left (intConst (ri - 1) tipe) tipe
      else none
    else if model.duplicate ∧ tgCanDuplicate left then
      let ri := cfConvertByType tipe.toIntType rv
      let ri := if ri.toInt < 0 then -ri else ri
      if (getLog2 ri).isSome ∧ ri.toInt > 1 then some (signedMod model left ri tipe) else none
    else none
  | .cons lv _, rite => if cfTest lv = 0 then some (.comma rite (intNode 0 tipe)) else none
  | _, _ => none

/-- the fold of a node where an operand is no constant -/
def reduce : BinOp → Tn → Tn → IntDef → Option Tn
  | .times => foldTimesTn model
  | .div => foldDivTn model
  | .mod => foldModTn model
  | _ => fun _ _ _ => none

end

/-! ## The number of a tree -/

/-- the bits of two numbers put together -/
def onBits (f : U64 → U64 → U64) (a b : ℤ) : ℤ := (f (BitVec.ofInt 64 a) (BitVec.ofInt 64 b)).toInt

def UnOp.apply : UnOp → ℤ → ℤ
  | .uminus, a => -a
  | .complement, a => -a - 1
  | .convert, a => a

def BinOp.apply : BinOp → ℤ → ℤ → ℤ
  | .plus, a, b => a + b
  | .minus, a, b => a - b
  | .times, a, b => a * b
  | .div, a, b => a.tdiv b
  | .mod, a, b => a.tmod b
  | .and, a, b => onBits (· &&& ·) a b
  | .or, a, b => onBits (· ||| ·) a b
  | .xor, a, b => onBits (· ^^^ ·) a b
  | .lshift, a, b => a * 2 ^ b.toNat
  | .rshift, a, b => a / 2 ^ b.toNat

/-- the number of a tree, where the leaves have the numbers `env` in their types -/
def Tn.eval (env : ℕ → ℤ) : Tn → ℤ
  | .cons cf tipe => tipe.convert (cfGetInteger64Value cf).toInt
  | .leaf addr tipe => tipe.convert (env addr)
  | .call addr tipe => tipe.convert (env addr)
  | .unary op left tipe => tipe.convert (op.apply (left.eval env))
  | .binary op left rite tipe => tipe.convert (op.apply (left.eval env) (rite.eval env))
  | .comma _ rite => rite.eval env

/-- the constants are numbers of their types, and the operands have the types of the operations; a
constant count of a left shift is not negative as an `int` -/
def Tn.WellFormed : Tn → Prop
  | .cons cf tipe => ∃ v, Exact cf v ∧ tipe.Holds v
  | .leaf _ _ => True
  | .call _ _ => True
  | .unary op left tipe => left.WellFormed ∧ (op ≠ .convert → left.tipe = tipe)
  | .binary op left rite tipe => left.WellFormed ∧ rite.WellFormed ∧ left.tipe = tipe ∧
      (op = .lshift → ∀ cf t, rite = .cons cf t → ∀ v, Exact cf v → 0 ≤ v ∧ v < 2 ^ 31) ∧
      (op ≠ .lshift → op ≠ .rshift → rite.tipe = tipe)
  | .comma left rite => left.WellFormed ∧ rite.WellFormed

end Cg
