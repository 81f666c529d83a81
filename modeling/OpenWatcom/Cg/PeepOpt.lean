import OpenWatcom.Cg.TreeFold
import OpenWatcom.Lib.Stores

/-!
# The arithmetic peephole: `peepopt.c`

* `Arith`, `Ins`     an operation with a constant, and any other instruction of a block;
* `mergeTwo`     two operations become one constant, in its three forms;
* `andOr`, `orAnd`, `orAndOr`, `andOrAnd`     the bit operations that are put in the other order;
* `findInsPair`, `findInsTriple`     the search through the block;
* `doArithmeticOps`     the rewrite at one instruction of a block;
* `alu`, `exec`     what the instructions do to the names.

`InsOrderDependant` and `InsChangeable` are parameters. Relocatable constants count as names, and of the
other instructions only their effect on the names is known; condition codes are left out.
-/

namespace Cg

/-- a name, or an absolute constant -/
inductive Operand (N : Type) where
  | name (n : N)
  | const (c : BitVec 32)
deriving DecidableEq

inductive Opcode where
  | add | sub | mul | and | or | lshift | rshift
deriving DecidableEq, Repr

/-- an operation with two operands -/
structure Arith (N : Type) where
  opcode : Opcode
  type : IntType
  op0 : Operand N
  op1 : Operand N
  result : N
deriving DecidableEq

/-- an instruction of a block -/
inductive Ins (N K : Type) where
  | arith (ins : Arith N)
  | mov (type : IntType) (c : BitVec 32) (result : N)
  | other (k : K)

/-- the part of an instruction that is to be changed -/
inductive Slot where
  | op0 | op1 | result
deriving DecidableEq

section
variable {N K : Type} [DecidableEq N]

/-- `OP2VAL` -/
def op2val (ins : Arith N) : BitVec 32 :=
  match ins.op1 with
  | .const c => c
  | .name _ => 0

def Operand.isConst : Operand N → Bool
  | .const _ => true
  | .name _ => false

/-- `SameOpWithConst` -/
def sameOpWithConst (ins next : Arith N) : Bool := next.op0 = .name ins.result ∧ next.op1.isConst

/-- `OpConst` -/
def opConst (ins : Arith N) : Bool := ins.op1.isConst

/-- the two instructions after a change; the second one may be gone -/
abbrev Changed (N K : Type) := Option (Ins N K × Option (Ins N K))

variable (orderDependant : Ins N K → Ins N K → Bool)
  (insChangeable : Arith N → Operand N → Slot → Bool)

/-- `MergeTwo`; `mid` is what stands between the two -/
def mergeTwo (a : Arith N) (mid : List (Ins N K)) (b : Arith N) (value : BitVec 32) : Changed N K :=
  let cons := Operand.const value
  if a.result = b.result then
    if insChangeable a cons .op1 then some (.arith { a with op1 := cons }, none) else none
  else if a.op0 = b.op0 then
    if mid.any fun ins => orderDependant ins (.arith b) then none
    else
      match a.op0 with
      | .const _ => none
      | .name n =>
        if insChangeable a (.name b.result) .result ∧ insChangeable b a.op0 .result then
          let a' := { a with result := b.result }
          let b' := { b with result := n }
          if insChangeable a' cons .op1 ∧ insChangeable b' a.op1 .op1 then
            some (.arith { a' with op1 := cons }, some (.arith { b' with op1 := a.op1 }))
          else none
        else none
  else if b.op0 ≠ a.op0 ∨ b.op1 ≠ cons then
    if insChangeable b a.op0 .op0 ∧ insChangeable b cons .op1 then
      some (.arith a, some (.arith { b with op0 := a.op0, op1 := cons }))
    else none
  else none

/-- `DoAdd` -/
def doAdd (a : Arith N) (mid : List (Ins N K)) (b : Arith N) : Changed N K :=
  mergeTwo orderDependant insChangeable a mid b (op2val a + op2val b)

/-- `DoMul` -/
def doMul (a : Arith N) (mid : List (Ins N K)) (b : Arith N) : Changed N K :=
  mergeTwo orderDependant insChangeable a mid b (op2val a * op2val b)

/-- `DoAnd` -/
def doAnd (a : Arith N) (mid : List (Ins N K)) (b : Arith N) : Changed N K :=
  mergeTwo orderDependant insChangeable a mid b (op2val a &&& op2val b)

/-- `DoOr` -/
def doOr (a : Arith N) (mid : List (Ins N K)) (b : Arith N) : Changed N K :=
  mergeTwo orderDependant insChangeable a mid b (op2val a ||| op2val b)

/-- `DoRShift` -/
def doRShift (a : Arith N) (mid : List (Ins N K)) (b : Arith N) : Changed N K :=
  if a.type ≠ b.type then none else doAdd orderDependant insChangeable a mid b

/-- `DoLShift` -/
def doLShift (a : Arith N) (mid : List (Ins N K)) (b : Arith N) : Changed N K :=
  doAdd orderDependant insChangeable a mid b

/-- `AndOr` -/
def andOr (andIns orIns : Arith N) : Changed N K :=
  if andIns.op0 ≠ .name andIns.result then none
  else if orIns.op0 ≠ .name orIns.result then none
  else
    let newAnd := op2val andIns &&& ~~~op2val orIns
    if newAnd = op2val andIns then none
    else if insChangeable andIns (.const newAnd) .op1 then
      some (.arith { andIns with op1 := .const newAnd }, some (.arith orIns))
    else none

/-- `OrAnd` -/
def orAnd (orIns andIns : Arith N) : Changed N K :=
  if orIns.op0 ≠ .name orIns.result then none
  else if andIns.op0 ≠ .name andIns.result then none
  else if op2val andIns &&& op2val orIns = op2val andIns then
    some (.mov orIns.type (op2val andIns) orIns.result, none)
  else
    let newOr := op2val orIns &&& op2val andIns
    if newOr = op2val orIns then none
    else if insChangeable orIns (.const newOr) .op1 then
      some (.arith { orIns with op1 := .const newOr }, some (.arith andIns))
    else none

/-- `OrAndOr` and `AndOrAnd`: the operations change places -/
def exchangeTwo (op1 op2 : Opcode) (value : BitVec 32) (a b : Arith N) : Changed N K :=
  if a.result ≠ b.result then none
  else
    let a' := { a with opcode := op1 }
    let b' := { b with opcode := op2 }
    if insChangeable a' b.op1 .op1 ∧ insChangeable b' (.const value) .op1 then
      some (.arith { a' with op1 := b.op1 }, some (.arith { b' with op1 := .const value }))
    else none

/-- `OrAndOr` -/
def orAndOr (a b : Arith N) : Changed N K :=
  exchangeTwo insChangeable .and .or (op2val a &&& op2val b) a b

/-- `AndOrAnd` -/
def andOrAnd (a b : Arith N) : Changed N K :=
  exchangeTwo insChangeable .or .and (op2val a ||| op2val b) a b

/-- what `FindInsPair` comes back with: nothing, the change of the pair, or the `stopper` -/
inductive Pair (N K : Type) where
  | none
  | changed (mid : List (Ins N K)) (b : Arith N) (rest : List (Ins N K)) (a' : Ins N K)
      (b' : Option (Ins N K))
  | stopper (mid : List (Ins N K)) (b : Arith N) (rest : List (Ins N K))

/-- the change of a pair with the next instruction -/
def tryPair (ins : Arith N) (opcode : Opcode) (oprtn : Arith N → List (Ins N K) → Arith N → Changed N K)
    (mid : List (Ins N K)) : Ins N K → Option (Arith N × Ins N K × Option (Ins N K))
  | .arith next =>
    if next.opcode = opcode ∧ sameOpWithConst ins next then (oprtn ins mid next).map fun p => (next, p)
    else none
  | _ => none

/-- the instruction at which the search stops -/
def stopAt (ins : Arith N) (opcode2 : Option Opcode) (mid rest : List (Ins N K)) : Ins N K → Pair N K
  | .arith b => if some b.opcode = opcode2 ∧ sameOpWithConst ins b then .stopper mid b rest else .none
  | _ => .none

/-- `FindInsPair`, behind the instructions `mid` -/
def findInsPair (ins : Arith N) (opcode : Opcode) (opcode2 : Option Opcode)
    (oprtn : Arith N → List (Ins N K) → Arith N → Changed N K) :
    List (Ins N K) → List (Ins N K) → Pair N K
  | _, [] => .none
  | mid, next :: rest =>
    match tryPair ins opcode oprtn mid next with
    | some (b, a', b') => .changed mid b rest a' b'
    | none =>
      if orderDependant (.arith ins) next then stopAt ins opcode2 mid rest next
      else findInsPair ins opcode opcode2 oprtn (mid ++ [next]) rest

/-- a rewrite: behind `front`, the instructions `a`, `mid`, `b` have become `a'`, `mid`, `b'` -/
structure Rewrite (N K : Type) where
  front : List (Ins N K)
  a : Arith N
  mid : List (Ins N K)
  b : Arith N
  a' : Ins N K
  b' : Option (Ins N K)
  rest : List (Ins N K)

def Rewrite.before (r : Rewrite N K) : List (Ins N K) := .arith r.a :: (r.mid ++ [.arith r.b])

def Rewrite.after (r : Rewrite N K) : List (Ins N K) := r.a' :: (r.mid ++ r.b'.toList)

/-- `FindInsPair` without a `stopper` -/
def findOnePair (ins : Arith N) (opcode : Opcode)
    (oprtn : Arith N → List (Ins N K) → Arith N → Changed N K) (rest : List (Ins N K)) :
    Option (Rewrite N K) :=
  match findInsPair orderDependant ins opcode .none oprtn [] rest with
  | .changed mid b rest a' b' => some ⟨[], ins, mid, b, a', b', rest⟩
  | _ => none

/-- `FindInsTriple` -/
def findInsTriple (ins : Arith N) (opcode1 opcode2 : Opcode)
    (op1rtn op2rtn : Arith N → List (Ins N K) → Arith N → Changed N K)
    (op12rtn op121rtn : Arith N → Arith N → Changed N K) (rest : List (Ins N K)) :
    Option (Rewrite N K) :=
  match findInsPair orderDependant ins opcode1 (some opcode2) op1rtn [] rest with
  | .none => none
  | .changed mid b rest a' b' => some ⟨[], ins, mid, b, a', b', rest⟩
  | .stopper mid ins2 rest2 =>
    match findInsPair orderDependant ins2 opcode2 (some opcode1) op2rtn [] rest2 with
    | .changed mid2 b rest3 a' b' =>
      some ⟨.arith ins :: mid, ins2, mid2, b, a', b', rest3⟩
    | .none => (op12rtn ins ins2).map fun p => ⟨[], ins, mid, ins2, p.1, p.2, rest2⟩
    | .stopper _ _ _ => (op121rtn ins ins2).map fun p => ⟨[], ins, mid, ins2, p.1, p.2, rest2⟩

/-- `LRShift`, `RLShift` and `Nop3` -/
def noChange (_ _ : Arith N) : Changed N K := none

/-- `DoArithmeticOps` at the first instruction -/
def doArithmeticOps : List (Ins N K) → Option (Rewrite N K)
  | .arith ins :: rest =>
    if ins.type.length = .b8 then none
    else if opConst ins = false then none
    else
      match ins.opcode with
      | .add => findOnePair orderDependant ins .add (doAdd orderDependant insChangeable) rest
      | .sub => findOnePair orderDependant ins .sub (doAdd orderDependant insChangeable) rest
      | .mul => findOnePair orderDependant ins .mul (doMul orderDependant insChangeable) rest
      | .and =>
        findInsTriple orderDependant ins .and .or (doAnd orderDependant insChangeable)
          (doOr orderDependant insChangeable) (andOr insChangeable) (andOrAnd insChangeable) rest
      | .or =>
        findInsTriple orderDependant ins .or .and (doOr orderDependant insChangeable)
          (doAnd orderDependant insChangeable) (orAnd insChangeable) (orAndOr insChangeable) rest
      | .lshift =>
        findInsTriple orderDependant ins .lshift .rshift (doLShift orderDependant insChangeable)
          (doRShift orderDependant insChangeable) noChange noChange rest
      | .rshift =>
        findInsTriple orderDependant ins .rshift .lshift (doRShift orderDependant insChangeable)
          (doLShift orderDependant insChangeable) noChange noChange rest
  | _ => none

end

/-! ## what the instructions do -/

/-- an operation in the width of its type; a shift count is masked to 5 bits -/
def alu (opcode : Opcode) (type : IntType) (x c : BitVec 32) : BitVec 32 :=
  let x := x.setWidth type.bits
  let d := c.setWidth type.bits
  let r := match opcode with
    | .add => x + d
    | .sub => x - d
    | .mul => x * d
    | .and => x &&& d
    | .or => x ||| d
    | .lshift => x <<< (c.toNat % 32)
    | .rshift => if type.signed then x.sshiftRight (c.toNat % 32) else x >>> (c.toNat % 32)
  r.setWidth 32

/-- the names of a block: a word fits a name when it has no bits beyond its size -/
structure Names (N σ : Type) extends Store N σ (BitVec 32) where
  size : N → Width
  fits_iff : ∀ n v, Fits n v ↔ v.toNat < 2 ^ (8 * (size n).bytes)

section
variable {N K σ : Type} (st : Names N σ) (otherEffect : K → σ → σ)

def Operand.value (s : σ) : Operand N → BitVec 32
  | .name n => st.get n s
  | .const c => c

def exec : Ins N K → σ → σ
  | .arith i, s => st.set i.result (alu i.opcode i.type (i.op0.value st s) (i.op1.value st s)) s
  | .mov type c result, s => st.set result ((c.setWidth type.bits).setWidth 32) s
  | .other k, s => otherEffect k s

end

end Cg
