import OpenWatcom.Lib.Overlap
import OpenWatcom.Yacc.Automaton

/-!
# The tables of the fast parser

* `genobjFast`   bit rows and action rows laid over one another, as the generator builds them;
* `validBit`, `rawAction`, `decodeAction`, `gotoEntry`   how the driver reads the tables.
-/

namespace Yacc

open BitRows Overlap

/-- `action_n`; 0 is no action -/
abbrev ActionN := BitVec 16

def actionNone : ActionN := 0
def actionMask : ActionN := 0x3FFF
/-- `ACTION_FLAG_1` -/
def actionUnit : ActionN := 0x4000
/-- `ACTION_FLAG_2` -/
def actionReduce : ActionN := 0x8000

structure FastTables where
  defaction : List ActionN
  bitbase : List Nat
  bitcheck : List (BitVec 8)
  actionbase : List Nat
  gotobase : List Nat
  actiontab : List ActionN

/-! ## rows -/

/-- values stored at positions of a row, `none` when one is outside of it -/
def setEntry (row : List ActionN) (e : Nat × ActionN) : Option (List ActionN) :=
  if e.1 < row.length then some (row.set e.1 e.2) else none

/-- state numbers in the entries, `ACTION_REDUCE`, `ACTION_UNIT` and rule numbers -/
def encodeAction : Action → ActionN
  | .shift state => BitVec.ofNat 16 state
  | .reduce pro unit =>
    (if unit then actionReduce ||| actionUnit else actionReduce) ||| BitVec.ofNat 16 pro

/-- the entries of a row that hold an action, with their positions -/
def actcompress (row : List ActionN) : List (ActionN × Nat) :=
  row.zipIdx.filter fun c => c.1 ≠ actionNone

namespace Automaton
variable (A : Automaton)

/-- one more than the largest token, in a `token_n` -/
def firstNonTerminalTokenValue : Nat :=
  let ntoken := (List.range A.nterm).foldl (fun n sym => if n < A.token sym then A.token sym else n) 0
  if A.nterm > 0 then (ntoken + 1) % 2 ^ 16 else ntoken

def ntokenAll : Nat := A.firstNonTerminalTokenValue + (A.nsym - A.nterm)

/-- the token given to a symbol; those of non-terminals follow the tokens of the terminals -/
def symToken (sym : Nat) : Nat :=
  if sym < A.nterm then A.token sym else (A.firstNonTerminalTokenValue + (sym - A.nterm)) % 2 ^ 16

/-- the tokens of the explicit actions of a state -/
def explicitTokens (q : State) : List Nat := (A.explicits q).map fun e => A.symToken e.1

def vsize : Nat := (A.firstNonTerminalTokenValue + (8 - 1)) / 8

def stateVector (q : State) : Option (List (BitVec 8)) :=
  setBits (List.replicate A.vsize 0) (A.explicitTokens q)

def stateActions (q : State) : Option (List ActionN) :=
  ((A.explicits q).map fun e => (A.symToken e.1, encodeAction e.2)).foldlM setEntry
    (List.replicate A.firstNonTerminalTokenValue actionNone)

def stateGotos (q : State) : Option (List ActionN) :=
  ((A.gotos q).map fun e => (A.symToken e.1, BitVec.ofNat 16 e.2)).foldlM setEntry
    (List.replicate A.ntokenAll actionNone)

/-- the last default action of a state that is stored, if there is one -/
def defaultAction (q : State) : ActionN :=
  let shifts := (q.trans.filter fun s => s.sym < A.nterm ∧ s.isDefault).map fun s => Action.shift s.state
  let reduces := (q.redun.zipIdx.filter fun r => q.defaultReduction = some r.2).map fun r =>
    Action.reduce r.1.pro (A.isUnit q r.1.pro)
  ((shifts ++ reduces).getLast?.map encodeAction).getD 0

end Automaton

/-! ## the order of the rows -/

/-- `av_info` -/
structure AvInfo where
  numEntries : Nat
  min : Nat
  max : Nat
  index : Nat
  actionVector : List ActionN

def avInfo (row : List ActionN × Nat) : AvInfo :=
  let ca := actcompress row.1
  { numEntries := ca.length
    min := (ca.head?.map Prod.snd).getD row.1.length
    max := (ca.getLast?.map Prod.snd).getD 0
    index := row.2
    actionVector := row.1 }

/-- `cmp_action` is not positive; `token_n` numbers are compared -/
def cmpAction (s1 s2 : AvInfo) : Bool :=
  let w := 2 ^ 16
  let span (s : AvInfo) := if s.numEntries % w = 0 then 0 else (s.max % w + (w - s.min % w) + 1) % w
  if span s1 ≠ span s2 then span s2 < span s1
  else if s1.numEntries % w ≠ s2.numEntries % w then s1.numEntries % w < s2.numEntries % w
  else if s1.max % w ≠ s2.max % w then s1.max % w < s2.max % w
  else s2.index ≤ s1.index

def orderActionVectors (rows : List (List ActionN)) : List AvInfo :=
  (rows.zipIdx.map avInfo).mergeSort cmpAction

/-! ## the tables -/

/-- bit rows one after the other: the vector and the bases -/
def bitRows (bv : List (BitVec 8)) : List (List (BitVec 8)) → List (BitVec 8) × List Nat
  | [] => (bv, [])
  | v :: vs =>
    let r := insertRow bv v
    let s := bitRows r.1 vs
    (s.1, r.2 :: s.2)

/-- `base[mapping[i]] = places[i]` -/
def scatter (n : Nat) (mapping places : List Nat) : List Nat :=
  (mapping.zip places).foldl (fun base p => base.set p.1 p.2) (List.replicate n 0)

def rowsOf (order : List AvInfo) (ntoken : Nat) : List (List (ActionN × Nat) × Nat) :=
  order.map fun p => (actcompress p.actionVector, ntoken)

/-- `none`: an entry is stored outside of a row -/
def genobjFast (A : Automaton) : Option FastTables := do
  let vectors ← A.states.mapM A.stateVector
  let actions ← A.states.mapM A.stateActions
  let gotos ← A.states.mapM A.stateGotos
  let bits := bitRows [] vectors
  let aorder := orderActionVectors actions
  let gorder := orderActionVectors gotos
  let avector := insertAll actionNone [] (rowsOf aorder A.firstNonTerminalTokenValue)
  let gvector := insertAll actionNone avector.1 (rowsOf gorder A.ntokenAll)
  some
    { defaction := A.states.map A.defaultAction
      bitbase := bits.2
      bitcheck := bits.1
      actionbase := scatter A.states.length (aorder.map AvInfo.index) avector.2
      gotobase := scatter A.states.length (gorder.map AvInfo.index) gvector.2
      actiontab := gvector.1 }

/-! ## the driver -/

namespace FastTables
variable (T : FastTables)

/-- `yybitcheck[t / 8 + yybitbase[state]] & mask` -/
def validBit (state t : Nat) : Option Bool := do
  let base ← T.bitbase[state]?
  bitAt T.bitcheck base t

/-- `yyactiontab[t + yyactionbasetab[state]]` -/
def rawAction (state t : Nat) : Option ActionN := do
  let base ← T.actionbase[state]?
  T.actiontab[t + base]?

def gotoEntry (state lhs : Nat) : Option ActionN := do
  let base ← T.gotobase[state]?
  T.actiontab[lhs + base]?

end FastTables

/-- how `normalYYAction` reads an entry -/
def decodeAction (raw : ActionN) : Action :=
  if raw &&& actionReduce = 0 then .shift raw.toNat
  else .reduce (raw &&& actionMask).toNat (raw &&& actionUnit ≠ 0)

end Yacc
