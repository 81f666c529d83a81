import OpenWatcom.Watcom.I64

/-!
# Expressions of `#if`

* `Token`, `PpValue`, `Pp`   tokens with their precedences, operands, and the state of the parser;
* `checkToken`, `ppNextToken`, `cOperand`   reading;
* `cLeftParen`, `cConditional`, `cUnary`, `reduceBinary`   the reductions, `cExpr` their table;
* `loopStep`, `loop`, `precedenceParse`   the shift and reduce loop of `PrecedenceParse`.

The result is `none` where the source would call through a word outside of the table `CExpr` or
use an operator that it did not pop.
-/

namespace PpExpn
open I64

/-! ## tokens -/

/-- the types of constants that `COperand` tells apart -/
inductive ConstType where
  | float
  | double
  | longDouble
  | wchar
  | uchar
  | ushort
  | uint
  | ulong
  | ulong64
  | signed
deriving DecidableEq, Repr

/-- the token that was scanned; a constant comes with `Constant64` and `ConstType` -/
inductive Token where
  | null
  | start
  | question
  | colon
  | leftParen
  | rightParen
  | tilde
  | eq
  | exclamation
  | ne
  | or
  | orOr
  | xor
  | and
  | andAnd
  | gt
  | ge
  | rshift
  | lt
  | le
  | lshift
  | plus
  | minus
  | times
  | div
  | percent
  | unaryPlus
  | unaryMinus
  /-- the operators without a precedence, such as `,` and `=` -/
  | noPrec
  | id
  | keyword
  | constant (value : U64) (type : ConstType)
  /-- every other token beyond the table of precedences -/
  | other
deriving DecidableEq, Repr

/-- `Prec`; the tokens beyond `LAST_TOKEN_PREC` have no entry -/
def Token.prec : Token → Option Int
  | .null => some (-1)
  | .start => some 0
  | .question => some 4
  | .colon => some 3
  | .leftParen => some 2
  | .rightParen => some 1
  | .tilde => some 15
  | .eq => some 10
  | .exclamation => some 15
  | .ne => some 10
  | .or => some 7
  | .orOr => some 5
  | .xor => some 8
  | .and => some 9
  | .andAnd => some 6
  | .gt => some 11
  | .ge => some 11
  | .rshift => some 12
  | .lt => some 11
  | .le => some 11
  | .lshift => some 12
  | .plus => some 13
  | .minus => some 13
  | .times => some 14
  | .div => some 14
  | .percent => some 14
  | .unaryPlus => some 15
  | .unaryMinus => some 15
  | .noPrec => some (-1)
  | .id => none
  | .keyword => none
  | .constant _ _ => none
  | .other => none

/-- `IS_OPERAND` -/
def Token.isOperand : Token → Bool
  | .id => true
  | .keyword => true
  | .constant _ _ => true
  | _ => false

/-! ## the state -/

/-- `ppvalue` -/
structure PpValue where
  u : U64
  noSign : Bool
deriving DecidableEq, Repr

/-- the messages that count as errors -/
inductive Err where
  | consecutiveOperands
  | exprMustBeIntegral
  | undefdMacroIsZero
  | unmatchedRightParen
  | unmatchedLeftParen
  | emptyParen
  | conditionalMissingColon
  | conditionalMissingQuestion
  | conditionalMissingFirstOperand
  | conditionalMissingSecondOperand
  | conditionalMissingThirdOperand
  | binaryMissingLeftOperand (token : Token)
  | binaryMissingRightOperand (token : Token)
  | unaryOperatorMissingOperand (token : Token)
  | unexpectedInConstantExpression (token : Token)
  | extraOperand
deriving DecidableEq, Repr

/-- an entry of the operator stack -/
structure Operator where
  token : Token
  pos : Nat
  prec : Int

/-- the parser: `CurToken`, the tokens behind it, `Pos`, both stacks and the errors reported -/
structure Pp where
  cur : Token
  input : List Token
  pos : Nat
  operands : List (PpValue × Nat)
  operators : List Operator
  errs : List Err

def Pp.report (s : Pp) (e : Err) : Pp := { s with errs := s.errs ++ [e] }

def pushOperand (s : Pp) (p : PpValue) (pos : Nat) : Pp :=
  { s with operands := (p, pos) :: s.operands }

def pushOperator (s : Pp) (op : Operator) : Pp := { s with operators := op :: s.operators }

/-- `PushCurToken` -/
def pushCurToken (s : Pp) (prec : Int) : Pp := pushOperator s ⟨s.cur, s.pos, prec⟩

/-! ## reading -/

/-- `CheckToken` -/
def checkToken (prev : Token) (s : Pp) : Bool × Pp :=
  if prev.isOperand ∧ s.cur.isOperand then (true, s.report .consecutiveOperands)
  else if (s.cur = .plus ∨ s.cur = .minus) ∧
      (prev ≠ .rightParen ∧ (prev.isOperand = false ∨ prev = .start)) then
    (false, { s with cur := if s.cur = .plus then .unaryPlus else .unaryMinus })
  else (false, s)

/-- `NextToken`; behind the last token of the line there is `T_NULL` -/
def nextToken (s : Pp) : Pp :=
  match s.input with
  | [] => { s with cur := .null }
  | t :: input => { s with cur := t, input := input }

/-- `PpNextToken` -/
def ppNextToken (s : Pp) : Bool × Pp :=
  checkToken s.cur { nextToken s with pos := s.pos + 1 }

/-- the types that make a constant unsigned -/
def ConstType.isUnsigned : ConstType → Bool
  | .wchar => true
  | .uchar => true
  | .ushort => true
  | .uint => true
  | .ulong => true
  | .ulong64 => true
  | _ => false

def ConstType.isFloating : ConstType → Bool
  | .float => true
  | .double => true
  | .longDouble => true
  | _ => false

/-- `COperand`; an identifier is taken for one that is not a macro -/
def cOperand (s : Pp) : Bool × Pp :=
  match s.cur with
  | .id => ppNextToken (pushOperand { s with pos := s.pos + 1 } ⟨0, false⟩ s.pos)
  | .constant value type =>
    if type.isFloating then (true, s.report .exprMustBeIntegral)
    else ppNextToken (pushOperand s ⟨value, type.isUnsigned⟩ s.pos)
  | _ => ppNextToken (pushOperand (s.report .undefdMacroIsZero) ⟨0, false⟩ s.pos)

/-! ## reductions -/

/-- `CRightParen` -/
def cRightParen (s : Pp) : Bool × Pp :=
  match s.operators with
  | [] => (false, s)
  | _ :: ops => (false, { s with operators := ops }.report .unmatchedRightParen)

/-- `CLeftParen` -/
def cLeftParen (s : Pp) : Option (Bool × Pp) :=
  match s.operators with
  | [] => none
  | left :: ops =>
    let s := { s with operators := ops }
    if s.cur ≠ .rightParen then some (true, s.report .unmatchedLeftParen)
    else
      match s.operands with
      | (e1, p1) :: es =>
        if p1 < s.pos ∧ p1 > left.pos then
          some (ppNextToken (pushOperand { s with operands := es } e1 p1))
        else some (true, { s with operands := es }.report .emptyParen)
      | [] => some (true, s.report .emptyParen)

/-- the operands of `e1 ? e2 : e3` between its operators -/
def condOperands (s : Pp) (op1 op2 : Operator) : Bool × Pp :=
  match s.operands with
  | (e3, p3) :: es =>
    let s := { s with operands := es }
    if p3 > op2.pos then
      match s.operands with
      | (e2, p2) :: es =>
        let s := { s with operands := es }
        if p2 < op2.pos ∧ p2 > op1.pos then
          match s.operands with
          | (e1, p1) :: es =>
            let s := { s with operands := es }
            if p1 < op1.pos then
              (false, pushOperand s ⟨if u64IsntZero e1.u then e2.u else e3.u,
                e2.noSign || e3.noSign⟩ p1)
            else (true, s.report .conditionalMissingFirstOperand)
          | [] => (true, s.report .conditionalMissingFirstOperand)
        else (true, s.report .conditionalMissingSecondOperand)
      | [] => (true, s.report .conditionalMissingSecondOperand)
    else (true, s.report .conditionalMissingThirdOperand)
  | [] => (true, s.report .conditionalMissingThirdOperand)

/-- `PushCurToken( Prec[CurToken] )` -/
def shiftCurToken (s : Pp) : Option (Bool × Pp) :=
  s.cur.prec.map fun prec => ppNextToken (pushCurToken s prec)

/-- `CConditional` -/
def cConditional (s : Pp) : Option (Bool × Pp) :=
  match s.operators with
  | [] => none
  | op2 :: ops =>
    let s := { s with operators := ops }
    if op2.token ≠ .colon then
      if (op2.token ≠ .question ∧ op2.token ≠ .start) ∨ s.cur = .null then
        some (true, s.report .conditionalMissingColon)
      else shiftCurToken (pushOperator s op2)
    else
      match s.operators with
      | [] => none
      | op1 :: ops =>
        let s := { s with operators := ops }
        if op1.token ≠ .question then
          if (op1.token ≠ .colon ∧ op1.token ≠ .start) ∨ s.cur = .null then
            some (true, s.report .conditionalMissingQuestion)
          else shiftCurToken (pushOperator (pushOperator s op1) op2)
        else some (condOperands s op1 op2)

/-- `Binary`: the operator, its two operands and its position -/
def binary (s : Pp) : Option (Option (Token × PpValue × PpValue × Nat) × Pp) :=
  match s.operators with
  | [] => none
  | op :: ops =>
    let s := { s with operators := ops }
    match s.operands with
    | (e2, p2) :: es =>
      let s := { s with operands := es }
      if p2 > op.pos then
        match s.operands with
        | (e1, p1) :: es =>
          let s := { s with operands := es }
          if p1 < op.pos then some (some (op.token, e1, e2, op.pos), s)
          else some (none, s.report (.binaryMissingLeftOperand op.token))
        | [] => some (none, s.report (.binaryMissingLeftOperand op.token))
      else some (none, s.report (.binaryMissingRightOperand op.token))
    | [] => some (none, s.report (.binaryMissingRightOperand op.token))

/-- what all reductions of binary operators share -/
def reduceBinary (f : Token → PpValue → PpValue → PpValue) (s : Pp) : Option (Bool × Pp) :=
  (binary s).map fun r =>
    match r.1 with
    | some (token, e1, e2, loc) => (false, pushOperand r.2 (f token e1 e2) loc)
    | none => (true, r.2)

def logicalOr (_ : Token) (e1 e2 : PpValue) : PpValue :=
  ⟨ofBool (u64IsntZero e1.u || u64IsntZero e2.u), false⟩

def logicalAnd (_ : Token) (e1 e2 : PpValue) : PpValue :=
  ⟨ofBool (u64IsntZero e1.u && u64IsntZero e2.u), false⟩

def bitOr (_ : Token) (e1 e2 : PpValue) : PpValue :=
  ⟨u64Or e1.u e2.u, e1.noSign || e2.noSign⟩

def bitXor (_ : Token) (e1 e2 : PpValue) : PpValue :=
  ⟨u64Xor e1.u e2.u, e1.noSign || e2.noSign⟩

def bitAnd (_ : Token) (e1 e2 : PpValue) : PpValue :=
  ⟨u64And e1.u e2.u, e1.noSign || e2.noSign⟩

def equality (token : Token) (e1 e2 : PpValue) : PpValue :=
  let eq := u64IsEq e1.u e2.u
  ⟨ofBool (if token = .eq then eq else !eq), false⟩

def relational (token : Token) (e1 e2 : PpValue) : PpValue :=
  let cmp := if e1.noSign || e2.noSign then u64Cmp e1.u e2.u else i64Cmp e1.u e2.u
  ⟨match token with
    | .lt => ofBool (cmp < 0)
    | .le => ofBool (cmp ≤ 0)
    | .gt => ofBool (cmp > 0)
    | .ge => ofBool (cmp ≥ 0)
    | _ => e1.u, false⟩

def shift (token : Token) (e1 e2 : PpValue) : PpValue :=
  ⟨match token with
    | .rshift =>
      if u64CmpU32 e2.u 64 ≥ 0 then
        if e1.noSign = false ∧ i64IsNeg e1.u then -1 else 0
      else if u64IsntZero e2.u then
        if e1.noSign then u64ShiftR e1.u (lo e2.u).toNat else i64ShiftR e1.u (lo e2.u).toNat
      else e1.u
    | .lshift =>
      if u64CmpU32 e2.u 64 ≥ 0 then 0
      else if u64IsntZero e2.u then u64ShiftL e1.u (lo e2.u).toNat
      else e1.u
    | _ => e1.u, e1.noSign⟩

def additive (token : Token) (e1 e2 : PpValue) : PpValue :=
  match token with
  | .plus => ⟨u64Add e1.u e2.u, e1.noSign || e2.noSign⟩
  | .minus => ⟨u64Sub e1.u e2.u, false⟩
  | _ => e1

def multiplicative (token : Token) (e1 e2 : PpValue) : PpValue :=
  ⟨match token with
    | .times => u64Mul e1.u e2.u
    | .div =>
      if u64IsZero e2.u then 0
      else if e1.noSign || e2.noSign then (u64Div e1.u e2.u).1
      else (i64Div e1.u e2.u).1
    | .percent =>
      if u64IsZero e2.u then 0
      else if e1.noSign || e2.noSign then (u64Div e1.u e2.u).2
      else (i64Div e1.u e2.u).2
    | _ => e1.u, e1.noSign || e2.noSign⟩

def cLogicalOr := reduceBinary logicalOr
def cLogicalAnd := reduceBinary logicalAnd
def cOr := reduceBinary bitOr
def cXOr := reduceBinary bitXor
def cAnd := reduceBinary bitAnd
def cEquality := reduceBinary equality
def cRelational := reduceBinary relational
def cShift := reduceBinary shift
def cAdditive := reduceBinary additive
def cMultiplicative := reduceBinary multiplicative

/-- the value of a unary operator -/
def unary (token : Token) (p : PpValue) : PpValue :=
  match token with
  | .unaryPlus => p
  | .unaryMinus => ⟨u64Neg p.u, p.noSign⟩
  | .exclamation => ⟨ofBool (u64IsZero p.u), false⟩
  | .tilde => ⟨u64Not p.u, p.noSign⟩
  | _ => p

/-- `CUnary` -/
def cUnary (s : Pp) : Option (Bool × Pp) :=
  match s.operators with
  | [] => none
  | top :: ops =>
    let s := { s with operators := ops }
    match s.operands with
    | (p, pos) :: es =>
      let s := { s with operands := es }
      if top.pos < pos then some (false, pushOperand s (unary top.token p) top.pos)
      else some (true, s.report (.unaryOperatorMissingOperand top.token))
    | [] => some (true, s.report (.unaryOperatorMissingOperand top.token))

/-- `CStart` -/
def cStart (s : Pp) : Bool × Pp :=
  let s := { s with operators := s.operators.tail }
  (true, if s.cur ≠ .null then s.report (.unexpectedInConstantExpression s.cur) else s)

/-- the table `CExpr` -/
def cExpr (prec : Int) (s : Pp) : Option (Bool × Pp) :=
  if prec = 0 then some (cStart s)
  else if prec = 1 then some (cRightParen s)
  else if prec = 2 then cLeftParen s
  else if prec = 3 then cConditional s
  else if prec = 4 then cConditional s
  else if prec = 5 then cLogicalOr s
  else if prec = 6 then cLogicalAnd s
  else if prec = 7 then cOr s
  else if prec = 8 then cXOr s
  else if prec = 9 then cAnd s
  else if prec = 10 then cEquality s
  else if prec = 11 then cRelational s
  else if prec = 12 then cShift s
  else if prec = 13 then cAdditive s
  else if prec = 14 then cMultiplicative s
  else if prec = 15 then cUnary s
  else none

/-! ## the loop -/

/-- one round of the loop of `PrecedenceParse`, with `done` -/
def loopStep (s : Pp) : Option (Bool × Pp) :=
  if s.cur.isOperand then some (cOperand s)
  else if s.cur = .leftParen then some (ppNextToken (pushCurToken s 2))
  else
    match s.operators, s.cur.prec with
    | [], _ => none
    | _ :: _, none => some (true, s.report (.unexpectedInConstantExpression s.cur))
    | top :: _, some precToken =>
      if precToken < top.prec ∨ (precToken = top.prec ∧ precToken ≠ 15) then cExpr top.prec s
      else some (ppNextToken (pushCurToken s precToken))

/-- the loop of `PrecedenceParse` -/
def loop : Nat → Pp → Option Pp
  | 0, _ => none
  | n + 1, s =>
    match loopStep s with
    | none => none
    | some (true, s) => some s
    | some (false, s) => loop n s

/-- what `PrecedenceParse` leaves in `*p`, and its errors -/
def precedenceParse (tokens : List Token) : Option (PpValue × List Err) :=
  let s := nextToken ⟨.null, tokens, 0, [], [], []⟩
  if s.cur = .null then some (⟨0, false⟩, [.unexpectedInConstantExpression .null])
  else
    let s := (checkToken .start { pushOperator s ⟨.start, 0, 0⟩ with pos := 1 }).2
    (loop (2 * tokens.length + 2) s).map fun s =>
      if s.errs = [] then
        match s.operands with
        | [] => (⟨0, false⟩, [])
        | [(p, _)] => (p, [])
        | (p, _) :: _ :: _ => (p, [.extraOperand])
      else (⟨0, false⟩, s.errs)

end PpExpn
