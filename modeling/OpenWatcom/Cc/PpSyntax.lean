import OpenWatcom.Cc.PpExpn

/-!
# What C makes of a `#if` expression

* `Expr`, `Expr.tokens`   expressions and how they are written;
* `Expr.WellFormed`       operands bind at least as tightly as the grammar asks;
* `Expr.isUnsigned`, `Expr.value`   the type and the value that C gives an expression, where an
  undefined operation (a division by zero, a shift by 64 or more) gives none.
-/

namespace PpExpn
open I64

/-- unary operators -/
inductive UnOp where
  | plus
  | minus
  | lnot
  | tilde
deriving DecidableEq, Repr

/-- binary operators -/
inductive BinOp where
  | orOr
  | andAnd
  | or
  | xor
  | and
  | eq
  | ne
  | lt
  | le
  | gt
  | ge
  | lshift
  | rshift
  | plus
  | minus
  | times
  | div
  | percent
deriving DecidableEq, Repr

inductive Expr where
  | const (value : U64) (type : ConstType)
  | paren (e : Expr)
  | unary (op : UnOp) (e : Expr)
  | binary (op : BinOp) (a b : Expr)
  | cond (c a b : Expr)

/-! ## how it is written -/

/-- the token of a unary operator, before the parser tells it from the binary one -/
def UnOp.token : UnOp → Token
  | .plus => .plus
  | .minus => .minus
  | .lnot => .exclamation
  | .tilde => .tilde

def BinOp.token : BinOp → Token
  | .orOr => .orOr
  | .andAnd => .andAnd
  | .or => .or
  | .xor => .xor
  | .and => .and
  | .eq => .eq
  | .ne => .ne
  | .lt => .lt
  | .le => .le
  | .gt => .gt
  | .ge => .ge
  | .lshift => .lshift
  | .rshift => .rshift
  | .plus => .plus
  | .minus => .minus
  | .times => .times
  | .div => .div
  | .percent => .percent

/-- the level of a binary operator in the grammar of C -/
def BinOp.level : BinOp → Int
  | .orOr => 5
  | .andAnd => 6
  | .or => 7
  | .xor => 8
  | .and => 9
  | .eq => 10
  | .ne => 10
  | .lt => 11
  | .le => 11
  | .gt => 11
  | .ge => 11
  | .lshift => 12
  | .rshift => 12
  | .plus => 13
  | .minus => 13
  | .times => 14
  | .div => 14
  | .percent => 14

def Expr.tokens : Expr → List Token
  | .const value type => [.constant value type]
  | .paren e => .leftParen :: (e.tokens ++ [.rightParen])
  | .unary op e => op.token :: e.tokens
  | .binary op a b => a.tokens ++ op.token :: b.tokens
  | .cond c a b => c.tokens ++ .question :: (a.tokens ++ .colon :: b.tokens)

/-- how tightly an expression holds together: primary expressions are at level 16 -/
def Expr.level : Expr → Int
  | .const _ _ => 16
  | .paren _ => 16
  | .unary _ _ => 15
  | .binary op _ _ => op.level
  | .cond _ _ _ => 4

/-- the expression is built as the grammar builds it: binary operators associate to the left, the
condition of `?:` binds tighter, and constants are integers -/
def Expr.WellFormed : Expr → Prop
  | .const _ type => type.isFloating = false
  | .paren e => e.WellFormed
  | .unary _ e => e.WellFormed ∧ 15 ≤ e.level
  | .binary op a b => a.WellFormed ∧ b.WellFormed ∧ op.level ≤ a.level ∧ op.level < b.level
  | .cond c a b => c.WellFormed ∧ a.WellFormed ∧ b.WellFormed ∧ 5 ≤ c.level

instance Expr.decWellFormed : (e : Expr) → Decidable e.WellFormed
  | .const _ type => inferInstanceAs (Decidable (type.isFloating = false))
  | .paren e => Expr.decWellFormed e
  | .unary _ e =>
    have := Expr.decWellFormed e
    inferInstanceAs (Decidable (e.WellFormed ∧ 15 ≤ e.level))
  | .binary op a b =>
    have := Expr.decWellFormed a
    have := Expr.decWellFormed b
    inferInstanceAs (Decidable (a.WellFormed ∧ b.WellFormed ∧ op.level ≤ a.level ∧
      op.level < b.level))
  | .cond c a b =>
    have := Expr.decWellFormed c
    have := Expr.decWellFormed a
    have := Expr.decWellFormed b
    inferInstanceAs (Decidable (c.WellFormed ∧ a.WellFormed ∧ b.WellFormed ∧ 5 ≤ c.level))

/-! ## what it means -/

/-- the operators whose result is unsigned when an operand is -/
def BinOp.arithmetic : BinOp → Bool
  | .or => true
  | .xor => true
  | .and => true
  | .plus => true
  | .minus => true
  | .times => true
  | .div => true
  | .percent => true
  | _ => false

def BinOp.isShift : BinOp → Bool
  | .lshift => true
  | .rshift => true
  | _ => false

/-- the expression has the unsigned type -/
def Expr.isUnsigned : Expr → Bool
  | .const _ type => type.isUnsigned
  | .paren e => e.isUnsigned
  | .unary op e => op ≠ .lnot && e.isUnsigned
  | .binary op a b =>
    if op.arithmetic then a.isUnsigned || b.isUnsigned
    else if op.isShift then a.isUnsigned
    else false
  | .cond _ a b => a.isUnsigned || b.isUnsigned

/-- the number that a bit pattern stands for -/
def num (isUnsigned : Bool) (v : U64) : Int := if isUnsigned then (v.toNat : Int) else v.toInt

/-- a truth value as an `int` -/
def truth (b : Bool) : U64 := if b then 1 else 0

/-- the value of `a op b`, where `u` and `w` tell whether the operands are unsigned; the operators
that look at their left operand first are not here -/
def BinOp.value (op : BinOp) (u w : Bool) (a b : U64) : Option U64 :=
  match op with
  | .orOr => some (truth (a ≠ 0 || b ≠ 0))
  | .andAnd => some (truth (a ≠ 0 && b ≠ 0))
  | .or => some (a ||| b)
  | .xor => some (a ^^^ b)
  | .and => some (a &&& b)
  | .eq => some (truth (a = b))
  | .ne => some (truth (a ≠ b))
  | .lt => some (truth (num (u || w) a < num (u || w) b))
  | .le => some (truth (num (u || w) a ≤ num (u || w) b))
  | .gt => some (truth (num (u || w) a > num (u || w) b))
  | .ge => some (truth (num (u || w) a ≥ num (u || w) b))
  | .lshift =>
    if 0 ≤ num w b ∧ num w b < 64 then some (BitVec.ofInt 64 (num u a * 2 ^ b.toNat)) else none
  | .rshift =>
    if 0 ≤ num w b ∧ num w b < 64 then some (BitVec.ofInt 64 (num u a / 2 ^ b.toNat)) else none
  | .plus => some (BitVec.ofInt 64 (num (u || w) a + num (u || w) b))
  | .minus => some (BitVec.ofInt 64 (num (u || w) a - num (u || w) b))
  | .times => some (BitVec.ofInt 64 (num (u || w) a * num (u || w) b))
  | .div =>
    if b = 0 then none else some (BitVec.ofInt 64 ((num (u || w) a).tdiv (num (u || w) b)))
  | .percent =>
    if b = 0 then none else some (BitVec.ofInt 64 ((num (u || w) a).tmod (num (u || w) b)))

/-- the value of an expression as 64 bits -/
def Expr.value : Expr → Option U64
  | .const v _ => some v
  | .paren e => e.value
  | .unary .plus e => e.value
  | .unary .minus e => e.value.map fun v => BitVec.ofInt 64 (-num e.isUnsigned v)
  | .unary .lnot e => e.value.map fun v => truth (v = 0)
  | .unary .tilde e => e.value.map fun v => ~~~v
  -- the right operand of `||` and `&&` is not looked at when the left one decides
  | .binary .orOr a b => a.value.bind fun v => if v ≠ 0 then some 1 else b.value.map fun w => truth (w ≠ 0)
  | .binary .andAnd a b =>
    a.value.bind fun v => if v = 0 then some 0 else b.value.map fun w => truth (w ≠ 0)
  | .binary op a b =>
    a.value.bind fun v => b.value.bind fun w => op.value a.isUnsigned b.isUnsigned v w
  | .cond c a b => c.value.bind fun v => if v ≠ 0 then a.value else b.value

end PpExpn
