import Mathlib

/-!
# Decimal floating point numbers

* `CFloat`            sign, exponent and mantissa;
* `cfClean`           what `CFClean` makes of the digits that an operation wrote;
* `cfOrder`, `cfCompare`, `csSum`, `cfAdd`, `cfSub`   `cfmath.c`;
* `sdMul`, `cfMul`    `cfmul.c`;
* `cfTrunc`, `cfRound`, `cfCnvSF`, `cfCnvLongToF` and the conversions on top of it   `cfconv.c`.

Exponents are integers here: where the arithmetic on them leaves the range of an `int` the source is
undefined.
-/


/-- `cfloat`; the length is that of the mantissa, and the digits are numbers -/
structure CFloat where
  exp : Int
  sign : SignType
  mant : List Int
deriving DecidableEq

namespace CFloat

/-- `CF_MAX_PREC` -/
def maxPrec : Nat := 32

/-- `CFAlloc`: a new number is zero -/
def cfAlloc : CFloat := ⟨1, 0, [0]⟩

def len (f : CFloat) : Int := f.mant.length

/-- `CFAccess` -/
def cfAccess (f : CFloat) (index : Int) : Int := f.mant.getD index.toNat 0

/-! ## cfmath.c -/

/-- the loop of `CFOrder` over two mantissas -/
def mantOrder : List Int → List Int → Int
  | d1 :: m1, d2 :: m2 => if d1 ≠ d2 then d1 - d2 else mantOrder m1 m2
  | m1, m2 => (m1.length : Int) - m2.length

/-- `CFOrder` -/
def cfOrder (f1 f2 : CFloat) : Int :=
  let diff := f1.exp - f2.exp
  if diff = 0 then mantOrder f1.mant f2.mant else diff

/-- `CFClean` -/
def cfClean (f : CFloat) : CFloat :=
  let trimmed := f.mant.rdropWhile (· = 0)
  if trimmed = [] ∧ f.mant ≠ [] then cfAlloc
  else
    let mant := trimmed.dropWhile (· = 0)
    let headindex := trimmed.length - mant.length
    { f with exp := f.exp - headindex, mant := mant.take maxPrec }

/-- the loop of `CSSum`: `n` places from `pos` on, with the digits written so far -/
def sumLoop (f1 f2 : CFloat) (arith : Int → Int → Int) :
    Nat → Int → Int → List Int → List Int
  | 0, _, carry, mant => carry :: mant
  | n + 1, pos, carry, mant =>
    let carry :=
      if f1.exp - f1.len < pos ∧ pos ≤ f1.exp then carry + cfAccess f1 (f1.exp - pos) else carry
    let carry :=
      if f2.exp - f2.len < pos ∧ pos ≤ f2.exp then arith carry (cfAccess f2 (f2.exp - pos))
      else carry
    if carry < 0 then sumLoop f1 f2 arith n (pos + 1) (-1) ((carry + 10) :: mant)
    else if carry > 9 then sumLoop f1 f2 arith n (pos + 1) 1 ((carry - 10) :: mant)
    else sumLoop f1 f2 arith n (pos + 1) 0 (carry :: mant)

/-- what `CSSum` gives to `CFClean` -/
def sumDigits (f1 f2 : CFloat) (arith : Int → Int → Int) : CFloat :=
  let farleft := max f1.exp f2.exp
  let farright := min (f1.exp - f1.len) (f2.exp - f2.len)
  ⟨farleft + 1, f1.sign, sumLoop f1 f2 arith (farleft - farright).toNat (farright + 1) 0 []⟩

/-- `CSSum` -/
def csSum (f1 f2 : CFloat) (arith : Int → Int → Int) : CFloat := cfClean (sumDigits f1 f2 arith)

def adder (a b : Int) : Int := a + b
def suber (a b : Int) : Int := a - b

/-- `CFNegate` -/
def cfNegate (f : CFloat) : CFloat := { f with sign := -f.sign }

/-- `CFCopy` -/
def cfCopy (f : CFloat) : CFloat := f

/-- `CFAdd` -/
def cfAdd (f1 f2 : CFloat) : CFloat :=
  match f1.sign, f2.sign with
  | .neg, .neg => csSum f1 f2 adder
  | .pos, .pos => csSum f1 f2 adder
  | .zero, .neg => cfCopy f2
  | .zero, .pos => cfCopy f2
  | .pos, .neg => addOrdered f1 f2
  | .neg, .pos => addOrdered f1 f2
  | .neg, .zero => cfCopy f1
  | .pos, .zero => cfCopy f1
  | .zero, .zero => cfAlloc
where
  /-- different signs -/
  addOrdered (f1 f2 : CFloat) : CFloat :=
    let ord := cfOrder f1 f2
    if ord < 0 then csSum f2 f1 suber
    else if ord > 0 then csSum f1 f2 suber
    else cfAlloc

/-- `CFSub` -/
def cfSub (f1 f2 : CFloat) : CFloat :=
  match f1.sign, f2.sign with
  | .neg, .neg => subOrdered f1 f2
  | .pos, .pos => subOrdered f1 f2
  | .zero, .neg => cfNegate (cfCopy f2)
  | .zero, .pos => cfNegate (cfCopy f2)
  | .pos, .neg => csSum f1 f2 adder
  | .neg, .pos => csSum f1 f2 adder
  | .neg, .zero => cfCopy f1
  | .pos, .zero => cfCopy f1
  | .zero, .zero => cfAlloc
where
  /-- equal signs -/
  subOrdered (f1 f2 : CFloat) : CFloat :=
    let ord := cfOrder f1 f2
    if ord < 0 then cfNegate (csSum f2 f1 suber)
    else if ord > 0 then csSum f1 f2 suber
    else cfAlloc

/-- `CFCompare` -/
def cfCompare (f1 f2 : CFloat) : Int :=
  if f1.sign < f2.sign then -1
  else if f1.sign > f2.sign then 1
  else
    let cmp := cfOrder f1 f2
    if cmp = 0 then 0 else if cmp > 0 then f1.sign else -1 * (f1.sign : Int)

/-- `CFTest` -/
def cfTest (f : CFloat) : Int := f.sign

/-! ## cfmul.c -/

/-- the loop of `SDMul` over the digits from the last one on -/
def mulLoop (plyer : Int) : List Int → Int → List Int → List Int
  | [], sum, mant => sum % 10 :: mant
  | d :: ds, sum, mant =>
    let sum := sum + d * plyer
    mulLoop plyer ds (sum / 10) (sum % 10 :: mant)

/-- what `SDMul` gives to `CFClean`, for `fleft` and `fexp` as `CFMul` has them -/
def mulDigits (f : CFloat) (plyer byexp : Int) : CFloat :=
  ⟨f.exp + byexp, f.sign, mulLoop plyer f.mant.reverse 0 []⟩

/-- `SDMul` -/
def sdMul (f : CFloat) (plyer byexp : Int) : CFloat := cfClean (mulDigits f plyer byexp)

/-- the loop of `CFMul` over the digits of `f2` from the last one on -/
def mulRounds (f1 : CFloat) : List Int → Int → CFloat → CFloat
  | [], _, result => result
  | d :: ds, f2exp, result => mulRounds f1 ds (f2exp + 1) (cfAdd result (sdMul f1 d f2exp))

/-- `CFMul` -/
def cfMul (f1 f2 : CFloat) : CFloat :=
  let sgn := f1.sign * f2.sign
  if sgn ≠ 0 then
    { mulRounds f1 f2.mant.reverse (f2.exp - f2.len + 1) cfAlloc with sign := sgn }
  else cfAlloc

/-! ## cfconv.c -/

/-- `CFTrunc` -/
def cfTrunc (f : CFloat) : CFloat :=
  if f.exp ≤ 0 then cfAlloc
  else if f.len ≤ f.exp then cfCopy f
  else { cfCopy f with mant := f.mant.take f.exp.toNat }

/-- `CFRound` -/
def cfRound (f : CFloat) : CFloat :=
  if f.exp < 0 then cfAlloc
  else if f.len ≤ f.exp then cfCopy f
  else
    let trim := cfTrunc f
    if cfAccess f f.exp < 5 then trim
    else if f.sign < 0 ∧ f.len = f.exp + 1 then trim
    else cfAdd trim { cfAlloc with sign := f.sign, mant := [1] }

/-- the digits that `CFCnvLongToF` takes from `dividend`, in front of `digits` -/
def longDigits : Nat → Nat → List Int → List Int
  | 0, _, digits => digits
  | n + 1, dividend, digits =>
    if dividend ≠ 0 then longDigits n (dividend / 10) ((dividend % 10 : Nat) :: digits) else digits

def maxNegI32 : CFloat := ⟨10, -1, [2, 1, 4, 7, 4, 8, 3, 6, 4, 8]⟩

/-- `CFCnvLongToF`; ten digits are enough for 32 bits -/
def cfCnvLongToF (data : BitVec 32) (isSigned : Bool) : CFloat :=
  if data = 0 then cfAlloc
  else if isSigned ∧ -data = data then cfCopy maxNegI32
  else
    let neg : Bool := isSigned ∧ data.toInt < 0
    let dividend := if neg then -data else data
    let mant := longDigits 10 dividend.toNat []
    cfClean ⟨mant.length, if neg then -1 else 1, mant⟩

/-- `CFCnvI32F` -/
def cfCnvI32F (data : BitVec 32) : CFloat := cfCnvLongToF data true

/-- `CFCnvU32F` -/
def cfCnvU32F (data : BitVec 32) : CFloat := cfCnvLongToF data false

def high64Mult : CFloat := ⟨10, 1, [4, 2, 9, 4, 9, 6, 7, 2, 9, 6]⟩

/-- `CFCnvU64F` -/
def cfCnvU64F (lo32 hi32 : BitVec 32) : CFloat :=
  let lo := cfCnvU32F lo32
  let hi := cfCnvU32F hi32
  let temp := cfMul hi high64Mult
  cfAdd temp lo

/-- `CFCnvI64F` -/
def cfCnvI64F (lo32 hi32 : BitVec 32) : CFloat :=
  if hi32.msb then
    let lo := ~~~lo32 + 1
    let hi := if lo = 0 then ~~~hi32 + 1 else ~~~hi32
    { cfCnvU64F lo hi with sign := -1 }
  else cfCnvU64F lo32 hi32

/-! ### strings -/

/-- `_IsDigit` -/
def isDigit (c : Char) : Bool := '0' ≤ c ∧ c ≤ '9'

/-- the number of a digit -/
def digitOf (c : Char) : Int := (c.toNat : Int) - 48

/-- a number as `signed_16` -/
def toSigned16 (n : Int) : Int := n.bmod (2 ^ 16)

/-- `CFGetDec16` -/
def cfGetDec16 (number : Int) : List Char → Int
  | [] => number
  | c :: str => if isDigit c then cfGetDec16 (toSigned16 (number * 10 + digitOf c)) str else number

/-- the exponent behind the mantissa, added to `expon` -/
def scanExponent (expon : Int) : List Char → Int
  | [] => expon
  | e :: str =>
    if e = 'E' ∨ e = 'e' then
      match str with
      | '-' :: str => expon - cfGetDec16 0 str
      | '+' :: str => expon + cfGetDec16 0 str
      | str => expon + cfGetDec16 0 str
    else expon

/-- what `DoConvert` gives to `CFClean`; nothing when there is no digit -/
def scanNumber (str : List Char) : Option CFloat :=
  let str := str.dropWhile (· = ' ')
  let sgn : SignType := if str.head? = some '-' then -1 else 1
  let str := if str.head? = some '-' ∨ str.head? = some '+' then str.tail else str
  let before := str.takeWhile isDigit
  let str := str.dropWhile isDigit
  let after := if str.head? = some '.' then str.tail.takeWhile isDigit else []
  let str := if str.head? = some '.' then str.tail.dropWhile isDigit else str
  if before ++ after = [] then none
  else some ⟨scanExponent before.length str, sgn, (before ++ after).map digitOf⟩

/-- `CFCnvSF` -/
def cfCnvSF (str : List Char) : CFloat :=
  match scanNumber str with
  | none => cfAlloc
  | some f => cfClean f

example : cfCnvSF "-0012.50e1".toList = ⟨3, -1, [1, 2, 5]⟩ := by decide

example : cfSub (cfCnvI32F 5) (cfCnvSF "7.25".toList) = ⟨1, -1, [2, 2, 5]⟩ := by decide

end CFloat
