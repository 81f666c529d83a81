import OpenWatcom.Clib.Xtoa

/-!
# Text to numbers: `strtoll`, `strtoull` (strtoll.c), `strtol`, `strtoul` (strtol.c)

A position in a string is what follows it, and the string ends where the list does.  The two files
hold the same function for 64 and for 32 bits.

* `stol`     the function behind the four, for a number of bits
* `Numeral`, `Expected`     the form of the text that the standard prescribes
* `Standard`     the result that it prescribes: the longest text of that form, and its number
-/

namespace Strtol

open Xtoa

/-! ## The code -/

/-- `isspace` -/
def isSpace (c : Char) : Bool := c ∈ ['\t', '\n', '\x0b', '\x0c', '\r', ' ']

/-- `tolower` -/
def toLower (c : Char) : Char :=
  if 'A' ≤ c ∧ c ≤ 'Z' then Char.ofNat (c.toNat + ('a'.toNat - 'A'.toNat)) else c

/-- `radix_value` -/
def radixValue (c : Char) : ℕ :=
  if '0' ≤ c ∧ c ≤ '9' then c.toNat - '0'.toNat
  else
    let c := toLower c
    if 'a' ≤ c ∧ c ≤ 'i' then c.toNat - 'a'.toNat + 10
    else if 'j' ≤ c ∧ c ≤ 'r' then c.toNat - 'j'.toNat + 19
    else if 's' ≤ c ∧ c ≤ 'z' then c.toNat - 's'.toNat + 28
    else 37

/-- `hexstr` -/
def hexStr : List Char → Bool
  | '0' :: c :: _ => c = 'x' ∨ c = 'X'
  | _ => false

/-- `nearly_overflowing` -/
def nearlyOverflowing (bits : ℕ) : List ℕ := (List.range 35).map fun i => (2 ^ bits - 1) / (i + 2)

/-- what the loop changes -/
structure Loop where
  value : ℕ
  overflow : Bool
  p : List Char

/-- one digit of the loop -/
def Loop.step (bits base digit : ℕ) (s : Loop) : Loop :=
  let value := (s.value * base + digit) % 2 ^ bits
  { value := value
    overflow := s.overflow || s.value > (nearlyOverflowing bits).getD (base - 2) 0 || value < s.value
    p := s.p.tail }

/-- the loop over the digits, to the first character that is none -/
def digitLoop (bits base : ℕ) (value : ℕ) (overflow : Bool) : List Char → Loop
  | [] => ⟨value, overflow, []⟩
  | c :: p =>
    if radixValue c ≥ base then ⟨value, overflow, c :: p⟩
    else
      let s := Loop.step bits base (radixValue c) ⟨value, overflow, c :: p⟩
      digitLoop bits base s.value s.overflow p

inductive Errno
  | edom
  | erange
  deriving DecidableEq

/-- the value, as a word, the place of `*endptr`, and `errno` where it is set -/
structure Result where
  value : ℕ
  endptr : List Char
  errno : Option Errno
  deriving DecidableEq

/-- the sign, and what follows it -/
def sign : List Char → Bool × List Char
  | '-' :: p => (true, p)
  | '+' :: p => (false, p)
  | p => (false, p)

/-- the base of the digits -/
def baseOf (base : ℕ) (p : List Char) : ℕ :=
  if base = 0 then if hexStr p then 16 else if p.head? = some '0' then 8 else 10 else base

/-- what follows the prefix of base 16 -/
def skipHex (base : ℕ) (p : List Char) : List Char := if base = 16 ∧ hexStr p then p.drop 2 else p

/-- the end of `_stol`: the sign bit of a signed type, the limits, and the sign -/
def finish (bits : ℕ) (who minus : Bool) (value : ℕ) (overflow : Bool) : ℕ × Option Errno :=
  let overflow := overflow || (who && value ≥ 2 ^ (bits - 1) && !(value = 2 ^ (bits - 1) && minus))
  if overflow then
    (if who then if minus then 2 ^ (bits - 1) else 2 ^ (bits - 1) - 1 else 2 ^ bits - 1, some .erange)
  else (if minus then (2 ^ bits - value) % 2 ^ bits else value, none)

/-- `_stoll` with 64 bits, `_stol` with 32; `who` tells a signed type -/
def stol (bits : ℕ) (nptr : List Char) (base : ℕ) (who : Bool) : Result :=
  let p := nptr.dropWhile isSpace
  let (minus, p) := sign p
  let base := baseOf base p
  if base < 2 ∨ base > 36 then ⟨0, nptr, some .edom⟩
  else
    let startp := skipHex base p
    let s := digitLoop bits base 0 false startp
    let p := if s.p = startp then nptr else s.p
    let (value, errno) := finish bits who minus s.value s.overflow
    ⟨value, p, errno⟩

/-- the four functions -/
inductive Function
  | strtoll
  | strtoull
  | strtol
  | strtoul
  deriving DecidableEq

def Function.bits : Function → ℕ
  | .strtoll => 64
  | .strtoull => 64
  | .strtol => 32
  | .strtoul => 32

/-- the type of the result has a sign -/
def Function.who : Function → Bool
  | .strtoll => true
  | .strtoull => false
  | .strtol => true
  | .strtoul => false

def Function.run (f : Function) (nptr : List Char) (base : ℕ) : Result := stol f.bits nptr base f.who

/-- the number that is returned -/
def Function.number (f : Function) (r : Result) : ℤ :=
  if f.who ∧ r.value ≥ 2 ^ (f.bits - 1) then r.value - 2 ^ f.bits else r.value

/-- `ulltoa` -/
def ulltoa (value radix : ℕ) : List Char := utoa value radix

/-- `lltoa` -/
def lltoa (value : ℤ) (radix : ℕ) : List Char :=
  if radix = 10 ∧ value < 0 then '-' :: ulltoa (-value % 2 ^ 64).toNat radix
  else ulltoa (value % 2 ^ 64).toNat radix

/-! ## The standard -/

/-- the value of a digit or a letter -/
def digitValue (c : Char) : Option ℕ :=
  if c.isDigit then some (c.toNat - '0'.toNat)
  else if c.isLower then some (c.toNat - 'a'.toNat + 10)
  else if c.isUpper then some (c.toNat - 'A'.toNat + 10)
  else none

/-- at least one digit, and nothing but digits of the base -/
def Digits (base : ℕ) (text : List Char) : Prop :=
  text ≠ [] ∧ ∀ c ∈ text, ∃ d, digitValue c = some d ∧ d < base

/-- the number of a sequence of digits, the highest first -/
def valueOf (base : ℕ) (text : List Char) : ℕ :=
  text.foldl (fun n c => n * base + (digitValue c).getD 0) 0

/-- the form of a number without its sign; in base 0 that of an integer constant of the language -/
inductive Numeral : ℕ → List Char → ℕ → Prop
  | digits {base : ℕ} {text : List Char} (hb : 2 ≤ base) (h : Digits base text) :
    Numeral base text (valueOf base text)
  | hex {text : List Char} {x : Char} (hx : x = 'x' ∨ x = 'X') (h : Digits 16 text) :
    Numeral 16 ('0' :: x :: text) (valueOf 16 text)
  | decimal {text : List Char} (h0 : text.head? ≠ some '0') (h : Digits 10 text) :
    Numeral 0 text (valueOf 10 text)
  | octal {text : List Char} (h0 : text.head? = some '0') (h : Digits 8 text) :
    Numeral 0 text (valueOf 8 text)
  | hexConstant {text : List Char} {x : Char} (hx : x = 'x' ∨ x = 'X') (h : Digits 16 text) :
    Numeral 0 ('0' :: x :: text) (valueOf 16 text)

/-- the expected form: an optional sign, and a number -/
inductive Expected (base : ℕ) : List Char → Bool → ℕ → Prop
  | plain {text : List Char} {m : ℕ} (h : Numeral base text m) : Expected base text false m
  | plus {text : List Char} {m : ℕ} (h : Numeral base text m) : Expected base ('+' :: text) false m
  | minus {text : List Char} {m : ℕ} (h : Numeral base text m) : Expected base ('-' :: text) true m

/-- the number that the standard returns for a sign and a magnitude, and whether it is out of range;
an unsigned type negates in the type -/
def Function.returns (f : Function) (minus : Bool) (m : ℕ) : ℤ × Bool :=
  if f.who then
    if minus then if m ≤ 2 ^ (f.bits - 1) then (-m, false) else (-2 ^ (f.bits - 1), true)
    else if m < 2 ^ (f.bits - 1) then (m, false) else (2 ^ (f.bits - 1) - 1, true)
  else if m < 2 ^ f.bits then (if minus then -m % 2 ^ f.bits else m, false)
  else (2 ^ f.bits - 1, true)

/-- the longest text of the expected form after the white space -/
def Longest (base : ℕ) (s text : List Char) (minus : Bool) (m : ℕ) : Prop :=
  text <+: s ∧ Expected base text minus m ∧
    ∀ text' minus' m', text' <+: s → Expected base text' minus' m' → text'.length ≤ text.length

/-- the result that the standard prescribes -/
def Standard (f : Function) (nptr : List Char) (base : ℕ) (r : Result) : Prop :=
  let s := nptr.dropWhile isSpace
  (∃ text minus m, Longest base s text minus m ∧ text ++ r.endptr = s ∧
    f.number r = (f.returns minus m).1 ∧ (r.errno = some .erange ↔ (f.returns minus m).2 = true)) ∨
  ((¬ ∃ text minus m, text <+: s ∧ Expected base text minus m) ∧
    f.number r = 0 ∧ r.endptr = nptr ∧ r.errno ≠ some .erange)

end Strtol
