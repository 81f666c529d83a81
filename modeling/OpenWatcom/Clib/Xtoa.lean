import OpenWatcom.Lib.Digits

/-!
# Numbers to text: `utoa`, `itoa` (itoa.c)

The loop of `utoa` leaves the remainders in a buffer, the lowest first, and copies them back from
the last one.  `int` has two bytes on the 16-bit targets and four on the others.

* `utoaLoop_eq`     the loop leaves the digits of the value
* `utoa_eq`     the text is the digits, the highest first
-/

namespace Xtoa

open Digits

/-- `__Alphabet` -/
def alphabet : List Char := "0123456789abcdefghijklmnopqrstuvwxyz".toList

/-- `__Alphabet[rem]` -/
def digit (rem : ℕ) : Char := alphabet.getD rem ' '

/-- the `do` loop: the remainders as they are stored -/
def utoaLoop (radix : ℕ) : ℕ → ℕ → List Char
  | 0, _ => []
  | fuel + 1, value =>
    digit (value % radix) ::
      (if value / radix ≠ 0 then utoaLoop radix fuel (value / radix) else [])

/-- `utoa`: as many rounds as the value can need, then the copy from the last one -/
def utoa (value radix : ℕ) : List Char := (utoaLoop radix (value + 1) value).reverse

/-- the size of `int` -/
inductive IntSize
  | two
  | four
  deriving DecidableEq

def IntSize.bits : IntSize → ℕ
  | .two => 16
  | .four => 32

/-- `itoa`: a sign in base 10, and the negated value as an `unsigned` -/
def itoa (int : IntSize) (value : ℤ) (radix : ℕ) : List Char :=
  if radix = 10 ∧ value < 0 then '-' :: utoa (-value % 2 ^ int.bits).toNat radix
  else utoa (value % 2 ^ int.bits).toNat radix

theorem utoaLoop_eq {radix : ℕ} (hr : 1 < radix) : ∀ {fuel value : ℕ}, value < fuel →
    utoaLoop radix fuel value = (digitsOf radix value).map digit := by
  intro fuel
  induction fuel with
  | zero => exact fun h => absurd h (Nat.not_lt_zero _)
  | succ fuel ih =>
    intro value h
    rw [utoaLoop]
    by_cases hv : value < radix
    · rw [if_neg (not_not.mpr (Nat.div_eq_of_lt hv)), Nat.mod_eq_of_lt hv, digitsOf_lt hv]
      rfl
    · have hge : radix ≤ value := Nat.le_of_not_lt hv
      have hlt : value / radix < value := Nat.div_lt_self (by omega) hr
      have hne : value / radix ≠ 0 := Nat.ne_of_gt (Nat.div_pos hge (by omega))
      rw [if_pos hne, ih (by omega), digitsOf_ge hr hge, List.map_cons]

theorem utoa_eq {radix : ℕ} (hr : 1 < radix) (value : ℕ) :
    utoa value radix = ((digitsOf radix value).map digit).reverse := by
  rw [utoa, utoaLoop_eq hr (Nat.lt_succ_self value)]

/-- the characters of the digits, apart from each other -/
theorem digit_inj {d e : ℕ} (hd : d < 36) (he : e < 36) (h : digit d = digit e) : d = e := by
  have hall : ∀ d ∈ List.range 36, ∀ e ∈ List.range 36, digit d = digit e → d = e := by decide +kernel
  exact hall d (List.mem_range.mpr hd) e (List.mem_range.mpr he) h

end Xtoa
