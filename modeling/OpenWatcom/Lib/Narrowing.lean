import Mathlib.Algebra.Order.Ring.Int
import Mathlib.Data.BitVec

/-!
# Narrow arithmetic in wide registers

Numbers in registers of `w` bits, signed or unsigned, and what is left of an operation that a wider
register did on them once its result is cut back to `w` bits.

* `read_ofInt`, `ofInt_read`   a register and the number that it holds;
* `quot_eq`, `rem_eq`, `shiftR_eq`   division and right shifts on the numbers;
* `narrow_quot`, `narrow_rem`, `narrow_shiftR`   the narrow result of a wide operation;
* `extend_extend_iff`   when two conversions in a row are one.
-/

namespace Narrowing

variable {w m : Nat} {sign : Bool} {v v1 v2 : Int}

/-- the number in a register -/
def read (sign : Bool) (x : BitVec w) : Int := if sign then x.toInt else x.toNat

/-- the numbers of `w` bits -/
def Fits (sign : Bool) (w : Nat) (v : Int) : Prop :=
  if sign then -2 ^ (w - 1) ≤ v ∧ v < 2 ^ (w - 1) else 0 ≤ v ∧ v < 2 ^ w

instance : Decidable (Fits sign w v) := by
  unfold Fits
  exact inferInstance

def quot (sign : Bool) (x y : BitVec w) : BitVec w := if sign then x.sdiv y else x / y
def rem (sign : Bool) (x y : BitVec w) : BitVec w := if sign then x.srem y else x % y

def shiftR (sign : Bool) (x : BitVec w) (n : Nat) : BitVec w :=
  if sign then x.sshiftRight n else x >>> n

/-- a register narrowed to `w` bits and extended back -/
def castTo (sign : Bool) (w : Nat) (x : BitVec m) : BitVec m :=
  BitVec.ofInt m (read sign (x.setWidth w))

/-! ## numbers and registers -/

theorem fits_mono (h : w ≤ m) (hv : Fits sign w v) : Fits sign m v := by
  have e1 : (2 : Int) ^ (w - 1) ≤ 2 ^ (m - 1) := pow_le_pow_right₀ (by omega) (by omega)
  have e2 : (2 : Int) ^ w ≤ 2 ^ m := pow_le_pow_right₀ (by omega) h
  cases sign with
  | true =>
    have hv' : -2 ^ (w - 1) ≤ v ∧ v < 2 ^ (w - 1) := hv
    show -2 ^ (m - 1) ≤ v ∧ v < 2 ^ (m - 1)
    omega
  | false =>
    have hv' : 0 ≤ v ∧ v < 2 ^ w := hv
    show 0 ≤ v ∧ v < 2 ^ m
    omega

theorem read_ofInt (hw : 0 < w) (hv : Fits sign w v) : read sign (BitVec.ofInt w v) = v := by
  cases sign with
  | true =>
    have hv' : -2 ^ (w - 1) ≤ v ∧ v < 2 ^ (w - 1) := hv
    exact BitVec.toInt_ofInt_eq_self hw hv'.1 hv'.2
  | false =>
    have hv' : 0 ≤ v ∧ v < 2 ^ w := hv
    show ((BitVec.ofInt w v).toNat : Int) = v
    rw [BitVec.toNat_ofInt, Int.natCast_pow, Nat.cast_ofNat, Int.emod_eq_of_lt hv'.1 hv'.2]
    omega

theorem ofInt_toNat (x : BitVec w) : BitVec.ofInt w (x.toNat : Int) = x := by
  rw [BitVec.ofInt_natCast, BitVec.ofNat_toNat, BitVec.setWidth_eq]

theorem ofInt_read (sign : Bool) (x : BitVec w) : BitVec.ofInt w (read sign x) = x := by
  cases sign with
  | true => exact BitVec.ofInt_toInt
  | false => exact ofInt_toNat x

theorem fits_read (sign : Bool) (x : BitVec w) : Fits sign w (read sign x) := by
  cases sign with
  | true => exact ⟨BitVec.le_toInt x, BitVec.toInt_lt⟩
  | false =>
    refine ⟨Int.natCast_nonneg _, ?_⟩
    have h := x.isLt
    show (x.toNat : Int) < 2 ^ w
    exact_mod_cast h

theorem narrow_ofInt (h : w ≤ m) (v : Int) : (BitVec.ofInt m v).setWidth w = BitVec.ofInt w v := by
  have hd : (2 : Int) ^ w ∣ 2 ^ m := pow_dvd_pow 2 h
  have e : v % 2 ^ m % 2 ^ w = v % 2 ^ w := Int.emod_emod_of_dvd v hd
  have nonneg (k : Nat) : 0 ≤ v % 2 ^ k := Int.emod_nonneg v (pow_ne_zero k two_ne_zero)
  apply BitVec.eq_of_toNat_eq
  rw [BitVec.toNat_setWidth, BitVec.toNat_ofInt, BitVec.toNat_ofInt]
  apply Int.ofNat.inj
  show (((v % ((2 ^ m : Nat) : Int)).toNat % 2 ^ w : Nat) : Int) =
    ((v % ((2 ^ w : Nat) : Int)).toNat : Int)
  push_cast
  rw [Int.toNat_of_nonneg (nonneg m), e, Int.toNat_of_nonneg (nonneg w)]

theorem castTo_ofInt (hw : 0 < w) (h : w ≤ m) (hv : Fits sign w v) :
    castTo sign w (BitVec.ofInt m v) = BitVec.ofInt m v := by
  rw [castTo, narrow_ofInt h, read_ofInt hw hv]

theorem castTo_false (x : BitVec m) : castTo false w x = (x.setWidth w).setWidth m := by
  show BitVec.ofInt m ((x.setWidth w).toNat : Int) = _
  rw [BitVec.ofInt_natCast, BitVec.ofNat_toNat]

theorem castTo_self (sign : Bool) (x : BitVec m) : castTo sign m x = x := by
  rw [castTo, BitVec.setWidth_eq, ofInt_read]

theorem ofInt_inj (hw : 0 < w) (h1 : Fits sign w v1) (h2 : Fits sign w v2) :
    BitVec.ofInt w v1 = BitVec.ofInt w v2 ↔ v1 = v2 := by
  refine ⟨fun h => ?_, fun h => by rw [h]⟩
  rw [← read_ofInt hw h1, h, read_ofInt hw h2]

/-- a number that fits is zero in the register only when it is zero -/
theorem ofInt_eq_zero (hw : 0 < w) (hv : Fits sign w v) : BitVec.ofInt w v = 0 ↔ v = 0 := by
  refine @ofInt_inj w sign v 0 hw hv ?_
  cases sign with
  | true => exact ⟨by simp, by simp⟩
  | false => exact ⟨le_refl 0, by simp⟩

/-! ## division and right shifts on the numbers -/

theorem quot_eq (sign : Bool) (x y : BitVec w) :
    quot sign x y = BitVec.ofInt w ((read sign x).tdiv (read sign y)) := by
  cases sign with
  | true =>
    show x.sdiv y = _
    apply BitVec.eq_of_toInt_eq
    rw [BitVec.toInt_sdiv, BitVec.toInt_ofInt]
    rfl
  | false =>
    show x / y = BitVec.ofInt w ((x.toNat : Int).tdiv y.toNat)
    rw [← Int.ofNat_tdiv, ← BitVec.toNat_udiv, ofInt_toNat]

theorem rem_eq (sign : Bool) (x y : BitVec w) :
    rem sign x y = BitVec.ofInt w ((read sign x).tmod (read sign y)) := by
  cases sign with
  | true =>
    show x.srem y = BitVec.ofInt w (x.toInt.tmod y.toInt)
    rw [← BitVec.toInt_srem, BitVec.ofInt_toInt]
  | false =>
    show x % y = BitVec.ofInt w ((x.toNat : Int).tmod y.toNat)
    rw [← Int.ofNat_tmod, ← BitVec.toNat_umod, ofInt_toNat]

theorem shiftR_eq (sign : Bool) (x : BitVec w) (n : Nat) :
    shiftR sign x n = BitVec.ofInt w (read sign x >>> n) := by
  cases sign with
  | true =>
    show x.sshiftRight n = BitVec.ofInt w (x.toInt >>> n)
    rw [← BitVec.toInt_sshiftRight, BitVec.ofInt_toInt]
  | false =>
    show x >>> n = BitVec.ofInt w ((x.toNat : Int) >>> n)
    rw [← Int.natCast_shiftRight, ← BitVec.toNat_ushiftRight, ofInt_toNat]

/-! ## the narrow result of a wide operation -/

section
variable (hw : 0 < w) (h : w ≤ m)
include hw h

theorem narrow_quot (h1 : Fits sign w v1) (h2 : Fits sign w v2) :
    (quot sign (BitVec.ofInt m v1) (BitVec.ofInt m v2)).setWidth w =
      quot sign (BitVec.ofInt w v1) (BitVec.ofInt w v2) := by
  have hm : 0 < m := by omega
  rw [quot_eq, quot_eq, narrow_ofInt h, read_ofInt hw h1, read_ofInt hw h2,
    read_ofInt hm (fits_mono h h1), read_ofInt hm (fits_mono h h2)]

theorem narrow_rem (h1 : Fits sign w v1) (h2 : Fits sign w v2) :
    (rem sign (BitVec.ofInt m v1) (BitVec.ofInt m v2)).setWidth w =
      rem sign (BitVec.ofInt w v1) (BitVec.ofInt w v2) := by
  have hm : 0 < m := by omega
  rw [rem_eq, rem_eq, narrow_ofInt h, read_ofInt hw h1, read_ofInt hw h2,
    read_ofInt hm (fits_mono h h1), read_ofInt hm (fits_mono h h2)]

theorem narrow_shiftR (hv : Fits sign w v) (n : Nat) :
    (shiftR sign (BitVec.ofInt m v) n).setWidth w = shiftR sign (BitVec.ofInt w v) n := by
  have hm : 0 < m := by omega
  rw [shiftR_eq, shiftR_eq, narrow_ofInt h, read_ofInt hw hv, read_ofInt hm (fits_mono h hv)]

end

/-! ## conversions in a row -/

/-- a register read as a number and written to `m` bits: truncated, or extended by its sign or by zeros -/
def extend (sign : Bool) (m : Nat) (x : BitVec w) : BitVec m := BitVec.ofInt m (read sign x)

section
variable {k : Nat} {s s' : Bool}

theorem extend_narrow (h : k ≤ m) (x : BitVec m) : extend sign k x = x.setWidth k := by
  conv_rhs => rw [← ofInt_read sign x]
  rw [narrow_ofInt h, extend]

/-- the second conversion meets the number that the first one met -/
theorem extend_extend (hm : 0 < m) {x : BitVec w} (h : Fits s' m (read s x)) :
    extend s' k (extend s m x) = extend s k x := by
  rw [extend, extend, read_ofInt hm h, extend]

theorem fits_of_lt (h : w < m) (hv : Fits false w v) : Fits s m v := by
  cases s with
  | false => exact fits_mono h.le hv
  | true =>
    have hv' : 0 ≤ v ∧ v < 2 ^ w := hv
    have e : (2 : Int) ^ w ≤ 2 ^ (m - 1) := pow_le_pow_right₀ (by omega) (by omega)
    show -2 ^ (m - 1) ≤ v ∧ v < 2 ^ (m - 1)
    omega

theorem read_true_allOnes (hw : 0 < w) : read true (BitVec.allOnes w) = -1 := by
  show (BitVec.allOnes w).toInt = -1
  rw [BitVec.toInt_allOnes, if_pos hw]

theorem read_false_allOnes : read false (BitVec.allOnes w) = 2 ^ w - 1 := by
  have h : 1 ≤ 2 ^ w := Nat.two_pow_pos w
  show ((BitVec.allOnes w).toNat : Int) = 2 ^ w - 1
  rw [BitVec.toNat_allOnes, Nat.cast_sub h]
  push_cast
  rfl

/-- the greatest number of `m` bits and `-1` are two numbers in a wider register -/
theorem allOnes_ne (h : m < k) : BitVec.ofInt k (2 ^ m - 1) ≠ BitVec.ofInt k (-1) := by
  have e : (2 : Int) ^ m ≤ 2 ^ (k - 1) := pow_le_pow_right₀ (by omega) (by omega)
  have pos : (0 : Int) < 2 ^ m := pow_pos two_pos m
  have h1 : Fits true k (2 ^ m - 1) := by
    show -2 ^ (k - 1) ≤ (2 : Int) ^ m - 1 ∧ (2 : Int) ^ m - 1 < 2 ^ (k - 1)
    omega
  have h2 : Fits true k (-1) := by
    show -2 ^ (k - 1) ≤ (-1 : Int) ∧ (-1 : Int) < 2 ^ (k - 1)
    omega
  intro hne
  have := (ofInt_inj (by omega) h1 h2).mp hne
  omega

/-- two conversions are one exactly when the second one narrows, or the first one keeps the number -/
theorem extend_extend_iff (hw : 0 < w) (h : w ≤ m) :
    (∀ x : BitVec w, extend s' k (extend s m x) = extend s k x) ↔
      k ≤ m ∨ s = s' ∨ (s = false ∧ w < m) := by
  have hm : 0 < m := by omega
  constructor
  · intro heq
    by_contra hne
    rw [not_or, not_or, not_le] at hne
    obtain ⟨hk, hs, hlt⟩ := hne
    have hx := heq (BitVec.allOnes w)
    cases s with
    | true =>
      obtain rfl : s' = false := by simpa using hs
      have e : extend true m (BitVec.allOnes w) = BitVec.allOnes m := by
        rw [extend, read_true_allOnes hw, ← read_true_allOnes hm, ofInt_read]
      rw [e, extend, extend, read_false_allOnes, read_true_allOnes hw] at hx
      exact allOnes_ne hk hx
    | false =>
      obtain rfl : s' = true := by simpa using hs
      have hle : ¬ w < m := fun hl => hlt ⟨rfl, hl⟩
      obtain rfl : w = m := by omega
      have e : extend false w (BitVec.allOnes w) = BitVec.allOnes w := ofInt_read false _
      rw [e, extend, extend, read_false_allOnes, read_true_allOnes hw] at hx
      exact allOnes_ne hk hx.symm
  · intro hc x
    obtain hk | rfl | ⟨rfl, hlt⟩ := hc
    · rw [extend_narrow hk, extend, narrow_ofInt hk, extend]
    · exact extend_extend hm (fits_mono h (fits_read s x))
    · exact extend_extend hm (fits_of_lt hlt (fits_read false x))

end

end Narrowing
