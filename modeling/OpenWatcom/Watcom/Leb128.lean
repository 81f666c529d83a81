import Mathlib.Tactic.NormNum
import Mathlib.Tactic.Ring
import OpenWatcom.Lib.Bytes

/-!
# LEB128 numbers: `leb128wr.c`, `leb128rd.c`

* `encodeULEB128`, `encodeSLEB128`, `decodeULEB128`, `decodeSLEB128`   the two forms, in 64 bits;
* `decodeU_encodeU`, `decodeS_encodeS`   each form read back in its own way;
* `decodeU_encodeS`    the signed form read as unsigned: the number modulo the bits it was given;
* `encodeS_length`     how many bytes a negative number takes;
* `decodeU_append`, `decodeS_append`   any encoded number is read up to its last byte;
* `leb128_right`    both forms are read back, and no shorter bytes hold their number.
-/

namespace Leb128
open Bytes

/-! ## the two forms -/

def encodeULoop : Nat → Nat → List UInt8
  | 0, _ => []
  | f + 1, value =>
    let byte := value % 128
    let value := value / 128
    if value = 0 then [UInt8.ofNat byte] else UInt8.ofNat (byte + 128) :: encodeULoop f value

/-- the number has 64 bits, which are at most ten bytes -/
def encodeULEB128 (value : Nat) : List UInt8 := encodeULoop 10 value

/-- the two loops for numbers with and without a sign -/
def encodeSLoop (neg : Bool) : Nat → Int → List UInt8
  | 0, _ => []
  | f + 1, value =>
    let byte := (value % 128).toNat
    let value := value / 128
    if (if neg then value = -1 ∧ 64 ≤ byte else value = 0 ∧ byte < 64) then [UInt8.ofNat byte]
    else UInt8.ofNat (byte + 128) :: encodeSLoop neg f value

def encodeSLEB128 (value : Int) : List UInt8 := encodeSLoop (decide (value < 0)) 10 value

/-- the bits of a byte are new in `value`, so `|=` adds them -/
def decodeULoop (value shift : Nat) : List UInt8 → Option (Nat × List UInt8)
  | [] => none
  | byte :: rest =>
    let value := (value + byte.toNat % 128 * 2 ^ shift) % 2 ^ 64
    if 128 ≤ byte.toNat then decodeULoop value (shift + 7) rest else some (value, rest)

def decodeULEB128 (bytes : List UInt8) : Option (Nat × List UInt8) := decodeULoop 0 0 bytes

def decodeSLoop (value shift : Nat) : List UInt8 → Option (Int × List UInt8)
  | [] => none
  | byte :: rest =>
    let value := (value + byte.toNat % 128 * 2 ^ shift) % 2 ^ 64
    let shift := shift + 7
    if 128 ≤ byte.toNat then decodeSLoop value shift rest
    else
      let value :=
        if 64 ≤ byte.toNat % 128 ∧ shift < 64 then value + (2 ^ 64 - 2 ^ shift) else value
      some (toSigned 8 value, rest)

def decodeSLEB128 (bytes : List UInt8) : Option (Int × List UInt8) := decodeSLoop 0 0 bytes

/-! ## reading back -/

theorem toNat_low {n : Nat} (h : n < 128) : (UInt8.ofNat n).toNat = n := by
  rw [UInt8.toNat_ofNat']
  omega

theorem toNat_more {n : Nat} (h : n < 128) : (UInt8.ofNat (n + 128)).toNat = n + 128 := by
  rw [UInt8.toNat_ofNat']
  omega

theorem decodeULoop_low {n : Nat} (h : n < 128) (value shift : Nat) (rest : List UInt8) :
    decodeULoop value shift (UInt8.ofNat n :: rest)
      = some ((value + n * 2 ^ shift) % 2 ^ 64, rest) := by
  rw [decodeULoop, toNat_low h, Nat.mod_eq_of_lt h, if_neg (by omega)]

theorem decodeULoop_more {n : Nat} (h : n < 128) (value shift : Nat) (rest : List UInt8) :
    decodeULoop value shift (UInt8.ofNat (n + 128) :: rest)
      = decodeULoop ((value + n * 2 ^ shift) % 2 ^ 64) (shift + 7) rest := by
  rw [decodeULoop, toNat_more h, if_pos (by omega)]
  have e : (n + 128) % 128 = n := by omega
  rw [e]

theorem decodeULoop_encodeULoop (f n value shift : Nat) (hn : n < 128 ^ f) (hf : 0 < f)
    (rest : List UInt8) : decodeULoop value shift (encodeULoop f n ++ rest)
      = some ((value + n * 2 ^ shift) % 2 ^ 64, rest) := by
  induction f generalizing n value shift with
  | zero => exact absurd hf (Nat.lt_irrefl 0)
  | succ f ih =>
    have hb : n % 128 < 128 := Nat.mod_lt n (by norm_num)
    have hdiv := Nat.div_add_mod n 128
    rw [encodeULoop]
    by_cases h0 : n / 128 = 0
    · rw [if_pos h0, List.singleton_append, decodeULoop_low hb]
      have e : n % 128 = n := by omega
      rw [e]
    · have hlt : n / 128 < 128 ^ f := by
        rw [Nat.div_lt_iff_lt_mul (by norm_num), ← pow_succ]
        exact hn
      have hf' : 0 < f := by
        rcases Nat.eq_zero_or_pos f with rfl | h
        · rw [pow_zero] at hlt
          omega
        · exact h
      rw [if_neg h0, List.cons_append, decodeULoop_more hb, ih _ _ _ hlt hf']
      have e : n * 2 ^ shift = n % 128 * 2 ^ shift + n / 128 * 2 ^ (shift + 7) := by
        conv_lhs => rw [← hdiv]
        ring
      rw [Nat.mod_add_mod, Nat.add_assoc, ← e]

theorem decodeU_encodeU {n : Nat} (h : n < 2 ^ 64) (rest : List UInt8) :
    decodeULEB128 (encodeULEB128 n ++ rest) = some (n, rest) := by
  have hlt : n < 128 ^ 10 := lt_trans h (by norm_num)
  rw [decodeULEB128, encodeULEB128, decodeULoop_encodeULoop 10 n 0 0 hlt (by norm_num)]
  rw [pow_zero, mul_one, zero_add, Nat.mod_eq_of_lt h]

/-! ## the signed form -/

/-- the stop test of the two loops -/
def Last (neg : Bool) (value : Int) : Prop :=
  if neg then value / 128 = -1 ∧ 64 ≤ (value % 128).toNat else value / 128 = 0 ∧ (value % 128).toNat < 64

/-- one byte holds the numbers from -64 to 63 -/
theorem last_iff {neg : Bool} {v : Int} (hs : neg = decide (v < 0)) :
    Last neg v ↔ -64 ≤ v ∧ v < 64 := by
  rw [hs, Last]
  by_cases h : v < 0
  · rw [decide_eq_true h, if_pos rfl]
    omega
  · rw [decide_eq_false h, if_neg (by simp)]
    omega

theorem sign_div {neg : Bool} {v : Int} (hs : neg = decide (v < 0)) : neg = decide (v / 128 < 0) := by
  rw [hs, decide_eq_decide]
  omega

/-- the signed form by cases: the last byte, or one that goes on -/
theorem encodeSLoop_cases {neg : Bool} {v : Int} (hs : neg = decide (v < 0)) (f : Nat) :
    (-64 ≤ v ∧ v < 64 ∧ encodeSLoop neg (f + 1) v = [UInt8.ofNat (v % 128).toNat]) ∨
      (¬ (-64 ≤ v ∧ v < 64) ∧ encodeSLoop neg (f + 1) v
        = UInt8.ofNat ((v % 128).toNat + 128) :: encodeSLoop neg f (v / 128)) := by
  have hl := last_iff hs
  by_cases h : Last neg v
  · have := hl.mp h
    exact Or.inl ⟨this.1, this.2, if_pos h⟩
  · exact Or.inr ⟨fun k => h (hl.mpr k), if_neg h⟩

theorem emod_128_mul (v : Int) (k : Nat) :
    v % 2 ^ (7 * (k + 1)) = v % 128 + 128 * (v / 128 % 2 ^ (7 * k)) := by
  have e : (2 : Int) ^ (7 * (k + 1)) = 128 * 2 ^ (7 * k) := by
    rw [Nat.mul_succ, pow_add]
    ring
  have h0 : (0 : Int) < 2 ^ (7 * k) := by positivity
  have h1 := Int.emod_nonneg (v / 128) (ne_of_gt h0)
  have h2 := Int.emod_lt_of_pos (v / 128) h0
  have h3 := Int.emod_nonneg v (show (128 : Int) ≠ 0 by norm_num)
  have h4 := Int.emod_lt_of_pos v (show (0 : Int) < 128 by norm_num)
  have h5 := Int.emod_add_mul_ediv v 128
  have h6 := Int.emod_add_mul_ediv (v / 128) (2 ^ (7 * k))
  rw [e]
  refine ((Int.ediv_emod_unique (q := v / 128 / 2 ^ (7 * k)) (by positivity)).mpr ⟨?_, ?_, ?_⟩).2
  · linear_combination h5 + 128 * h6
  · positivity
  · nlinarith

theorem toNat_byte (v : Int) : (v % 128).toNat < 128 ∧ ((v % 128).toNat : Int) = v % 128 := by
  have h3 := Int.emod_nonneg v (show (128 : Int) ≠ 0 by norm_num)
  have h4 := Int.emod_lt_of_pos v (show (0 : Int) < 128 by norm_num)
  omega

/-- with enough bytes the signed form read as unsigned is the number modulo its bits -/
theorem decodeULoop_encodeSLoop {neg : Bool} (f : Nat) (v : Int) (hs : neg = decide (v < 0))
    (value shift : Nat) (h1 : -2 ^ (7 * f + 6) ≤ v) (h2 : v < 2 ^ (7 * f + 6)) (rest : List UInt8) :
    decodeULoop value shift (encodeSLoop neg (f + 1) v ++ rest)
      = some ((value + (v % 2 ^ (7 * (encodeSLoop neg (f + 1) v).length)).toNat * 2 ^ shift) % 2 ^ 64,
        rest) := by
  obtain ⟨b1, b2⟩ := toNat_byte v
  induction f generalizing v value shift with
  | zero =>
    rcases encodeSLoop_cases hs 0 with ⟨-, -, e⟩ | ⟨h, -⟩
    · rw [e, List.singleton_append, decodeULoop_low b1]
      rfl
    · exact absurd ⟨by simpa using h1, by simpa using h2⟩ h
  | succ f ih =>
    rcases encodeSLoop_cases hs (f + 1) with ⟨-, -, e⟩ | ⟨-, e⟩
    · rw [e, List.singleton_append, decodeULoop_low b1]
      rfl
    · have hp : (2 : Int) ^ (7 * (f + 1) + 6) = 128 * 2 ^ (7 * f + 6) := by
        rw [Nat.mul_succ]
        ring
      rw [hp] at h1 h2
      obtain ⟨c1, c2⟩ := toNat_byte (v / 128)
      have hd : -2 ^ (7 * f + 6) ≤ v / 128 ∧ v / 128 < 2 ^ (7 * f + 6) := by
        generalize (2 : Int) ^ (7 * f + 6) = m at h1 h2
        omega
      rw [e, List.cons_append, decodeULoop_more b1, ih _ (sign_div hs) _ _ hd.1 hd.2 c1 c2,
        List.length_cons, emod_128_mul, Nat.mod_add_mod]
      have hm := Int.emod_nonneg (v / 128)
        (show (2 : Int) ^ (7 * (encodeSLoop neg (f + 1) (v / 128)).length) ≠ 0 by positivity)
      generalize v / 128 % 2 ^ (7 * (encodeSLoop neg (f + 1) (v / 128)).length) = m at hm ⊢
      have hsum : (v % 128 + 128 * m).toNat = (v % 128).toNat + 128 * m.toNat := by omega
      rw [hsum]
      congr 3
      ring

theorem ofSigned_congr {i : Int} {n : Nat} (hn : n < 2 ^ 64) (h : ∃ k : Int, i = n + k * 2 ^ 64) :
    ofSigned 8 i = n := by
  obtain ⟨k, rfl⟩ := h
  have e : ((256 ^ 8 : Nat) : Int) = 2 ^ 64 := by norm_num
  rw [ofSigned, e, Int.add_mul_emod_self_right, Int.emod_eq_of_lt (Int.natCast_nonneg n) (by omega)]
  exact Int.toNat_natCast n

/-- the last byte of the signed form: its sign goes on to the left, unless there is no room for it -/
theorem decodeSLoop_last {v : Int} (h1 : -64 ≤ v) (h2 : v < 64) {value shift : Nat}
    (hv : value < 2 ^ shift) (rest : List UInt8) :
    decodeSLoop value shift (UInt8.ofNat (v % 128).toNat :: rest)
      = some (toSigned 8 (ofSigned 8 (value + v * 2 ^ shift)), rest) := by
  obtain ⟨b1, b2⟩ := toNat_byte v
  have hp : (2 : Nat) ^ (shift + 7) = 128 * 2 ^ shift := by
    rw [pow_add]
    ring
  generalize hb : (v % 128).toNat = b at b1 b2
  rw [decodeSLoop, toNat_low b1, if_neg (by omega), Nat.mod_eq_of_lt b1]
  dsimp only
  congr 3
  have hm : (value + b * 2 ^ shift) % 2 ^ 64 < 2 ^ 64 := Nat.mod_lt _ (by norm_num)
  by_cases hroom : 64 ≤ b ∧ shift + 7 < 64
  · rw [if_pos hroom]
    have hle : (2 : Nat) ^ (shift + 7) ≤ 2 ^ 63 := Nat.pow_le_pow_right (by norm_num) (by omega)
    have hlt : value + b * 2 ^ shift < 2 ^ (shift + 7) := by
      rw [hp]
      have : b * 2 ^ shift ≤ 127 * 2 ^ shift := Nat.mul_le_mul_right _ (by omega)
      omega
    rw [Nat.mod_eq_of_lt (lt_of_lt_of_le hlt (le_trans hle (by norm_num)))]
    refine (ofSigned_congr (by omega) ⟨-1, ?_⟩).symm
    have hvb : v = b - 128 := by omega
    rw [hvb, hp, Nat.cast_add, Nat.cast_sub (show 128 * 2 ^ shift ≤ 2 ^ 64 by omega)]
    push_cast
    ring
  · rw [if_neg hroom]
    refine (ofSigned_congr hm ?_).symm
    have hdm : ((value + b * 2 ^ shift : Nat) : Int) =
        ((value + b * 2 ^ shift) % 2 ^ 64 : Nat) + ((value + b * 2 ^ shift) / 2 ^ 64 : Nat) * 2 ^ 64 := by
      have := Nat.mod_add_div (value + b * 2 ^ shift) (2 ^ 64)
      push_cast
      omega
    by_cases hneg : 64 ≤ b
    · -- the bits of the sign are shifted out
      obtain ⟨k, rfl⟩ : ∃ k, shift = 57 + k := ⟨shift - 57, by omega⟩
      have hvb : v = b - 128 := by omega
      have e : (2 : Int) ^ 64 * 2 ^ k = 128 * 2 ^ (57 + k) := by
        rw [pow_add]
        ring
      refine ⟨((value + b * 2 ^ (57 + k)) / 2 ^ 64 : Nat) - 2 ^ k, ?_⟩
      rw [sub_mul, ← add_sub_assoc, ← hdm, hvb]
      push_cast
      linear_combination -e
    · have hvb : v = b := by omega
      exact ⟨_, by rw [← hdm, hvb]; push_cast; rfl⟩

/-- the signed form read back -/
theorem decodeSLoop_encodeSLoop {neg : Bool} (f : Nat) (v : Int) (hs : neg = decide (v < 0))
    (value shift : Nat) (h1 : -2 ^ (7 * f + 6) ≤ v) (h2 : v < 2 ^ (7 * f + 6))
    (hv : value < 2 ^ shift) (rest : List UInt8) :
    decodeSLoop value shift (encodeSLoop neg (f + 1) v ++ rest)
      = some (toSigned 8 (ofSigned 8 (value + v * 2 ^ shift)), rest) := by
  induction f generalizing v value shift with
  | zero =>
    rcases encodeSLoop_cases hs 0 with ⟨k1, k2, e⟩ | ⟨h, -⟩
    · rw [e]
      exact decodeSLoop_last k1 k2 hv rest
    · exact absurd ⟨by simpa using h1, by simpa using h2⟩ h
  | succ f ih =>
    rcases encodeSLoop_cases hs (f + 1) with ⟨k1, k2, e⟩ | ⟨-, e⟩
    · rw [e]
      exact decodeSLoop_last k1 k2 hv rest
    · obtain ⟨b1, b2⟩ := toNat_byte v
      have hp : (2 : Int) ^ (7 * (f + 1) + 6) = 128 * 2 ^ (7 * f + 6) := by
        rw [Nat.mul_succ]
        ring
      rw [hp] at h1 h2
      have hd : -2 ^ (7 * f + 6) ≤ v / 128 ∧ v / 128 < 2 ^ (7 * f + 6) := by
        generalize (2 : Int) ^ (7 * f + 6) = m at h1 h2
        omega
      have hp2 : (2 : Nat) ^ (shift + 7) = 128 * 2 ^ shift := by
        rw [pow_add]
        ring
      have hlt : value + (v % 128).toNat * 2 ^ shift < 2 ^ (shift + 7) := by
        rw [hp2]
        have : (v % 128).toNat * 2 ^ shift ≤ 127 * 2 ^ shift := Nat.mul_le_mul_right _ (by omega)
        omega
      have e128 : ((v % 128).toNat + 128) % 128 = (v % 128).toNat := by omega
      rw [e, List.cons_append, decodeSLoop, toNat_more b1, if_pos (by omega), e128,
        ih _ (sign_div hs) _ _ hd.1 hd.2 (lt_of_le_of_lt (Nat.mod_le _ _) hlt)]
      congr 3
      refine ofSigned_congr (ofSigned_lt 8 _) ?_
      have eN : ((256 ^ 8 : Nat) : Int) = 2 ^ 64 := by norm_num
      have ho := ofSigned_emod 8 8 (le_refl 8) (value + v * 2 ^ shift)
      rw [Nat.mod_eq_of_lt (ofSigned_lt 8 _), eN] at ho
      have hm : (((value + (v % 128).toNat * 2 ^ shift) % 2 ^ 64 : Nat) : Int)
          + 2 ^ 64 * ((value + (v % 128).toNat * 2 ^ shift) / 2 ^ 64 : Nat)
          = value + (v % 128).toNat * 2 ^ shift := by
        exact_mod_cast Nat.mod_add_div (value + (v % 128).toNat * 2 ^ shift) (2 ^ 64)
      have hq := Int.emod_add_mul_ediv ((value : Int) + v * 2 ^ shift) (2 ^ 64)
      have hdm := Int.emod_add_mul_ediv v 128
      refine ⟨((value : Int) + v * 2 ^ shift) / 2 ^ 64
        - ((value + (v % 128).toNat * 2 ^ shift) / 2 ^ 64 : Nat), ?_⟩
      rw [pow_add]
      linear_combination hm + 2 ^ shift * b2 + 2 ^ shift * hdm - ho - hq

/-! ## how many bytes -/

/-- bytes that are not needed are not written -/
theorem encodeSLoop_enough {neg : Bool} (f k : Nat) (v : Int) (hs : neg = decide (v < 0))
    (h1 : -2 ^ (7 * f + 6) ≤ v) (h2 : v < 2 ^ (7 * f + 6)) :
    encodeSLoop neg (f + k + 1) v = encodeSLoop neg (f + 1) v := by
  induction f generalizing v with
  | zero =>
    have h : -64 ≤ v ∧ v < 64 := ⟨by simpa using h1, by simpa using h2⟩
    rcases encodeSLoop_cases hs (0 + k) with ⟨-, -, e⟩ | ⟨c, -⟩
    · rcases encodeSLoop_cases hs 0 with ⟨-, -, e'⟩ | ⟨c, -⟩
      · rw [e, e']
      · exact absurd h c
    · exact absurd h c
  | succ f ih =>
    have hp : (2 : Int) ^ (7 * (f + 1) + 6) = 128 * 2 ^ (7 * f + 6) := by
      rw [Nat.mul_succ]
      ring
    rw [hp] at h1 h2
    have hd : -2 ^ (7 * f + 6) ≤ v / 128 ∧ v / 128 < 2 ^ (7 * f + 6) := by
      generalize (2 : Int) ^ (7 * f + 6) = m at h1 h2
      omega
    have e3 : f + 1 + k = f + k + 1 := by omega
    rw [e3]
    rcases encodeSLoop_cases hs (f + k + 1) with ⟨c1, c2, e⟩ | ⟨c, e⟩
    · rcases encodeSLoop_cases hs (f + 1) with ⟨-, -, e'⟩ | ⟨c, -⟩
      · rw [e, e']
      · exact absurd ⟨c1, c2⟩ c
    · rcases encodeSLoop_cases hs (f + 1) with ⟨c1, c2, -⟩ | ⟨-, e'⟩
      · exact absurd ⟨c1, c2⟩ c
      · rw [e, e', ih _ (sign_div hs) hd.1 hd.2]

theorem encodeSLoop_length_le (neg : Bool) (f : Nat) (v : Int) :
    (encodeSLoop neg f v).length ≤ f := by
  induction f generalizing v with
  | zero => exact Nat.le_refl 0
  | succ f ih =>
    by_cases h : Last neg v
    · have e : encodeSLoop neg (f + 1) v = [UInt8.ofNat (v % 128).toNat] := if_pos h
      rw [e, List.length_singleton]
      omega
    · have e : encodeSLoop neg (f + 1) v
          = UInt8.ofNat ((v % 128).toNat + 128) :: encodeSLoop neg f (v / 128) := if_neg h
      rw [e, List.length_cons]
      have := ih (v / 128)
      omega

/-- seven bits for each byte, one of them for the sign -/
theorem encodeSLoop_bits {neg : Bool} (f : Nat) (v : Int) (hs : neg = decide (v < 0))
    (h1 : -2 ^ (7 * f + 6) ≤ v) (h2 : v < 2 ^ (7 * f + 6)) :
    ∃ n, (encodeSLoop neg (f + 1) v).length = n + 1 ∧ -2 ^ (7 * n + 6) ≤ v ∧ v < 2 ^ (7 * n + 6) := by
  induction f generalizing v with
  | zero =>
    rcases encodeSLoop_cases hs 0 with ⟨-, -, e⟩ | ⟨h, -⟩
    · exact ⟨0, by rw [e]; rfl, h1, h2⟩
    · exact absurd ⟨by simpa using h1, by simpa using h2⟩ h
  | succ f ih =>
    rcases encodeSLoop_cases hs (f + 1) with ⟨k1, k2, e⟩ | ⟨-, e⟩
    · exact ⟨0, by rw [e]; rfl, by simpa using k1, by simpa using k2⟩
    · have hp : ∀ n : Nat, (2 : Int) ^ (7 * (n + 1) + 6) = 128 * 2 ^ (7 * n + 6) := by
        intro n
        rw [Nat.mul_succ]
        ring
      rw [hp] at h1 h2
      have hd : -2 ^ (7 * f + 6) ≤ v / 128 ∧ v / 128 < 2 ^ (7 * f + 6) := by
        generalize (2 : Int) ^ (7 * f + 6) = m at h1 h2
        omega
      obtain ⟨n, hn, k1, k2⟩ := ih _ (sign_div hs) hd.1 hd.2
      refine ⟨n + 1, by rw [e, List.length_cons, hn], ?_⟩
      rw [hp]
      generalize (2 : Int) ^ (7 * n + 6) = m at k1 k2
      omega

/-! ## numbers of 32 bits -/

section
variable {v : Int}

theorem decodeS_encodeS (h1 : -2 ^ 63 ≤ v) (h2 : v < 2 ^ 63) (rest : List UInt8) :
    decodeSLEB128 (encodeSLEB128 v ++ rest) = some (v, rest) := by
  rw [decodeSLEB128, encodeSLEB128, decodeSLoop_encodeSLoop 9 v rfl 0 0 (le_trans (by norm_num) h1)
    (lt_of_lt_of_le h2 (by norm_num)) (by norm_num)]
  rw [pow_zero, mul_one, Nat.cast_zero, zero_add, toSigned_ofSigned 8 (by norm_num) v
    (le_trans (by norm_num) h1) (lt_of_lt_of_le h2 (by norm_num))]

/-- five bytes are enough -/
theorem encodeSLEB128_five (h1 : -2 ^ 34 ≤ v) (h2 : v < 2 ^ 34) :
    encodeSLEB128 v = encodeSLoop (decide (v < 0)) 5 v :=
  encodeSLoop_enough 4 5 v rfl h1 h2

/-- the bytes of the signed form hold the number modulo a power of 128 -/
theorem decodeU_encodeS (h1 : -2 ^ 34 ≤ v) (h2 : v < 2 ^ 34) (rest : List UInt8) :
    decodeULEB128 (encodeSLEB128 v ++ rest)
      = some ((v % 2 ^ (7 * (encodeSLEB128 v).length)).toNat, rest) := by
  have hlen := encodeSLoop_length_le (decide (v < 0)) 5 v
  rw [decodeULEB128, encodeSLEB128_five h1 h2,
    decodeULoop_encodeSLoop 4 v rfl 0 0 h1 h2 rest, pow_zero, mul_one, zero_add]
  have hlt : (v % 2 ^ (7 * (encodeSLoop (decide (v < 0)) 5 v).length)).toNat < 2 ^ 64 := by
    have hpos : (0 : Int) < 2 ^ (7 * (encodeSLoop (decide (v < 0)) 5 v).length) := by positivity
    have hm := Int.emod_lt_of_pos v hpos
    have hle : (2 : Int) ^ (7 * (encodeSLoop (decide (v < 0)) 5 v).length) ≤ 2 ^ 35 :=
      pow_le_pow_right₀ (by norm_num) (by omega)
    have : v % 2 ^ (7 * (encodeSLoop (decide (v < 0)) 5 v).length) < 2 ^ 35 := lt_of_lt_of_le hm hle
    omega
  rw [Nat.mod_eq_of_lt hlt]

/-- a number without a sign keeps its value -/
theorem decodeU_encodeS_nonneg (h1 : 0 ≤ v) (h2 : v < 2 ^ 34) (rest : List UInt8) :
    decodeULEB128 (encodeSLEB128 v ++ rest) = some (v.toNat, rest) := by
  rw [decodeU_encodeS (by omega) h2]
  obtain ⟨n, hn, -, hlt⟩ := encodeSLoop_bits 4 v rfl (le_trans (by norm_num) h1) h2
  have hlen : (encodeSLEB128 v).length = n + 1 := by
    rw [encodeSLEB128_five (by omega) h2, hn]
  have hle : (2 : Int) ^ (7 * n + 6) ≤ 2 ^ (7 * (n + 1)) :=
    pow_le_pow_right₀ (by norm_num) (by omega)
  rw [hlen, Int.emod_eq_of_lt h1 (lt_of_lt_of_le hlt hle)]

/-- a negative number of up to 27 bits is read as unsigned with bits that are not there, a larger one
comes back modulo 32 bits -/
theorem decodeU_encodeS_neg (h1 : -2 ^ 34 ≤ v) (h2 : v < 0) (rest : List UInt8) :
    ∃ n : Nat, decodeULEB128 (encodeSLEB128 v ++ rest) = some (n, rest) ∧
      ((n : Int) % 2 ^ 32 = v % 2 ^ 32 ↔ v < -2 ^ 27) := by
  have h34 : v < 2 ^ 34 := lt_trans h2 (by norm_num)
  refine ⟨_, decodeU_encodeS h1 h34 rest, ?_⟩
  obtain ⟨n, hn, hlo, -⟩ := encodeSLoop_bits 4 v rfl h1 h34
  have hlen : (encodeSLEB128 v).length = n + 1 := by
    rw [encodeSLEB128_five h1 h34, hn]
  have hn5 : n + 1 ≤ 5 := by
    rw [← hn]
    exact encodeSLoop_length_le _ 5 v
  have hpos : (0 : Int) < 2 ^ (7 * (n + 1)) := by positivity
  rw [hlen, Int.toNat_of_nonneg (Int.emod_nonneg v (ne_of_gt hpos))]
  by_cases hbig : v < -2 ^ 27
  · -- only five bytes hold the number
    have hn4 : n = 4 := by
      by_contra hne
      have hle : (2 : Int) ^ (7 * n + 6) ≤ 2 ^ 27 := pow_le_pow_right₀ (by norm_num) (by omega)
      omega
    rw [hn4]
    refine iff_of_true ?_ hbig
    exact Int.emod_emod_of_dvd v (by norm_num)
  · have hn3 : n ≤ 3 := by
      have h27 : -2 ^ (7 * 3 + 6) ≤ v := by omega
      have e : encodeSLoop (decide (v < 0)) 5 v = encodeSLoop (decide (v < 0)) 4 v :=
        encodeSLoop_enough 3 1 v rfl h27 (lt_trans h2 (by positivity))
      have := encodeSLoop_length_le (decide (v < 0)) 4 v
      rw [e] at hn
      omega
    have hm : v % 2 ^ (7 * (n + 1)) = v + 2 ^ (7 * (n + 1)) := by
      have hle : (2 : Int) ^ (7 * n + 6) ≤ 2 ^ (7 * (n + 1)) :=
        pow_le_pow_right₀ (by norm_num) (by omega)
      rw [← Int.add_emod_right, Int.emod_eq_of_lt (by omega) (by omega)]
    rw [hm]
    refine iff_of_false (fun h => ?_) hbig
    obtain rfl | rfl | rfl | rfl : n = 0 ∨ n = 1 ∨ n = 2 ∨ n = 3 := by omega
    · norm_num at h
      omega
    · norm_num at h
      omega
    · norm_num at h
      omega
    · norm_num at h
      omega

end

/-! ## any encoded number -/

/-- a number as bytes of seven bits: each but the last has its high bit set -/
def IsLeb : List UInt8 → Prop
  | [] => False
  | [b] => b.toNat < 128
  | b :: c :: bytes => 128 ≤ b.toNat ∧ IsLeb (c :: bytes)

def lebValue : List UInt8 → Nat
  | [] => 0
  | b :: bytes => b.toNat % 128 + 128 * lebValue bytes

theorem isLeb_ne_nil {bytes : List UInt8} (h : IsLeb bytes) : bytes ≠ [] := by
  intro e
  rw [e] at h
  exact h

theorem decodeULoop_append {bytes : List UInt8} (h : IsLeb bytes) (rest : List UInt8) :
    ∀ value shift, decodeULoop value shift (bytes ++ rest) =
      some ((value + lebValue bytes * 2 ^ shift) % 2 ^ 64, rest) := by
  induction bytes with
  | nil => exact absurd h id
  | cons b bytes ih =>
    intro value shift
    cases bytes with
    | nil =>
      have hb : ¬ 128 ≤ b.toNat := Nat.not_le.mpr h
      show (if 128 ≤ b.toNat then _ else some ((value + b.toNat % 128 * 2 ^ shift) % 2 ^ 64, rest)) =
        some ((value + (b.toNat % 128 + 128 * 0) * 2 ^ shift) % 2 ^ 64, rest)
      rw [if_neg hb, Nat.mul_zero, Nat.add_zero]
    | cons c bytes =>
      show (if 128 ≤ b.toNat then decodeULoop ((value + b.toNat % 128 * 2 ^ shift) % 2 ^ 64) (shift + 7)
        (c :: bytes ++ rest) else _) = _
      have e : b.toNat % 128 * 2 ^ shift + lebValue (c :: bytes) * 2 ^ (shift + 7) =
          lebValue (b :: c :: bytes) * 2 ^ shift := by
        rw [show lebValue (b :: c :: bytes) = b.toNat % 128 + 128 * lebValue (c :: bytes) from rfl,
          pow_add]
        ring
      rw [if_pos h.1, ih h.2, Nat.mod_add_mod, Nat.add_assoc, e]

/-- a number is read up to its last byte, whatever comes behind it -/
theorem decodeU_append {bytes : List UInt8} (h : IsLeb bytes) (rest : List UInt8) :
    decodeULEB128 (bytes ++ rest) = some (lebValue bytes % 2 ^ 64, rest) := by
  rw [decodeULEB128, decodeULoop_append h, Nat.zero_add, Nat.pow_zero, Nat.mul_one]

theorem decodeSLoop_append {bytes : List UInt8} (h : IsLeb bytes) (rest : List UInt8) :
    ∀ value shift, ∃ v, decodeSLoop value shift (bytes ++ rest) = some (v, rest) := by
  induction bytes with
  | nil => exact absurd h id
  | cons b bytes ih =>
    intro value shift
    cases bytes with
    | nil =>
      have hb : ¬ 128 ≤ b.toNat := Nat.not_le.mpr h
      exact ⟨_, if_neg hb⟩
    | cons c bytes =>
      obtain ⟨v, hv⟩ := ih h.2 ((value + b.toNat % 128 * 2 ^ shift) % 2 ^ 64) (shift + 7)
      exact ⟨v, (if_pos h.1).trans hv⟩

theorem decodeS_append {bytes : List UInt8} (h : IsLeb bytes) (rest : List UInt8) :
    ∃ v, decodeSLEB128 (bytes ++ rest) = some (v, rest) := decodeSLoop_append h rest 0 0

/-! ## the shortest bytes -/

/-- seven bits for each byte that is read -/
theorem decodeULoop_lt {bytes rest : List UInt8} {n : Nat} :
    ∀ {value shift : Nat}, decodeULoop value shift bytes = some (n, rest) → value < 2 ^ shift →
      ∃ k, bytes.length = rest.length + (k + 1) ∧ n < 2 ^ (shift + 7 * (k + 1)) := by
  induction bytes with
  | nil =>
    intro value shift h
    cases h
  | cons b bytes ih =>
    intro value shift h hv
    rw [decodeULoop] at h
    have hp : (2 : Nat) ^ (shift + 7) = 128 * 2 ^ shift := by
      rw [pow_add]
      ring
    have hlt : (value + b.toNat % 128 * 2 ^ shift) % 2 ^ 64 < 2 ^ (shift + 7) := by
      refine lt_of_le_of_lt (Nat.mod_le _ _) ?_
      have : b.toNat % 128 * 2 ^ shift ≤ 127 * 2 ^ shift := Nat.mul_le_mul_right _ (by omega)
      omega
    by_cases hb : 128 ≤ b.toNat
    · rw [if_pos hb] at h
      obtain ⟨k, hk, hn⟩ := ih h hlt
      refine ⟨k + 1, by rw [List.length_cons, hk]; omega, ?_⟩
      rw [show shift + 7 * (k + 1 + 1) = shift + 7 + 7 * (k + 1) by omega]
      exact hn
    · rw [if_neg hb] at h
      cases h
      exact ⟨0, by rw [List.length_cons], hlt⟩

theorem encodeULoop_length_le (f n k : Nat) (hn : n < 2 ^ (7 * (k + 1))) :
    (encodeULoop f n).length ≤ k + 1 := by
  induction f generalizing n k with
  | zero => exact Nat.zero_le _
  | succ f ih =>
    rw [encodeULoop]
    by_cases h0 : n / 128 = 0
    · rw [if_pos h0, List.length_singleton]
      omega
    · rw [if_neg h0, List.length_cons]
      cases k with
      | zero => exact absurd (Nat.div_eq_of_lt hn) h0
      | succ k =>
        have e : 2 ^ (7 * (k + 1 + 1)) = 128 * 2 ^ (7 * (k + 1)) := by
          rw [Nat.mul_succ, pow_add]
          ring
        rw [e] at hn
        exact Nat.succ_le_succ (ih _ k (Nat.div_lt_of_lt_mul hn))

/-- what a number takes is never more than the bytes that it was read from -/
theorem encodeU_shortest {bytes rest : List UInt8} {n : Nat}
    (h : decodeULEB128 bytes = some (n, rest)) :
    (encodeULEB128 n).length + rest.length ≤ bytes.length := by
  obtain ⟨k, hk, hn⟩ := decodeULoop_lt h Nat.one_pos
  rw [Nat.zero_add] at hn
  have := encodeULoop_length_le 10 n k hn
  rw [encodeULEB128]
  omega

/-- the last byte that is read has the sign in its seventh bit -/
theorem decodeSLoop_range {bytes rest : List UInt8} {v : Int} :
    ∀ {value shift : Nat}, decodeSLoop value shift bytes = some (v, rest) → value < 2 ^ shift →
      ∃ k, bytes.length = rest.length + (k + 1) ∧
        (shift + 7 * (k + 1) < 64 → -2 ^ (shift + 7 * k + 6) ≤ v ∧ v < 2 ^ (shift + 7 * k + 6)) := by
  induction bytes with
  | nil =>
    intro value shift h
    cases h
  | cons b bytes ih =>
    intro value shift h hv
    rw [decodeSLoop] at h
    dsimp only at h
    have hp : (2 : Nat) ^ (shift + 7) = 128 * 2 ^ shift := by
      rw [pow_add]
      ring
    have hlt : value + b.toNat % 128 * 2 ^ shift < 2 ^ (shift + 7) := by
      have : b.toNat % 128 * 2 ^ shift ≤ 127 * 2 ^ shift := Nat.mul_le_mul_right _ (by omega)
      omega
    by_cases hb : 128 ≤ b.toNat
    · rw [if_pos hb] at h
      obtain ⟨k, hk, hn⟩ := ih h (lt_of_le_of_lt (Nat.mod_le _ _) hlt)
      refine ⟨k + 1, by rw [List.length_cons, hk]; omega, fun hs => ?_⟩
      rw [show shift + 7 * (k + 1) + 6 = shift + 7 + 7 * k + 6 by omega]
      exact hn (by omega)
    · rw [if_neg hb] at h
      injection h with h
      injection h with hval hrest
      refine ⟨0, by rw [List.length_cons, hrest], fun hs => ?_⟩
      have h6 : (2 : Nat) ^ (shift + 6) = 64 * 2 ^ shift := by
        rw [pow_add]
        ring
      have hle : (2 : Nat) ^ (shift + 7) ≤ 2 ^ 63 := Nat.pow_le_pow_right (by norm_num) (by omega)
      have hcast : ((2 ^ (shift + 6) : Nat) : Int) = 2 ^ (shift + 6) := by push_cast; rfl
      rw [Nat.mod_eq_of_lt (show value + b.toNat % 128 * 2 ^ shift < 2 ^ 64 by omega)] at hval
      rw [Nat.mul_zero, Nat.add_zero, ← hcast, ← hval]
      by_cases hneg : 64 ≤ b.toNat % 128
      · have hge : 64 * 2 ^ shift ≤ b.toNat % 128 * 2 ^ shift := Nat.mul_le_mul_right _ hneg
        have e8 : 256 ^ 8 = 2 ^ 64 := by norm_num
        rw [if_pos ⟨hneg, by omega⟩, toSigned, e8]
        generalize b.toNat % 128 * 2 ^ shift = d at hge hlt ⊢
        rw [if_neg (by omega)]
        omega
      · have hge : b.toNat % 128 * 2 ^ shift ≤ 63 * 2 ^ shift := Nat.mul_le_mul_right _ (by omega)
        rw [if_neg (fun h => hneg h.1), toSigned, if_pos (by norm_num; omega)]
        omega

theorem encodeS_shortest {bytes rest : List UInt8} {v : Int}
    (h : decodeSLEB128 bytes = some (v, rest)) :
    (encodeSLEB128 v).length + rest.length ≤ bytes.length := by
  obtain ⟨k, hk, hv⟩ := decodeSLoop_range h Nat.one_pos
  have h10 : (encodeSLEB128 v).length ≤ 10 := encodeSLoop_length_le _ 10 v
  by_cases hs : 0 + 7 * (k + 1) < 64
  · obtain ⟨h1, h2⟩ := hv hs
    rw [Nat.zero_add] at h1 h2
    have e : encodeSLEB128 v = encodeSLoop (decide (v < 0)) (k + 1) v := by
      rw [encodeSLEB128, show 10 = k + (9 - k) + 1 by omega]
      exact encodeSLoop_enough k (9 - k) v rfl h1 h2
    have := encodeSLoop_length_le (decide (v < 0)) (k + 1) v
    rw [e]
    omega
  · omega

/-- both forms are read back up to their last byte, and are the shortest bytes of their number -/
theorem leb128_right :
    (∀ (v : Int) (rest : List UInt8), -2 ^ 63 ≤ v → v < 2 ^ 63 →
      decodeSLEB128 (encodeSLEB128 v ++ rest) = some (v, rest)) ∧
    (∀ (n : Nat) (rest : List UInt8), n < 2 ^ 64 →
      decodeULEB128 (encodeULEB128 n ++ rest) = some (n, rest)) ∧
    (∀ (v : Int) (bytes rest : List UInt8), decodeSLEB128 bytes = some (v, rest) →
      (encodeSLEB128 v).length + rest.length ≤ bytes.length) ∧
    ∀ (n : Nat) (bytes rest : List UInt8), decodeULEB128 bytes = some (n, rest) →
      (encodeULEB128 n).length + rest.length ≤ bytes.length :=
  ⟨fun _ rest h1 h2 => decodeS_encodeS h1 h2 rest, fun _ rest h => decodeU_encodeU h rest,
    fun _ _ _ h => encodeS_shortest h, fun _ _ _ h => encodeU_shortest h⟩

theorem leb128_right_least :
    decodeSLEB128 (encodeSLEB128 (-2 ^ 63) ++ [7]) = some (-2 ^ 63, [7]) ∧
      (encodeSLEB128 (-2)).length + 1 ≤ [0xFE, 0x7F, 7].length :=
  ⟨leb128_right.1 _ _ (by norm_num) (by norm_num),
    leb128_right.2.2.1 (-2) [0xFE, 0x7F, 7] [7] (by decide)⟩

end Leb128
