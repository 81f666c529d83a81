import Mathlib.Data.BitVec
import Mathlib.Tactic.Ring
import OpenWatcom.Wl.Fixups

/-!
# Self-relative fixups

* `fieldBits`, `field`, `displacement`   what the field of a fixup holds, as a number;
* `fieldEnd`, `target`        the place a displacement counts from, and the one it leads to;
* `field_patchOffset`         what `patchOffset` adds to the field;
* `Fits`                      the distance to the target and the addend fit in the field;
* `resolved_reaches_iff`      a resolved fixup reports an error of its range or leads to its target if and
                              only if they fit.
-/

namespace Wl
open Bytes

/-! ## fields -/

/-- the bits that are patched; the fields of 24 and of 26 bits are the same -/
def kindBits : Nat → Nat
  | 1 => 8 | 2 => 16 | 3 => 21 | 5 => 26 | 6 => 26 | _ => 32

def fieldBits (type : FixType) : Nat := kindBits (fixGetOffset type)

def field (type : FixType) (data : List UInt8) : Nat :=
  leNat (data.take (offsetSizes (fixGetOffset type))) % 2 ^ fieldBits type

/-- a field counts in words with `FIX_SHIFT` -/
def scale (type : FixType) : Int := if Has type fixShift then 4 else 1

/-- the field with its sign -/
def signedField (type : FixType) (data : List UInt8) : Int :=
  Int.bmod (field type data) (2 ^ fieldBits type)

def displacement (type : FixType) (data : List UInt8) : Int := scale type * signedField type data

/-! ## places -/

section
variable (lk : Link) (fix : FixReloData)

/-- where an address lies in the memory model of the format -/
def place (a : TargAddr) : Off :=
  if Has lk.type mkLinearize then ((findGroup lk a.seg).map GroupEntry.linear).getD 0 + a.off
  else if Has lk.type (mk32bit ||| mkQnx) then a.off
  else if Has lk.type mkDos16m then (find16MSeg lk a.seg).setWidth 32 * 16 + a.off
  else a.seg.setWidth 32 <<< lk.segShift + a.off

/-- an absolute target is a linear address, so the field counts by its linear address too -/
def fieldPlace : Off :=
  if Has fix.type fixAbs ∧ ¬Has lk.type mkLinearize ∧ Has lk.type (mk32bit ||| mkQnx) then
    place lk fix.locAddr + ((findGroup lk fix.locAddr.seg).map GroupEntry.linear).getD 0
  else place lk fix.locAddr

/-- the end of the field; with `FIX_NOADJ` the addend counts from its start -/
def fieldEnd : Off :=
  fieldPlace lk fix + if Has fix.type fixNoadj then 0 else BitVec.ofNat 32 (calcFixupSize fix.type)

def target : Off := place lk fix.tgtAddr

/-- from where a displacement counts to the target -/
def distance : Off := target lk fix - fieldEnd lk fix

/-- the distance in the units of the field -/
def steps : Int := (distance lk fix).toInt / scale fix.type

/-- the patched field leads to the target and the addend that was in the field -/
def Reaches (data : List UInt8) : Prop :=
  fieldEnd lk fix + BitVec.ofInt 32 (displacement fix.type data)
    = target lk fix + BitVec.ofInt 32 (displacement fix.type fix.data)

/-- the part of a distance that is added to a field: with `FIX_HIGH` the bits above a short field -/
def part (type : FixType) (val : Off) : Nat :=
  if Has type fixHigh ∧ fieldBits type ≤ 16 then val.toNat / (scale type).toNat / 2 ^ fieldBits type
  else val.toNat / (scale type).toNat

/-- the distance is whole steps, the sum with the addend fits in the field, and where only the high part of
the distance is added it is no other than the distance for the field -/
structure Fits : Prop where
  aligned : scale fix.type ∣ (distance lk fix).toInt
  fits : fieldBits fix.type < 32 →
    -2 ^ (fieldBits fix.type - 1) ≤ signedField fix.type fix.data + steps lk fix ∧
      signedField fix.type fix.data + steps lk fix < 2 ^ (fieldBits fix.type - 1)
  whole : Has fix.type fixHigh → fieldBits fix.type ≤ 16 →
    (2 ^ fieldBits fix.type : Int) ∣ part fix.type (distance lk fix) - steps lk fix

end

/-! ## what is patched -/

theorem take_mput (size : Nat) (data : List UInt8) (val : Off) :
    leNat ((mput size data val).take size) = val.toNat % 256 ^ size := by
  rw [mput, List.take_left' (leBytes_length _ _), leNat_leBytes]

theorem mget_toNat {size : Nat} (h : size ≤ 4) (data : List UInt8) :
    (mget size data).toNat = leNat (data.take size) := by
  have hlt := leNat_lt (data.take size)
  have hlen : (data.take size).length ≤ 4 := by
    rw [List.length_take]
    omega
  have hpow : 256 ^ (data.take size).length ≤ 256 ^ 4 := Nat.pow_le_pow_right (by omega) hlen
  rw [mget, BitVec.toNat_ofNat, Nat.mod_eq_of_lt (by omega)]

theorem scale_cases (type : FixType) :
    (Has type fixShift ∧ scale type = 4) ∨ (¬Has type fixShift ∧ scale type = 1) := by
  by_cases h : Has type fixShift
  · exact Or.inl ⟨h, if_pos h⟩
  · exact Or.inr ⟨h, if_neg h⟩

theorem scaled_toNat (type : FixType) (val : Off) :
    (if Has type fixShift then val >>> 2 else val).toNat = val.toNat / (scale type).toNat := by
  rcases scale_cases type with ⟨h, e⟩ | ⟨h, e⟩
  · rw [if_pos h, e, BitVec.toNat_ushiftRight, Nat.shiftRight_eq_div_pow]
    rfl
  · rw [if_neg h, e]
    exact (Nat.div_one _).symm

theorem high_toNat (type : FixType) (bits : Nat) (val : Off) :
    (high type bits val).toNat = if Has type fixHigh then val.toNat / 2 ^ bits else val.toNat := by
  rw [high]
  split_ifs
  · rw [BitVec.toNat_ushiftRight, Nat.shiftRight_eq_div_pow]
  · rfl

/-- bits below `k` come from the second word -/
theorem masked_mod (k : Nat) (hk : k ≤ 32) (a b : Off) :
    ((a &&& ~~~BitVec.ofNat 32 (2 ^ k - 1)) ||| (b &&& BitVec.ofNat 32 (2 ^ k - 1))).toNat % 2 ^ k
      = b.toNat % 2 ^ k := by
  refine Nat.eq_of_testBit_eq fun i => ?_
  rw [Nat.testBit_mod_two_pow, Nat.testBit_mod_two_pow]
  by_cases h : i < k
  · have hm : (BitVec.ofNat 32 (2 ^ k - 1)).getLsbD i = true := by
      rw [BitVec.getLsbD_ofNat, Nat.testBit_two_pow_sub_one]
      simp only [decide_eq_true h, Bool.and_true, decide_eq_true_eq]
      omega
    rw [BitVec.testBit_toNat, BitVec.testBit_toNat, BitVec.getLsbD_or, BitVec.getLsbD_and,
      BitVec.getLsbD_and, BitVec.getLsbD_not, hm]
    simp
  · simp [h]

theorem getS16_mod (code : List UInt8) :
    (getS16 code).toNat % 2 ^ 16 = leNat (code.take 2) % 2 ^ 16 := by
  rw [getS16, BitVec.toNat_signExtend, BitVec.toNat_setWidth, BitVec.toNat_setWidth,
    mget_toNat (by norm_num)]
  split_ifs <;> omega

theorem low16_toNat (v : Off) : (v &&& 0xFFFF).toNat = v.toNat % 2 ^ 16 := by
  rw [BitVec.toNat_and]
  exact Nat.and_two_pow_sub_one_eq_mod v.toNat 16

/-- the overflow of a signed field does not change its 16 bits -/
theorem patchOffset16_take (type : FixType) (code : List UInt8) (v : Off) (isdelta : Bool)
    (msgs : List Msg) :
    leNat ((patchOffset16 type code v isdelta msgs).data.take 2) % 2 ^ 16
      = (leNat (code.take 2) + v.toNat) % 2 ^ 16 := by
  have hs := getS16_mod code
  have hu : (v + mget 2 code).toNat % 2 ^ 16 = (leNat (code.take 2) + v.toNat) % 2 ^ 16 := by
    rw [BitVec.toNat_add, mget_toNat (by norm_num)]
    omega
  have hv : (v + getS16 code).toNat % 2 ^ 16 = (leNat (code.take 2) + v.toNat) % 2 ^ 16 := by
    rw [BitVec.toNat_add]
    omega
  have hd : ((v + getS16 code &&& 0xFFFF) - 0x10000).toNat % 2 ^ 16
      = (leNat (code.take 2) + v.toNat) % 2 ^ 16 := by
    rw [← hv, BitVec.toNat_sub, low16_toNat]
    show (2 ^ 32 - 65536 + (v + getS16 code).toNat % 2 ^ 16) % 2 ^ 32 % 2 ^ 16 = _
    omega
  have hl : (v + getS16 code &&& 0xFFFF).toNat % 2 ^ 16
      = (leNat (code.take 2) + v.toNat) % 2 ^ 16 := by
    rw [low16_toNat]
    omega
  have key : ∀ w : Off, leNat ((mput 2 code w).take 2) % 2 ^ 16 = w.toNat % 2 ^ 16 := by
    intro w
    rw [take_mput]
    omega
  rw [patchOffset16]
  dsimp only
  split_ifs
  · exact (key _).trans hd
  · exact (key _).trans hl
  · exact (key _).trans hv
  · exact (key _).trans hv
  · exact (key _).trans hv
  · exact (key _).trans hu

theorem patchMasked_take (k : Nat) (hk : k ≤ 32) (code : List UInt8) (v : Off) (msgs : List Msg) :
    leNat ((patchMasked (BitVec.ofNat 32 (2 ^ k - 1)) code v msgs).data.take 4) % 2 ^ k
      = (leNat (code.take 4) + v.toNat) % 2 ^ k := by
  have h32 : (2 : Nat) ^ k ∣ 2 ^ 32 := Nat.pow_dvd_pow 2 hk
  rw [patchMasked, take_mput]
  show _ % 2 ^ 32 % 2 ^ k = _
  rw [Nat.mod_mod_of_dvd _ h32, masked_mod k hk, BitVec.toNat_add, Nat.mod_mod_of_dvd _ h32,
    mget_toNat (by norm_num), Nat.add_comm]

/-- the distance in words with `FIX_SHIFT` -/
def shifted (type : FixType) (val : Off) : Off := if Has type fixShift then val >>> 2 else val

theorem part_short {type : FixType} (h : fieldBits type ≤ 16) (val : Off) :
    part type val = if Has type fixHigh then (shifted type val).toNat / 2 ^ fieldBits type
      else (shifted type val).toNat := by
  rw [part, shifted, scaled_toNat]
  simp only [h, and_true]

theorem part_long {type : FixType} (h : ¬fieldBits type ≤ 16) (val : Off) :
    part type val = (shifted type val).toNat := by
  rw [part, shifted, scaled_toNat, if_neg fun hc => h hc.2]

section
variable {type : FixType} (code : List UInt8) {val : Off} (hv : val ≠ 0) (isdelta : Bool)

include hv

theorem field_patch8 (hk : fixGetOffset type = 1) :
    field type (patchOffset type code val isdelta).data
      = (field type code + part type val) % 2 ^ fieldBits type := by
  have e : (patchOffset type code val isdelta).data
      = mput 1 code (mget 1 code + high type 8 (shifted type val)) := by
    rw [patchOffset, if_neg hv]
    simp only [hk]
    rfl
  have e1 : fieldBits type = 8 := by rw [fieldBits, hk]; rfl
  have e2 : offsetSizes (fixGetOffset type) = 1 := by rw [hk]; rfl
  rw [part_short (by omega), field, field, e, e1, e2, take_mput, BitVec.toNat_add,
    mget_toNat (by norm_num), high_toNat]
  split_ifs <;> omega

theorem field_patch16 (hk : fixGetOffset type = 2) :
    field type (patchOffset type code val isdelta).data
      = (field type code + part type val) % 2 ^ fieldBits type := by
  obtain ⟨msgs, e⟩ : ∃ msgs, patchOffset type code val isdelta
      = patchOffset16 type code (high type 16 (shifted type val)) isdelta msgs := by
    rw [patchOffset, if_neg hv]
    simp only [hk]
    exact ⟨_, rfl⟩
  have e1 : fieldBits type = 16 := by rw [fieldBits, hk]; rfl
  have e2 : offsetSizes (fixGetOffset type) = 2 := by rw [hk]; rfl
  rw [part_short (by omega), field, field, e, e1, e2, patchOffset16_take, high_toNat]
  split_ifs <;> omega

theorem field_patchMasked {k : Nat} (hk : fixGetOffset type = 3 ∧ k = 21 ∨
    fixGetOffset type = 5 ∧ k = 26 ∨ fixGetOffset type = 6 ∧ k = 26) :
    field type (patchOffset type code val isdelta).data
      = (field type code + part type val) % 2 ^ fieldBits type := by
  obtain ⟨msgs, e⟩ : ∃ msgs, patchOffset type code val isdelta
      = patchMasked (BitVec.ofNat 32 (2 ^ k - 1)) code (shifted type val) msgs := by
    rw [patchOffset, if_neg hv]
    rcases hk with ⟨hk, rfl⟩ | ⟨hk, rfl⟩ | ⟨hk, rfl⟩
    all_goals
      simp only [hk]
      exact ⟨_, rfl⟩
  have e1 : fieldBits type = k := by
    rcases hk with ⟨hk, rfl⟩ | ⟨hk, rfl⟩ | ⟨hk, rfl⟩ <;> rw [fieldBits, hk] <;> rfl
  have e2 : offsetSizes (fixGetOffset type) = 4 := by
    rcases hk with ⟨hk, rfl⟩ | ⟨hk, rfl⟩ | ⟨hk, rfl⟩ <;> rw [hk] <;> rfl
  have hk26 : 16 < k ∧ k ≤ 32 := by omega
  rw [part_long (by omega), field, field, e, e1, e2, patchMasked_take k hk26.2, Nat.mod_add_mod]

theorem field_patch32 (hk : fixGetOffset type = 4) :
    field type (patchOffset type code val isdelta).data
      = (field type code + part type val) % 2 ^ fieldBits type := by
  have e : (patchOffset type code val isdelta).data
      = mput 4 code (mget 4 code + shifted type val) := by
    rw [patchOffset, if_neg hv]
    simp only [hk]
    rfl
  have e1 : fieldBits type = 32 := by rw [fieldBits, hk]; rfl
  have e2 : offsetSizes (fixGetOffset type) = 4 := by rw [hk]; rfl
  rw [part_long (by omega), field, field, e, e1, e2, take_mput, BitVec.toNat_add,
    mget_toNat (by norm_num)]
  omega

end

/-- a field of one of the six kinds gets the part of the distance that belongs to it -/
theorem field_patchOffset {type : FixType} (h1 : 1 ≤ fixGetOffset type) (h6 : fixGetOffset type ≤ 6)
    (code : List UInt8) (val : Off) (isdelta : Bool) :
    field type (patchOffset type code val isdelta).data
      = (field type code + part type val) % 2 ^ fieldBits type := by
  by_cases hv : val = 0
  · have hp : part type val = 0 := by
      have hz : (0 : Off).toNat = 0 := rfl
      rw [hv, part, hz, Nat.zero_div, Nat.zero_div, ite_self]
    rw [patchOffset, if_pos hv, hp, Nat.add_zero, field, Nat.mod_mod]
  have hk : fixGetOffset type = 1 ∨ fixGetOffset type = 2 ∨ fixGetOffset type = 3 ∨
      fixGetOffset type = 4 ∨ fixGetOffset type = 5 ∨ fixGetOffset type = 6 := by omega
  rcases hk with hk | hk | hk | hk | hk | hk
  · exact field_patch8 code hv isdelta hk
  · exact field_patch16 code hv isdelta hk
  · exact field_patchMasked code hv isdelta (Or.inl ⟨hk, rfl⟩)
  · exact field_patch32 code hv isdelta hk
  · exact field_patchMasked code hv isdelta (Or.inr (Or.inl ⟨hk, rfl⟩))
  · exact field_patchMasked code hv isdelta (Or.inr (Or.inr ⟨hk, rfl⟩))

/-! ## where a patched field leads -/

theorem fieldBits_cases {type : FixType} (h1 : 1 ≤ fixGetOffset type) (h6 : fixGetOffset type ≤ 6) :
    fieldBits type = 8 ∨ fieldBits type = 16 ∨ fieldBits type = 21 ∨ fieldBits type = 26 ∨
      fieldBits type = 32 := by
  have hk : fixGetOffset type = 1 ∨ fixGetOffset type = 2 ∨ fixGetOffset type = 3 ∨
      fixGetOffset type = 4 ∨ fixGetOffset type = 5 ∨ fixGetOffset type = 6 := by omega
  rw [fieldBits]
  rcases hk with hk | hk | hk | hk | hk | hk <;> rw [hk] <;> decide

theorem toInt_toNat (dist : Off) : dist.toInt = dist.toNat ∨ dist.toInt = dist.toNat - 2 ^ 32 := by
  rw [BitVec.toInt_eq_toNat_cond]
  split_ifs
  · exact Or.inl rfl
  · exact Or.inr rfl

/-- the difference that two contents of a field make, as a condition on integers -/
theorem ofInt_eq_iff (z : Int) (dist : Off) :
    BitVec.ofInt 32 z = dist ↔ (2 ^ 32 : Int) ∣ z - dist.toInt := by
  rw [← BitVec.toInt_inj, BitVec.toInt_ofInt]
  have h1 := BitVec.le_toInt dist
  have h2 : dist.toInt < 2 ^ (32 - 1) := BitVec.toInt_lt
  rw [Int.bmod_def]
  norm_num at h1 h2 ⊢
  omega

theorem reaches_iff_dvd (lk : Link) (fix : FixReloData) (data : List UInt8) :
    Reaches lk fix data ↔ (2 ^ 32 : Int) ∣ scale fix.type *
      (signedField fix.type data - signedField fix.type fix.data) - (distance lk fix).toInt := by
  rw [← ofInt_eq_iff, Reaches, displacement, displacement, distance, mul_sub]
  have e : ∀ a b : Int, BitVec.ofInt 32 (a - b) = BitVec.ofInt 32 a - BitVec.ofInt 32 b := by
    intro a b
    rw [BitVec.eq_sub_iff_add_eq, ← BitVec.ofInt_add, sub_add_cancel]
  rw [e]
  generalize BitVec.ofInt 32 _ = x
  generalize BitVec.ofInt 32 _ = y
  constructor
  · intro h
    bv_omega
  · intro h
    bv_omega

/-- the arithmetic of a field of fewer than 32 bits: `b` and `b'` are its contents with their signs -/
theorem short_iff {m s b b' d : Int} {p : Nat} (hm : m = 2 ^ 8 ∨ m = 2 ^ 16 ∨ m = 2 ^ 21 ∨ m = 2 ^ 26)
    (hs : s = 4 ∨ s = 1) (hb : -(m / 2) ≤ b ∧ b < m / 2) (hb' : -(m / 2) ≤ b' ∧ b' < m / 2)
    (hd : -2 ^ 31 ≤ d ∧ d < 2 ^ 31) (hp : m ∣ b' - (b + p)) :
    (2 ^ 32 : Int) ∣ s * (b' - b) - d ↔
      s ∣ d ∧ (-(m / 2) ≤ b + d / s ∧ b + d / s < m / 2) ∧ m ∣ p - d / s := by
  rcases hs with rfl | rfl
  · rcases hm with rfl | rfl | rfl | rfl <;> norm_num at * <;> omega
  · rcases hm with rfl | rfl | rfl | rfl <;> norm_num at * <;> omega

/-- without `FIX_HIGH` the part is the distance in steps, modulo the field -/
theorem part_steps {m s d : Int} {u : Nat} (hm : m = 2 ^ 8 ∨ m = 2 ^ 16 ∨ m = 2 ^ 21 ∨ m = 2 ^ 26)
    (hs : s = 4 ∨ s = 1) (hd : d = u ∨ d = u - 2 ^ 32) : m ∣ (u / s.toNat : Nat) - d / s := by
  rcases hs with rfl | rfl
  · have e : (4 : Int).toNat = 4 := rfl
    rw [e]
    rcases hm with rfl | rfl | rfl | rfl <;> norm_num at * <;> omega
  · have e : (1 : Int).toNat = 1 := rfl
    rw [e]
    rcases hm with rfl | rfl | rfl | rfl <;> norm_num at * <;> omega

/-- the arithmetic of a field of 32 bits -/
theorem long_iff {s b b' d : Int} {u : Nat} (hs : s = 4 ∨ s = 1) (hd : d = u ∨ d = u - 2 ^ 32)
    (hp : (2 ^ 32 : Int) ∣ b' - (b + (u / s.toNat : Nat))) :
    (2 ^ 32 : Int) ∣ s * (b' - b) - d ↔ s ∣ d := by
  rcases hs with rfl | rfl
  · have e : (4 : Int).toNat = 4 := rfl
    rw [e] at hp
    norm_num at *
    omega
  · have e : (1 : Int).toNat = 1 := rfl
    rw [e] at hp
    norm_num at *
    omega

theorem signedField_bounds {type : FixType} (h1 : 1 ≤ fixGetOffset type) (h6 : fixGetOffset type ≤ 6)
    (data : List UInt8) :
    -(2 ^ fieldBits type / 2 : Int) ≤ signedField type data ∧
      signedField type data < 2 ^ fieldBits type / 2 := by
  have hpos : 0 < 2 ^ fieldBits type := by positivity
  have hlo := Int.le_bmod (x := field type data) hpos
  have hhi := Int.bmod_lt (x := field type data) hpos
  rw [signedField]
  generalize (field type data : Int).bmod (2 ^ fieldBits type) = z at *
  rcases fieldBits_cases h1 h6 with e | e | e | e | e <;> rw [e] at hlo hhi ⊢ <;>
    norm_num at * <;> omega

theorem signedField_patch {type : FixType} (h1 : 1 ≤ fixGetOffset type) (h6 : fixGetOffset type ≤ 6)
    (code : List UInt8) (val : Off) (isdelta : Bool) :
    (2 ^ fieldBits type : Int) ∣ signedField type (patchOffset type code val isdelta).data
      - (signedField type code + part type val) := by
  have e := field_patchOffset h1 h6 code val isdelta
  have d1 := Int.dvd_bmod_sub_self (x := field type (patchOffset type code val isdelta).data)
    (m := 2 ^ fieldBits type)
  have d2 := Int.dvd_bmod_sub_self (x := field type code) (m := 2 ^ fieldBits type)
  have d3 : ((2 ^ fieldBits type : Nat) : Int) ∣ (field type code + part type val : Nat)
      - (field type (patchOffset type code val isdelta).data : Nat) := by
    rw [e, Int.natCast_mod]
    exact Int.dvd_self_sub_emod
  rw [signedField, signedField]
  have d4 := Int.dvd_sub (Int.dvd_sub d1 d2) d3
  push_cast at d4 ⊢
  have r : ∀ x y f g p : Int, x - f - (y - g) - (g + p - f) = x - (y + p) := by
    intro x y f g p
    ring
  rwa [r] at d4

/-- what a resolved fixup does, in one statement for the six kinds of fields -/
theorem patch_reaches_iff (lk : Link) (fix : FixReloData) (h1 : 1 ≤ fixGetOffset fix.type)
    (h6 : fixGetOffset fix.type ≤ 6) :
    Reaches lk fix (patchOffset fix.type fix.data (distance lk fix) true).data ↔ Fits lk fix := by
  have hs := (scale_cases fix.type).imp And.right And.right
  have hb := signedField_bounds h1 h6 fix.data
  have hb' := signedField_bounds h1 h6 (patchOffset fix.type fix.data (distance lk fix) true).data
  have hp := signedField_patch h1 h6 fix.data (distance lk fix) true
  have hd := toInt_toNat (distance lk fix)
  have hlo := BitVec.le_toInt (distance lk fix)
  have hhi : (distance lk fix).toInt < 2 ^ (32 - 1) := BitVec.toInt_lt
  rw [reaches_iff_dvd]
  by_cases hw : fieldBits fix.type = 32
  · have hpart : part fix.type (distance lk fix)
        = (distance lk fix).toNat / (scale fix.type).toNat := by
      rw [part, if_neg (by omega)]
    rw [hpart, hw] at hp
    rw [long_iff hs hd hp]
    exact ⟨fun h => ⟨h, by omega, by omega⟩, Fits.aligned⟩
  · have hm : (2 ^ fieldBits fix.type : Int) = 2 ^ 8 ∨ (2 ^ fieldBits fix.type : Int) = 2 ^ 16 ∨
        (2 ^ fieldBits fix.type : Int) = 2 ^ 21 ∨ (2 ^ fieldBits fix.type : Int) = 2 ^ 26 := by
      rcases fieldBits_cases h1 h6 with e | e | e | e | e
      · exact Or.inl (by rw [e])
      · exact Or.inr (Or.inl (by rw [e]))
      · exact Or.inr (Or.inr (Or.inl (by rw [e])))
      · exact Or.inr (Or.inr (Or.inr (by rw [e])))
      · exact absurd e hw
    have hhalf : (2 ^ fieldBits fix.type / 2 : Int) = 2 ^ (fieldBits fix.type - 1) := by
      rcases fieldBits_cases h1 h6 with e | e | e | e | e <;> rw [e] <;> norm_num
    have hlow : ¬(Has fix.type fixHigh ∧ fieldBits fix.type ≤ 16) →
        (2 ^ fieldBits fix.type : Int) ∣ part fix.type (distance lk fix) - steps lk fix := by
      intro h
      rw [part, if_neg h]
      exact part_steps hm hs hd
    have hlt : fieldBits fix.type < 32 := by
      rcases fieldBits_cases h1 h6 with e | e | e | e | e <;> omega
    rw [short_iff hm hs hb hb' ⟨hlo, hhi⟩ hp, hhalf]
    constructor
    · intro ⟨ha, hr, hc⟩
      exact ⟨ha, fun _ => hr, fun _ _ => hc⟩
    · intro h
      refine ⟨h.aligned, h.fits hlt, ?_⟩
      by_cases hh : Has fix.type fixHigh ∧ fieldBits fix.type ≤ 16
      · exact h.whole hh.1 hh.2
      · exact hlow hh

/-! ## `CheckSpecials` -/

/-- a displacement is patched only for a self-relative fixup -/
theorem resolved_cases {lk : Link} {fix : FixReloData} {msgs : List Msg} {data : List UInt8}
    {handled : Bool} (h : checkSpecials lk fix = some (.resolved msgs data handled)) :
    Has fix.type fixRel ∧ ∃ off, selfRelOff lk fix = some off ∧
      resolve lk fix off = .resolved msgs data handled := by
  have hc : checkSelfRel lk fix = some (.resolved msgs data handled) := by
    rw [checkSpecials] at h
    dsimp only at h
    split_ifs at h
    all_goals first | exact h | injection Option.some.inj h
  rw [checkSelfRel] at hc
  by_cases hrel : Has fix.type fixRel
  · refine ⟨hrel, ?_⟩
    rw [if_neg (not_not.mpr hrel)] at hc
    rw [checkImported] at hc
    split_ifs at hc
    all_goals first | exact Option.map_eq_some_iff.mp hc | injection Option.some.inj hc
  · rw [if_pos hrel] at hc
    injection Option.some.inj hc

theorem patchOffset_msgs (type : FixType) (code : List UInt8) (val : Off) (isdelta : Bool) :
    Msg.fixupOffRange ∉ (patchOffset type code val isdelta).msgs := by
  have h16 : ∀ v m, (patchOffset16 type code v isdelta m).msgs = m := by
    intro v m
    rw [patchOffset16]
    dsimp only
    split_ifs <;> rfl
  by_cases hv : val = 0
  · rw [patchOffset, if_pos hv]
    exact List.not_mem_nil
  · have hm : Msg.fixupOffRange ∉ if Has type fixShift ∧ Has val 3 then [Msg.relNotAligned] else [] := by
      split_ifs <;> decide
    rw [patchOffset, if_neg hv]
    dsimp only
    split
    · exact hm
    · rwa [h16]
    · rwa [h16]
    · exact hm
    · exact hm
    · exact hm
    · exact hm
    · rw [List.mem_append]
      exact fun h => h.elim hm (by decide)

/-- the tests of the range compare the whole word of the type, which has `FIX_REL` in it -/
theorem resolve_msgs {lk : Link} {fix : FixReloData} (hrel : Has fix.type fixRel) {off : Off}
    {msgs : List Msg} {data : List UInt8} {handled : Bool}
    (h : resolve lk fix off = .resolved msgs data handled) :
    Msg.fixupOffRange ∉ msgs ∧ data = (patchOffset fix.type fix.data
      (if Has fix.type fixNoadj then off else off - BitVec.ofNat 32 (calcFixupSize fix.type)) true).data := by
  have n16 : fix.type ≠ fixOffset16 := by
    intro e
    rw [e] at hrel
    exact absurd hrel (by decide)
  have n21 : fix.type ≠ fixOffset21 := by
    intro e
    rw [e] at hrel
    exact absurd hrel (by decide)
  have n24 : fix.type ≠ fixOffset24 := by
    intro e
    rw [e] at hrel
    exact absurd hrel (by decide)
  rw [resolve] at h
  rw [if_neg n16, if_neg n21, if_neg n24, List.nil_append] at h
  injection h with e1 e2 e3
  exact ⟨e1 ▸ patchOffset_msgs _ _ _ _, e2.symm⟩

theorem sub_shiftLeft (a b : Off) (n : Nat) : (a - b) <<< n = a <<< n - b <<< n := by
  rw [BitVec.shiftLeft_eq_mul_twoPow, BitVec.shiftLeft_eq_mul_twoPow, BitVec.shiftLeft_eq_mul_twoPow,
    sub_mul]

theorem linear_sub (a b t l : Off) : a - b + (t - l) = a + t - (b + l) := by ring

/-- the distance that the code computes, in every memory model -/
theorem selfRelOff_place {lk : Link} {fix : FixReloData} {off : Off}
    (h : selfRelOff lk fix = some off) : off = target lk fix - fieldPlace lk fix := by
  rw [selfRelOff] at h
  rw [target, fieldPlace, place, place]
  by_cases h1 : Has lk.type mkLinearize
  · rw [if_pos h1] at h
    rw [if_pos h1, if_pos h1, if_neg fun hc => hc.2.1 h1, ← Option.some.inj h, ← linear_sub]
    cases findGroup lk fix.tgtAddr.seg <;> cases findGroup lk fix.locAddr.seg
    · exact congrArg (· + _) (sub_zero (0 : Off)).symm
    · rfl
    · exact congrArg (· + _) (sub_zero _).symm
    · rfl
  rw [if_neg h1] at h
  rw [if_neg h1, if_neg h1]
  by_cases h2 : Has lk.type (mk32bit ||| mkQnx)
  · rw [if_pos h2] at h
    rw [if_pos h2, if_pos h2]
    by_cases h3 : Has fix.type fixAbs
    · rw [if_pos h3] at h
      rw [if_pos ⟨h3, h1, h2⟩]
      obtain ⟨g, hg, e⟩ := Option.map_eq_some_iff.mp h
      rw [hg, ← e]
      exact sub_sub _ _ _
    · rw [if_neg h3] at h
      rw [if_neg fun hc => h3 hc.1]
      exact (Option.some.inj h).symm
  rw [if_neg h2] at h
  have habs : ¬(Has fix.type fixAbs ∧ ¬Has lk.type mkLinearize ∧ Has lk.type (mk32bit ||| mkQnx)) :=
    fun hc => h2 hc.2.2
  rw [if_neg h2, if_neg habs, if_neg h2]
  by_cases h3 : Has lk.type mkDos16m
  · rw [if_pos h3] at h
    rw [if_pos h3, if_pos h3, ← Option.some.inj h, sub_mul, linear_sub]
  · rw [if_neg h3] at h
    rw [if_neg h3, if_neg h3, ← Option.some.inj h, sub_shiftLeft, linear_sub]

theorem selfRelOff_distance {lk : Link} {fix : FixReloData} {off : Off}
    (h : selfRelOff lk fix = some off) :
    (if Has fix.type fixNoadj then off else off - BitVec.ofNat 32 (calcFixupSize fix.type))
      = distance lk fix := by
  rw [selfRelOff_place h, distance, fieldEnd]
  split_ifs
  · rw [add_zero]
  · rw [sub_sub]

/-- every resolved fixup with a field of one of the six kinds: it reports a range error, or its field leads to
the target and the addend, if and only if distance and addend fit in the field -/
theorem resolved_reaches_iff (lk : Link) (fix : FixReloData) (h1 : 1 ≤ fixGetOffset fix.type)
    (h6 : fixGetOffset fix.type ≤ 6) {msgs : List Msg} {data : List UInt8} {handled : Bool}
    (h : checkSpecials lk fix = some (.resolved msgs data handled)) :
    .fixupOffRange ∈ msgs ∨ Reaches lk fix data ↔ Fits lk fix := by
  obtain ⟨hrel, off, hoff, hres⟩ := resolved_cases h
  obtain ⟨hmsg, hdata⟩ := resolve_msgs hrel hres
  rw [or_iff_right hmsg, hdata, selfRelOff_distance hoff]
  exact patch_reaches_iff lk fix h1 h6

def dosLink : Link := ⟨mkDosExe, 4, false, []⟩

/-- a short jump at the start of a segment -/
def shortJump (dest : Off) : FixReloData :=
  ⟨[0], ⟨0, 0⟩, ⟨0, dest⟩, fixRel ||| fixOffset8, 0, false, false, false, 0, by decide⟩

theorem shortJump_near :
    .fixupOffRange ∈ ([] : List Msg) ∨ Reaches dosLink (shortJump 100) [99]
      ↔ Fits dosLink (shortJump 100) :=
  resolved_reaches_iff dosLink (shortJump 100) (by decide) (by decide)
    (by decide : checkSpecials dosLink (shortJump 100) = some (.resolved [] [99] true))

/-- over 512 bytes the displacement is cut to a byte, and no message is given -/
theorem shortJump_far :
    ¬∀ msgs data handled,
      checkSpecials dosLink (shortJump 512) = some (.resolved msgs data handled) →
      .fixupOffRange ∈ msgs ∨ Reaches dosLink (shortJump 512) data := by
  intro h
  rcases h [] [255] true (by decide) with hm | hr
  · exact absurd hm List.not_mem_nil
  · exact absurd hr (by rw [Reaches]; decide)

end Wl
