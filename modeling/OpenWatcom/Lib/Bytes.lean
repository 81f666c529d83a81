import Mathlib

/-!
# Byte buffers: reading, overwriting, little-endian fields

A C buffer is a list read with `byteAt` (a read past the end gives `0`) and written with
`writeBytes` (a write past the end is lost).

* `byteAt_append_left`, `byteAt_append_right`   reads of a concatenation;
* `byteAt_writeBytes`   what a read sees after a write, `writeBytes_frame` outside of it;
* `leNat_leBytes`   a little-endian field reads back as the number written;
* `toSigned_ofSigned`   two's complement numbers of `n` bytes;
* `low_bytes_iff`   congruent numbers agree in their low bytes.
-/

namespace Bytes

/-! ## reading -/

section
variable {α : Type} [Inhabited α]

/-- the element at position `i` of a buffer -/
def byteAt (c : List α) (i : Nat) : α := c.getD i default

theorem byteAt_eq_getElem (xs : List α) (i : Nat) (h : i < xs.length) : byteAt xs i = xs[i] := by
  unfold byteAt
  rw [List.getD_eq_getElem?_getD, List.getElem?_eq_getElem h, Option.getD_some]

theorem byteAt_append_left (a b : List α) (i : Nat) (h : i < a.length) :
    byteAt (a ++ b) i = byteAt a i := by
  unfold byteAt
  rw [List.getD_eq_getElem?_getD, List.getD_eq_getElem?_getD, List.getElem?_append_left h]

theorem byteAt_append_right (a b : List α) (i : Nat) :
    byteAt (a ++ b) (a.length + i) = byteAt b i := by
  unfold byteAt
  rw [List.getD_eq_getElem?_getD, List.getD_eq_getElem?_getD,
    List.getElem?_append_right (Nat.le_add_right _ _), Nat.add_sub_cancel_left]

theorem byteAt_drop (c : List α) (p i : Nat) : byteAt (c.drop p) i = byteAt c (p + i) := by
  unfold byteAt
  rw [List.getD_eq_getElem?_getD, List.getD_eq_getElem?_getD, List.getElem?_drop]

theorem byteAt_take (c : List α) (n i : Nat) (h : i < n) : byteAt (c.take n) i = byteAt c i := by
  unfold byteAt
  rw [List.getD_eq_getElem?_getD, List.getD_eq_getElem?_getD, List.getElem?_take_of_lt h]

@[simp] theorem byteAt_cons_zero (x : α) (c : List α) : byteAt (x :: c) 0 = x := rfl

@[simp] theorem byteAt_cons_succ (x : α) (c : List α) (i : Nat) :
    byteAt (x :: c) (i + 1) = byteAt c i := rfl

/-- two buffers of one length that agree everywhere are one buffer -/
theorem ext_byteAt (a b : List α) (hl : a.length = b.length)
    (h : ∀ i, i < a.length → byteAt a i = byteAt b i) : a = b := by
  apply List.ext_getElem hl
  intro i h1 h2
  have hi := h i h1
  rwa [byteAt_eq_getElem a i h1, byteAt_eq_getElem b i h2] at hi

/-- the `n` elements at position `p` -/
def slice (c : List α) (p n : Nat) : List α := (List.range n).map fun i => byteAt c (p + i)

@[simp] theorem slice_length (c : List α) (p n : Nat) : (slice c p n).length = n := by
  simp [slice]

theorem byteAt_slice (c : List α) (p n i : Nat) (h : i < n) :
    byteAt (slice c p n) i = byteAt c (p + i) := by
  rw [byteAt_eq_getElem _ _ (by simpa using h)]
  simp [slice]

theorem slice_eq_iff (c d : List α) (p q n : Nat) :
    slice c p n = slice d q n ↔ ∀ i, i < n → byteAt c (p + i) = byteAt d (q + i) := by
  constructor
  · intro h i hi
    rw [← byteAt_slice c p n i hi, h, byteAt_slice d q n i hi]
  · intro h
    apply ext_byteAt _ _ (by simp)
    intro i hi
    rw [slice_length] at hi
    rw [byteAt_slice c p n i hi, byteAt_slice d q n i hi, h i hi]

theorem slice_add (c : List α) (p m n : Nat) :
    slice c p (m + n) = slice c p m ++ slice c (p + m) n := by
  simp only [slice, List.range_add, List.map_append, List.map_map]
  congr 1
  apply List.map_congr_left
  intro i _
  rw [Function.comp_apply, Nat.add_assoc]

theorem slice_eq_take (c : List α) (p n : Nat) (h : p + n ≤ c.length) :
    slice c p n = (c.drop p).take n := by
  apply ext_byteAt
  · rw [slice_length, List.length_take, List.length_drop]
    omega
  · intro i hi
    rw [slice_length] at hi
    rw [byteAt_slice _ _ _ _ hi, byteAt_take _ _ _ hi, byteAt_drop]

/-- the middle part of a concatenation -/
theorem slice_append (a b c : List α) : slice (a ++ (b ++ c)) a.length b.length = b := by
  apply ext_byteAt _ _ (by simp)
  intro i hi
  rw [slice_length] at hi
  rw [byteAt_slice _ _ _ _ hi, byteAt_append_right, byteAt_append_left _ _ _ hi]

end

/-! ## overwriting -/

section
variable {α : Type} [Inhabited α]

/-- store the elements `ys` at position `p` -/
def writeBytes (xs : List α) (p : Nat) : List α → List α
  | [] => xs
  | y :: ys => writeBytes (xs.set p y) (p + 1) ys

omit [Inhabited α] in
theorem writeBytes_cons (xs : List α) (p : Nat) (y : α) (ys : List α) :
    writeBytes xs p (y :: ys) = writeBytes (xs.set p y) (p + 1) ys := rfl

omit [Inhabited α] in
@[simp] theorem writeBytes_length (xs : List α) (p : Nat) (ys : List α) :
    (writeBytes xs p ys).length = xs.length := by
  induction ys generalizing xs p with
  | nil => rfl
  | cons y ys ih => rw [writeBytes_cons, ih, List.length_set]

theorem byteAt_set_ne (xs : List α) (p i : Nat) (y : α) (h : i ≠ p) :
    byteAt (xs.set p y) i = byteAt xs i := by
  unfold byteAt
  rw [List.getD_eq_getElem?_getD, List.getD_eq_getElem?_getD, List.getElem?_set_ne h.symm]

theorem byteAt_set_self (xs : List α) (p : Nat) (y : α) (h : p < xs.length) :
    byteAt (xs.set p y) p = y := by
  unfold byteAt
  rw [List.getD_eq_getElem?_getD, List.getElem?_set_self h, Option.getD_some]

/-- a write leaves everything outside its range alone -/
theorem writeBytes_frame (xs : List α) (p : Nat) (ys : List α) (i : Nat)
    (h : i < p ∨ p + ys.length ≤ i) : byteAt (writeBytes xs p ys) i = byteAt xs i := by
  induction ys generalizing xs p with
  | nil => rfl
  | cons y ys ih =>
    rw [List.length_cons] at h
    rw [writeBytes_cons, ih _ _ (by omega), byteAt_set_ne _ _ _ _ (by omega)]

theorem byteAt_writeBytes (xs : List α) (p : Nat) (ys : List α) (i : Nat) (hi : i < ys.length)
    (hp : p + ys.length ≤ xs.length) :
    byteAt (writeBytes xs p ys) (p + i) = byteAt ys i := by
  induction ys generalizing xs p i with
  | nil => exact absurd hi (Nat.not_lt_zero _)
  | cons y ys ih =>
    rw [List.length_cons] at hi hp
    rw [writeBytes_cons]
    cases i with
    | zero =>
      rw [writeBytes_frame _ _ _ _ (Or.inl (by omega)), Nat.add_zero,
        byteAt_set_self _ _ _ (by omega), byteAt_cons_zero]
    | succ i =>
      have e : p + (i + 1) = p + 1 + i := by omega
      rw [e, ih _ _ i (by omega) (by rw [List.length_set]; omega), byteAt_cons_succ]

end

/-! ## little-endian numbers -/

/-- the `n` low bytes of `v`, lowest first -/
def leBytes : Nat → Nat → List UInt8
  | 0, _ => []
  | n + 1, v => UInt8.ofNat v :: leBytes n (v / 256)

/-- the number whose bytes, lowest first, are `bs` -/
def leNat : List UInt8 → Nat
  | [] => 0
  | b :: bs => b.toNat + 256 * leNat bs

@[simp] theorem leBytes_length (n v : Nat) : (leBytes n v).length = n := by
  induction n generalizing v with
  | zero => rfl
  | succ n ih => rw [leBytes, List.length_cons, ih]

theorem leNat_cons (b : UInt8) (bs : List UInt8) : leNat (b :: bs) = b.toNat + 256 * leNat bs := rfl

theorem leNat_lt (bs : List UInt8) : leNat bs < 256 ^ bs.length := by
  induction bs with
  | nil => simp [leNat]
  | cons b bs ih =>
    have hb := b.toNat_lt
    rw [leNat_cons, List.length_cons, pow_succ]
    omega

theorem leNat_leBytes (n v : Nat) : leNat (leBytes n v) = v % 256 ^ n := by
  induction n generalizing v with
  | zero => simp [leBytes, leNat, Nat.mod_one]
  | succ n ih =>
    have e : (UInt8.ofNat v).toNat = v % 256 := by simp
    rw [leBytes, leNat_cons, ih, e, pow_succ, Nat.mul_comm (256 ^ n) 256, Nat.mod_mul]

theorem leBytes_leNat (bs : List UInt8) : leBytes bs.length (leNat bs) = bs := by
  induction bs with
  | nil => rfl
  | cons b bs ih =>
    have hb := b.toNat_lt
    have e1 : (b.toNat + 256 * leNat bs) / 256 = leNat bs := by omega
    have e2 : UInt8.ofNat (b.toNat + 256 * leNat bs) = b := by
      apply UInt8.toNat_inj.mp
      rw [UInt8.toNat_ofNat']
      omega
    rw [List.length_cons, leBytes, leNat_cons, e1, e2, ih]

theorem leNat_inj (a b : List UInt8) (hl : a.length = b.length) (h : leNat a = leNat b) : a = b := by
  rw [← leBytes_leNat a, ← leBytes_leNat b, hl, h]

/-! ## two's complement -/

/-- the value of an `n`-byte pattern read as a signed number -/
def toSigned (n v : Nat) : Int := if v < 256 ^ n / 2 then v else (v : Int) - (256 ^ n : Nat)

/-- the `n`-byte pattern of a signed number -/
def ofSigned (n : Nat) (i : Int) : Nat := (i % (256 ^ n : Nat)).toNat

theorem ofSigned_lt (n : Nat) (i : Int) : ofSigned n i < 256 ^ n := by
  have hp : (0 : Int) < (256 ^ n : Nat) := by positivity
  have h1 := Int.emod_nonneg i (ne_of_gt hp)
  have h2 := Int.emod_lt_of_pos i hp
  unfold ofSigned
  omega

theorem toSigned_ofSigned (n : Nat) (hn : 0 < n) (i : Int) (hlo : -(256 ^ n / 2 : Nat) ≤ i)
    (hhi : i < (256 ^ n / 2 : Nat)) : toSigned n (ofSigned n i) = i := by
  obtain ⟨m, rfl⟩ : ∃ m, n = m + 1 := ⟨n - 1, by omega⟩
  have e : 256 ^ (m + 1) = 2 * (256 ^ (m + 1) / 2) := by rw [pow_succ]; omega
  unfold toSigned ofSigned
  generalize 256 ^ (m + 1) / 2 = d at e hlo hhi
  rw [e]
  by_cases h : 0 ≤ i
  · have h1 : i % ((2 * d : Nat) : Int) = i := Int.emod_eq_of_lt h (by omega)
    rw [h1, if_pos (by omega)]
    omega
  · have h1 : i % ((2 * d : Nat) : Int) = i + (2 * d : Nat) := by
      rw [← Int.add_emod_right]
      exact Int.emod_eq_of_lt (by omega) (by omega)
    rw [h1, if_neg (by omega)]
    omega

theorem ofSigned_toSigned (n v : Nat) (h : v < 256 ^ n) : ofSigned n (toSigned n v) = v := by
  unfold toSigned ofSigned
  generalize 256 ^ n = d at h
  by_cases hv : v < d / 2
  · rw [if_pos hv, Int.emod_eq_of_lt (by omega) (by omega)]
    omega
  · rw [if_neg hv]
    have h1 : ((v : Int) - (d : Int)) % (d : Int) = v := by
      rw [Int.sub_emod_right]
      exact Int.emod_eq_of_lt (by omega) (by omega)
    rw [h1]
    omega

/-! ## low bytes -/

theorem leBytes_take (m n v : Nat) (h : m ≤ n) : (leBytes n v).take m = leBytes m v := by
  induction m generalizing n v with
  | zero => rfl
  | succ m ih =>
    obtain ⟨k, rfl⟩ : ∃ k, n = k + 1 := ⟨n - 1, by omega⟩
    rw [leBytes, leBytes, List.take_succ_cons, ih k (v / 256) (by omega)]

theorem leBytes_inj (m v w : Nat) : leBytes m v = leBytes m w ↔ v % 256 ^ m = w % 256 ^ m := by
  rw [← leNat_leBytes, ← leNat_leBytes]
  exact ⟨fun h => by rw [h], fun h => leNat_inj _ _ (by simp) h⟩

theorem ofSigned_emod (m n : Nat) (h : m ≤ n) (d : Int) :
    ((ofSigned n d % 256 ^ m : Nat) : Int) = d % (256 ^ m : Nat) := by
  have hp : (0 : Int) < (256 ^ n : Nat) := by positivity
  have hd : ((256 ^ m : Nat) : Int) ∣ (256 ^ n : Nat) := by
    exact_mod_cast pow_dvd_pow 256 h
  rw [Int.natCast_emod, ofSigned, Int.toNat_of_nonneg (Int.emod_nonneg _ (ne_of_gt hp)),
    Int.emod_emod_of_dvd _ hd]

/-- two numbers agree in their `m` low bytes when they are congruent -/
theorem low_bytes_iff (m n : Nat) (h : m ≤ n) (d e : Int) :
    (∀ i, i < m → byteAt (leBytes n (ofSigned n d)) i = byteAt (leBytes n (ofSigned n e)) i) ↔
      ((256 ^ m : Nat) : Int) ∣ d - e := by
  have key : (∀ i, i < m → byteAt (leBytes n (ofSigned n d)) i
      = byteAt (leBytes n (ofSigned n e)) i) ↔
      leBytes m (ofSigned n d) = leBytes m (ofSigned n e) := by
    rw [← leBytes_take m n _ h, ← leBytes_take m n _ h]
    constructor
    · intro hi
      apply ext_byteAt _ _ (by simp)
      intro i hlt
      have him : i < m := by
        rw [List.length_take] at hlt
        omega
      rw [byteAt_take _ _ _ him, byteAt_take _ _ _ him]
      exact hi i him
    · intro he i hi
      rw [← byteAt_take _ m _ hi, he, byteAt_take _ m _ hi]
  rw [key, leBytes_inj, ← Int.natCast_inj, ofSigned_emod m n h, ofSigned_emod m n h,
    Int.emod_eq_emod_iff_emod_sub_eq_zero, Int.dvd_iff_emod_eq_zero]

end Bytes
