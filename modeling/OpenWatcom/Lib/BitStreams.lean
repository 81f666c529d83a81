import Mathlib

/-!
# Bits in bytes, the highest first

* `firstBits n x`, `bitsOf n v`     the first bits of a word, and a number in `n` bits
* `bitAt`, `Ahead`     a bit of a stream of bytes, and bits that stand in it from a place on
* `Pending`     bits that have been written: whole bytes, and the ones that fill no byte yet
* `byteBits_append`     bytes and bits are the same
-/

namespace BitStreams

/-- the first `n` bits of a word -/
def firstBits {w : ℕ} (n : ℕ) (x : BitVec w) : List Bool := (List.range n).map fun i => x.getMsbD i

@[simp]
theorem length_firstBits {w : ℕ} (n : ℕ) (x : BitVec w) : (firstBits n x).length = n := by
  rw [firstBits, List.length_map, List.length_range]

theorem getElem_firstBits {w n i : ℕ} (x : BitVec w) (h : i < (firstBits n x).length) :
    (firstBits n x)[i] = x.getMsbD i := by
  simp only [firstBits, List.getElem_map, List.getElem_range]

/-- a number in `n` bits -/
def bitsOf (n v : ℕ) : List Bool := (List.range n).map fun i => v.testBit (n - 1 - i)

theorem firstBits_eq {n : ℕ} (x : BitVec n) : firstBits n x = bitsOf n x.toNat := by
  refine List.map_congr_left fun i hi => ?_
  rw [BitVec.getMsbD_eq_getLsbD, decide_eq_true (List.mem_range.mp hi), Bool.true_and]
  rfl

theorem bitsOf_append (m : ℕ) {n a b : ℕ} (hb : b < 2 ^ n) :
    bitsOf m a ++ bitsOf n b = bitsOf (m + n) (2 ^ n * a + b) := by
  rw [bitsOf, bitsOf, bitsOf, List.range_add, List.map_append, List.map_map]
  congr 1
  · refine List.map_congr_left fun i hi => ?_
    have hi' := List.mem_range.mp hi
    rw [Nat.testBit_two_pow_mul_add a hb, if_neg (by omega)]
    congr 1
    omega
  · refine List.map_congr_left fun i hi => ?_
    have hi' := List.mem_range.mp hi
    show b.testBit (n - 1 - i) = Nat.testBit _ (m + n - 1 - (m + i))
    rw [Nat.testBit_two_pow_mul_add a hb, if_pos (by omega)]
    congr 1
    omega

theorem getMsbD_right {w i n : ℕ} (x : BitVec w) (hn : n ≤ i) (hi : i < w) :
    (x >>> n).getMsbD i = x.getMsbD (i - n) := by
  rw [BitVec.getMsbD_ushiftRight, decide_eq_true hi, decide_eq_false (not_lt.mpr hn)]
  rfl

theorem getMsbD_right_of_lt {w i n : ℕ} (x : BitVec w) (hi : i < n) : (x >>> n).getMsbD i = false := by
  rw [BitVec.getMsbD_ushiftRight, decide_eq_true hi]
  exact Bool.and_false _

/-- the bits of bytes -/
def byteBits (out : List UInt8) : List Bool := out.flatMap fun b => firstBits 8 b.toBitVec

theorem byteBits_append (a b : List UInt8) : byteBits (a ++ b) = byteBits a ++ byteBits b := List.flatMap_append

theorem byteBits_cons (b : UInt8) (out : List UInt8) : byteBits (b :: out) = firstBits 8 b.toBitVec ++ byteBits out :=
  List.flatMap_cons

@[simp]
theorem length_byteBits (out : List UInt8) : (byteBits out).length = 8 * out.length := by
  induction out with
  | nil => rfl
  | cons b out ih =>
    rw [byteBits_cons, List.length_append, length_firstBits, ih, List.length_cons]
    omega

/-! ## a stream that is read -/

section
variable {bytes : ℕ → UInt8} {p : ℕ} {a b : List Bool}

def bitAt (bytes : ℕ → UInt8) (p : ℕ) : Bool := (bytes (p / 8)).toBitVec.getMsbD (p % 8)

theorem bitAt_byte (bytes : ℕ → UInt8) (q : ℕ) {i : ℕ} (hi : i < 8) :
    bitAt bytes (8 * q + i) = (bytes q).toBitVec.getMsbD i := by
  rw [bitAt, show (8 * q + i) / 8 = q by omega, show (8 * q + i) % 8 = i by omega]

def Ahead (bytes : ℕ → UInt8) (p : ℕ) (l : List Bool) : Prop :=
  ∀ i, (h : i < l.length) → bitAt bytes (p + i) = l[i]

theorem ahead_append : Ahead bytes p (a ++ b) ↔ Ahead bytes p a ∧ Ahead bytes (p + a.length) b := by
  constructor
  · intro h
    refine ⟨fun i hi => ?_, fun i hi => ?_⟩
    · rw [h i (by rw [List.length_append]; omega), List.getElem_append_left hi]
    · rw [Nat.add_assoc, h (a.length + i) (by rw [List.length_append]; omega),
        List.getElem_append_right (Nat.le_add_right _ _)]
      simp only [Nat.add_sub_cancel_left]
  · rintro ⟨ha, hb⟩ i hi
    by_cases hlt : i < a.length
    · rw [List.getElem_append_left hlt]
      exact ha i hlt
    · obtain ⟨j, rfl⟩ := Nat.exists_eq_add_of_le (not_lt.mp hlt)
      rw [List.length_append] at hi
      rw [List.getElem_append_right (Nat.le_add_right _ _), ← Nat.add_assoc, hb j (by omega)]
      simp only [Nat.add_sub_cancel_left]

theorem ahead_firstBits {w n : ℕ} {x : BitVec w} :
    Ahead bytes p (firstBits n x) ↔ ∀ i < n, bitAt bytes (p + i) = x.getMsbD i := by
  constructor
  · intro h i hi
    rw [h i (by rwa [length_firstBits]), getElem_firstBits]
  · intro h i hi
    rw [getElem_firstBits]
    exact h i (by rwa [length_firstBits] at hi)

/-- bytes that stand in a stream -/
theorem ahead_byteBits {out : List UInt8} : ∀ {q : ℕ}, (∀ i, (h : i < out.length) → bytes (q + i) = out[i]) →
    Ahead bytes (8 * q) (byteBits out) := by
  induction out with
  | nil => exact fun _ i hi => absurd hi (Nat.not_lt_zero i)
  | cons b out ih =>
    intro q h
    rw [byteBits_cons, ahead_append]
    refine ⟨ahead_firstBits.mpr fun i hi => ?_, ?_⟩
    · rw [bitAt_byte bytes q hi]
      have h0 := h 0 (Nat.succ_pos _)
      rw [Nat.add_zero] at h0
      rw [h0, List.getElem_cons_zero]
    · rw [length_firstBits, ← Nat.mul_succ]
      refine ih fun i hi => ?_
      rw [Nat.succ_add_eq_add_succ, h (i + 1) (by rw [List.length_cons]; omega), List.getElem_cons_succ]

end

/-! ## a stream that is written -/

/-- the bytes that are out, and `n` bits in front of `rest` -/
def Pending (e : List Bool) (out : List UInt8) (n : ℕ) (rest : ℕ → Bool) : Prop :=
  e = byteBits out ++ (List.range n).map rest

section
variable {e : List Bool} {out : List UInt8} {n : ℕ} {rest : ℕ → Bool}

/-- eight bits are a byte -/
theorem Pending.byte (h : Pending e out (8 + n) rest) {b : UInt8} (hb : ∀ i < 8, b.toBitVec.getMsbD i = rest i) :
    Pending e (out ++ [b]) n fun i => rest (8 + i) := by
  have hrange : (List.range 8).map rest = firstBits 8 b.toBitVec :=
    List.map_congr_left fun i hi => (hb i (List.mem_range.mp hi)).symm
  rw [Pending] at h ⊢
  rw [h, List.range_add, List.map_append, hrange, byteBits_append, byteBits_cons, List.append_assoc, List.map_map]
  show _ = byteBits out ++ ((firstBits 8 b.toBitVec ++ []) ++ _)
  rw [List.append_nil]
  rfl

/-- bits behind those that are pending -/
theorem Pending.more (h : Pending e out n rest) {m : ℕ} (more next : ℕ → Bool) (hr : ∀ i < n, next i = rest i)
    (hm : ∀ i < m, next (n + i) = more i) : Pending (e ++ (List.range m).map more) out (n + m) next := by
  have h1 : (List.range n).map next = (List.range n).map rest :=
    List.map_congr_left fun i hi => hr i (List.mem_range.mp hi)
  have h2 : ((List.range m).map fun i => next (n + i)) = (List.range m).map more :=
    List.map_congr_left fun i hi => hm i (List.mem_range.mp hi)
  rw [Pending] at h ⊢
  rw [h, List.range_add, List.map_append, List.map_map, h1, List.append_assoc]
  show _ = byteBits out ++ ((List.range n).map rest ++ (List.range m).map fun i => next (n + i))
  rw [h2]

theorem Pending.congr (h : Pending e out n rest) {rest' : ℕ → Bool} (hr : ∀ i < n, rest' i = rest i) :
    Pending e out n rest' := by
  have h1 : (List.range n).map rest' = (List.range n).map rest :=
    List.map_congr_left fun i hi => hr i (List.mem_range.mp hi)
  rw [Pending] at h ⊢
  rw [h, h1]

end

end BitStreams
