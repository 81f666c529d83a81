import OpenWatcom.Wpack.PutBits

/-!
# Bits that are read: `decode.c`

* `fill`, `getByte`, `decodePosition`     what `getbuf` gets from `secondbuf`, `GetByte`, `DecodePosition`
* `Reading`     `getbuf` and `secondbuf` have the bits from a place of the stream on
* `peek`, `consume_reading`, `fill_reading`, `getByte_reading`     one lemma for each operation
* `decodePosition_reading`     a position is read as it was put
-/

namespace Wpack

open BitStreams

/-- `d_code` -/
def dCode : List ℕ := [
    0, 0, 0, 0, 0, 0, 0, 0, 0, 0, 0, 0, 0, 0, 0, 0, 0, 0, 0, 0, 0, 0, 0, 0, 0, 0, 0, 0, 0, 0, 0, 0,
    1, 1, 1, 1, 1, 1, 1, 1, 1, 1, 1, 1, 1, 1, 1, 1, 2, 2, 2, 2, 2, 2, 2, 2, 2, 2, 2, 2, 2, 2, 2, 2,
    3, 3, 3, 3, 3, 3, 3, 3, 3, 3, 3, 3, 3, 3, 3, 3, 4, 4, 4, 4, 4, 4, 4, 4, 5, 5, 5, 5, 5, 5, 5, 5,
    6, 6, 6, 6, 6, 6, 6, 6, 7, 7, 7, 7, 7, 7, 7, 7, 8, 8, 8, 8, 8, 8, 8, 8, 9, 9, 9, 9, 9, 9, 9, 9,
    10, 10, 10, 10, 10, 10, 10, 10, 11, 11, 11, 11, 11, 11, 11, 11, 12, 12, 12, 12, 13, 13, 13, 13, 14, 14, 14, 14, 15, 15, 15, 15,
    16, 16, 16, 16, 17, 17, 17, 17, 18, 18, 18, 18, 19, 19, 19, 19, 20, 20, 20, 20, 21, 21, 21, 21, 22, 22, 22, 22, 23, 23, 23, 23,
    24, 24, 25, 25, 26, 26, 27, 27, 28, 28, 29, 29, 30, 30, 31, 31, 32, 32, 33, 33, 34, 34, 35, 35, 36, 36, 37, 37, 38, 38, 39, 39,
    40, 40, 41, 41, 42, 42, 43, 43, 44, 44, 45, 45, 46, 46, 47, 47, 48, 49, 50, 51, 52, 53, 54, 55, 56, 57, 58, 59, 60, 61, 62, 63]

/-- `d_len` -/
def dLen : List ℕ := [
    3, 3, 3, 3, 3, 3, 3, 3, 3, 3, 3, 3, 3, 3, 3, 3, 3, 3, 3, 3, 3, 3, 3, 3, 3, 3, 3, 3, 3, 3, 3, 3,
    4, 4, 4, 4, 4, 4, 4, 4, 4, 4, 4, 4, 4, 4, 4, 4, 4, 4, 4, 4, 4, 4, 4, 4, 4, 4, 4, 4, 4, 4, 4, 4,
    4, 4, 4, 4, 4, 4, 4, 4, 4, 4, 4, 4, 4, 4, 4, 4, 5, 5, 5, 5, 5, 5, 5, 5, 5, 5, 5, 5, 5, 5, 5, 5,
    5, 5, 5, 5, 5, 5, 5, 5, 5, 5, 5, 5, 5, 5, 5, 5, 5, 5, 5, 5, 5, 5, 5, 5, 5, 5, 5, 5, 5, 5, 5, 5,
    5, 5, 5, 5, 5, 5, 5, 5, 5, 5, 5, 5, 5, 5, 5, 5, 6, 6, 6, 6, 6, 6, 6, 6, 6, 6, 6, 6, 6, 6, 6, 6,
    6, 6, 6, 6, 6, 6, 6, 6, 6, 6, 6, 6, 6, 6, 6, 6, 6, 6, 6, 6, 6, 6, 6, 6, 6, 6, 6, 6, 6, 6, 6, 6,
    7, 7, 7, 7, 7, 7, 7, 7, 7, 7, 7, 7, 7, 7, 7, 7, 7, 7, 7, 7, 7, 7, 7, 7, 7, 7, 7, 7, 7, 7, 7, 7,
    7, 7, 7, 7, 7, 7, 7, 7, 7, 7, 7, 7, 7, 7, 7, 7, 8, 8, 8, 8, 8, 8, 8, 8, 8, 8, 8, 8, 8, 8, 8, 8]

/-- `getbuf`, `getlen`, `secondbuf`, and how many bytes have been read -/
structure Reader where
  getbuf : BitVec 16
  getlen : ℕ
  secondbuf : UInt8
  next : ℕ

section
variable (bytes : ℕ → UInt8)

/-- the eight bits of `secondbuf` go behind those of `getbuf` -/
def fill (s : Reader) : Reader :=
  ⟨s.getbuf ||| (s.secondbuf.toBitVec.setWidth 16 <<< (8 - s.getlen)), s.getlen + 8, bytes s.next, s.next + 1⟩

def consume (n : ℕ) (s : Reader) : Reader := { s with getbuf := s.getbuf <<< n, getlen := s.getlen - n }

def getByte (s : Reader) : BitVec 16 × Reader :=
  let i := s.getbuf >>> 8
  if 8 ≤ s.getlen then (i, consume 8 s)
  else
    let getbuf := s.secondbuf.toBitVec.setWidth 16
    (i ||| (getbuf >>> s.getlen), ⟨getbuf <<< (16 - s.getlen), s.getlen, bytes s.next, s.next + 1⟩)

def decodePosition (s : Reader) : ℕ × Reader :=
  let r := getByte bytes s
  let c := BitVec.ofNat 16 (dCode.getD r.1.toNat 0) <<< 6
  let j := dLen.getD r.1.toNat 0 - 2
  let s := if r.2.getlen < j then fill bytes r.2 else r.2
  let i := (r.1 <<< j) ||| (s.getbuf >>> (16 - j))
  ((c ||| (i &&& 0x3F)).toNat, consume j s)

end

/-- the bits from `p` on: those of `getbuf`, then those of `secondbuf`; what stands in `getbuf` behind them is
part of `secondbuf` -/
structure Reading (bytes : ℕ → UInt8) (p : ℕ) (s : Reader) : Prop where
  buffer : ∀ i < s.getlen, s.getbuf.getMsbD i = bitAt bytes (p + i)
  behind : ∀ i < 16, s.getbuf.getMsbD i = true → bitAt bytes (p + i) = true
  le : s.getlen ≤ 16
  second : ∃ q, s.secondbuf = bytes q ∧ s.next = q + 1 ∧ p + s.getlen = 8 * q

section
variable {bytes : ℕ → UInt8} {p : ℕ} {s : Reader}

theorem secondbuf_getMsbD (b : UInt8) (n i : ℕ) :
    (b.toBitVec.setWidth 16 <<< n).getMsbD i = (decide (8 ≤ i + n) && b.toBitVec.getMsbD (i + n - 8)) := by
  rw [BitVec.getMsbD_shiftLeft, BitVec.getMsbD_setWidth, show i + n + 8 - 16 = i + n - 8 by omega]

theorem consume_reading (h : Reading bytes p s) {n : ℕ} (hn : n ≤ s.getlen) :
    Reading bytes (p + n) (consume n s) := by
  obtain ⟨q, hq, hnext, hp⟩ := h.second
  have hle := h.le
  refine ⟨fun i (hi : i < s.getlen - n) => ?_, fun i hi hb => ?_, show s.getlen - n ≤ 16 by omega,
    q, hq, hnext, show p + n + (s.getlen - n) = 8 * q by omega⟩
  · show (s.getbuf <<< n).getMsbD i = _
    rw [BitVec.getMsbD_shiftLeft, h.buffer _ (by omega)]
    congr 1
    omega
  · have hb' : (s.getbuf <<< n).getMsbD i = true := hb
    rw [BitVec.getMsbD_shiftLeft] at hb'
    have hlt : i + n < 16 := by
      by_contra hge
      rw [BitVec.getMsbD_of_ge _ _ (not_lt.mp hge)] at hb'
      exact absurd hb' (by decide)
    rw [show p + n + i = p + (i + n) by omega]
    exact h.behind _ hlt hb'

theorem fill_reading (h : Reading bytes p s) (hn : s.getlen ≤ 8) : Reading bytes p (fill bytes s) := by
  obtain ⟨q, hq, hnext, hp⟩ := h.second
  have hsecond : ∀ i < 16, s.getlen ≤ i → i < s.getlen + 8 →
      (s.secondbuf.toBitVec.setWidth 16 <<< (8 - s.getlen)).getMsbD i = bitAt bytes (p + i) := by
    intro i hi h1 h2
    rw [secondbuf_getMsbD _ _ _, decide_eq_true (by omega), Bool.true_and, hq,
      show p + i = 8 * q + (i - s.getlen) by omega, bitAt_byte bytes q (by omega)]
    congr 1
    omega
  have hzero : ∀ i < 16, ¬ (s.getlen ≤ i ∧ i < s.getlen + 8) →
      (s.secondbuf.toBitVec.setWidth 16 <<< (8 - s.getlen)).getMsbD i = false := by
    intro i hi hout
    rw [secondbuf_getMsbD _ _ _]
    by_cases hlt : i < s.getlen
    · rw [decide_eq_false (by omega), Bool.false_and]
    · rw [BitVec.getMsbD_of_ge _ _ (by omega), Bool.and_false]
  refine ⟨fun i (hi : i < s.getlen + 8) => ?_, fun i hi hb => ?_, show s.getlen + 8 ≤ 16 by omega,
    q + 1, by rw [fill, hnext], by rw [fill, hnext], show p + (s.getlen + 8) = 8 * (q + 1) by omega⟩
  · show (s.getbuf ||| _).getMsbD i = _
    rw [BitVec.getMsbD_or]
    by_cases hlt : i < s.getlen
    · rw [h.buffer i hlt, hzero i (by omega) (by omega), Bool.or_false]
    · rw [hsecond i (by omega) (by omega) hi]
      cases hg : s.getbuf.getMsbD i with
      | false => exact Bool.false_or _
      | true => rw [h.behind i (by omega) hg, Bool.or_true]
  · have hb' : (s.getbuf ||| (s.secondbuf.toBitVec.setWidth 16 <<< (8 - s.getlen))).getMsbD i = true := hb
    rw [BitVec.getMsbD_or, Bool.or_eq_true] at hb'
    rcases hb' with hb' | hb'
    · exact h.behind i hi hb'
    · by_cases hin : s.getlen ≤ i ∧ i < s.getlen + 8
      · rw [← hsecond i hi hin.1 hin.2]
        exact hb'
      · rw [hzero i hi hin] at hb'
        exact absurd hb' (by decide)

/-- the first bits of `getbuf` as a number -/
theorem peek (h : Reading bytes p s) {n : ℕ} (hn : n ≤ s.getlen) {v : BitVec n}
    (ha : Ahead bytes p (firstBits n v)) : s.getbuf >>> (16 - n) = v.setWidth 16 := by
  have hle := h.le
  refine BitVec.eq_of_getMsbD_eq fun i hi => ?_
  rw [BitVec.getMsbD_setWidth, show i + n - 16 = i - (16 - n) by omega]
  by_cases hlt : i < 16 - n
  · rw [getMsbD_right_of_lt _ hlt, decide_eq_false (by omega), Bool.false_and]
  · rw [getMsbD_right _ (not_lt.mp hlt) hi, decide_eq_true (by omega), Bool.true_and,
      h.buffer _ (by omega), ahead_firstBits.mp ha _ (by omega)]

/-- the bits of a byte that is in `getbuf` only in part -/
theorem split_getMsbD (h : Reading bytes p s) (hlt : s.getlen < 8) {i : ℕ} (hi : i < 16) :
    ((s.getbuf >>> 8) ||| (s.secondbuf.toBitVec.setWidth 16 >>> s.getlen)).getMsbD i =
      (decide (8 ≤ i) && bitAt bytes (p + (i - 8))) := by
  obtain ⟨q, hq, -, hp⟩ := h.second
  have hsb : (s.secondbuf.toBitVec.setWidth 16 >>> s.getlen).getMsbD i =
      (decide (8 + s.getlen ≤ i) && s.secondbuf.toBitVec.getMsbD (i - s.getlen - 8)) := by
    by_cases hg : s.getlen ≤ i
    · rw [getMsbD_right _ hg hi, BitVec.getMsbD_setWidth, show i - s.getlen + 8 - 16 = i - s.getlen - 8 by omega]
      congr 1
      exact decide_eq_decide.mpr (by omega)
    · rw [getMsbD_right_of_lt _ (not_le.mp hg), decide_eq_false (by omega), Bool.false_and]
  rw [BitVec.getMsbD_or, hsb]
  by_cases h8 : 8 ≤ i
  · rw [getMsbD_right _ h8 hi, decide_eq_true h8, Bool.true_and]
    by_cases hg : 8 + s.getlen ≤ i
    · have hbit : s.secondbuf.toBitVec.getMsbD (i - s.getlen - 8) = bitAt bytes (p + (i - 8)) := by
        rw [hq, show p + (i - 8) = 8 * q + (i - s.getlen - 8) by omega, bitAt_byte bytes q (by omega)]
      rw [decide_eq_true hg, Bool.true_and, hbit]
      cases hb : s.getbuf.getMsbD (i - 8) with
      | false => exact Bool.false_or _
      | true => rw [h.behind _ (by omega) hb, Bool.or_true]
    · rw [decide_eq_false hg, Bool.false_and, Bool.or_false, h.buffer _ (by omega)]
  · rw [getMsbD_right_of_lt _ (not_le.mp h8), decide_eq_false h8, decide_eq_false (by omega), Bool.false_and]
    rfl

theorem getByte_reading (h : Reading bytes p s) {b : BitVec 8} (ha : Ahead bytes p (firstBits 8 b)) :
    (getByte bytes s).1 = b.setWidth 16 ∧ Reading bytes (p + 8) (getByte bytes s).2 := by
  rw [getByte]
  by_cases h8 : 8 ≤ s.getlen
  · rw [if_pos h8]
    exact ⟨peek h h8 ha, consume_reading h h8⟩
  · obtain ⟨q, hq, hnext, hp⟩ := h.second
    have hlt := not_le.mp h8
    rw [if_neg h8]
    have hrest : ∀ i < 16, (s.secondbuf.toBitVec.setWidth 16 <<< (16 - s.getlen)).getMsbD i =
        if i < s.getlen then bitAt bytes (p + 8 + i) else false := by
      intro i hi
      rw [secondbuf_getMsbD _ _ _, decide_eq_true (by omega), Bool.true_and]
      by_cases hg : i < s.getlen
      · rw [if_pos hg, hq, show p + 8 + i = 8 * q + (i + (16 - s.getlen) - 8) by omega, bitAt_byte bytes q (by omega)]
      · rw [if_neg hg, BitVec.getMsbD_of_ge _ _ (by omega)]
    refine ⟨BitVec.eq_of_getMsbD_eq fun i hi => ?_, fun i hi => ?_, fun i hi hb => ?_, h.le,
      q + 1, by dsimp only; rw [hnext], by dsimp only; rw [hnext], show p + 8 + s.getlen = 8 * (q + 1) by omega⟩
    · rw [split_getMsbD h hlt hi, BitVec.getMsbD_setWidth, show i + 8 - 16 = i - 8 by omega]
      by_cases hge : 8 ≤ i
      · rw [ahead_firstBits.mp ha _ (by omega)]
      · show (decide (8 ≤ i) && _) = (decide (8 ≤ i) && _)
        rw [decide_eq_false hge, Bool.false_and, Bool.false_and]
    · have hi' : i < s.getlen := hi
      have hr := hrest i (by omega)
      rw [if_pos hi'] at hr
      exact hr
    · have hb' : (s.secondbuf.toBitVec.setWidth 16 <<< (16 - s.getlen)).getMsbD i = true := hb
      rw [hrest i hi] at hb'
      by_cases hg : i < s.getlen
      · rwa [if_pos hg] at hb'
      · rw [if_neg hg] at hb'
        exact absurd hb' (by decide)

/-! ## positions -/

/-- the byte that begins a position -/
def positionByte (i j : ℕ) : ℕ := pCode.getD i 0 + j / 2 ^ (pLen.getD i 0 - 2)

theorem position_bytes : ∀ i < 64, (2 ≤ pLen.getD i 0 ∧ pLen.getD i 0 ≤ 8) ∧ ∀ k < 2 ^ (8 - pLen.getD i 0),
    dCode.getD (pCode.getD i 0 + k) 0 = i ∧ dLen.getD (pCode.getD i 0 + k) 0 = pLen.getD i 0 ∧
      pCode.getD i 0 + k < 256 := by
  decide +kernel

theorem position_tables {i j : ℕ} (hi : i < 64) (hj : j < 64) :
    dCode.getD (positionByte i j) 0 = i ∧ dLen.getD (positionByte i j) 0 = pLen.getD i 0 ∧
      positionByte i j < 256 := by
  obtain ⟨⟨h2, h8⟩, hk⟩ := position_bytes i hi
  refine hk _ (Nat.div_lt_of_lt_mul ?_)
  rw [← Nat.pow_add, show pLen.getD i 0 - 2 + (8 - pLen.getD i 0) = 6 by omega]
  exact hj

theorem position_numbers : ∀ i < 64, ∀ j < 64,
    2 ^ 6 * ((pCode.getD i 0 <<< 8 % 2 ^ 32) >>> (16 - pLen.getD i 0)) + (j <<< 10 % 2 ^ 32) >>> (16 - 6) =
      2 ^ (pLen.getD i 0 - 2) * positionByte i j + j % 2 ^ (pLen.getD i 0 - 2) ∧
    (i <<< 6 % 2 ^ 16 ||| (positionByte i j <<< (pLen.getD i 0 - 2) % 2 ^ 16 ||| j % 2 ^ (pLen.getD i 0 - 2)) &&& 0x3F) =
      64 * i + j ∧ (j <<< 10 % 2 ^ 32) >>> (16 - 6) < 2 ^ 6 := by
  decide +kernel

theorem position_split {i j : ℕ} (hi : i < 64) (hj : j < 64) :
    codeBits (pLen.getD i 0) (BitVec.ofNat 32 (pCode.getD i 0) <<< 8) ++ codeBits 6 (BitVec.ofNat 32 j <<< 10) =
      firstBits 8 (BitVec.ofNat 8 (positionByte i j)) ++
        firstBits (pLen.getD i 0 - 2) (BitVec.ofNat (pLen.getD i 0 - 2) j) := by
  obtain ⟨⟨h2, h8⟩, hk⟩ := position_bytes i hi
  obtain ⟨-, -, hcode⟩ := hk 0 (Nat.two_pow_pos _)
  obtain ⟨-, -, hlt⟩ := position_tables hi hj
  obtain ⟨hnum, -, hlow⟩ := position_numbers i hi j hj
  have hc : (BitVec.ofNat 32 (pCode.getD i 0) <<< 8).toNat = pCode.getD i 0 <<< 8 % 2 ^ 32 := by
    rw [BitVec.toNat_shiftLeft, BitVec.toNat_ofNat, Nat.mod_eq_of_lt (show pCode.getD i 0 < 2 ^ 32 by omega)]
  have hl : (BitVec.ofNat 32 j <<< 10).toNat = j <<< 10 % 2 ^ 32 := by
    rw [BitVec.toNat_shiftLeft, BitVec.toNat_ofNat, Nat.mod_eq_of_lt (show j < 2 ^ 32 by omega)]
  rw [codeBits_eq (by omega), codeBits_eq (by omega), firstBits_eq, firstBits_eq, hc, hl, bitsOf_append _ hlow, hnum,
    BitVec.toNat_ofNat, BitVec.toNat_ofNat, Nat.mod_eq_of_lt (show positionByte i j < 2 ^ 8 from hlt),
    bitsOf_append _ (Nat.mod_lt _ (Nat.two_pow_pos _)), show pLen.getD i 0 + 6 = 8 + (pLen.getD i 0 - 2) by omega]

/-- a position is read as it was put -/
theorem decodePosition_reading (h : Reading bytes p s) {i j : UInt8} (hi : i.toNat < 64) (hj : j.toNat < 64)
    (ha : Ahead bytes p (positionBits i j)) :
    (decodePosition bytes s).1 = 64 * i.toNat + j.toNat ∧
      Reading bytes (p + (positionBits i j).length) (decodePosition bytes s).2 := by
  have hsplit := position_split hi hj
  obtain ⟨⟨h2, h8⟩, -⟩ := position_bytes _ hi
  obtain ⟨hcode, hlen, hlt⟩ := position_tables hi hj
  obtain ⟨-, hvalue, -⟩ := position_numbers _ hi _ hj
  rw [positionBits, hsplit] at ha ⊢
  obtain ⟨ha1, ha2⟩ := ahead_append.mp ha
  rw [length_firstBits] at ha2
  obtain ⟨hbyte, hr⟩ := getByte_reading h ha1
  have hindex : (getByte bytes s).1.toNat = positionByte i.toNat j.toNat := by
    rw [hbyte, BitVec.toNat_setWidth, BitVec.toNat_ofNat, Nat.mod_eq_of_lt (show _ % 2 ^ 8 < 2 ^ 16 by omega),
      Nat.mod_eq_of_lt (show positionByte i.toNat j.toNat < 2 ^ 8 from hlt)]
  have hs : Reading bytes (p + 8) (if (getByte bytes s).2.getlen < pLen.getD i.toNat 0 - 2
      then fill bytes (getByte bytes s).2 else (getByte bytes s).2) := by
    by_cases hg : (getByte bytes s).2.getlen < pLen.getD i.toNat 0 - 2
    · rw [if_pos hg]
      exact fill_reading hr (by omega)
    · rw [if_neg hg]
      exact hr
  have henough : pLen.getD i.toNat 0 - 2 ≤ (if (getByte bytes s).2.getlen < pLen.getD i.toNat 0 - 2
      then fill bytes (getByte bytes s).2 else (getByte bytes s).2).getlen := by
    by_cases hg : (getByte bytes s).2.getlen < pLen.getD i.toNat 0 - 2
    · rw [if_pos hg]
      show _ ≤ (getByte bytes s).2.getlen + 8
      omega
    · rw [if_neg hg]
      exact not_lt.mp hg
  rw [List.length_append, length_firstBits, length_firstBits, ← Nat.add_assoc]
  have hconsume := consume_reading hs henough
  have hpeek := peek hs henough ha2
  refine ⟨?_, ?_⟩
  · have hlow : j.toNat % 2 ^ (pLen.getD i.toNat 0 - 2) < 2 ^ 16 :=
      lt_of_le_of_lt (Nat.mod_le _ _) (by omega)
    rw [decodePosition, hindex, hcode, hlen, hpeek, BitVec.toNat_or, BitVec.toNat_and, BitVec.toNat_or,
      BitVec.toNat_shiftLeft, BitVec.toNat_shiftLeft, hindex, BitVec.toNat_setWidth, BitVec.toNat_ofNat,
      BitVec.toNat_ofNat, Nat.mod_eq_of_lt hlow, Nat.mod_eq_of_lt (show i.toNat < 2 ^ 16 by omega)]
    exact hvalue
  · rw [decodePosition, hindex, hcode, hlen]
    exact hconsume

end

end Wpack
