import OpenWatcom.Lib.BitStreams

/-!
# Bits that are written: `encode.c`

* `putcode`, `encodePosition`, `encodeEnd`     `Putcode`, `EncodePosition`, `EncodeEnd`
* `Writing`     the bits that have been put are in the bytes that are out and in `putbuf`
* `putcode_writing`     a code is put behind them
* `encodeEnd_writing`     at the end all of them are out
-/

namespace Wpack

open BitStreams

/-- what `EncWriteByte` has got, `putbuf`, `putlen` and `codesize` -/
structure Writer where
  out : List UInt8
  putbuf : BitVec 32
  putlen : ℕ
  codesize : ℕ

def lowByte (x : BitVec 32) : UInt8 := UInt8.ofBitVec (x.setWidth 8)

def putcode (l : ℕ) (c : BitVec 32) (w : Writer) : Writer :=
  let putbuf := w.putbuf ||| (c >>> w.putlen)
  let putlen := w.putlen + l
  if 8 ≤ putlen then
    let out := w.out ++ [lowByte (putbuf >>> 8)]
    let putlen := putlen - 8
    if 8 ≤ putlen then
      let out := out ++ [lowByte putbuf]
      let putlen := putlen - 8
      ⟨out, c <<< (l - putlen), putlen, w.codesize + 2⟩
    else ⟨out, putbuf <<< 8, putlen, w.codesize + 1⟩
  else ⟨w.out, putbuf, putlen, w.codesize⟩

/-- `p_len` -/
def pLen : List ℕ := [
    3, 4, 4, 4, 5, 5, 5, 5, 5, 5, 5, 5, 6, 6, 6, 6,
    6, 6, 6, 6, 6, 6, 6, 6, 7, 7, 7, 7, 7, 7, 7, 7,
    7, 7, 7, 7, 7, 7, 7, 7, 7, 7, 7, 7, 7, 7, 7, 7,
    8, 8, 8, 8, 8, 8, 8, 8, 8, 8, 8, 8, 8, 8, 8, 8]

/-- `p_code` -/
def pCode : List ℕ := [
    0x00, 0x20, 0x30, 0x40, 0x50, 0x58, 0x60, 0x68, 0x70, 0x78, 0x80, 0x88, 0x90, 0x94, 0x98, 0x9C,
    0xA0, 0xA4, 0xA8, 0xAC, 0xB0, 0xB4, 0xB8, 0xBC, 0xC0, 0xC2, 0xC4, 0xC6, 0xC8, 0xCA, 0xCC, 0xCE,
    0xD0, 0xD2, 0xD4, 0xD6, 0xD8, 0xDA, 0xDC, 0xDE, 0xE0, 0xE2, 0xE4, 0xE6, 0xE8, 0xEA, 0xEC, 0xEE,
    0xF0, 0xF1, 0xF2, 0xF3, 0xF4, 0xF5, 0xF6, 0xF7, 0xF8, 0xF9, 0xFA, 0xFB, 0xFC, 0xFD, 0xFE, 0xFF]

/-- `i` and `j` are the two bytes that are read -/
def encodePosition (i j : UInt8) (w : Writer) : Writer :=
  let w := putcode (pLen.getD i.toNat 0) (BitVec.ofNat 32 (pCode.getD i.toNat 0) <<< 8) w
  putcode 6 (BitVec.ofNat 32 j.toNat <<< 10) w

def encodeEnd (w : Writer) : Writer :=
  if w.putlen ≠ 0 then ⟨w.out ++ [lowByte (w.putbuf >>> 8)], 0, 0, w.codesize + 1⟩
  else { w with putbuf := 0, putlen := 0 }

/-- the first `l` bits of a code, which fills 16 bits from the left -/
def codeBits (l : ℕ) (c : BitVec 32) : List Bool := (List.range l).map fun i => c.getMsbD (16 + i)

theorem codeBits_eq {l : ℕ} (hl : l ≤ 16) (c : BitVec 32) : codeBits l c = bitsOf l (c.toNat >>> (16 - l)) := by
  refine List.map_congr_left fun i hi => ?_
  have hi' := List.mem_range.mp hi
  rw [BitVec.getMsbD_eq_getLsbD, decide_eq_true (by omega), Bool.true_and, Nat.testBit_shiftRight]
  show c.toNat.testBit _ = c.toNat.testBit _
  congr 1
  omega

/-- the bits `e` have been put -/
structure Writing (e : List Bool) (w : Writer) : Prop where
  pending : Pending e w.out w.putlen fun i => w.putbuf.getMsbD (16 + i)
  short : w.putlen < 8
  clear : ∀ i, w.putlen ≤ i → i < 16 → w.putbuf.getMsbD (16 + i) = false
  size : w.codesize = w.out.length

/-- a code of `l` bits has nothing else in it -/
structure Fitting (l : ℕ) (c : BitVec 32) : Prop where
  le : l ≤ 16
  high : ∀ i < 16, c.getMsbD i = false
  low : ∀ i, l ≤ i → i < 16 → c.getMsbD (16 + i) = false

section
variable {e : List Bool} {w : Writer} {l : ℕ} {c : BitVec 32}

theorem lowByte_getMsbD (x : BitVec 32) (i : ℕ) : (lowByte x).toBitVec.getMsbD i = x.getMsbD (24 + i) := by
  show (x.setWidth 8).getMsbD i = _
  rw [BitVec.getMsbD_setWidth, show i + 32 - 8 = 24 + i by omega]
  simp

theorem secondByte_getMsbD (x : BitVec 32) {i : ℕ} (hi : i < 8) :
    (lowByte (x >>> 8)).toBitVec.getMsbD i = x.getMsbD (16 + i) := by
  rw [lowByte_getMsbD, getMsbD_right _ (by omega) (by omega), show 24 + i - 8 = 16 + i by omega]

/-- in `putbuf` the code stands behind the bits that are pending -/
theorem joined_getMsbD (hw : Writing e w) (hc : Fitting l c) {i : ℕ} (hi : i < 16) :
    (w.putbuf ||| (c >>> w.putlen)).getMsbD (16 + i) =
      if i < w.putlen then w.putbuf.getMsbD (16 + i) else c.getMsbD (16 + (i - w.putlen)) := by
  have hs := hw.short
  rw [BitVec.getMsbD_or]
  by_cases hp : i < w.putlen
  · rw [if_pos hp]
    have hz : (c >>> w.putlen).getMsbD (16 + i) = false := by
      rw [getMsbD_right _ (by omega) (by omega), hc.high _ (by omega)]
    rw [hz, Bool.or_false]
  · rw [if_neg hp, hw.clear i (not_lt.mp hp) hi, Bool.false_or, getMsbD_right _ (by omega) (by omega),
      show 16 + i - w.putlen = 16 + (i - w.putlen) by omega]

theorem putcode_writing (hw : Writing e w) (hc : Fitting l c) : Writing (e ++ codeBits l c) (putcode l c w) := by
  have hs := hw.short
  have hle := hc.le
  have hjoin := fun {i : ℕ} => joined_getMsbD (i := i) hw hc
  have hmore := hw.pending.more (m := l) (fun i => c.getMsbD (16 + i))
    (fun i => if i < w.putlen then w.putbuf.getMsbD (16 + i) else c.getMsbD (16 + (i - w.putlen)))
    (fun i hi => if_pos hi) (fun i _ => by
      rw [if_neg (by omega), Nat.add_sub_cancel_left])
  rw [putcode]
  by_cases h8 : 8 ≤ w.putlen + l
  · rw [if_pos h8]
    obtain ⟨n, hn⟩ := Nat.exists_eq_add_of_le h8
    rw [hn] at hmore
    have hout := hmore.byte (b := lowByte ((w.putbuf ||| (c >>> w.putlen)) >>> 8)) fun i hi => by
      rw [secondByte_getMsbD _ hi, hjoin (by omega)]
    rw [hn, Nat.add_sub_cancel_left]
    by_cases h16 : 8 ≤ n
    · rw [if_pos h16]
      obtain ⟨m, rfl⟩ := Nat.exists_eq_add_of_le h16
      have hout2 := hout.byte (b := lowByte (w.putbuf ||| (c >>> w.putlen))) fun i hi => by
        rw [lowByte_getMsbD, show 24 + i = 16 + (8 + i) by omega, hjoin (by omega)]
      rw [Nat.add_sub_cancel_left]
      refine ⟨hout2.congr fun i hi => ?_, show m < 8 by omega, fun i (h1 : m ≤ i) h2 => ?_, ?_⟩
      · rw [BitVec.getMsbD_shiftLeft, if_neg (by omega)]
        congr 1
        omega
      · rw [BitVec.getMsbD_shiftLeft]
        by_cases hin : i + (l - m) < 16
        · rw [show 16 + i + (l - m) = 16 + (i + (l - m)) by omega]
          exact hc.low _ (by omega) hin
        · exact BitVec.getMsbD_of_ge _ _ (by omega)
      · rw [hw.size, List.length_append, List.length_append]
        rfl
    · rw [if_neg h16]
      refine ⟨hout.congr fun i hi => ?_, show n < 8 by omega, fun i (h1 : n ≤ i) h2 => ?_, ?_⟩
      · rw [BitVec.getMsbD_shiftLeft, show 16 + i + 8 = 16 + (8 + i) by omega, hjoin (by omega)]
      · rw [BitVec.getMsbD_shiftLeft]
        by_cases hin : i + 8 < 16
        · rw [show 16 + i + 8 = 16 + (i + 8) by omega, hjoin hin, if_neg (by omega)]
          exact hc.low _ (by omega) (by omega)
        · exact BitVec.getMsbD_of_ge _ _ (by omega)
      · rw [hw.size, List.length_append]
        rfl
  · rw [if_neg h8]
    refine ⟨hmore.congr fun i hi => hjoin (by omega), show w.putlen + l < 8 by omega,
      fun i (h1 : w.putlen + l ≤ i) h2 => ?_, hw.size⟩
    rw [hjoin h2, if_neg (by omega)]
    exact hc.low _ (by omega) (by omega)

/-- the bits of a position -/
def positionBits (i j : UInt8) : List Bool :=
  codeBits (pLen.getD i.toNat 0) (BitVec.ofNat 32 (pCode.getD i.toNat 0) <<< 8) ++
    codeBits 6 (BitVec.ofNat 32 j.toNat <<< 10)

theorem fitting_of {l : ℕ} {c : BitVec 32} (h : l ≤ 16 ∧ (∀ i < 16, c.getMsbD i = false) ∧
    ∀ i < 16, l ≤ i → c.getMsbD (16 + i) = false) : Fitting l c :=
  ⟨h.1, h.2.1, fun i h1 h2 => h.2.2 i h2 h1⟩

theorem fitting_high : ∀ i < 64, (pLen.getD i 0 ≤ 16 ∧
    (∀ k < 16, (BitVec.ofNat 32 (pCode.getD i 0) <<< 8).getMsbD k = false) ∧
    ∀ k < 16, pLen.getD i 0 ≤ k → (BitVec.ofNat 32 (pCode.getD i 0) <<< 8).getMsbD (16 + k) = false) := by
  decide +kernel

theorem fitting_low : ∀ j < 64, (6 ≤ 16 ∧ (∀ k < 16, (BitVec.ofNat 32 j <<< 10).getMsbD k = false) ∧
    ∀ k < 16, 6 ≤ k → (BitVec.ofNat 32 j <<< 10).getMsbD (16 + k) = false) := by
  decide +kernel

theorem encodePosition_writing (hw : Writing e w) {i j : UInt8} (hi : i.toNat < 64) (hj : j.toNat < 64) :
    Writing (e ++ positionBits i j) (encodePosition i j w) := by
  rw [positionBits, ← List.append_assoc]
  exact putcode_writing (putcode_writing hw (fitting_of (fitting_high _ hi))) (fitting_of (fitting_low _ hj))

/-- at the end the bits stand in the bytes, and zeros behind them, which fill no byte -/
theorem encodeEnd_writing (hw : Writing e w) :
    ∃ pad, byteBits (encodeEnd w).out = e ++ pad ∧ pad.length < 8 := by
  have hp := hw.pending
  have hs := hw.short
  rw [encodeEnd]
  by_cases h0 : w.putlen ≠ 0
  · rw [if_pos h0]
    have hmore := hp.more (m := 8 - w.putlen) (fun _ => false) (fun i => w.putbuf.getMsbD (16 + i))
      (fun i _ => rfl) fun i hi => hw.clear _ (by omega) (by omega)
    rw [show w.putlen + (8 - w.putlen) = 8 + 0 by omega] at hmore
    have hout := hmore.byte (b := lowByte (w.putbuf >>> 8)) fun i hi => secondByte_getMsbD _ hi
    refine ⟨(List.range (8 - w.putlen)).map fun _ => false, ?_, ?_⟩
    · rw [Pending, List.range_zero, List.map_nil, List.append_nil] at hout
      exact hout.symm
    · rw [List.length_map, List.length_range]
      omega
  · rw [if_neg h0]
    rw [not_not.mp h0, Pending, List.range_zero, List.map_nil, List.append_nil] at hp
    exact ⟨[], by rw [hp, List.append_nil], Nat.succ_pos 7⟩

/-- `codesize` counts the bytes that are out -/
theorem encodeEnd_codesize (hw : Writing e w) : (encodeEnd w).codesize = (encodeEnd w).out.length := by
  rw [encodeEnd]
  by_cases h0 : w.putlen ≠ 0
  · rw [if_pos h0, hw.size, List.length_append]
    rfl
  · rw [if_neg h0]
    exact hw.size

end

end Wpack
