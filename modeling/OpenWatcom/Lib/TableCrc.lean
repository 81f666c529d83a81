import Mathlib

/-!
# Checksums by a table

* `byteStep`     a byte is taken into the checksum, by a table of 256 words
* `zeroStep_injective`     where the top bytes of the table differ, no state is reached twice
* `foldl_word`     a word that is taken in byte by byte, the lowest first
-/

namespace TableCrc

variable (table : BitVec 8 → BitVec 32)

/-- the byte 0 -/
def zeroStep (c : BitVec 32) : BitVec 32 := (c >>> 8) ^^^ table (c.setWidth 8)

def byteStep (c : BitVec 32) (b : BitVec 8) : BitVec 32 := (c >>> 8) ^^^ table (c.setWidth 8 ^^^ b)

/-- the bytes of a word, the lowest first -/
def wordBytes (v : BitVec 32) : List (BitVec 8) :=
  [v.setWidth 8, (v >>> 8).setWidth 8, (v >>> 16).setWidth 8, (v >>> 24).setWidth 8]

variable {table}

theorem zeroStep_xor (c v : BitVec 32) :
    zeroStep table (c ^^^ v) = byteStep table c (v.setWidth 8) ^^^ (v >>> 8) := by
  rw [zeroStep, byteStep, BitVec.ushiftRight_xor_distrib, BitVec.setWidth_xor, BitVec.xor_assoc, BitVec.xor_assoc,
    BitVec.xor_comm (v >>> 8)]

theorem shiftRight_all (v : BitVec 32) : v >>> 32 = 0#32 := BitVec.ushiftRight_eq_zero (le_refl 32)

/-- a word that is taken in is a word that is added, with four zeros behind it -/
theorem foldl_word (c v : BitVec 32) :
    (wordBytes v).foldl (byteStep table) c =
      zeroStep table (zeroStep table (zeroStep table (zeroStep table (c ^^^ v)))) := by
  have h16 : v >>> 8 >>> 8 = v >>> 16 := (BitVec.shiftRight_add v 8 8).symm
  have h24 : v >>> 16 >>> 8 = v >>> 24 := (BitVec.shiftRight_add v 16 8).symm
  have h32 : v >>> 24 >>> 8 = 0#32 := (BitVec.shiftRight_add v 24 8).symm.trans (shiftRight_all v)
  rw [zeroStep_xor, zeroStep_xor, zeroStep_xor, zeroStep_xor, h16, h24, h32, BitVec.xor_zero]
  rfl

section
variable (h : Function.Injective fun i => table i >>> 24)
include h

theorem zeroStep_injective : Function.Injective (zeroStep table) := by
  intro c d he
  have htop : ∀ x : BitVec 32, zeroStep table x >>> 24 = table (x.setWidth 8) >>> 24 := by
    intro x
    rw [zeroStep, BitVec.ushiftRight_xor_distrib, ← BitVec.shiftRight_add, shiftRight_all, BitVec.zero_xor]
  have hlow : c.setWidth 8 = d.setWidth 8 := by
    refine h ?_
    show table (c.setWidth 8) >>> 24 = table (d.setWidth 8) >>> 24
    rw [← htop, ← htop, he]
  have hhigh : c >>> 8 = d >>> 8 := by
    rw [zeroStep, zeroStep, hlow] at he
    exact (BitVec.xor_left_inj _).mp he
  refine BitVec.eq_of_getLsbD_eq fun i hi => ?_
  by_cases hi8 : i < 8
  · have := congrArg (fun x => x.getLsbD i) hlow
    simpa [hi8] using this
  · have := congrArg (fun x => x.getLsbD (i - 8)) hhigh
    simpa [show 8 + (i - 8) = i by omega] using this

theorem byteStep_injective (b : BitVec 8) : Function.Injective fun c => byteStep table c b := by
  have heq : ∀ c, byteStep table c b = zeroStep table (c ^^^ b.setWidth 32) := by
    intro c
    have hz : b.setWidth 32 >>> 8 = 0#32 := by
      refine BitVec.eq_of_getLsbD_eq fun i _ => ?_
      rw [BitVec.getLsbD_ushiftRight, BitVec.getLsbD_setWidth, BitVec.getLsbD_of_ge b _ (by omega), Bool.and_false,
        BitVec.getLsbD_zero]
    rw [zeroStep_xor, hz, BitVec.xor_zero, BitVec.setWidth_setWidth_of_le b (by decide), BitVec.setWidth_eq]
  intro c d he
  have hcd : byteStep table c b = byteStep table d b := he
  rw [heq, heq] at hcd
  exact (BitVec.xor_left_inj _).mp (zeroStep_injective h hcd)

/-- after a word the state is that of another one only where the words are -/
theorem foldl_word_iff (c v w : BitVec 32) :
    (wordBytes v).foldl (byteStep table) c = zeroStep table (zeroStep table (zeroStep table (zeroStep table w))) ↔
      v = c ^^^ w := by
  have hinj := zeroStep_injective h
  rw [foldl_word, hinj.eq_iff, hinj.eq_iff, hinj.eq_iff, hinj.eq_iff]
  constructor
  · rintro rfl
    rw [← BitVec.xor_assoc, BitVec.xor_self, BitVec.zero_xor]
  · rintro rfl
    rw [← BitVec.xor_assoc, BitVec.xor_self, BitVec.zero_xor]

end

end TableCrc
