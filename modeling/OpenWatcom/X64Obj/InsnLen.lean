import OpenWatcom.Lib.Bytes

/-!
# The instruction length decoder of the object post-processor

`modrmLen` and `x86InsnLen` are `modrm_len` and `x86_insn_len` of `x64obj.c`: the length of the
IA-32 instruction at `pos` in a buffer of which the first `max` bytes count.

* `x86InsnLen_pos`   the decoder always moves on.
-/

namespace X64Obj
open Bytes

/-- bytes taken by ModRM, SIB and displacement when the ModRM byte stands at `start` -/
def modrmLen (c : List UInt8) (max start : Nat) : Nat :=
  if start ≥ max then 1
  else
    let modrm := byteAt c start
    let mod := (modrm >>> 6) &&& 3
    let rm := modrm &&& 7
    let n :=
      if mod ≠ 3 ∧ rm = 4 then
        -- SIB present: disp32 without base when mod = 0 and its base is 5
        if start + 1 < max then
          if mod = 0 ∧ byteAt c (start + 1) &&& 7 = 5 then 6 else 2
        else 2
      else 1
    if mod = 1 then n + 1
    else if mod = 2 then n + 4
    else if mod = 0 ∧ rm = 5 then n + 4
    else n

/-- prefixes other than the operand size prefix -/
def isPrefix (b : UInt8) : Bool :=
  b = 0x67 || b = 0xF0 || b = 0xF2 || b = 0xF3 || b = 0x26 || b = 0x2E || b = 0x36 || b = 0x3E
    || b = 0x64 || b = 0x65

/-- the prefix loop: first byte that is no prefix, and whether operands are still 32 bits wide -/
def skipPrefixes (c : List UInt8) (max : Nat) : Nat → Nat → Bool → Nat × Bool
  | 0, i, opsize32 => (i, opsize32)
  | f + 1, i, opsize32 =>
    if i ≥ max then (i, opsize32)
    else if byteAt c i = 0x66 then skipPrefixes c max f (i + 1) false
    else if isPrefix (byteAt c i) then skipPrefixes c max f (i + 1) opsize32
    else (i, opsize32)

/-- one-byte opcodes without operand bytes -/
def noOperand (op : UInt8) : Bool :=
  (0x40 ≤ op && op ≤ 0x5F) || (0x90 ≤ op && op ≤ 0x99) || op = 0xC3 || op = 0xC9 || op = 0xCC
    || (0xF8 ≤ op && op ≤ 0xFD) || (0xA4 ≤ op && op ≤ 0xA7) || (0xAA ≤ op && op ≤ 0xAF)

/-- opcodes with a ModRM byte and no immediate -/
def modrmOnly (op : UInt8) : Bool :=
  (op ≤ 0x3F && op &&& 7 ≤ 3) || op = 0x84 || op = 0x85 || op = 0x86 || op = 0x87
    || (0x88 ≤ op && op ≤ 0x8B) || op = 0x8C || op = 0x8E || op = 0x8D || op = 0x8F || op = 0x63
    || (0xD0 ≤ op && op ≤ 0xD3) || (0xD8 ≤ op && op ≤ 0xDF) || op = 0xFE || op = 0xFF

/-- the length from the opcode byte on, for the opcode `op` at `i` -/
def opcodeLen (c : List UInt8) (max i : Nat) (opsize32 : Bool) (op : UInt8) : Nat :=
  let immz := if opsize32 then 4 else 2
  if noOperand op then 1
  else if modrmOnly op then 1 + modrmLen c max (i + 1)
  else if op = 0xC8 then 4
  else if op = 0xD4 ∨ op = 0xD5 then 2
  else if op = 0x9A ∨ op = 0xEA then 7
  else if 0xE4 ≤ op ∧ op ≤ 0xE7 then 2
  else if op = 0x60 ∨ op = 0x61 ∨ (0x9B ≤ op ∧ op ≤ 0x9F) ∨ (0xEC ≤ op ∧ op ≤ 0xEF) then 1
  else if op = 0x80 ∨ op = 0x83 ∨ op = 0x6B ∨ op = 0xC0 ∨ op = 0xC1 ∨ op = 0xC6 then
    1 + modrmLen c max (i + 1) + 1
  else if op = 0x81 ∨ op = 0x69 ∨ op = 0xC7 then 1 + modrmLen c max (i + 1) + immz
  else if op = 0xF6 ∨ op = 0xF7 then
    -- TEST has an immediate, the rest of the group does not
    let reg := if i + 1 < max then (byteAt c (i + 1) >>> 3) &&& 7 else 0
    let imm := if reg = 0 ∨ reg = 1 then (if op = 0xF6 then 1 else immz) else 0
    1 + modrmLen c max (i + 1) + imm
  else if op ≤ 0x3F ∧ op &&& 7 = 4 then 2
  else if op ≤ 0x3F ∧ op &&& 7 = 5 then 1 + immz
  else if op = 0xA8 then 2
  else if op = 0xA9 then 1 + immz
  else if 0xB0 ≤ op ∧ op ≤ 0xB7 then 2
  else if 0xB8 ≤ op ∧ op ≤ 0xBF then 1 + immz
  else if 0xA0 ≤ op ∧ op ≤ 0xA3 then 1 + 4
  else if op = 0x6A then 2
  else if op = 0x68 then 1 + immz
  else if 0x70 ≤ op ∧ op ≤ 0x7F then 2
  else if op = 0xEB then 2
  else if op = 0xE0 ∨ op = 0xE1 ∨ op = 0xE2 ∨ op = 0xE3 then 2
  else if op = 0xE8 ∨ op = 0xE9 then 5
  else if op = 0xC2 ∨ op = 0xCA then 3
  else if op = 0xCD then 2
  else 0

def x86InsnLen (c : List UInt8) (max pos : Nat) : Nat :=
  if pos ≥ max then 1
  else
    let (i, opsize32) := skipPrefixes c max (max - pos) pos true
    if i ≥ max then (if i - pos > 0 then i - pos else 1)
    else if byteAt c i = 0x0F then
      if i + 1 ≥ max then i + 1 - pos
      else if 0x80 ≤ byteAt c (i + 1) ∧ byteAt c (i + 1) ≤ 0x8F then i + 2 + 4 - pos
      else i + 2 + modrmLen c max (i + 2) - pos
    else
      let n := opcodeLen c max i opsize32 (byteAt c i)
      -- an unknown opcode makes one byte, prefixes or not
      if n = 0 then 1 else i + n - pos

theorem skipPrefixes_ge (c : List UInt8) (max f i : Nat) (o : Bool) :
    i ≤ (skipPrefixes c max f i o).1 := by
  induction f generalizing i o with
  | zero => exact Nat.le_refl _
  | succ f ih =>
    rw [skipPrefixes]
    split
    · exact Nat.le_refl _
    · split
      · exact Nat.le_of_succ_le (ih _ _)
      · split
        · exact Nat.le_of_succ_le (ih _ _)
        · exact Nat.le_refl _

/-- the decoder always moves on -/
theorem x86InsnLen_pos (c : List UInt8) (max pos : Nat) : 0 < x86InsnLen c max pos := by
  have hge := skipPrefixes_ge c max (max - pos) pos true
  unfold x86InsnLen
  split
  · exact Nat.one_pos
  · rcases hs : skipPrefixes c max (max - pos) pos true with ⟨i, o⟩
    rw [hs] at hge
    dsimp only at hge ⊢
    repeat' split
    all_goals omega

end X64Obj
