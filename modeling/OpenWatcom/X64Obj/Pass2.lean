import OpenWatcom.X64Obj.InsnLen

/-!
# Pass 2 of `X64ObjFini`: patching the 386 text for x86-64

* `rewriteLoop`   the rewrite loop: at every position it looks at, a pattern (`patternAt`)
                  decides how many bytes are consumed and what is emitted; `offset_map` records
                  where each position looked at went;
* `adjustLoop`    the scan over the original text that recomputes relative branches.

A C `int` is an `Int` or a `Nat` here: text sizes stay far below `2^31`.
-/

namespace X64Obj
open Bytes

/-- `fixup_rec` -/
structure FixupRec where
  codeOffset : Int
  extIdx : Int
  targetSeg : Int
  deriving DecidableEq, Repr

/-- the loop over `fixups[]` that looks for a fixup at offset `k` -/
def hasFixup (fixups : List FixupRec) (k : Nat) : Bool := fixups.any fun f => f.codeOffset = k

/-! ## the rewrite loop -/

/-- what the rewrite loop recognises at a position -/
inductive Pattern where
  /-- `89`/`8B` with a register-register ModRM: gets a `48` prefix -/
  | rexMov
  /-- `8D` with RSP/RBP as destination or base: gets a `48` prefix -/
  | rexLea
  /-- `81`/`83` with ModRM `EC`/`C4` (SUB/ADD ESP): gets a `48` prefix -/
  | rexAddSub
  /-- `push imm32; push imm32` before a call -/
  | pushImm32
  /-- `push imm32; push imm8` before a call -/
  | pushImm8
  /-- `A1`/`A3` with a fixup on its operand -/
  | moffs
  | plain
  deriving DecidableEq, Repr

def isRexMov (b0 b1 : UInt8) : Bool :=
  (b0 = 0x89 && (b1 = 0xE5 || b1 = 0xEC)) || ((b0 = 0x89 || b0 = 0x8B) && b1 &&& 0xC0 = 0xC0)

def isRexLea (b0 b1 : UInt8) : Bool :=
  let lreg := (b1 >>> 3) &&& 7
  let lmod := (b1 >>> 6) &&& 3
  let lrm := b1 &&& 7
  b0 = 0x8D && (lreg = 4 || lreg = 5 || (lmod ≠ 3 && (lrm = 5 || lrm = 4)))

def isRexAddSub (b0 b1 : UInt8) : Bool := (b0 = 0x81 || b0 = 0x83) && (b1 = 0xEC || b1 = 0xC4)

section
variable (code : List UInt8) (fixups : List FixupRec)

def isPushImm32 (k : Nat) : Bool :=
  byteAt code k = 0x68 && k + 5 < code.length && byteAt code (k + 5) = 0x68
    && !hasFixup fixups (k + 1) && !hasFixup fixups (k + 6)
    && k + 10 < code.length && byteAt code (k + 10) = 0xE8

def isPushImm8 (k : Nat) : Bool :=
  byteAt code k = 0x68 && k + 5 < code.length && byteAt code (k + 5) = 0x6A
    && !hasFixup fixups (k + 1) && k + 7 < code.length && byteAt code (k + 7) = 0xE8

def isMoffs (k : Nat) : Bool :=
  (byteAt code k = 0xA1 || byteAt code k = 0xA3) && k + 5 ≤ code.length && hasFixup fixups (k + 1)

/-- the tests of the loop body, in their order (a LEA falls through all later ones) -/
def patternAt (k : Nat) : Pattern :=
  if k + 1 < code.length ∧ isRexMov (byteAt code k) (byteAt code (k + 1)) then .rexMov
  else if k + 1 < code.length ∧ isRexLea (byteAt code k) (byteAt code (k + 1)) then .rexLea
  else if k + 1 < code.length ∧ isRexAddSub (byteAt code k) (byteAt code (k + 1)) then .rexAddSub
  else if isPushImm32 code fixups k then .pushImm32
  else if isPushImm8 code fixups k then .pushImm8
  else if isMoffs code fixups k then .moffs
  else .plain

/-- bytes consumed -/
def Pattern.width : Pattern → Nat
  | .rexMov | .rexAddSub => 2
  | .rexLea | .plain => 1
  | .pushImm32 => 10
  | .pushImm8 => 7
  | .moffs => 5

/-- `sub $8,%rsp; mov $low,[rsp]; mov $high,4[rsp]` -/
def pushPairBytes (lo hi : List UInt8) : List UInt8 :=
  [0x48, 0x83, 0xEC, 0x08, 0xC7, 0x04, 0x24] ++ lo ++ [0xC7, 0x44, 0x24, 0x04] ++ hi

/-- bytes emitted at `k` -/
def emitAt (k : Nat) : List UInt8 :=
  match patternAt code fixups k with
  | .rexMov | .rexAddSub => [0x48, byteAt code k, byteAt code (k + 1)]
  | .rexLea => [0x48, byteAt code k]
  | .pushImm32 => pushPairBytes (slice code (k + 6) 4) (slice code (k + 1) 4)
  | .pushImm8 => pushPairBytes [byteAt code (k + 6), 0, 0, 0] (slice code (k + 1) 4)
  | .moffs => [if byteAt code k = 0xA1 then 0x8B else 0x89, 0x05] ++ slice code (k + 1) 4
  | .plain => [byteAt code k]

/-- where the loop looks after `k` -/
def rewriteNext (k : Nat) : Nat := k + (patternAt code fixups k).width

/-- `offset_map` while the loop handles `k`, `p` bytes having been emitted -/
def mapAt (offsetMap : Nat → Int) (k p : Nat) : Nat → Int :=
  let m := Function.update offsetMap k (p : Int)
  if patternAt code fixups k = .moffs then Function.update m (k + 1) ((p : Int) + 2) else m

/-- `for( int k = 0; k < code_seg1_len; )` with `patched` and `offset_map` as state -/
def rewriteLoop : Nat → Nat → List UInt8 → (Nat → Int) → List UInt8 × (Nat → Int)
  | 0, _, patched, offsetMap => (patched, offsetMap)
  | f + 1, k, patched, offsetMap =>
    if k < code.length then
      rewriteLoop f (rewriteNext code fixups k) (patched ++ emitAt code fixups k)
        (mapAt code fixups offsetMap k patched.length)
    else (patched, offsetMap)

/-- the patched text and `offset_map` before branches are adjusted -/
def rewriteText : List UInt8 × (Nat → Int) :=
  let (patched, offsetMap) := rewriteLoop code fixups code.length 0 [] fun _ => -1
  (patched, Function.update offsetMap code.length (patched.length : Int))

end

/-! ## the branch adjustment -/

/-- a relative branch: where its displacement stands, how wide it is, length of the whole -/
structure Branch where
  dispOff : Nat
  dispSize : Nat
  instLen : Nat
  deriving DecidableEq, Repr

def relBranch (code : List UInt8) (k2 : Nat) : Option Branch :=
  let op2 := byteAt code k2
  if 0x70 ≤ op2 ∧ op2 ≤ 0x7F then some ⟨1, 1, 2⟩
  else if op2 = 0xEB then some ⟨1, 1, 2⟩
  else if op2 = 0x0F ∧ k2 + 1 < code.length ∧ 0x80 ≤ byteAt code (k2 + 1) ∧
      byteAt code (k2 + 1) ≤ 0x8F then some ⟨2, 4, 6⟩
  else if op2 = 0xE8 ∨ op2 = 0xE9 then some ⟨1, 4, 5⟩
  else none

/-- the signed field of `n` bytes at `p` -/
def fieldAt (c : List UInt8) (p n : Nat) : Int := toSigned n (leNat (slice c p n))

/-- `old_target` of the branch `b` at `k2` -/
def oldTarget (code : List UInt8) (k2 : Nat) (b : Branch) : Int :=
  (k2 + b.instLen : Nat) + fieldAt code (k2 + b.dispOff) b.dispSize

section
variable (code : List UInt8) (offsetMap : Nat → Int)

/-- `new_disp` of the branch `b` at `k2` -/
def newDisp (k2 : Nat) (b : Branch) : Int :=
  offsetMap (oldTarget code k2 b).toNat - (offsetMap k2 + b.instLen)

/-- the test before a new displacement is computed -/
def Adjusts (k2 : Nat) (b : Branch) : Prop :=
  0 ≤ oldTarget code k2 b ∧ oldTarget code k2 b ≤ code.length ∧ 0 ≤ offsetMap k2 ∧
    0 ≤ offsetMap (oldTarget code k2 b).toNat

instance (k2 : Nat) (b : Branch) : Decidable (Adjusts code offsetMap k2 b) :=
  inferInstanceAs (Decidable (_ ∧ _ ∧ _ ∧ _))

/-- one round of the scan: a branch gets its new displacement -/
def adjustAt (k2 : Nat) (patched : List UInt8) : List UInt8 :=
  match relBranch code k2 with
  | none => patched
  | some b =>
    if Adjusts code offsetMap k2 b then
      let d := newDisp code offsetMap k2 b
      let newDispOff := (offsetMap k2).toNat + b.dispOff
      if b.dispSize = 1 then
        -- a short displacement that no longer fits stays as it is
        if -128 ≤ d ∧ d ≤ 127 then writeBytes patched newDispOff (leBytes 1 (ofSigned 1 d))
        else patched
      else writeBytes patched newDispOff (leBytes 4 (ofSigned 4 d))
    else patched

/-- where the scan looks after `k2` -/
def scanNext (k2 : Nat) : Nat :=
  match relBranch code k2 with
  | some b => k2 + b.instLen
  | none => k2 + x86InsnLen code code.length k2

def adjustLoop : Nat → Nat → List UInt8 → List UInt8
  | 0, _, patched => patched
  | f + 1, k2, patched =>
    if k2 < code.length then adjustLoop f (scanNext code k2) (adjustAt code offsetMap k2 patched)
    else patched

end

/-- the new `code_offset` of a fixup -/
def adjustFixup (len : Nat) (offsetMap : Nat → Int) (f : FixupRec) : FixupRec :=
  if 0 ≤ f.codeOffset ∧ f.codeOffset < len then
    { f with codeOffset := offsetMap f.codeOffset.toNat }
  else f

/-- Pass 2 as far as the text goes: the patched text and `offset_map` -/
def pass2 (code : List UInt8) (fixups : List FixupRec) : List UInt8 × (Nat → Int) :=
  let (patched, offsetMap) := rewriteText code fixups
  (adjustLoop code offsetMap code.length 0 patched, offsetMap)

end X64Obj
