import OpenWatcom.Lib.Ia32
import OpenWatcom.X64Obj.InsnLen

/-!
# What the length decoder gets right

* `codeOp`   how the decoder reads a one-byte opcode; `codeOp_cases` sets it against the opcode map;
* `LenHandled`   prefixes, opcode and ModRM byte of the instructions the decoder measures;
* `x86InsnLen_iff`   the decoder returns the length of exactly these.
-/

namespace X64Obj
open Bytes Ia32

/-! ## all bytes -/

theorem forall_byte {P : UInt8 → Prop} (h : ∀ n < 256, P (UInt8.ofNat n)) (b : UInt8) : P b := by
  have hb := h b.toNat b.toNat_lt
  rwa [UInt8.ofNat_toNat] at hb

/-! ## ModRM -/

/-- ModRM, SIB and displacement as the decoder counts them; `base5`: the byte behind ModRM ends in 5 -/
def codeModrm (b : UInt8) (base5 : Bool) : Nat :=
  let mod := (b >>> 6) &&& 3
  let rm := b &&& 7
  let n := if mod ≠ 3 ∧ rm = 4 then (if mod = 0 ∧ base5 then 6 else 2) else 1
  if mod = 1 then n + 1 else if mod = 2 then n + 4 else if mod = 0 ∧ rm = 5 then n + 4 else n

/-- the same by the address size -/
def archModrm (addr16 : Bool) (b : UInt8) (base5 : Bool) : Nat :=
  let mod := b >>> 6
  let rm := b &&& 7
  if mod = 3 then 1
  else if addr16 then 1 + (if mod = 1 then 1 else if mod = 2 ∨ rm = 6 then 2 else 0)
  else
    (if rm = 4 then 2 else 1) +
      (if mod = 1 then 1 else if mod = 2 ∨ mod = 0 ∧ (rm = 5 ∨ rm = 4 ∧ base5) then 4 else 0)

/-- ModRM bytes of one size in 16-bit and 32-bit addressing -/
def addr16Same (b : UInt8) : Bool :=
  let mod := b >>> 6
  let rm := b &&& 7
  mod = 3 || (mod = 1 && rm ≠ 4) || (mod = 0 && rm ≠ 4 && rm ≠ 5 && rm ≠ 6)

/-- ModRM bytes whose 32-bit form is one byte larger than the 16-bit form -/
def addr16Less (b : UInt8) (base5 : Bool) : Bool :=
  let mod := b >>> 6
  b &&& 7 = 4 && (mod = 1 || mod = 0 && !base5)

theorem codeModrm_32 : ∀ b base5, codeModrm b base5 = archModrm false b base5 :=
  forall_byte (by decide +kernel)

theorem codeModrm_16 : ∀ b base5, codeModrm b base5 = archModrm true b base5 ↔ addr16Same b :=
  forall_byte (by decide +kernel)

theorem codeModrm_16_byte :
    ∀ b base5, codeModrm b base5 = archModrm true b base5 + 1 ↔ addr16Less b base5 :=
  forall_byte (by decide +kernel)

/-- the byte behind ModRM counts only when there is a SIB byte -/
theorem archModrm_sib : ∀ b, (∀ s t, archModrm false b s = archModrm false b t) ∨
    ∀ s, 2 ≤ archModrm false b s :=
  forall_byte (by decide +kernel)

theorem modrmSize_sum (addr16 : Bool) (c : List UInt8) :
    (modrmSize addr16 c).1 + (modrmSize addr16 c).2
      = archModrm addr16 (byteAt c 0) (byteAt c 1 &&& 7 = 5) := by
  simp only [modrmSize, archModrm, decide_eq_true_eq]
  split_ifs <;> rfl

theorem modrmLen_eq (c : List UInt8) {max start : Nat} (h : start < max) :
    modrmLen c max start
      = codeModrm (byteAt c start) (decide (start + 1 < max) && byteAt c (start + 1) &&& 7 = 5) := by
  rw [modrmLen, if_neg (by omega), codeModrm]
  dsimp only
  by_cases hm : start + 1 < max
  · simp only [hm, if_true, decide_true, Bool.true_and, decide_eq_true_eq]
  · simp only [hm, if_false, decide_false, Bool.false_and, Bool.false_eq_true, and_false]

/-! ## one-byte opcodes -/

/-- the bytes behind an opcode and its ModRM -/
inductive Tail where
  | fixed (n : Nat)
  | immz
  | testb
  | testz
  deriving DecidableEq

def Tail.len (opsize32 : Bool) (reg : UInt8) : Tail → Nat
  | .fixed n => n
  | .immz => if opsize32 then 4 else 2
  | .testb => if reg = 0 ∨ reg = 1 then 1 else 0
  | .testz => if reg = 0 ∨ reg = 1 then (if opsize32 then 4 else 2) else 0

/-- ModRM or not, and what follows, in the order of the tests of `opcodeLen` -/
def codeOp (op : UInt8) : Option (Bool × Tail) :=
  if noOperand op then some (false, .fixed 0)
  else if modrmOnly op then some (true, .fixed 0)
  else if op = 0xC8 then some (false, .fixed 3)
  else if op = 0xD4 ∨ op = 0xD5 then some (false, .fixed 1)
  else if op = 0x9A ∨ op = 0xEA then some (false, .fixed 6)
  else if 0xE4 ≤ op ∧ op ≤ 0xE7 then some (false, .fixed 1)
  else if op = 0x60 ∨ op = 0x61 ∨ (0x9B ≤ op ∧ op ≤ 0x9F) ∨ (0xEC ≤ op ∧ op ≤ 0xEF) then
    some (false, .fixed 0)
  else if op = 0x80 ∨ op = 0x83 ∨ op = 0x6B ∨ op = 0xC0 ∨ op = 0xC1 ∨ op = 0xC6 then
    some (true, .fixed 1)
  else if op = 0x81 ∨ op = 0x69 ∨ op = 0xC7 then some (true, .immz)
  else if op = 0xF6 then some (true, .testb)
  else if op = 0xF7 then some (true, .testz)
  else if op ≤ 0x3F ∧ op &&& 7 = 4 then some (false, .fixed 1)
  else if op ≤ 0x3F ∧ op &&& 7 = 5 then some (false, .immz)
  else if op = 0xA8 then some (false, .fixed 1)
  else if op = 0xA9 then some (false, .immz)
  else if 0xB0 ≤ op ∧ op ≤ 0xB7 then some (false, .fixed 1)
  else if 0xB8 ≤ op ∧ op ≤ 0xBF then some (false, .immz)
  else if 0xA0 ≤ op ∧ op ≤ 0xA3 then some (false, .fixed 4)
  else if op = 0x6A then some (false, .fixed 1)
  else if op = 0x68 then some (false, .immz)
  else if 0x70 ≤ op ∧ op ≤ 0x7F then some (false, .fixed 1)
  else if op = 0xEB then some (false, .fixed 1)
  else if op = 0xE0 ∨ op = 0xE1 ∨ op = 0xE2 ∨ op = 0xE3 then some (false, .fixed 1)
  else if op = 0xE8 ∨ op = 0xE9 then some (false, .fixed 4)
  else if op = 0xC2 ∨ op = 0xCA then some (false, .fixed 2)
  else if op = 0xCD then some (false, .fixed 1)
  else none

/-- the length `codeOp` stands for; 0 when the opcode is not listed -/
def codeLen (modrm : Nat) (opsize32 : Bool) (reg : UInt8) : Option (Bool × Tail) → Nat
  | none => 0
  | some (m, tail) => 1 + (if m then modrm else 0) + tail.len opsize32 reg

theorem opcodeLen_eq (c : List UInt8) (max i : Nat) (opsize32 : Bool) (op : UInt8) :
    opcodeLen c max i opsize32 op = codeLen (modrmLen c max (i + 1)) opsize32
      (if i + 1 < max then (byteAt c (i + 1) >>> 3) &&& 7 else 0) (codeOp op) := by
  rw [opcodeLen, codeOp]
  by_cases h6 : op = 0xF6
  · subst h6
    rfl
  by_cases h7 : op = 0xF7
  · subst h7
    rfl
  simp only [h6, h7, or_self, if_false, apply_ite (codeLen _ _ _)]
  simp only [codeLen, Tail.len, if_true, Bool.false_eq_true, if_false, Nat.add_zero, Nat.reduceAdd]

/-- opcodes the decoder has no case for -/
def unlisted (op : UInt8) : Bool :=
  (op ≤ 0x3F && 6 ≤ op &&& 7) || op = 0x62 || (0x6C ≤ op && op ≤ 0x6F) || op = 0x82 || op = 0xC4
    || op = 0xC5 || op = 0xCB || op = 0xCE || op = 0xCF || op = 0xD6 || op = 0xD7 || op = 0xF1
    || op = 0xF4 || op = 0xF5

/-- unlisted opcodes with a ModRM byte: `BOUND`, the copy of `80`, `LES`, `LDS` -/
def unlistedModrm (op : UInt8) : Bool := op = 0x62 || op = 0x82 || op = 0xC4 || op = 0xC5

def isMoffsOp (op : UInt8) : Bool := 0xA0 ≤ op && op ≤ 0xA3

/-- `CALL` and `JMP` with a displacement or a far address in the instruction -/
def isFarOrRel (op : UInt8) : Bool := op = 0xE8 || op = 0xE9 || op = 0x9A || op = 0xEA

/-- tails that are an immediate at every operand size and address size -/
def Tail.exact : Tail → Imm → Bool
  | .fixed 0, .none | .fixed 1, .ib | .fixed 2, .iw | .fixed 3, .iwb => true
  | .immz, .iz | .testb, .testb | .testz, .testz => true
  | _, _ => false

/-- the decoder's reading of a one-byte opcode beside the opcode map -/
def agreesOp (op : UInt8) : Option (Bool × Tail) → Option Op → Bool
  | _, none => true
  | none, some o => unlisted op && (if unlistedModrm op then o.modrm else o = ⟨false, .none⟩)
  | some (m, tail), some o =>
    !unlisted op && m = o.modrm &&
      (if isMoffsOp op then tail = .fixed 4 && o = ⟨false, .moffs⟩
      else if isFarOrRel op then
        (tail = .fixed 4 && o = ⟨false, .iz⟩) || (tail = .fixed 6 && o = ⟨false, .far⟩)
      else tail.exact o.imm)

theorem codeOp_agrees : ∀ op, Ia32.isPrefix op = false → op ≠ 0x0F → agreesOp op (codeOp op) (opcode1 op) :=
  forall_byte (by decide +kernel)

theorem opcode1_test : ∀ op, (opcode1 op).all fun o => o.modrm || (o.imm ≠ .testb && o.imm ≠ .testz) :=
  forall_byte (by decide +kernel)

theorem test_reg : ∀ b : UInt8, (b >>> 3) &&& 7 < 2 ↔ (b >>> 3) &&& 7 = 0 ∨ (b >>> 3) &&& 7 = 1 :=
  forall_byte (by decide +kernel)

/-- an exact tail has the size of the immediate; the reg field counts for `TEST` only -/
theorem Tail.exact_len {tail : Tail} {imm : Imm} (h : tail.exact imm = true) (opsize16 addr16 : Bool)
    {reg modrm : UInt8} (hreg : imm = .testb ∨ imm = .testz → reg = (modrm >>> 3) &&& 7) :
    tail.len (!opsize16) reg = imm.size opsize16 addr16 modrm := by
  unfold Tail.exact at h
  split at h
  · rfl
  · rfl
  · rfl
  · rfl
  · cases opsize16 <;> rfl
  · rw [Tail.len, Imm.size, hreg (Or.inl rfl)]
    exact if_congr (test_reg modrm).symm rfl rfl
  · rw [Tail.len, Imm.size, hreg (Or.inr rfl)]
    refine if_congr (test_reg modrm).symm ?_ rfl
    cases opsize16 <;> rfl
  · exact absurd h (by simp)

/-! ## prefixes -/

/-- the byte behind the prefixes -/
theorem prefixCount_stop {i : List UInt8} (h : prefixCount i < i.length) :
    Ia32.isPrefix (byteAt i (prefixCount i)) = false := by
  induction i with
  | nil => exact absurd h (Nat.not_lt_zero _)
  | cons b c ih =>
    rw [prefixCount] at h ⊢
    by_cases hb : Ia32.isPrefix b = true
    · rw [if_pos hb] at h ⊢
      exact ih (Nat.lt_of_succ_lt_succ h)
    · rw [if_neg hb]
      exact (Bool.not_eq_true _).mp hb

theorem isPrefix_eq (b : UInt8) : Ia32.isPrefix b = (b = 0x66 || X64Obj.isPrefix b) := by
  simp only [Ia32.isPrefix, X64Obj.isPrefix, Bool.or_assoc]

theorem skipPrefixes_eq (a insn post : List UInt8) (o : Bool) {f : Nat}
    (hp : prefixCount insn < insn.length) (hf : prefixCount insn < f) :
    skipPrefixes (a ++ (insn ++ post)) (a ++ (insn ++ post)).length f a.length o
      = (a.length + prefixCount insn, o && decide (0x66 ∉ insn.take (prefixCount insn))) := by
  induction insn generalizing a o f with
  | nil => exact absurd hp (Nat.not_lt_zero _)
  | cons b c ih =>
    obtain ⟨f, rfl⟩ : ∃ k, f = k + 1 := ⟨f - 1, by omega⟩
    have hb0 : byteAt (a ++ (b :: c ++ post)) a.length = b := byteAt_append_right a _ 0
    have hlen : ¬a.length ≥ (a ++ (b :: c ++ post)).length := by
      rw [List.length_append, List.cons_append, List.length_cons]
      omega
    rw [skipPrefixes, if_neg hlen, hb0, prefixCount, isPrefix_eq]
    rw [prefixCount, isPrefix_eq] at hp hf
    -- the round for a prefix `b`
    have hstep : ∀ o', (b = 0x66 || X64Obj.isPrefix b) = true →
        skipPrefixes (a ++ (b :: c ++ post)) (a ++ (b :: c ++ post)).length f (a.length + 1) o'
          = (a.length + (prefixCount c + 1), o' && decide (0x66 ∉ c.take (prefixCount c))) := by
      intro o' hb
      rw [if_pos hb] at hp hf
      have h := ih (a ++ [b]) o' (f := f) (Nat.lt_of_succ_lt_succ hp) (by omega)
      have e : (a ++ [b]).length = a.length + 1 := by rw [List.length_append, List.length_singleton]
      rw [List.append_assoc, e] at h
      rw [show a.length + (prefixCount c + 1) = a.length + 1 + prefixCount c by omega]
      exact h
    by_cases h66 : b = 0x66
    · subst h66
      have hb : (decide ((0x66 : UInt8) = 0x66) || X64Obj.isPrefix 0x66) = true := rfl
      rw [if_pos rfl, hstep false hb, if_pos hb, List.take_succ_cons]
      simp
    · by_cases hpre : X64Obj.isPrefix b = true
      · have hb : (decide (b = 0x66) || X64Obj.isPrefix b) = true := by rw [hpre, Bool.or_true]
        rw [if_neg h66, if_pos hpre, hstep o hb, if_pos hb, List.take_succ_cons]
        simp [Ne.symm h66]
      · have hb : ¬(decide (b = 0x66) || X64Obj.isPrefix b) = true := by simp [h66, hpre]
        rw [if_neg h66, if_neg hpre, if_neg hb]
        simp

/-! ## the instructions the decoder measures -/

/-- no operand size prefix before a near branch, a far address or a 16-bit displacement, no address size
prefix where it changes the size, and an opcode with a case in the decoder -/
def LenHandled (insn : List UInt8) : Prop :=
  let p := prefixCount insn
  let opsize16 := 0x66 ∈ insn.take p
  let addr16 := 0x67 ∈ insn.take p
  let op := byteAt insn p
  if op = 0x0F then
    let op2 := byteAt insn (p + 1)
    if noOperand2 op2 then False
    else if 0x80 ≤ op2 ∧ op2 < 0x90 then ¬opsize16
    else if byteOperand2 op2 then
      -- the byte operand is taken for a part of the address
      addr16 ∧ addr16Less (byteAt insn (p + 2)) (byteAt insn (p + 3) &&& 7 = 5)
    else addr16 → addr16Same (byteAt insn (p + 2))
  else if unlisted op then p = 0 ∧ ¬unlistedModrm op
  else if isMoffsOp op then ¬addr16
  else if isFarOrRel op then ¬opsize16
  else (opcode1 op).map Op.modrm = some true → addr16 → addr16Same (byteAt insn (p + 1))

/-- an instruction in a buffer -/
structure Within (c : List UInt8) (pos : Nat) (insn : List UInt8) : Prop where
  bytes : ∀ k < insn.length, byteAt c (pos + k) = byteAt insn k
  le : pos + insn.length ≤ c.length

theorem within_append (pre insn post : List UInt8) : Within (pre ++ (insn ++ post)) pre.length insn where
  bytes k hk := by rw [byteAt_append_right, byteAt_append_left _ _ _ hk]
  le := by
    rw [List.length_append, List.length_append]
    omega

section
variable {c insn : List UInt8} {pos s : Nat} (hw : Within c pos insn) (hs : s < insn.length)
include hw hs

theorem modrmLen_within : ∃ base5, modrmLen c c.length (pos + s) = codeModrm (byteAt insn s) base5 ∧
    (s + 1 < insn.length → base5 = decide (byteAt insn (s + 1) &&& 7 = 5)) := by
  have hle := hw.le
  refine ⟨decide (pos + s + 1 < c.length) && byteAt c (pos + s + 1) &&& 7 = 5, ?_, fun h1 => ?_⟩
  · rw [modrmLen_eq c (by omega), hw.bytes s hs]
  · have hb : byteAt c (pos + s + 1) = byteAt insn (s + 1) := hw.bytes (s + 1) h1
    rw [hb, decide_eq_true (show pos + s + 1 < c.length by omega), Bool.true_and]

/-- in 32-bit addressing the decoder counts what belongs to the instruction -/
theorem modrmLen_32
    (hin : s + archModrm false (byteAt insn s) (byteAt insn (s + 1) &&& 7 = 5) ≤ insn.length) :
    modrmLen c c.length (pos + s) = archModrm false (byteAt insn s) (byteAt insn (s + 1) &&& 7 = 5) := by
  obtain ⟨base5, h, hb⟩ := modrmLen_within hw hs
  rw [h, codeModrm_32]
  rcases archModrm_sib (byteAt insn s) with hsame | htwo
  · exact hsame _ _
  · have := htwo (byteAt insn (s + 1) &&& 7 = 5)
    rw [hb (by omega)]

theorem modrmLen_16 (t : Bool) :
    modrmLen c c.length (pos + s) = archModrm true (byteAt insn s) t ↔ addr16Same (byteAt insn s) := by
  obtain ⟨base5, h, -⟩ := modrmLen_within hw hs
  rw [h]
  exact codeModrm_16 _ base5

theorem modrmLen_16_byte (h1 : s + 1 < insn.length) (t : Bool) :
    modrmLen c c.length (pos + s) = archModrm true (byteAt insn s) t + 1 ↔
      addr16Less (byteAt insn s) (byteAt insn (s + 1) &&& 7 = 5) := by
  obtain ⟨base5, h, hb⟩ := modrmLen_within hw hs
  rw [h, ← hb h1]
  exact codeModrm_16_byte _ base5

/-- the decoder's count is that of the instruction, unless an address size prefix changes it -/
theorem modrm_plain (addr16 : Bool) {size : Nat × Nat} (hsize : modrmSize addr16 (insn.drop s) = size)
    (hin : s + size.1 + size.2 ≤ insn.length) :
    modrmLen c c.length (pos + s) = size.1 + size.2 ↔ (addr16 → addr16Same (byteAt insn s)) := by
  have hsum := modrmSize_sum addr16 (insn.drop s)
  rw [byteAt_drop, byteAt_drop, Nat.add_zero, hsize] at hsum
  rw [hsum]
  cases addr16 with
  | true => exact (modrmLen_16 hw hs _).trans (by simp)
  | false => exact ⟨fun _ h => absurd h (by simp), fun _ => modrmLen_32 hw hs (by omega)⟩

/-- a byte operand is counted as a part of the address at best -/
theorem modrm_byte (addr16 : Bool) {size : Nat × Nat} (hsize : modrmSize addr16 (insn.drop s) = size)
    (hin : s + size.1 + size.2 + 1 ≤ insn.length) :
    modrmLen c c.length (pos + s) = size.1 + size.2 + 1 ↔
      addr16 ∧ addr16Less (byteAt insn s) (byteAt insn (s + 1) &&& 7 = 5) := by
  have hsum := modrmSize_sum addr16 (insn.drop s)
  have hpos := modrmSize_pos addr16 (insn.drop s)
  rw [byteAt_drop, byteAt_drop, Nat.add_zero, hsize] at hsum
  rw [hsize] at hpos
  rw [hsum]
  cases addr16 with
  | true => exact (modrmLen_16_byte hw hs (by omega) _).trans (by simp)
  | false =>
    have h32 := modrmLen_32 hw hs (by omega)
    exact ⟨fun h => by omega, fun h => absurd h.1 (by simp)⟩

end

/-! ## the decoder at an instruction -/

section
variable (pre insn post : List UInt8)

/-- the buffer with the instruction -/
def bufferOf : List UInt8 := pre ++ (insn ++ post)

/-- what the decoder returns, in terms of the instruction's own bytes -/
theorem x86InsnLen_eq (hlt : prefixCount insn < insn.length) :
    x86InsnLen (bufferOf pre insn post) (bufferOf pre insn post).length pre.length =
      let c := bufferOf pre insn post
      let p := prefixCount insn
      if byteAt insn p = 0x0F then
        if pre.length + p + 1 ≥ c.length then p + 1
        else if 0x80 ≤ byteAt c (pre.length + p + 1) ∧ byteAt c (pre.length + p + 1) ≤ 0x8F then p + 6
        else p + 2 + modrmLen c c.length (pre.length + p + 2)
      else
        let n := opcodeLen c c.length (pre.length + p) (decide (0x66 ∉ insn.take p)) (byteAt insn p)
        if n = 0 then 1 else p + n := by
  have hw : Within (bufferOf pre insn post) pre.length insn := within_append pre insn post
  have hle := hw.le
  have hskip := skipPrefixes_eq pre insn post true
    (f := (bufferOf pre insn post).length - pre.length) hlt (by omega)
  have hop : byteAt (bufferOf pre insn post) (pre.length + prefixCount insn) = byteAt insn (prefixCount insn) :=
    hw.bytes _ hlt
  rw [x86InsnLen, if_neg (by omega)]
  change skipPrefixes (bufferOf pre insn post) (bufferOf pre insn post).length _ _ _ = _ at hskip
  rw [hskip]
  dsimp only
  rw [if_neg (by omega), hop, Bool.true_and]
  split_ifs <;> omega

variable {pre insn post} {fl : Fields} (hd : Decodes insn fl)
include hd

/-- an instruction with a two-byte opcode -/
theorem two_byte (h0 : byteAt insn (prefixCount insn) = 0x0F) (h2 : fl.opcode ≤ 2) :
    x86InsnLen (bufferOf pre insn post) (bufferOf pre insn post).length pre.length = insn.length ↔
      LenHandled insn := by
  have hlt := IsInsn.prefixCount_lt ((isInsn_iff insn).mpr ⟨fl, hd⟩)
  have hw : Within (bufferOf pre insn post) pre.length insn := within_append pre insn post
  have hle := hw.le
  obtain ⟨op, n, hop, hfl⟩ := hd.fields
  have hlen := hd.2
  set p := prefixCount insn with hp
  -- the opcode has two bytes
  rw [hfl] at h2 hlen
  have hn : n ≤ 2 := h2
  rw [opcodeAt, byteAt_drop, Nat.add_zero, if_pos h0, byteAt_drop] at hop
  have h38 : byteAt insn (p + 1) ≠ 0x38 := by
    intro e
    rw [if_pos e] at hop
    cases hop
    omega
  have h3A : byteAt insn (p + 1) ≠ 0x3A := by
    intro e
    rw [if_neg h38, if_pos e] at hop
    cases hop
    omega
  rw [if_neg h38, if_neg h3A] at hop
  obtain ⟨op', hop', e⟩ := Option.map_eq_some_iff.mp hop
  obtain ⟨rfl, rfl⟩ := Prod.mk.inj e
  simp only [Fields.len, Fields.dispOff, Op.fields, byteAt_drop] at hlen
  have hb1 : byteAt (bufferOf pre insn post) (pre.length + p + 1) = byteAt insn (p + 1) :=
    hw.bytes (p + 1) (by omega)
  rw [x86InsnLen_eq pre insn post hlt, LenHandled]
  dsimp only
  rw [← hp, if_pos h0, if_pos h0, if_neg (by omega), hb1]
  have hup : byteAt insn (p + 1) ≤ 0x8F ↔ byteAt insn (p + 1) < 0x90 := by
    simp only [UInt8.le_iff_toNat_le, UInt8.lt_iff_toNat_lt]
    exact Nat.lt_succ_iff.symm
  simp only [hup]
  have hnj : noOperand2 (byteAt insn (p + 1)) = true →
      ¬(0x80 ≤ byteAt insn (p + 1) ∧ byteAt insn (p + 1) < 0x90) := by
    generalize byteAt insn (p + 1) = b
    revert b
    exact forall_byte (by decide +kernel)
  unfold opcode2 at hop'
  split_ifs at hop' with hundef hno hjcc hbyte <;> obtain rfl := Option.some.inj hop'
  · -- no operand bytes, but the decoder wants a ModRM byte
    have hlen' : p + 2 = insn.length := by simpa [Imm.size] using hlen
    have hpos : 0 < modrmLen (bufferOf pre insn post) (bufferOf pre insn post).length
        (pre.length + p + 2) := by
      unfold modrmLen
      dsimp only
      split_ifs <;> omega
    rw [if_neg (hnj hno), if_pos hno]
    exact ⟨fun h => by omega, fun h => h.elim⟩
  · -- a near conditional branch
    rw [if_pos hjcc, if_neg hno, if_pos hjcc]
    simp only [Bool.false_eq_true, if_false, Imm.size, decide_eq_true_eq] at hlen
    by_cases h66 : 0x66 ∈ insn.take p
    · rw [if_pos h66] at hlen
      exact ⟨fun h => by omega, fun h => absurd h66 h⟩
    · rw [if_neg h66] at hlen
      exact ⟨fun _ => h66, fun _ => by omega⟩
  · -- ModRM and a byte
    simp only [if_true, Imm.size] at hlen
    rw [if_neg hjcc, if_neg hno, if_neg hjcc, if_pos hbyte]
    have hpos := modrmSize_pos (decide (0x67 ∈ insn.take p)) (insn.drop (p + 2))
    have h := modrm_byte hw (s := p + 2) (by omega) (decide (0x67 ∈ insn.take p)) rfl
      (by omega)
    rw [decide_eq_true_eq] at h
    rw [← h, Nat.add_assoc pre.length]
    omega
  · simp only [if_true, Imm.size] at hlen
    rw [if_neg hjcc, if_neg hno, if_neg hjcc, if_neg hbyte]
    have hpos := modrmSize_pos (decide (0x67 ∈ insn.take p)) (insn.drop (p + 2))
    have h := modrm_plain hw (s := p + 2) (by omega) (decide (0x67 ∈ insn.take p)) rfl
      (by omega)
    rw [decide_eq_true_eq] at h
    rw [← h, Nat.add_assoc pre.length]
    omega

/-- an instruction with a one-byte opcode -/
theorem one_byte (h0 : byteAt insn (prefixCount insn) ≠ 0x0F) :
    x86InsnLen (bufferOf pre insn post) (bufferOf pre insn post).length pre.length = insn.length ↔
      LenHandled insn := by
  have hlt := IsInsn.prefixCount_lt ((isInsn_iff insn).mpr ⟨fl, hd⟩)
  have hw : Within (bufferOf pre insn post) pre.length insn := within_append pre insn post
  have hle := hw.le
  obtain ⟨op, n, hop, hfl⟩ := hd.fields
  have hlen := hd.2
  have hnp := prefixCount_stop hlt
  set p := prefixCount insn with hp
  rw [opcodeAt, byteAt_drop, Nat.add_zero, if_neg h0] at hop
  obtain ⟨op', hop', e⟩ := Option.map_eq_some_iff.mp hop
  obtain ⟨rfl, rfl⟩ := Prod.mk.inj e
  rw [hfl] at hlen
  simp only [Fields.len, Fields.dispOff, Op.fields, byteAt_drop, Nat.add_zero] at hlen
  have hagree := codeOp_agrees _ hnp h0
  rw [hop'] at hagree
  rw [x86InsnLen_eq pre insn post hlt, LenHandled]
  dsimp only
  rw [← hp, if_neg h0, if_neg h0, opcodeLen_eq, hop', Option.map_some, Option.some.injEq]
  obtain ⟨modrm, imm⟩ := op'
  dsimp only at hlen
  cases hc : codeOp (byteAt insn p) with
  | none =>
    rw [hc, agreesOp, Bool.and_eq_true] at hagree
    obtain ⟨hun, hop''⟩ := hagree
    rw [codeLen, if_pos rfl, if_pos hun]
    by_cases hm : unlistedModrm (byteAt insn p) = true
    · rw [if_pos hm] at hop''
      have hpos := modrmSize_pos (decide (0x67 ∈ insn.take p)) (insn.drop (p + 1))
      have hop'' : modrm = true := hop''
      rw [if_pos hop''] at hlen
      exact ⟨fun h => by omega, fun h => absurd hm h.2⟩
    · rw [if_neg hm, decide_eq_true_eq] at hop''
      obtain ⟨rfl, rfl⟩ := Op.mk.inj hop''
      simp only [Bool.false_eq_true, if_false, Imm.size] at hlen
      exact ⟨fun h => ⟨by omega, hm⟩, fun h => by omega⟩
  | some mt =>
    obtain ⟨m, tail⟩ := mt
    rw [hc, agreesOp, Bool.and_eq_true, Bool.and_eq_true] at hagree
    obtain ⟨⟨hun, hm⟩, htail⟩ := hagree
    have hm : m = modrm := of_decide_eq_true hm
    subst hm
    have hun : ¬unlisted (byteAt insn p) = true := by simpa using hun
    rw [codeLen, if_neg (show ¬1 + _ + _ = 0 by omega), if_neg hun]
    by_cases hmo : isMoffsOp (byteAt insn p) = true
    · rw [if_pos hmo, Bool.and_eq_true, decide_eq_true_eq, decide_eq_true_eq] at htail
      obtain ⟨rfl, hop''⟩ := htail
      obtain ⟨rfl, rfl⟩ := Op.mk.inj hop''
      rw [if_pos hmo]
      simp only [Bool.false_eq_true, if_false, Imm.size, Tail.len, decide_eq_true_eq] at hlen ⊢
      split_ifs at hlen with h67
      · exact ⟨fun h => by omega, fun h => absurd h67 h⟩
      · exact ⟨fun _ => h67, fun _ => by omega⟩
    rw [if_neg hmo] at htail ⊢
    by_cases hfar : isFarOrRel (byteAt insn p) = true
    · rw [if_pos hfar, Bool.or_eq_true, Bool.and_eq_true, Bool.and_eq_true, decide_eq_true_eq,
        decide_eq_true_eq, decide_eq_true_eq, decide_eq_true_eq] at htail
      rw [if_pos hfar]
      rcases htail with ⟨rfl, hop''⟩ | ⟨rfl, hop''⟩ <;> obtain ⟨rfl, rfl⟩ := Op.mk.inj hop'' <;>
        simp only [Bool.false_eq_true, if_false, Imm.size, Tail.len, decide_eq_true_eq] at hlen ⊢ <;>
        split_ifs at hlen with h66
      · exact ⟨fun h => by omega, fun h => absurd h66 h⟩
      · exact ⟨fun _ => h66, fun _ => by omega⟩
      · exact ⟨fun h => by omega, fun h => absurd h66 h⟩
      · exact ⟨fun _ => h66, fun _ => by omega⟩
    rw [if_neg hfar] at htail ⊢
    have htest := opcode1_test (byteAt insn p)
    rw [hop', Option.all_some] at htest
    have hreg : imm = .testb ∨ imm = .testz →
        (if pre.length + p + 1 < (bufferOf pre insn post).length then
          (byteAt (bufferOf pre insn post) (pre.length + p + 1) >>> 3) &&& 7 else 0)
          = (byteAt insn (p + 1) >>> 3) &&& 7 := by
      intro himm
      have hmt : m = true := by
        rcases himm with rfl | rfl <;> simpa using htest
      have hpos := modrmSize_pos (decide (0x67 ∈ insn.take p)) (insn.drop (p + 1))
      rw [if_pos hmt] at hlen
      have hb1 : byteAt (bufferOf pre insn post) (pre.length + p + 1) = byteAt insn (p + 1) :=
        hw.bytes (p + 1) (by omega)
      rw [if_pos (by omega), hb1]
    rw [decide_not, Tail.exact_len htail (decide (0x66 ∈ insn.take p)) (decide (0x67 ∈ insn.take p)) hreg]
    cases m with
    | false =>
      simp only [Bool.false_eq_true, if_false] at hlen ⊢
      exact ⟨fun _ h => absurd h (by simp), fun _ => by omega⟩
    | true =>
      simp only [if_true] at hlen ⊢
      have hpos := modrmSize_pos (decide (0x67 ∈ insn.take p)) (insn.drop (p + 1))
      have h := modrm_plain hw (s := p + 1) (by omega) (decide (0x67 ∈ insn.take p)) rfl
        (by omega)
      rw [decide_eq_true_eq] at h
      rw [← h, Nat.add_assoc pre.length, true_imp_iff]
      omega

/-- the decoder returns the length of an instruction exactly when it is one it handles -/
theorem x86InsnLen_iff (h2 : fl.opcode ≤ 2) :
    x86InsnLen (bufferOf pre insn post) (bufferOf pre insn post).length pre.length = insn.length ↔
      LenHandled insn := by
  by_cases h0 : byteAt insn (prefixCount insn) = 0x0F
  · exact two_byte hd h0 h2
  · exact one_byte hd h0

end

/-- `mov eax, [ebp + 8]` behind a prefix -/
theorem x86InsnLen_mov : Decodes [0x66, 0x8B, 0x45, 0x08] ⟨1, 1, 1, 1, 0⟩ ∧
    (x86InsnLen (bufferOf [0x90] [0x66, 0x8B, 0x45, 0x08] [0xC3]) 6 1 = 4 ↔
      LenHandled [0x66, 0x8B, 0x45, 0x08]) :=
  ⟨by decide, @x86InsnLen_iff [0x90] _ [0xC3] ⟨1, 1, 1, 1, 0⟩ (by decide) (by decide)⟩

/-- `shld eax, ecx, 4` is one byte longer than the decoder says, `bswap eax` one shorter -/
theorem x86InsnLen_shld : IsInsn [0x0F, 0xA4, 0xC8, 0x04] ∧ IsInsn [0x0F, 0xC8] ∧
    x86InsnLen (bufferOf [] [0x0F, 0xA4, 0xC8, 0x04] [0xC3]) 5 0 = 3 ∧
    x86InsnLen (bufferOf [] [0x0F, 0xC8] [0xC3]) 3 0 = 3 := by decide

end X64Obj
