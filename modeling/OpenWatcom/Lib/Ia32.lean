import OpenWatcom.Lib.Bytes

/-!
# IA-32 instructions as byte strings

What an instruction of the 32-bit mode looks like: prefixes, one to three opcode bytes, ModRM
with SIB, a displacement and an immediate.  `decode` reads the size of each part off the bytes,
`IsInsn` says that a byte string is one complete instruction.

* `decode_one`   the parts of an instruction without prefixes and with a one-byte opcode;
* `IsInsn.length_one`   its length;
* `IsInsn.moffs_split`   the bytes of an accumulator move.
-/

namespace Ia32
open Bytes

/-! ## the parts of an instruction -/

/-- immediate operands -/
inductive Imm where
  | none
  | ib
  | iw
  /-- `ENTER`: a word and a byte -/
  | iwb
  /-- a word or a doubleword, by operand size -/
  | iz
  /-- an address, by address size -/
  | moffs
  /-- a selector and an offset, by operand size -/
  | far
  /-- a byte for `TEST` only (ModRM reg field 0 or 1) -/
  | testb
  /-- a word or a doubleword for `TEST` only -/
  | testz
  deriving DecidableEq, Repr

/-- operands of an opcode -/
structure Op where
  modrm : Bool
  imm : Imm
  deriving DecidableEq, Repr

def isPrefix (b : UInt8) : Bool :=
  b = 0x66 || b = 0x67 || b = 0xF0 || b = 0xF2 || b = 0xF3 || b = 0x26 || b = 0x2E || b = 0x36
    || b = 0x3E || b = 0x64 || b = 0x65

/-- one-byte opcodes -/
def opcode1 (b : UInt8) : Option Op :=
  if b < 0x40 then
    if b &&& 7 < 4 then some ⟨true, .none⟩
    else if b &&& 7 = 4 then some ⟨false, .ib⟩
    else if b &&& 7 = 5 then some ⟨false, .iz⟩
    else some ⟨false, .none⟩
  else if b < 0x62 then some ⟨false, .none⟩
  else if b < 0x64 then some ⟨true, .none⟩
  else if b < 0x68 then none
  else if b = 0x68 then some ⟨false, .iz⟩
  else if b = 0x69 then some ⟨true, .iz⟩
  else if b = 0x6A then some ⟨false, .ib⟩
  else if b = 0x6B then some ⟨true, .ib⟩
  else if b < 0x70 then some ⟨false, .none⟩
  else if b < 0x80 then some ⟨false, .ib⟩
  else if b = 0x81 then some ⟨true, .iz⟩
  else if b < 0x84 then some ⟨true, .ib⟩
  else if b < 0x90 then some ⟨true, .none⟩
  else if b = 0x9A then some ⟨false, .far⟩
  else if b < 0xA0 then some ⟨false, .none⟩
  else if b < 0xA4 then some ⟨false, .moffs⟩
  else if b = 0xA8 then some ⟨false, .ib⟩
  else if b = 0xA9 then some ⟨false, .iz⟩
  else if b < 0xB0 then some ⟨false, .none⟩
  else if b < 0xB8 then some ⟨false, .ib⟩
  else if b < 0xC0 then some ⟨false, .iz⟩
  else if b < 0xC2 then some ⟨true, .ib⟩
  else if b = 0xC2 ∨ b = 0xCA then some ⟨false, .iw⟩
  else if b = 0xC4 ∨ b = 0xC5 then some ⟨true, .none⟩
  else if b = 0xC6 then some ⟨true, .ib⟩
  else if b = 0xC7 then some ⟨true, .iz⟩
  else if b = 0xC8 then some ⟨false, .iwb⟩
  else if b = 0xCD then some ⟨false, .ib⟩
  else if b < 0xD0 then some ⟨false, .none⟩
  else if b < 0xD4 then some ⟨true, .none⟩
  else if b < 0xD6 then some ⟨false, .ib⟩
  else if b = 0xD6 then none
  else if b = 0xD7 then some ⟨false, .none⟩
  else if b < 0xE0 then some ⟨true, .none⟩
  else if b < 0xE8 then some ⟨false, .ib⟩
  else if b < 0xEA then some ⟨false, .iz⟩
  else if b = 0xEA then some ⟨false, .far⟩
  else if b = 0xEB then some ⟨false, .ib⟩
  else if b < 0xF6 then some ⟨false, .none⟩
  else if b = 0xF6 then some ⟨true, .testb⟩
  else if b = 0xF7 then some ⟨true, .testz⟩
  else if b < 0xFE then some ⟨false, .none⟩
  else some ⟨true, .none⟩

/-- second bytes after `0F` that take no operand bytes -/
def noOperand2 (b : UInt8) : Bool :=
  (0x05 ≤ b && b ≤ 0x09) || b = 0x0B || b = 0x0E || (0x30 ≤ b && b ≤ 0x35) || b = 0x37 || b = 0x77
    || (0xA0 ≤ b && b ≤ 0xA2) || (0xA8 ≤ b && b ≤ 0xAA) || (0xC8 ≤ b && b ≤ 0xCF)

/-- second bytes after `0F` with ModRM and a byte operand -/
def byteOperand2 (b : UInt8) : Bool :=
  b = 0x0F || (0x70 ≤ b && b ≤ 0x73) || b = 0xA4 || b = 0xAC || b = 0xBA || b = 0xC2
    || (0xC4 ≤ b && b ≤ 0xC6)

/-- second bytes after `0F` that are no instructions -/
def undefined2 (b : UInt8) : Bool :=
  b = 0x04 || b = 0x0A || b = 0x0C || (0x24 ≤ b && b ≤ 0x27) || b = 0x36
    || (0x38 ≤ b && b ≤ 0x3F) || b = 0x7A || b = 0x7B || b = 0xA6 || b = 0xA7

/-- two-byte opcodes, by their second byte (`38` and `3A` open three-byte opcodes) -/
def opcode2 (b : UInt8) : Option Op :=
  if undefined2 b then none
  else if noOperand2 b then some ⟨false, .none⟩
  else if 0x80 ≤ b ∧ b < 0x90 then some ⟨false, .iz⟩
  else if byteOperand2 b then some ⟨true, .ib⟩
  else some ⟨true, .none⟩

/-- sizes of ModRM with SIB and of the displacement, for the bytes from ModRM on -/
def modrmSize (addr16 : Bool) (c : List UInt8) : Nat × Nat :=
  let mod := byteAt c 0 >>> 6
  let rm := byteAt c 0 &&& 7
  if mod = 3 then (1, 0)
  else if addr16 then (1, if mod = 1 then 1 else if mod = 2 ∨ rm = 6 then 2 else 0)
  else
    let disp32 := mod = 2 ∨ mod = 0 ∧ (rm = 5 ∨ rm = 4 ∧ byteAt c 1 &&& 7 = 5)
    (if rm = 4 then 2 else 1, if mod = 1 then 1 else if disp32 then 4 else 0)

/-- size of an immediate; `modrm` is the byte after the opcode -/
def Imm.size (opsize16 addr16 : Bool) (modrm : UInt8) : Imm → Nat
  | .none => 0
  | .ib => 1
  | .iw => 2
  | .iwb => 3
  | .iz => if opsize16 then 2 else 4
  | .moffs => if addr16 then 2 else 4
  | .far => if opsize16 then 4 else 6
  | .testb => if modrm >>> 3 &&& 7 < 2 then 1 else 0
  | .testz => if modrm >>> 3 &&& 7 < 2 then (if opsize16 then 2 else 4) else 0

/-- sizes of the parts of an instruction -/
structure Fields where
  prefixes : Nat
  opcode : Nat
  modrm : Nat
  disp : Nat
  imm : Nat
  deriving DecidableEq, Repr

/-- where the displacement stands -/
def Fields.dispOff (f : Fields) : Nat := f.prefixes + f.opcode + f.modrm

def Fields.len (f : Fields) : Nat := f.dispOff + f.disp + f.imm

/-- the parts of an instruction with operands `op`, whose bytes after the opcode are `c` -/
def Op.fields (op : Op) (opsize16 addr16 : Bool) (prefixes opcode : Nat) (c : List UInt8) :
    Fields :=
  let m := if op.modrm then modrmSize addr16 c else (0, 0)
  ⟨prefixes, opcode, m.1, m.2, op.imm.size opsize16 addr16 (byteAt c 0)⟩

def prefixCount : List UInt8 → Nat
  | [] => 0
  | b :: c => if isPrefix b then prefixCount c + 1 else 0

/-- the opcode at the head of `c`: its operands and its size -/
def opcodeAt (c : List UInt8) : Option (Op × Nat) :=
  if byteAt c 0 = 0x0F then
    if byteAt c 1 = 0x38 then some (⟨true, .none⟩, 3)
    else if byteAt c 1 = 0x3A then some (⟨true, .ib⟩, 3)
    else (opcode2 (byteAt c 1)).map fun op => (op, 2)
  else (opcode1 (byteAt c 0)).map fun op => (op, 1)

/-- the parts of the instruction at the head of `c` -/
def decode (c : List UInt8) : Option Fields :=
  let p := prefixCount c
  let opsize16 := 0x66 ∈ c.take p
  let addr16 := 0x67 ∈ c.take p
  (opcodeAt (c.drop p)).map fun (op, n) => op.fields opsize16 addr16 p n (c.drop (p + n))

/-- a byte string that is one complete instruction with the parts `f` -/
def Decodes (i : List UInt8) (f : Fields) : Prop := decode i = some f ∧ f.len = i.length

instance (i : List UInt8) (f : Fields) : Decidable (Decodes i f) :=
  inferInstanceAs (Decidable (_ ∧ _))

/-- one complete instruction -/
def IsInsn (i : List UInt8) : Prop := (decode i).map Fields.len = some i.length

instance (i : List UInt8) : Decidable (IsInsn i) := inferInstanceAs (Decidable (_ = _))

/-- a text that is a sequence of complete instructions -/
def IsText (insns : List (List UInt8)) : Prop := ∀ i ∈ insns, IsInsn i

instance (insns : List (List UInt8)) : Decidable (IsText insns) :=
  inferInstanceAs (Decidable (∀ i ∈ insns, IsInsn i))

/-! ## what an instruction's first bytes say -/

theorem isInsn_iff (i : List UInt8) : IsInsn i ↔ ∃ f, Decodes i f := by
  rw [IsInsn, Option.map_eq_some_iff]
  rfl

theorem prefixCount_le (c : List UInt8) : prefixCount c ≤ c.length := by
  induction c with
  | nil => exact Nat.le_refl _
  | cons b c ih =>
    rw [prefixCount, List.length_cons]
    split <;> omega

theorem opcodeAt_pos {c : List UInt8} {op : Op} {n : Nat} (h : opcodeAt c = some (op, n)) :
    0 < n := by
  unfold opcodeAt at h
  split at h
  · split at h
    · cases h; decide
    · split at h
      · cases h; decide
      · obtain ⟨_, _, e⟩ := Option.map_eq_some_iff.mp h
        cases e; decide
  · obtain ⟨_, _, e⟩ := Option.map_eq_some_iff.mp h
    cases e; decide

/-- the parts of a complete instruction -/
theorem Decodes.fields {i : List UInt8} {f : Fields} (h : Decodes i f) :
    ∃ op n, opcodeAt (i.drop (prefixCount i)) = some (op, n) ∧
      f = op.fields (0x66 ∈ i.take (prefixCount i)) (0x67 ∈ i.take (prefixCount i))
        (prefixCount i) n (i.drop (prefixCount i + n)) := by
  obtain ⟨⟨op, n⟩, h1, h2⟩ := Option.map_eq_some_iff.mp h.1
  exact ⟨op, n, h1, h2.symm⟩

theorem IsInsn.prefixCount_lt {i : List UInt8} (h : IsInsn i) : prefixCount i < i.length := by
  obtain ⟨f, hf⟩ := (isInsn_iff i).mp h
  obtain ⟨op, n, h1, h2⟩ := hf.fields
  have hn := opcodeAt_pos h1
  have hl := hf.2
  rw [h2] at hl
  simp only [Fields.len, Fields.dispOff, Op.fields] at hl
  omega

theorem IsInsn.ne_nil {i : List UInt8} (h : IsInsn i) : i ≠ [] := by
  rintro rfl
  exact absurd h.prefixCount_lt (Nat.not_lt_zero _)

theorem IsInsn.length_pos {i : List UInt8} (h : IsInsn i) : 0 < i.length :=
  List.length_pos_iff.mpr h.ne_nil

/-- bytes before the opcode are prefixes -/
theorem isPrefix_of_lt (i : List UInt8) (k : Nat) (h : k < prefixCount i) :
    isPrefix (byteAt i k) = true := by
  induction i generalizing k with
  | nil => exact absurd h (Nat.not_lt_zero _)
  | cons b c ih =>
    rw [prefixCount] at h
    by_cases hb : isPrefix b = true
    · rw [if_pos hb] at h
      cases k with
      | zero => exact hb
      | succ k => exact ih k (by omega)
    · rw [if_neg hb] at h
      exact absurd h (Nat.not_lt_zero _)

theorem prefixCount_zero {i : List UInt8} (h : isPrefix (byteAt i 0) = false) :
    prefixCount i = 0 := by
  cases i with
  | nil => rfl
  | cons b c => rw [prefixCount, if_neg (by simpa using h)]

/-- an instruction without prefixes -/
theorem decode_bare {i : List UInt8} (h : isPrefix (byteAt i 0) = false) :
    decode i = (opcodeAt i).map fun x => x.1.fields false false 0 x.2 (i.drop x.2) := by
  have e := prefixCount_zero h
  unfold decode
  simp only [e, List.take_zero, List.drop_zero, List.not_mem_nil, decide_false, Nat.zero_add]

/-- an instruction without prefixes and with a one-byte opcode -/
theorem decode_one {i : List UInt8} {op : Op} (h : isPrefix (byteAt i 0) = false)
    (h0 : byteAt i 0 ≠ 0x0F) (hop : opcode1 (byteAt i 0) = some op) :
    decode i = some (op.fields false false 0 1 (i.drop 1)) := by
  rw [decode_bare h, opcodeAt, if_neg h0, hop]
  rfl

theorem IsInsn.length_one {i : List UInt8} {op : Op} (hi : IsInsn i)
    (h : isPrefix (byteAt i 0) = false) (h0 : byteAt i 0 ≠ 0x0F)
    (hop : opcode1 (byteAt i 0) = some op) :
    i.length = (op.fields false false 0 1 (i.drop 1)).len := by
  rw [IsInsn, decode_one h h0 hop] at hi
  exact (Option.some.inj hi).symm

/-! ## texts -/

theorem isText_append (a b : List (List UInt8)) : IsText (a ++ b) ↔ IsText a ∧ IsText b := by
  simp only [IsText, List.mem_append, or_imp, forall_and]

theorem IsText.ne_nil {insns : List (List UInt8)} (ht : IsText insns) : ∀ i ∈ insns, i ≠ [] :=
  fun i hi => (ht i hi).ne_nil

/-! ## lengths of some instructions -/

theorem modrmSize_pos (a : Bool) (c : List UInt8) : 0 < (modrmSize a c).1 := by
  unfold modrmSize
  dsimp only
  split
  · exact Nat.one_pos
  · split
    · exact Nat.one_pos
    · split
      · exact Nat.two_pos
      · exact Nat.one_pos

/-- an instruction with a ModRM byte -/
theorem IsInsn.two_le {i : List UInt8} (hi : IsInsn i) (imm : Imm)
    (h : isPrefix (byteAt i 0) = false) (h0 : byteAt i 0 ≠ 0x0F)
    (hop : opcode1 (byteAt i 0) = some ⟨true, imm⟩) : 2 ≤ i.length := by
  have hm := modrmSize_pos false (i.drop 1)
  rw [hi.length_one h h0 hop, Op.fields]
  simp only [Fields.len, Fields.dispOff, if_true]
  omega

/-- an instruction without ModRM -/
theorem IsInsn.length_imm {i : List UInt8} (hi : IsInsn i) (imm : Imm)
    (h : isPrefix (byteAt i 0) = false) (h0 : byteAt i 0 ≠ 0x0F)
    (hop : opcode1 (byteAt i 0) = some ⟨false, imm⟩) :
    i.length = 1 + imm.size false false (byteAt i 1) := by
  rw [hi.length_one h h0 hop, Op.fields, byteAt_drop]
  simp [Fields.len, Fields.dispOff]

theorem prefixCount_append {pf : List UInt8} {b : UInt8} (c : List UInt8)
    (hpf : ∀ x ∈ pf, isPrefix x = true) (hb : isPrefix b = false) :
    prefixCount (pf ++ b :: c) = pf.length := by
  induction pf with
  | nil => rw [List.nil_append, prefixCount, hb]; rfl
  | cons x pf ih =>
    rw [List.cons_append, prefixCount, if_pos (hpf x List.mem_cons_self),
      ih fun y hy => hpf y (List.mem_cons_of_mem _ hy), List.length_cons]

/-- `MOV` between the accumulator and an absolute address -/
theorem isInsn_moffs {pf c : List UInt8} {b : UInt8} (hpf : ∀ x ∈ pf, isPrefix x = true)
    (hb : b = 0xA1 ∨ b = 0xA3) :
    IsInsn (pf ++ b :: c) ↔ c.length = if 0x67 ∈ pf then 2 else 4 := by
  have hbp : isPrefix b = false := by rcases hb with rfl | rfl <;> decide
  have hop : opcodeAt (b :: c) = some (⟨false, .moffs⟩, 1) := by
    rcases hb with rfl | rfl <;> rfl
  unfold IsInsn decode
  simp only [prefixCount_append c hpf hbp, List.take_left, List.drop_left, hop, Option.map_some,
    Op.fields, Fields.len, Fields.dispOff, Imm.size, List.length_append, List.length_cons,
    Option.some.injEq, decide_eq_true_eq, Bool.false_eq_true, if_false]
  split <;> omega

theorem isPrefix_of_mem_take (i : List UInt8) :
    ∀ x ∈ i.take (prefixCount i), isPrefix x = true := by
  induction i with
  | nil =>
    intro x hx
    exact absurd hx (by simp)
  | cons b c ih =>
    intro x hx
    rw [prefixCount] at hx
    by_cases hb : isPrefix b = true
    · rw [if_pos hb, List.take_succ_cons, List.mem_cons] at hx
      rcases hx with rfl | hx
      · exact hb
      · exact ih x hx
    · rw [if_neg hb, List.take_zero] at hx
      exact absurd hx List.not_mem_nil

theorem IsInsn.moffs_split {i : List UInt8} (hi : IsInsn i)
    (hop : byteAt i (prefixCount i) = 0xA1 ∨ byteAt i (prefixCount i) = 0xA3)
    (h67 : 0x67 ∉ i.take (prefixCount i)) :
    ∃ d, d.length = 4 ∧ i = i.take (prefixCount i) ++ byteAt i (prefixCount i) :: d := by
  have hlt := hi.prefixCount_lt
  have e : i = i.take (prefixCount i) ++ byteAt i (prefixCount i) :: i.drop (prefixCount i + 1) := by
    rw [byteAt_eq_getElem _ _ hlt, ← List.drop_eq_getElem_cons hlt, List.take_append_drop]
  refine ⟨i.drop (prefixCount i + 1), ?_, e⟩
  have h := hi
  rw [e] at h
  rw [isInsn_moffs (isPrefix_of_mem_take i) hop, if_neg h67] at h
  exact h

end Ia32
