import OpenWatcom.Lib.Ia32
import OpenWatcom.X64Obj.Elf

/-!
# The addends of RIP-relative relocations

An instruction `insn` of the patched text has a memory operand with ModRM mod 00, rm 101; a fixup
stands on its displacement.

* `PcAddend`   the relocation is `R_X86_64_PC32` and its addend counts to the end of `insn`;
* `extTrail_eq`, `segTrail_eq`   the immediate bytes the writer guesses, by the bytes before ModRM;
* `pcAddend_iff`   when the guess is right;
* `test_addend`   an instruction for which it is not.
-/

namespace X64Obj
open Bytes Ia32

/-! ## the guess -/

/-- opcodes taken to have one immediate byte -/
def smallImm (op : UInt8) : Bool := op = 0x83 || op = 0xC6 || op = 0x80 || op = 0x6B

/-- opcodes taken to have four -/
def largeImm (op : UInt8) : Bool := op = 0x81 || op = 0xC7 || op = 0x69

theorem trailOf_eq (op : UInt8) :
    trailOf op = if smallImm op then some 1 else if largeImm op then some 4 else none := by
  simp only [trailOf, smallImm, largeImm, Bool.or_eq_true, decide_eq_true_eq, or_assoc]

/-- the opcode byte `op` says that `n` immediate bytes follow -/
def Says (op : UInt8) (n : Nat) : Prop :=
  n = 1 ∧ smallImm op ∨ n = 4 ∧ largeImm op ∨ n = 0 ∧ !smallImm op ∧ !largeImm op

instance (op : UInt8) (n : Nat) : Decidable (Says op n) :=
  inferInstanceAs (Decidable (_ ∨ _ ∨ _))

theorem not_small_and_large (op : UInt8) : ¬ (smallImm op = true ∧ largeImm op = true) := by
  rintro ⟨h1, h2⟩
  simp only [smallImm, Bool.or_eq_true, decide_eq_true_eq] at h1
  rcases h1 with ((rfl | rfl) | rfl) | rfl <;> exact absurd h2 (by decide)

theorem says_iff (op : UInt8) (n : Nat) : Says op n ↔ (trailOf op).getD 0 = n := by
  have h := not_small_and_large op
  rw [trailOf_eq, Says]
  cases h1 : smallImm op <;> cases h2 : largeImm op <;> simp_all <;> exact eq_comm

/-- the guess of an external reference: the byte before ModRM decides, or else the one before
it -/
def ExtGuess (code : List UInt8) (off : Int) (n : Nat) : Prop :=
  let op := opBefore code off 2
  if smallImm op || largeImm op then Says op n else Says (if 3 ≤ off then opBefore code off 3 else 0) n

/-- the guess of a segment reference: the byte before ModRM decides -/
def SegGuess (code : List UInt8) (off : Int) (n : Nat) : Prop := Says (opBefore code off 2) n

instance (code : List UInt8) (off : Int) (n : Nat) : Decidable (ExtGuess code off n) :=
  inferInstanceAs (Decidable (ite (_ = true) _ _))

instance (code : List UInt8) (off : Int) (n : Nat) : Decidable (SegGuess code off n) :=
  inferInstanceAs (Decidable (Says _ _))

theorem segTrail_eq (code : List UInt8) (off : Int) (n : Nat) (h : 2 ≤ off) :
    segTrail code off = n ↔ SegGuess code off n := by
  rw [segTrail, if_pos h, SegGuess, says_iff]

theorem extTrail_eq (code : List UInt8) (off : Int) (n : Nat) (h : 2 ≤ off) :
    extTrail code off = n ↔ ExtGuess code off n := by
  rw [extTrail, if_pos h, ExtGuess]
  by_cases hg : (smallImm (opBefore code off 2) || largeImm (opBefore code off 2)) = true
  · rw [if_pos hg, says_iff, trailOf_eq]
    cases h1 : smallImm (opBefore code off 2) with
    | true => rfl
    | false =>
      cases h2 : largeImm (opBefore code off 2) with
      | true => rfl
      | false => simp [h1, h2] at hg
  · rw [if_neg hg, says_iff, trailOf_eq]
    simp only [Bool.or_eq_true, not_or, Bool.not_eq_true] at hg
    rw [hg.1, hg.2]
    rfl

/-! ## the instruction -/

/-- `insn` has a memory operand with mod 00, rm 101, that is with a displacement of four bytes
directly behind a lone ModRM byte -/
def RipOperand (insn : List UInt8) (fl : Fields) : Prop :=
  Decodes insn fl ∧ fl.modrm = 1 ∧ fl.disp = 4 ∧ byteAt insn (fl.dispOff - 1) &&& 0xC7 = 0x05

instance (insn : List UInt8) (fl : Fields) : Decidable (RipOperand insn fl) :=
  inferInstanceAs (Decidable (_ ∧ _ ∧ _ ∧ _))

theorem RipOperand.two_le {insn : List UInt8} {fl : Fields} (h : RipOperand insn fl) :
    2 ≤ fl.dispOff := by
  obtain ⟨op, n, h1, h2⟩ := h.1.fields
  have hn := opcodeAt_pos h1
  have hm := h.2.1
  have ho : fl.opcode = n := by rw [h2]; rfl
  rw [Fields.dispOff]
  omega

/-- the relocation `r` of the fixup `f` on the displacement is `R_X86_64_PC32`, with the
displacement stored there, plus the base of the segment referred to, minus the distance to the
end of the instruction -/
def PcAddend (o : Obj) (f : FixupRec) (fl : Fields) (r : Rela) : Prop :=
  let base := if 0 ≤ f.extIdx then 0 else (textAnchor o f.targetSeg).2
  r.type = R_X86_64_PC32 ∧
    r.addend = base + fieldAt o.code f.codeOffset.toNat 4 - (4 + fl.imm : Nat)

/-- the immediate bytes are guessed right; the displacement of a segment reference is not
negative, and the byte before the fixup in the old text is none of those that make the reference
absolute -/
def GuessRight (o : Obj) (f : FixupRec) (orig : UInt8) (fl : Fields) : Prop :=
  if 0 ≤ f.extIdx then ExtGuess o.code f.codeOffset fl.imm
  else SegGuess o.code f.codeOffset fl.imm ∧ 0 ≤ fieldAt o.code f.codeOffset.toNat 4 ∧
    ¬ ((0xB8 ≤ orig ∧ orig ≤ 0xBF) ∨ orig = 0x68 ∨ orig = 0x6A ∨ orig = 0xC7)

instance (o : Obj) (f : FixupRec) (fl : Fields) (r : Rela) :
    Decidable (PcAddend o f fl r) := inferInstanceAs (Decidable (_ ∧ _))

instance (o : Obj) (f : FixupRec) (orig : UInt8) (fl : Fields) :
    Decidable (GuessRight o f orig fl) := inferInstanceAs (Decidable (ite (0 ≤ f.extIdx) _ _))

/-! ## the relocation -/

/-- the four bytes under a fixup inside the text -/
theorem withinAt_nat (code : List UInt8) (p : Nat) (h : p + 4 ≤ code.length) :
    withinAt code p = leNat (slice code p 4) := by
  rw [withinAt, if_pos (by omega)]
  rfl

/-- an unsigned field and the signed one -/
theorem leNat_field (c : List UInt8) (p : Nat) :
    (leNat (slice c p 4) : Int)
      = fieldAt c p 4 + if fieldAt c p 4 < 0 then 2 ^ 32 else 0 := by
  have h := leNat_lt (slice c p 4)
  rw [slice_length] at h
  have e : (256 : Nat) ^ 4 = 2 ^ 32 := by norm_num
  unfold fieldAt toSigned
  rw [e] at *
  generalize leNat (slice c p 4) = v at *
  split <;> split <;> omega

/-- the entry `relaText1` makes for a RIP-relative operand -/
theorem relaText1_pcAddend (o : Obj) (pre insn post : List UInt8) (fl : Fields) (f : FixupRec)
    (orig : UInt8) (hcode : o.code = pre ++ (insn ++ post)) (hop : RipOperand insn fl)
    (hf : f.codeOffset = (pre.length + fl.dispOff : Nat)) :
    PcAddend o f fl (relaText1 o f orig) ↔ GuessRight o f orig fl := by
  have h2 := hop.two_le
  obtain ⟨hdec, _, hdisp, hmodrm⟩ := hop
  have hlen := hdec.2
  rw [Fields.len, hdisp] at hlen
  have hroom : pre.length + fl.dispOff + 4 ≤ o.code.length := by
    rw [hcode, List.length_append, List.length_append]
    omega
  have hoff : (2 : Int) ≤ (pre.length + fl.dispOff : Nat) := by omega
  -- the byte before the fixup is the ModRM byte
  have hprev : codeAt o.code (((pre.length + fl.dispOff : Nat) : Int) - 1) &&& 0xC7 = 0x05 := by
    have e : (((pre.length + fl.dispOff : Nat) : Int) - 1).toNat = pre.length + (fl.dispOff - 1) := by
      omega
    rw [codeAt, if_neg (by omega), e, hcode, byteAt_append_right,
      byteAt_append_left _ _ _ (by omega)]
    exact hmodrm
  have hw := withinAt_nat o.code _ hroom
  have hfield := leNat_field o.code (pre.length + fl.dispOff)
  unfold PcAddend GuessRight
  dsimp only
  rw [hf, Int.toNat_natCast]
  generalize pre.length + fl.dispOff = p at *
  by_cases hext : 0 ≤ f.extIdx
  · have hne : ¬ (1 ≤ (p : Int) ∧ (codeAt o.code ((p : Int) - 1) = 0xE8 ∨
        codeAt o.code ((p : Int) - 1) = 0xE9)) := by
      rintro ⟨_, h | h⟩ <;> rw [h] at hprev <;> exact absurd hprev (by decide)
    have e : relaText1 o f orig = ⟨p, extSymidx o f.extIdx.toNat, R_X86_64_PC32,
        toSigned 4 (withinAt o.code p) - 4 - extTrail o.code p⟩ := by
      rw [relaText1, if_pos hext, hf, relaExt]
      rw [if_pos (show (1 : Int) ≤ p by omega), if_neg hne, if_pos hprev]
    rw [e, if_pos hext, if_pos hext, ← extTrail_eq _ _ _ hoff, hw]
    dsimp only
    rw [fieldAt]
    constructor
    · rintro ⟨_, h⟩
      omega
    · intro h
      exact ⟨rfl, by omega⟩
  · rw [relaText1, if_neg hext, if_neg hext, if_neg hext, hf, relaSeg]
    rw [if_pos (show (1 : Int) ≤ p by omega), ← segTrail_eq _ _ _ hoff]
    dsimp only
    by_cases habs : (0xB8 ≤ orig ∧ orig ≤ 0xBF) ∨ orig = 0x68 ∨ orig = 0x6A ∨ orig = 0xC7
    · rw [if_pos habs]
      constructor
      · rintro ⟨h, _⟩
        simp [R_X86_64_32S, R_X86_64_PC32] at h
      · rintro ⟨_, _, h⟩
        exact absurd habs h
    · rw [if_neg habs, hw]
      dsimp only
      rw [hfield]
      have htrail : segTrail o.code p ≤ 4 := by
        rw [segTrail]
        split
        · rw [trailOf_eq]
          split
          · decide
          · split <;> decide
        · omega
      have himm : fl.imm ≤ 6 := by
        obtain ⟨op, n, _, h⟩ := hdec.fields
        rw [h]
        show op.imm.size _ _ _ ≤ 6
        cases op.imm <;> simp only [Imm.size] <;> repeat' split
        all_goals omega
      constructor
      · rintro ⟨_, h⟩
        split at h
        · omega
        · exact ⟨by omega, by omega, habs⟩
      · rintro ⟨h, hneg, _⟩
        rw [if_neg (by omega)]
        exact ⟨rfl, by omega⟩

theorem relaText_getElem? {o : Obj} {k : Nat} {f : FixupRec} {orig : UInt8}
    (hf : o.fixups[k]? = some f) (ho : o.fixupOrigOff[k]? = some orig) :
    (relaText o)[k]? = some (relaText1 o f orig) := by
  rw [relaText, List.getElem?_map, List.getElem?_zip_eq_some (z := (f, orig)) |>.mpr ⟨hf, ho⟩]
  rfl

/-- the relocation of a RIP-relative operand counts to the end of its instruction exactly when
the immediate bytes behind the displacement are guessed right -/
theorem pcAddend_iff (omf pre insn post : List UInt8) (fl : Fields) (k : Nat) (f : FixupRec)
    (orig : UInt8) (hcode : (finish omf).code = pre ++ (insn ++ post))
    (hop : RipOperand insn fl) (hf : (finish omf).fixups[k]? = some f)
    (ho : (finish omf).fixupOrigOff[k]? = some orig)
    (hoff : f.codeOffset = (pre.length + fl.dispOff : Nat)) :
    (∃ r, (relaText (finish omf))[k]? = some r ∧ PcAddend (finish omf) f fl r) ↔
      GuessRight (finish omf) f orig fl := by
  rw [← relaText1_pcAddend _ pre insn post fl f orig hcode hop hoff, relaText_getElem? hf ho]
  constructor
  · rintro ⟨r, h, hr⟩
    rw [Option.some.inj h]
    exact hr
  · intro h
    exact ⟨_, rfl, h⟩

/-- an object with the text `insn` and a fixup to an external `y` at offset 2 -/
def extObject (insn : List UInt8) : List UInt8 :=
  [0x96, 6, 0, 4, 0x43, 0x4F, 0x44, 0x45, 0] ++
  [0x99, 9, 0, 0xA9, UInt8.ofNat insn.length, 0, 0, 0, 1, 1, 1, 0] ++
  [0x8C, 4, 0, 1, 0x79, 0, 0] ++
  [0xA1, UInt8.ofNat (insn.length + 6), 0, 1, 0, 0, 0, 0] ++ insn ++ [0] ++
  [0x9D, 5, 0, 0xE4, 0x02, 0x56, 0x01, 0]

/-- `mov eax,[rip+y]` -/
theorem load_addend :
    ∃ r, (relaText (finish (extObject [0x8B, 0x05, 0, 0, 0, 0])))[0]? = some r ∧
      PcAddend (finish (extObject [0x8B, 0x05, 0, 0, 0, 0])) ⟨2, 0, 0⟩ ⟨0, 1, 1, 4, 0⟩ r :=
  (pcAddend_iff (extObject [0x8B, 0x05, 0, 0, 0, 0]) [] [0x8B, 0x05, 0, 0, 0, 0] [] ⟨0, 1, 1, 4, 0⟩
    0 ⟨2, 0, 0⟩ 0x05 (by decide) (by decide) (by decide) (by decide) (by decide)).mpr (by decide)

/-- `test dword [rip+y],1`: the four bytes of its operand are not seen -/
theorem test_addend :
    (finish (extObject [0xF7, 0x05, 0, 0, 0, 0, 1, 0, 0, 0])).code
      = [0xF7, 0x05, 0, 0, 0, 0, 1, 0, 0, 0] ∧
    RipOperand [0xF7, 0x05, 0, 0, 0, 0, 1, 0, 0, 0] ⟨0, 1, 1, 4, 4⟩ ∧
    (finish (extObject [0xF7, 0x05, 0, 0, 0, 0, 1, 0, 0, 0])).fixups[0]? = some ⟨2, 0, 0⟩ ∧
    (∀ r ∈ relaText (finish (extObject [0xF7, 0x05, 0, 0, 0, 0, 1, 0, 0, 0])),
      r.type = R_X86_64_PC32 ∧ r.addend = -4 ∧
      ¬ PcAddend (finish (extObject [0xF7, 0x05, 0, 0, 0, 0, 1, 0, 0, 0])) ⟨2, 0, 0⟩
        ⟨0, 1, 1, 4, 4⟩ r) := by decide

end X64Obj
