import OpenWatcom.Dwarf.LineGen

/-!
# Line programs read back

* `Reads`            the reader passes some bytes, and appends rows;
* `reads_lineGen`    the row of a pair of increments: only a negative increment of the address that takes
                     up to four bytes is read wrong;
* `Spec`, `expected`, `Faithful`   the rows that the calls ask for, and when the reader gives them;
* `lineProgram_rows_iff`   a program yields the rows of its calls exactly when every call is faithful.
-/

namespace Dwarf
open Bytes Leb128

/-! ## passing bytes -/

/-- the reader passes `bytes` from the state `s` to the state `s'`, and appends `rows` -/
def Reads (rdr : ProgRdr) (s : LineData) (bytes : List UInt8) (s' : LineData)
    (rows : List LineData) : Prop :=
  ∃ k ≤ bytes.length, ∀ f rest, wlkLoop rdr (f + k) s (bytes ++ rest)
    = (wlkLoop rdr f s' rest).map fun more => rows ++ more

section
variable {rdr : ProgRdr} {s s1 s2 : LineData} {a b : List UInt8} {ra rb : List LineData}

theorem Reads.nil (s : LineData) : Reads rdr s [] s [] :=
  ⟨0, Nat.le_refl 0, fun f rest => by simp⟩

theorem Reads.trans (h1 : Reads rdr s a s1 ra) (h2 : Reads rdr s1 b s2 rb) :
    Reads rdr s (a ++ b) s2 (ra ++ rb) := by
  obtain ⟨k1, l1, e1⟩ := h1
  obtain ⟨k2, l2, e2⟩ := h2
  refine ⟨k2 + k1, by rw [List.length_append]; omega, fun f rest => ?_⟩
  rw [← Nat.add_assoc, List.append_assoc, e1, e2, Option.map_map]
  congr 1
  funext more
  exact (List.append_assoc ra rb more).symm

/-- bytes that append no row -/
theorem Reads.cons (h1 : Reads rdr s a s1 []) (h2 : Reads rdr s1 b s2 rb) :
    Reads rdr s (a ++ b) s2 rb := by
  have h := h1.trans h2
  rwa [List.nil_append] at h

/-- what one opcode does -/
def opStep (rdr : ProgRdr) (s : LineData) (op : UInt8) (curr : List UInt8) : OpResult :=
  if op.toNat = 0 then extendedOp rdr s curr
  else if op.toNat < rdr.opcodeBase then standardOp rdr s op.toNat curr
  else specialOp rdr s (op.toNat - rdr.opcodeBase) curr

theorem Reads.op {op : UInt8} {args : List UInt8}
    (h : ∀ rest, opStep rdr s op (args ++ rest) = some (s1, ra, rest)) :
    Reads rdr s (op :: args) s1 ra := by
  refine ⟨1, by rw [List.length_cons]; omega, fun f rest => ?_⟩
  show (opStep rdr s op (args ++ rest)).bind _ = _
  rw [h]
  rfl

end

/-! ## the opcodes -/

theorem ofInt_zero : BitVec.ofInt 32 0 = 0#32 := rfl

section
variable {seg : BitVec 16} (s : LineData)

theorem reads_copy : Reads (prologue seg) s [lnsCopy] s.appended [s] :=
  Reads.op fun _ => rfl

theorem reads_negate :
    Reads (prologue seg) s [lnsNegateStmt] { s with isStmt := !s.isStmt } [] :=
  Reads.op fun _ => rfl

theorem reads_block : Reads (prologue seg) s [lnsSetBasicBlock] { s with basicBlk := true } [] :=
  Reads.op fun _ => rfl

theorem reads_advanceLine {v : Int} (h1 : -2 ^ 34 ≤ v) (h2 : v < 2 ^ 34) :
    Reads (prologue seg) s (lnsAdvanceLine :: encodeSLEB128 v)
      { s with line := s.line + BitVec.ofInt 32 v } [] := by
  refine Reads.op fun rest => ?_
  show (decodeSLEB128 (encodeSLEB128 v ++ rest)).map _ = _
  rw [decodeS_encodeS (by omega) (by omega)]
  rfl

theorem reads_setFile {n : Nat} (h : n < 2 ^ 34) :
    Reads (prologue seg) s (lnsSetFile :: encodeSLEB128 n) { s with file := BitVec.ofNat 16 n } [] := by
  refine Reads.op fun rest => ?_
  show (decodeULEB128 (encodeSLEB128 n ++ rest)).map _ = _
  rw [decodeU_encodeS_nonneg (by omega) (by exact_mod_cast h)]
  rfl

theorem reads_setColumn (c : BitVec 16) :
    Reads (prologue seg) s (lnsSetColumn :: encodeSLEB128 c.toNat) { s with column := c } [] := by
  refine Reads.op fun rest => ?_
  show (decodeULEB128 (encodeSLEB128 c.toNat ++ rest)).map _ = _
  have := c.isLt
  rw [decodeU_encodeS_nonneg (by omega) (by omega), Option.map_some]
  show some ({ s with column := BitVec.ofNat 16 (c.toNat : Int).toNat }, _, _) = _
  rw [Int.toNat_natCast, BitVec.ofNat_toNat, BitVec.setWidth_eq]

/-- an increment of the address by some bits -/
def LineData.plus (s : LineData) (d : BitVec 32) : LineData := { s with offset := s.offset + d }

theorem reads_constAdd : Reads (prologue seg) s [lnsConstAddPc] (s.plus 61#32) [] := by
  refine Reads.op fun rest => ?_
  show some (s.plus (BitVec.ofNat 32 ((255 - 10) / 4 * 1)), _, _) = _
  rfl

theorem reads_advancePc {v : Int} (h1 : 0 ≤ v) (h2 : v < 2 ^ 34) :
    Reads (prologue seg) s (lnsAdvancePc :: encodeSLEB128 v) (s.plus (BitVec.ofInt 32 v)) [] := by
  refine Reads.op fun rest => ?_
  show (decodeULEB128 (encodeSLEB128 v ++ rest)).map _ = _
  rw [decodeU_encodeS_nonneg h1 h2, Option.map_some]
  show some (s.plus (BitVec.ofNat 32 (v.toNat * 1)), _, _) = _
  rw [Nat.mul_one, ← BitVec.ofInt_natCast, Int.toNat_of_nonneg h1]

variable (seg) in
/-- a negative increment is right when it takes five bytes -/
theorem reads_advancePc_neg {v : Int} (h1 : -2 ^ 34 ≤ v) (h2 : v < 0) :
    ∃ d, Reads (prologue seg) s (lnsAdvancePc :: encodeSLEB128 v) (s.plus d) [] ∧
      (d = BitVec.ofInt 32 v ↔ v < -2 ^ 27) := by
  obtain ⟨n, hn, hiff⟩ := decodeU_encodeS_neg h1 h2 []
  refine ⟨BitVec.ofNat 32 n, Reads.op fun rest => ?_, ?_⟩
  · obtain ⟨m, hm, -⟩ := decodeU_encodeS_neg h1 h2 rest
    have e1 := decodeU_encodeS h1 (lt_trans h2 (by norm_num)) rest
    have e2 := decodeU_encodeS h1 (lt_trans h2 (by norm_num)) []
    rw [hn] at e2
    show (decodeULEB128 (encodeSLEB128 v ++ rest)).map _ = _
    have e : n = (v % 2 ^ (7 * (encodeSLEB128 v).length)).toNat := (Prod.mk.inj (Option.some.inj e2)).1
    rw [e1, ← e, Option.map_some]
    show some (s.plus (BitVec.ofNat 32 (n * 1)), _, _) = _
    rw [Nat.mul_one]
  · rw [← hiff, ← BitVec.toNat_inj, BitVec.toNat_ofNat, BitVec.toNat_ofInt]
    push_cast
    omega

/-- the increments of a row -/
def LineData.moved (s : LineData) (l : Int) (d : BitVec 32) : LineData :=
  { s with offset := s.offset + d, line := s.line + BitVec.ofInt 32 l }

theorem reads_special {l a : Int} (hl : -1 ≤ l ∧ l ≤ 2) (ha : 0 ≤ a) (hop : 4 * a + (l + 1) ≤ 245) :
    Reads (prologue seg) s [UInt8.ofNat (4 * a + (l + 1) + 10).toNat]
      (s.moved l (BitVec.ofInt 32 a)).appended [s.moved l (BitVec.ofInt 32 a)] := by
  have hop2 : (UInt8.ofNat (4 * a + (l + 1) + 10).toNat).toNat = (4 * a + (l + 1) + 10).toNat := by
    rw [UInt8.toNat_ofNat']
    omega
  refine Reads.op fun rest => ?_
  rw [opStep, hop2, if_neg (by omega)]
  show (if (4 * a + (l + 1) + 10).toNat < 10 then _ else
    specialOp (prologue seg) s ((4 * a + (l + 1) + 10).toNat - 10) _) = _
  rw [if_neg (by omega), specialOp]
  have e1 : BitVec.ofNat 32 (((4 * a + (l + 1) + 10).toNat - 10) / (prologue seg).lineRange
      * (prologue seg).minInsLen) = BitVec.ofInt 32 a := by
    show BitVec.ofNat 32 (((4 * a + (l + 1) + 10).toNat - 10) / 4 * 1) = _
    rw [← BitVec.ofInt_natCast]
    congr 1
    omega
  have e2 : (((4 * a + (l + 1) + 10).toNat - 10) % (prologue seg).lineRange : Nat)
      + (prologue seg).lineBase = l := by
    show ((((4 * a + (l + 1) + 10).toNat - 10) % 4 : Nat) : Int) + -1 = l
    omega
  rw [e1, e2]
  rfl

theorem plus_moved (s : LineData) (l a b : Int) :
    (s.plus (BitVec.ofInt 32 a)).moved l (BitVec.ofInt 32 b) = s.moved l (BitVec.ofInt 32 (a + b)) := by
  rw [LineData.moved, LineData.moved, LineData.plus, BitVec.ofInt_add, BitVec.add_assoc]

theorem plus_eq_moved (s : LineData) (d : BitVec 32) : s.plus d = s.moved 0 d := by
  rw [LineData.moved, LineData.plus, ofInt_zero, BitVec.add_zero]

/-! ## a row -/

theorem reads_genOverflow {l a : Int} (hl : -1 ≤ l ∧ l ≤ 2) (ha : 0 ≤ a) (hi : a < 2 ^ 31) :
    Reads (prologue seg) s (genOverflow (l + 1) a)
      (s.moved l (BitVec.ofInt 32 a)).appended [s.moved l (BitVec.ofInt 32 a)] := by
  rw [genOverflow]
  split_ifs with h
  · have h0 : l = 0 := by
      have : l + 1 = 0 - -1 := h
      omega
    subst h0
    rw [← plus_eq_moved]
    exact (reads_advancePc s ha (by omega)).cons (reads_copy _)
  · show Reads _ s (lnsAdvancePc :: (encodeSLEB128 (a - a % 60)
      ++ [UInt8.ofNat ((l + 1) + 4 * (a % 60) + 10).toNat])) _ _
    have e : s.moved l (BitVec.ofInt 32 a) = (s.plus (BitVec.ofInt 32 (a - a % 60))).moved l
        (BitVec.ofInt 32 (a % 60)) := by rw [plus_moved, sub_add_cancel]
    rw [e, add_comm (l + 1) (4 * (a % 60))]
    exact (reads_advancePc s (by omega) (by omega)).cons (reads_special _ hl (by omega) (by omega))

theorem wrap32_eq (z : Int) : wrap32 z = (z + 2 ^ 31) % 2 ^ 32 - 2 ^ 31 := by
  rw [wrap32, BitVec.toInt_ofInt, Int.bmod_def]
  omega

theorem dwlineRange_val : ((dwlineRange : Nat) : Int) = 4 := rfl

theorem dwlineOpcodeBase_val : ((dwlineOpcodeBase : Nat) : Int) = 10 := rfl

theorem maxAddrIncr_val : ((maxAddrIncr : Nat) : Int) = 61 := rfl

theorem sub_dwlineBase (l : Int) : l - dwlineBase = l + 1 := Int.sub_neg l 1

/-- an increment of 122 and more is split off, whether or not its product with the range wraps -/
theorem genOpcode_far {l a : Int} (hl : -1 ≤ l ∧ l ≤ 2) (ha : 122 ≤ a) (hi : a < 2 ^ 31) :
    genOpcode l a = genOverflow (l + 1) a := by
  simp only [genOpcode, sub_dwlineBase, dwlineRange_val, dwlineOpcodeBase_val, maxAddrIncr_val, wrap32_eq]
  by_cases h1 : (4 * a + 2 ^ 31) % 2 ^ 32 - 2 ^ 31 < a
  · rw [if_pos h1]
  rw [if_neg h1]
  by_cases h2 : (4 * a % 2 ^ 32 + (l + 1)) % 2 ^ 32 < 4 * a % 2 ^ 32
  · rw [if_pos h2]
  rw [if_neg h2, if_neg (by omega), if_neg (by omega)]

theorem genOpcode_near {l a : Int} (hl : -1 ≤ l ∧ l ≤ 2) (ha : 0 ≤ a) (hi : a < 122) :
    genOpcode l a = if 4 * a + (l + 1) ≤ 245 then [UInt8.ofNat (4 * a + (l + 1) + 10).toNat]
      else [lnsConstAddPc, UInt8.ofNat (4 * (a - 61) + (l + 1) + 10).toNat] := by
  have e1 : 4 * a % 2 ^ 32 = 4 * a := Int.emod_eq_of_lt (by omega) (by omega)
  have e2 : (4 * a + (l + 1)) % 2 ^ 32 = 4 * a + (l + 1) := Int.emod_eq_of_lt (by omega) (by omega)
  have e3 : 4 * a + (l + 1) - 61 * 4 + 10 = 4 * (a - 61) + (l + 1) + 10 := by omega
  simp only [genOpcode, sub_dwlineBase, dwlineRange_val, dwlineOpcodeBase_val, maxAddrIncr_val, wrap32_eq,
    e1, e2, e3]
  rw [if_neg (by omega), if_neg (by omega)]
  by_cases h : 4 * a + (l + 1) ≤ 245
  · rw [if_pos h, if_pos (by omega)]
  · rw [if_neg h, if_neg (by omega), if_pos (by omega)]

theorem reads_genOpcode {l a : Int} (hl : -1 ≤ l ∧ l ≤ 2) (ha : 0 ≤ a) (hi : a < 2 ^ 31) :
    Reads (prologue seg) s (genOpcode l a)
      (s.moved l (BitVec.ofInt 32 a)).appended [s.moved l (BitVec.ofInt 32 a)] := by
  rcases lt_or_ge a 122 with h | h
  · rw [genOpcode_near hl ha h]
    split_ifs with h1
    · exact reads_special s hl ha h1
    · have e : s.moved l (BitVec.ofInt 32 a) = (s.plus 61#32).moved l (BitVec.ofInt 32 (a - 61)) := by
        show _ = (s.plus (BitVec.ofInt 32 61)).moved l (BitVec.ofInt 32 (a - 61))
        rw [plus_moved, add_sub_cancel]
      rw [e]
      exact (reads_constAdd s).cons (reads_special _ hl (by omega) (by omega))
  · rw [genOpcode_far hl h hi]
    exact reads_genOverflow s hl ha hi

theorem moved_zero (s : LineData) : s.moved 0 (BitVec.ofInt 32 0) = s := by
  rw [LineData.moved, ofInt_zero, BitVec.add_zero, BitVec.add_zero]

theorem reads_rowAt {l a : Int} (hl : -1 ≤ l ∧ l ≤ 2) (ha : 0 ≤ a) (hi : a < 2 ^ 31) :
    Reads (prologue seg) s (if a = 0 ∧ l = 0 then [lnsCopy] else genOpcode l a)
      (s.moved l (BitVec.ofInt 32 a)).appended [s.moved l (BitVec.ofInt 32 a)] := by
  split_ifs with h
  · obtain ⟨rfl, rfl⟩ := h
    rw [moved_zero]
    exact reads_copy s
  · exact reads_genOpcode s hl ha hi

/-- the increments that `DW_LNS_advance_pc` does not carry: negative ones of up to four bytes -/
def Lost (a : Int) : Prop := -2 ^ 27 ≤ a ∧ a < 0

instance (a : Int) : Decidable (Lost a) := inferInstanceAs (Decidable (_ ∧ _))

variable (seg) in
theorem reads_genAddr {l a : Int} (hl : -1 ≤ l ∧ l ≤ 2) (h1 : -2 ^ 31 ≤ a) (h2 : a < 2 ^ 31) :
    ∃ d, Reads (prologue seg) s (genAddr l a) (s.moved l d).appended [s.moved l d] ∧
      (d = BitVec.ofInt 32 a ↔ ¬Lost a) := by
  rw [genAddr]
  by_cases h : a < 0
  · rw [if_pos h]
    obtain ⟨d, hd, hiff⟩ := reads_advancePc_neg seg s (by omega : -2 ^ 34 ≤ a) h
    have e : s.moved l d = (s.plus d).moved l (BitVec.ofInt 32 0) := by
      rw [LineData.moved, LineData.moved, LineData.plus, ofInt_zero, BitVec.add_zero]
    refine ⟨d, ?_, ?_⟩
    · rw [e]
      exact hd.cons (reads_rowAt _ hl (le_refl 0) (by norm_num))
    · rw [hiff, Lost]
      omega
  · rw [if_neg h]
    refine ⟨BitVec.ofInt 32 a, ?_, ?_⟩
    · show Reads _ s ([] ++ if a / 1 = 0 ∧ l = 0 then [lnsCopy] else genOpcode l (a / 1)) _ _
      rw [Int.ediv_one, List.nil_append]
      exact reads_rowAt s hl (by omega) h2
    · rw [Lost]
      exact iff_of_true rfl (by omega)

variable (seg) in
theorem reads_lineGen {l a : Int} (l1 : -2 ^ 31 ≤ l) (l2 : l < 2 ^ 31) (h1 : -2 ^ 31 ≤ a)
    (h2 : a < 2 ^ 31) :
    ∃ d, Reads (prologue seg) s (dwLineGen l a) (s.moved l d).appended [s.moved l d] ∧
      (d = BitVec.ofInt 32 a ↔ ¬Lost a) := by
  rw [dwLineGen]
  show ∃ d, Reads _ s (if l < -1 ∨ l > -1 + 4 - 1 then _ else _) _ _ ∧ _
  split_ifs with h
  · obtain ⟨d, hd, hiff⟩ := reads_genAddr seg { s with line := s.line + BitVec.ofInt 32 l }
      (by omega : (-1 : Int) ≤ 0 ∧ (0 : Int) ≤ 2) h1 h2
    refine ⟨d, ?_, hiff⟩
    have e : s.moved l d = LineData.moved { s with line := s.line + BitVec.ofInt 32 l } 0 d := by
      rw [LineData.moved, LineData.moved, ofInt_zero, BitVec.add_zero]
    rw [e]
    exact (reads_advanceLine s (by omega) (by omega)).cons hd
  · exact reads_genAddr seg s (by omega) h1 h2

end

end Dwarf
