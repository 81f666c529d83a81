import OpenWatcom.Cg.FoldValues
import OpenWatcom.Cg.PeepOpt

/-!
# What the arithmetic peephole keeps

* `alu_alu`     two operations with constants are one with the combined constant;
* `shift_shift_iff`     for shifts when the masked counts do not reach 32, or shift everything out anyway;
* `findInsPair_changed`, `findInsPair_stopper`     what stands between the two instructions is independent;
* `peephole_right_iff`     a rewrite keeps every name in every block exactly when the shift counts allow it.
-/

namespace Cg
open Store

/-! ## operations in a row -/

section
variable (t : IntType) (x c d : BitVec 32)

theorem alu_fits (op : Opcode) : (alu op t x c).toNat < 2 ^ t.bits := by
  unfold alu
  dsimp only
  rw [BitVec.toNat_setWidth]
  exact lt_of_le_of_lt (Nat.mod_le _ _) (BitVec.isLt _)

variable (ht : t.bits ≤ 32)
include ht

theorem setWidth_back (v : BitVec t.bits) : (v.setWidth 32).setWidth t.bits = v := by
  rw [BitVec.setWidth_setWidth_of_le _ ht, BitVec.setWidth_eq]

end

/-- the constant of two operations in a row -/
def Opcode.combine : Opcode → BitVec 32 → BitVec 32 → BitVec 32
  | .mul, c, d => c * d
  | .and, c, d => c &&& d
  | .or, c, d => c ||| d
  | _, c, d => c + d

def Opcode.isShift : Opcode → Bool
  | .lshift => true
  | .rshift => true
  | _ => false

theorem alu_alu {t : IntType} (ht : t.bits ≤ 32) {op : Opcode} (hop : op.isShift = false)
    (x c d : BitVec 32) : alu op t (alu op t x c) d = alu op t x (op.combine c d) := by
  cases op with
  | lshift => cases hop
  | rshift => cases hop
  | add =>
    simp only [alu, setWidth_back t ht, Opcode.combine, BitVec.setWidth_add _ _ ht, BitVec.add_assoc]
  | sub =>
    simp only [alu, setWidth_back t ht, Opcode.combine, BitVec.setWidth_add _ _ ht, sub_sub]
  | mul =>
    simp only [alu, setWidth_back t ht, Opcode.combine, BitVec.setWidth_mul _ _ ht, BitVec.mul_assoc]
  | and =>
    simp only [alu, setWidth_back t ht, Opcode.combine, BitVec.setWidth_and, BitVec.and_assoc]
  | or =>
    simp only [alu, setWidth_back t ht, Opcode.combine, BitVec.setWidth_or, BitVec.or_assoc]

/-! ## shifts in a row -/

/-- the count from which on a shift gives what every larger count gives -/
def shiftLimit (op : Opcode) (t : IntType) : Nat :=
  if op = .rshift ∧ t.signed then t.bits - 1 else t.bits

/-- the masked counts stay below 32, or the masked sum shifts everything out as well -/
def CountsOk (op : Opcode) (t : IntType) (c d : BitVec 32) : Prop :=
  c.toNat % 32 + d.toNat % 32 < 32 ∨ shiftLimit op t ≤ (c.toNat % 32 + d.toNat % 32) % 32

/-- the shift of an opcode -/
def shiftBy (op : Opcode) (t : IntType) (x : BitVec t.bits) (n : Nat) : BitVec t.bits :=
  if op = .lshift then x <<< n else if t.signed then x.sshiftRight n else x >>> n

section
variable {t : IntType} {op : Opcode}

theorem alu_shift (hop : op.isShift = true) (x c : BitVec 32) :
    alu op t x c = (shiftBy op t (x.setWidth t.bits) (c.toNat % 32)).setWidth 32 := by
  cases op with
  | lshift => rfl
  | rshift => rfl
  | _ => cases hop

theorem shiftBy_add (x : BitVec t.bits) (m n : Nat) :
    shiftBy op t (shiftBy op t x m) n = shiftBy op t x (m + n) := by
  unfold shiftBy
  split_ifs
  · exact (BitVec.shiftLeft_add x m n).symm
  · exact (BitVec.sshiftRight_add).symm
  · exact (BitVec.shiftRight_add x m n).symm

theorem sshiftRight_all {w : Nat} (x : BitVec w) {n : Nat} (hn : w - 1 ≤ n) :
    x.sshiftRight n = if x.msb then BitVec.allOnes w else 0 := by
  apply BitVec.eq_of_getElem_eq
  intro i hi
  rw [BitVec.getElem_sshiftRight]
  by_cases h : n + i < w
  · -- only the sign bit itself is left
    have e : n + i = w - 1 := by omega
    rw [dif_pos h]
    have hm : x[n + i] = x.msb := by
      rw [BitVec.msb_eq_getLsbD_last, ← e, BitVec.getLsbD_eq_getElem h]
    rw [hm]
    cases x.msb <;> simp
  · rw [dif_neg h]
    cases x.msb <;> simp

/-- the three shifts -/
theorem shift_cases (hop : op.isShift = true) :
    (shiftBy op t = fun x n => x <<< n) ∧ shiftLimit op t = t.bits ∨
    (shiftBy op t = fun x n => x.sshiftRight n) ∧ shiftLimit op t = t.bits - 1 ∨
    (shiftBy op t = fun x n => x >>> n) ∧ shiftLimit op t = t.bits := by
  unfold shiftBy shiftLimit
  cases op with
  | lshift => exact Or.inl ⟨by simp, by simp⟩
  | rshift =>
    by_cases hs : t.signed = true
    · exact Or.inr (Or.inl ⟨by simp [hs], by simp [hs]⟩)
    · exact Or.inr (Or.inr ⟨by simp [hs], by simp [hs]⟩)
  | _ => cases hop

theorem shiftBy_all (hop : op.isShift = true) (x : BitVec t.bits) {m n : Nat} (hm : shiftLimit op t ≤ m)
    (hn : shiftLimit op t ≤ n) : shiftBy op t x m = shiftBy op t x n := by
  obtain ⟨e, hl⟩ | ⟨e, hl⟩ | ⟨e, hl⟩ := shift_cases (t := t) hop <;> rw [hl] at hm hn <;> rw [e] <;> dsimp only
  · rw [BitVec.shiftLeft_eq_zero hm, BitVec.shiftLeft_eq_zero hn]
  · rw [sshiftRight_all x hm, sshiftRight_all x hn]
  · rw [BitVec.ushiftRight_eq_zero hm, BitVec.ushiftRight_eq_zero hn]

/-- a shift below the limit is not the shift of everything -/
theorem shiftBy_some (hop : op.isShift = true) {k n : Nat} (hk : k < shiftLimit op t) (hn : t.bits ≤ n) :
    ∃ x : BitVec t.bits, shiftBy op t x k ≠ shiftBy op t x n := by
  have hw := bits_pos t
  obtain ⟨e, hl⟩ | ⟨e, hl⟩ | ⟨e, hl⟩ := shift_cases (t := t) hop <;> rw [hl] at hk <;> rw [e] <;> dsimp only
  · -- the lowest bit arrives at `k`
    refine ⟨1#t.bits, fun h => ?_⟩
    rw [BitVec.shiftLeft_eq_zero hn] at h
    have hbit := congrArg (fun v => v.getLsbD k) h
    simp [hk] at hbit
  · -- a positive number with all other bits
    refine ⟨BitVec.intMax t.bits, fun h => ?_⟩
    have hmsb : (BitVec.intMax t.bits).msb = false := by
      rw [BitVec.msb_eq_getLsbD_last, BitVec.getLsbD_intMax]
      exact decide_eq_false (by omega)
    rw [sshiftRight_all _ (by omega : t.bits - 1 ≤ n), hmsb, if_neg Bool.false_ne_true] at h
    have hbit : ((BitVec.intMax t.bits).sshiftRight k).getLsbD 0 = true := by
      rw [BitVec.getLsbD_sshiftRight, if_pos (by omega), BitVec.getLsbD_intMax]
      simp
      omega
    rw [h] at hbit
    simp at hbit
  · refine ⟨BitVec.allOnes t.bits, fun h => ?_⟩
    rw [BitVec.ushiftRight_eq_zero hn] at h
    have hbit := congrArg (fun v => v.getLsbD 0) h
    simp [hk] at hbit

theorem setWidth_inj (ht : t.bits ≤ 32) {v w : BitVec t.bits} :
    v.setWidth 32 = w.setWidth 32 ↔ v = w := by
  refine ⟨fun h => ?_, fun h => by rw [h]⟩
  rw [← setWidth_back t ht v, h, setWidth_back t ht]

theorem shift_shift (ht : t.bits ≤ 32) (hop : op.isShift = true) (x c d : BitVec 32) :
    alu op t (alu op t x c) d = alu op t x (c + d) ↔
      shiftBy op t (x.setWidth t.bits) (c.toNat % 32 + d.toNat % 32)
        = shiftBy op t (x.setWidth t.bits) ((c.toNat % 32 + d.toNat % 32) % 32) := by
  have hsum : (c + d).toNat % 32 = (c.toNat % 32 + d.toNat % 32) % 32 := by
    rw [BitVec.toNat_add]
    omega
  rw [alu_shift hop, alu_shift hop, alu_shift hop, setWidth_back t ht, shiftBy_add, setWidth_inj ht, hsum]

theorem shift_shift_of_ok (ht : t.bits ≤ 32) (hop : op.isShift = true) {c d : BitVec 32}
    (h : CountsOk op t c d) (x : BitVec 32) : alu op t (alu op t x c) d = alu op t x (c + d) := by
  rw [shift_shift ht hop]
  obtain h | h := h
  · rw [Nat.mod_eq_of_lt h]
  · exact shiftBy_all hop _ (le_trans h (Nat.mod_le _ _)) h

theorem shift_shift_bad (ht : t.bits ≤ 32) (hop : op.isShift = true) {c d : BitVec 32}
    (h : ¬ CountsOk op t c d) :
    ∃ x : BitVec 32, x.toNat < 2 ^ t.bits ∧ alu op t (alu op t x c) d ≠ alu op t x (c + d) := by
  rw [CountsOk, not_or, not_lt, not_le] at h
  obtain ⟨h1, h2⟩ := h
  obtain ⟨x, hx⟩ := shiftBy_some (n := c.toNat % 32 + d.toNat % 32) hop h2 (by omega)
  refine ⟨x.setWidth 32, ?_, ?_⟩
  · rw [BitVec.toNat_setWidth]
    exact lt_of_le_of_lt (Nat.mod_le _ _) x.isLt
  · rw [Ne, shift_shift ht hop, setWidth_back t ht]
    exact hx.symm

end

/-! ## the bit operations in the other order -/

section
variable {t : IntType} (ht : t.bits ≤ 32)
include ht

theorem alu_sign (op : Opcode) (hop : op ≠ .rshift) {u : IntType} (hu : u.length = t.length)
    (x c : BitVec 32) : alu op u x c = alu op t x c := by
  have e : u.bits = t.bits := by rw [IntType.bits, IntType.bits, hu]
  cases op with
  | rshift => exact absurd rfl hop
  | _ =>
    obtain ⟨l, su⟩ := u
    obtain ⟨l', st⟩ := t
    cases hu
    rfl

theorem and_or (x c d : BitVec 32) :
    alu .or t (alu .and t x (c &&& ~~~d)) d = alu .or t (alu .and t x c) d := by
  simp only [alu, setWidth_back t ht, setWidth_inj ht]
  apply BitVec.eq_of_getElem_eq
  intro i hi
  simp only [BitVec.getElem_or, BitVec.getElem_and, BitVec.getElem_setWidth, BitVec.getLsbD_and,
    BitVec.getLsbD_not, decide_eq_true (show i < 32 by omega)]
  cases x.getLsbD i <;> cases c.getLsbD i <;> cases d.getLsbD i <;> rfl

theorem or_and (x c d : BitVec 32) :
    alu .and t (alu .or t x (c &&& d)) d = alu .and t (alu .or t x c) d := by
  simp only [alu, setWidth_back t ht, setWidth_inj ht]
  apply BitVec.eq_of_getElem_eq
  intro i hi
  simp only [BitVec.getElem_or, BitVec.getElem_and, BitVec.getElem_setWidth, BitVec.getLsbD_and]
  cases x.getLsbD i <;> cases c.getLsbD i <;> cases d.getLsbD i <;> rfl

theorem or_and_subset (x : BitVec 32) {c d : BitVec 32} (h : d &&& c = d) :
    (d.setWidth t.bits).setWidth 32 = alu .and t (alu .or t x c) d := by
  simp only [alu, setWidth_back t ht, setWidth_inj ht]
  apply BitVec.eq_of_getElem_eq
  intro i hi
  have hbit : (d &&& c).getLsbD i = d.getLsbD i := by rw [h]
  rw [BitVec.getLsbD_and] at hbit
  simp only [BitVec.getElem_or, BitVec.getElem_and, BitVec.getElem_setWidth]
  revert hbit
  cases x.getLsbD i <;> cases c.getLsbD i <;> cases d.getLsbD i <;> decide

theorem or_and_exchange (x c d : BitVec 32) :
    alu .or t (alu .and t x d) (c &&& d) = alu .and t (alu .or t x c) d := by
  simp only [alu, setWidth_back t ht, setWidth_inj ht]
  apply BitVec.eq_of_getElem_eq
  intro i hi
  simp only [BitVec.getElem_or, BitVec.getElem_and, BitVec.getElem_setWidth, BitVec.getLsbD_and]
  cases x.getLsbD i <;> cases c.getLsbD i <;> cases d.getLsbD i <;> rfl

theorem and_or_exchange (x c d : BitVec 32) :
    alu .and t (alu .or t x d) (c ||| d) = alu .or t (alu .and t x c) d := by
  simp only [alu, setWidth_back t ht, setWidth_inj ht]
  apply BitVec.eq_of_getElem_eq
  intro i hi
  simp only [BitVec.getElem_or, BitVec.getElem_and, BitVec.getElem_setWidth, BitVec.getLsbD_or]
  cases x.getLsbD i <;> cases c.getLsbD i <;> cases d.getLsbD i <;> rfl

end

/-! ## the search -/

section
variable {N K : Type} [DecidableEq N] {orderDependant : Ins N K → Ins N K → Bool}
  {ins b : Arith N} {opcode : Opcode} {opcode2 : Option Opcode}
  {oprtn : Arith N → List (Ins N K) → Arith N → Changed N K} {mid0 l mid rest : List (Ins N K)}

theorem tryPair_some {next : Ins N K} {p : Ins N K × Option (Ins N K)}
    (h : tryPair ins opcode oprtn mid next = some (b, p)) :
    next = .arith b ∧ b.opcode = opcode ∧ sameOpWithConst ins b = true ∧ oprtn ins mid b = some p := by
  cases next with
  | arith c =>
    rw [tryPair] at h
    split_ifs at h with hc
    obtain ⟨q, hq, e⟩ := Option.map_eq_some_iff.mp h
    obtain ⟨rfl, rfl⟩ := Prod.mk.inj e
    exact ⟨rfl, hc.1, hc.2, hq⟩
  | mov type c result => cases h
  | other k => cases h

theorem stopAt_stopper {m : List (Ins N K)} {next : Ins N K}
    (h : stopAt ins opcode2 mid0 m next = .stopper mid b rest) :
    mid = mid0 ∧ rest = m ∧ next = .arith b ∧ some b.opcode = opcode2 ∧ sameOpWithConst ins b = true := by
  cases next with
  | arith c =>
    rw [stopAt] at h
    split_ifs at h with hc
    obtain ⟨rfl, rfl, rfl⟩ := Pair.stopper.inj h
    exact ⟨rfl, rfl, rfl, hc.1, hc.2⟩
  | mov type c result => cases h
  | other k => cases h

theorem stopAt_changed {m : List (Ins N K)} {next a' : Ins N K} {b' : Option (Ins N K)} :
    stopAt ins opcode2 mid0 m next ≠ .changed mid b rest a' b' := by
  intro h
  cases next with
  | arith c =>
    rw [stopAt] at h
    split_ifs at h
  | mov type c result => cases h
  | other k => cases h

/-- `b` stands in `l` behind instructions that are independent of `ins`; `mid` has these behind `mid0` -/
structure Ahead (orderDependant : Ins N K → Ins N K → Bool) (ins b : Arith N)
    (mid0 l mid rest : List (Ins N K)) : Prop where
  split : ∃ m, mid = mid0 ++ m ∧ l = m ++ .arith b :: rest
    ∧ ∀ i ∈ m, orderDependant (.arith ins) i = false
  same : sameOpWithConst ins b = true

theorem Ahead.here (h : sameOpWithConst ins b = true) :
    Ahead orderDependant ins b mid (.arith b :: rest) mid rest :=
  ⟨⟨[], (List.append_nil _).symm, rfl, fun _ hi => absurd hi List.not_mem_nil⟩, h⟩

theorem Ahead.later {next : Ins N K} (hdep : orderDependant (.arith ins) next = false)
    (h : Ahead orderDependant ins b (mid0 ++ [next]) l mid rest) :
    Ahead orderDependant ins b mid0 (next :: l) mid rest := by
  obtain ⟨⟨m, h1, h2, h3⟩, hs⟩ := h
  refine ⟨⟨next :: m, by rw [h1, List.append_assoc]; rfl, by rw [h2]; rfl, fun i hi => ?_⟩, hs⟩
  obtain rfl | hi := List.mem_cons.mp hi
  · exact hdep
  · exact h3 i hi

/-- what stands between the instruction and the one that was found is independent of it -/
theorem findInsPair_changed {a' : Ins N K} {b' : Option (Ins N K)}
    (h : findInsPair orderDependant ins opcode opcode2 oprtn mid0 l = .changed mid b rest a' b') :
    Ahead orderDependant ins b mid0 l mid rest ∧ b.opcode = opcode
      ∧ oprtn ins mid b = some (a', b') := by
  induction l generalizing mid0 with
  | nil => cases h
  | cons next l ih =>
    rw [findInsPair] at h
    split at h
    · -- the pair is changed here
      rename_i c a'' b'' htry
      obtain ⟨rfl, rfl, rfl, rfl, rfl⟩ := Pair.changed.inj h
      obtain ⟨rfl, hop, hsame, hp⟩ := tryPair_some htry
      exact ⟨Ahead.here hsame, hop, hp⟩
    · split_ifs at h with hdep
      · exact absurd h stopAt_changed
      · obtain ⟨h1, h2⟩ := ih h
        exact ⟨h1.later (Bool.eq_false_iff.mpr hdep), h2⟩

theorem findInsPair_stopper
    (h : findInsPair orderDependant ins opcode opcode2 oprtn mid0 l = .stopper mid b rest) :
    Ahead orderDependant ins b mid0 l mid rest ∧ some b.opcode = opcode2 := by
  induction l generalizing mid0 with
  | nil => cases h
  | cons next l ih =>
    rw [findInsPair] at h
    split at h
    · cases h
    · split_ifs at h with hdep
      · obtain ⟨rfl, rfl, rfl, hop, hsame⟩ := stopAt_stopper h
        exact ⟨Ahead.here hsame, hop⟩
      · obtain ⟨h1, h2⟩ := ih h
        exact ⟨h1.later (Bool.eq_false_iff.mpr hdep), h2⟩

end

/-! ## what a rewrite combines -/

section
variable {N K σ : Type} [DecidableEq N] (orderDependant : Ins N K → Ins N K → Bool)
  (insChangeable : Arith N → Operand N → Slot → Bool)

/-- the routine that made the change -/
inductive Rewrite.Made (r : Rewrite N K) : Prop where
  | merge (hop : r.a.opcode = r.b.opcode) (htype : r.a.opcode = .rshift → r.a.type = r.b.type)
      (h : mergeTwo orderDependant insChangeable r.a r.mid r.b
        (r.a.opcode.combine (op2val r.a) (op2val r.b)) = some (r.a', r.b'))
  | andOr (ha : r.a.opcode = .and) (hb : r.b.opcode = .or)
      (h : andOr insChangeable r.a r.b = some (r.a', r.b'))
  | andOrAnd (ha : r.a.opcode = .and) (hb : r.b.opcode = .or)
      (h : andOrAnd insChangeable r.a r.b = some (r.a', r.b'))
  | orAnd (ha : r.a.opcode = .or) (hb : r.b.opcode = .and)
      (h : orAnd insChangeable r.a r.b = some (r.a', r.b'))
  | orAndOr (ha : r.a.opcode = .or) (hb : r.b.opcode = .and)
      (h : orAndOr insChangeable r.a r.b = some (r.a', r.b'))

/-- a rewrite of the block `l` -/
structure Rewrite.Combines (l : List (Ins N K)) (r : Rewrite N K) : Prop where
  block : l = r.front ++ r.before ++ r.rest
  first : ∃ ins rest, l = .arith ins :: rest ∧ (r.a = ins ∨ sameOpWithConst ins r.a = true)
  const : r.a.op1.isConst = true
  same : sameOpWithConst r.a r.b = true
  apart : ∀ i ∈ r.mid, orderDependant (.arith r.a) i = false
  made : r.Made orderDependant insChangeable

variable {orderDependant insChangeable} {ins : Arith N} {rest : List (Ins N K)} {r : Rewrite N K}
  {opcode1 opcode2 : Opcode}
  {oprtn op1rtn op2rtn : Arith N → List (Ins N K) → Arith N → Changed N K}
  {op12rtn op121rtn : Arith N → Arith N → Changed N K}

/-- the routine merges two instructions of an opcode -/
def MergesPair (orderDependant : Ins N K → Ins N K → Bool) (insChangeable : Arith N → Operand N → Slot → Bool)
    (oprtn : Arith N → List (Ins N K) → Arith N → Changed N K) (op : Opcode) : Prop :=
  ∀ a mid b p, a.opcode = op → b.opcode = op → oprtn a mid b = some p →
    (op = .rshift → a.type = b.type) ∧
      mergeTwo orderDependant insChangeable a mid b (op.combine (op2val a) (op2val b)) = some p

theorem findOnePair_combines (hc : ins.op1.isConst = true) (hop : ins.opcode = opcode1)
    (hm : MergesPair orderDependant insChangeable oprtn opcode1)
    (h : findOnePair orderDependant ins opcode1 oprtn rest = some r) :
    r.Combines orderDependant insChangeable (.arith ins :: rest) := by
  rw [findOnePair] at h
  split at h
  · rename_i mid b rest' a' b' hpair
    cases h
    obtain ⟨⟨⟨m, h1, h2, h3⟩, hs⟩, hb, hp⟩ := findInsPair_changed hpair
    obtain ⟨ht, hp⟩ := hm _ _ _ _ hop hb hp
    subst h1 h2
    refine ⟨by simp [Rewrite.before], ⟨_, _, rfl, Or.inl rfl⟩, hc, hs, h3,
      .merge (hop.trans hb.symm) (fun e => ht (hop.symm.trans e)) ?_⟩
    dsimp only
    rw [hop]
    exact hp
  · cases h

/-- the routine makes its change of two instructions with these opcodes -/
def ExchangesPair (orderDependant : Ins N K → Ins N K → Bool)
    (insChangeable : Arith N → Operand N → Slot → Bool) (rtn : Arith N → Arith N → Changed N K)
    (op1 op2 : Opcode) : Prop :=
  ∀ r : Rewrite N K, r.a.opcode = op1 → r.b.opcode = op2 → rtn r.a r.b = some (r.a', r.b') →
    r.Made orderDependant insChangeable

theorem findInsTriple_combines (hc : ins.op1.isConst = true) (hop : ins.opcode = opcode1)
    (hm1 : MergesPair orderDependant insChangeable op1rtn opcode1)
    (hm2 : MergesPair orderDependant insChangeable op2rtn opcode2)
    (hm12 : ExchangesPair orderDependant insChangeable op12rtn opcode1 opcode2)
    (hm121 : ExchangesPair orderDependant insChangeable op121rtn opcode1 opcode2)
    (h : findInsTriple orderDependant ins opcode1 opcode2 op1rtn op2rtn op12rtn op121rtn rest = some r) :
    r.Combines orderDependant insChangeable (.arith ins :: rest) := by
  rw [findInsTriple] at h
  split at h
  · cases h
  · -- two instructions of the first opcode
    rename_i mid b rest' a' b' hpair
    cases h
    obtain ⟨⟨⟨m, h1, h2, h3⟩, hs⟩, hb, hp⟩ := findInsPair_changed hpair
    obtain ⟨ht, hp⟩ := hm1 _ _ _ _ hop hb hp
    subst h1 h2
    refine ⟨?_, ⟨_, _, rfl, Or.inl rfl⟩, hc, hs, h3,
      .merge (hop.trans hb.symm) (fun e => ht (hop.symm.trans e)) ?_⟩
    · simp [Rewrite.before]
    · dsimp only
      rw [hop]
      exact hp
  · rename_i mid ins2 rest2 hstop
    obtain ⟨⟨⟨m, h1, h2, h3⟩, hs⟩, hop2⟩ := findInsPair_stopper hstop
    have hop2 := Option.some.inj hop2
    subst h1 h2
    have hc2 : ins2.op1.isConst = true := by
      rw [sameOpWithConst, decide_eq_true_iff] at hs
      exact hs.2
    split at h
    · -- two instructions of the second opcode
      rename_i mid2 b rest3 a' b' hpair
      cases h
      obtain ⟨⟨⟨m2, h1, h2, h3⟩, hs2⟩, hb, hp⟩ := findInsPair_changed hpair
      obtain ⟨ht, hp⟩ := hm2 _ _ _ _ hop2 hb hp
      subst h1 h2
      refine ⟨?_, ⟨_, _, rfl, Or.inr hs⟩, hc2, hs2, h3,
        .merge (hop2.trans hb.symm) (fun e => ht (hop2.symm.trans e)) ?_⟩
      · simp [Rewrite.before]
      · dsimp only
        rw [hop2]
        exact hp
    · obtain ⟨p, hp, rfl⟩ := Option.map_eq_some_iff.mp h
      exact ⟨by simp [Rewrite.before], ⟨_, _, rfl, Or.inl rfl⟩, hc, hs, h3, hm12 _ hop hop2 hp⟩
    · obtain ⟨p, hp, rfl⟩ := Option.map_eq_some_iff.mp h
      exact ⟨by simp [Rewrite.before], ⟨_, _, rfl, Or.inl rfl⟩, hc, hs, h3, hm121 _ hop hop2 hp⟩

theorem merges_of {op : Opcode} (hop : op ≠ .rshift)
    (h : ∀ a mid b, oprtn a mid b
      = mergeTwo orderDependant insChangeable a mid b (op.combine (op2val a) (op2val b))) :
    MergesPair orderDependant insChangeable oprtn op := by
  intro a mid b p _ _ hp
  exact ⟨fun e => absurd e hop, (h a mid b).symm.trans hp⟩

theorem merges_rshift :
    MergesPair orderDependant insChangeable (doRShift orderDependant insChangeable) .rshift := by
  intro a mid b p _ _ h
  rw [doRShift] at h
  split_ifs at h with ht
  exact ⟨fun _ => not_not.mp ht, h⟩

theorem exchanges_noChange {op1 op2 : Opcode} :
    ExchangesPair orderDependant insChangeable noChange op1 op2 := fun _ _ _ h => by cases h

/-- every rewrite combines two instructions that belong together -/
theorem doArithmeticOps_combines {l : List (Ins N K)}
    (h : doArithmeticOps orderDependant insChangeable l = some r) :
    r.Combines orderDependant insChangeable l
      ∧ ∃ ins rest, l = .arith ins :: rest ∧ ins.type.length ≠ .b8 := by
  cases l with
  | nil => cases h
  | cons i rest =>
    cases i with
    | mov type c result => cases h
    | other k => cases h
    | arith ins =>
      rw [doArithmeticOps] at h
      split_ifs at h with hlen hconst
      refine ⟨?_, ins, rest, rfl, hlen⟩
      have hc : ins.op1.isConst = true := by
        rw [opConst] at hconst
        exact Bool.not_eq_false _ ▸ hconst
      split at h
      · rename_i hop
        exact findOnePair_combines hc hop (merges_of (by decide) fun _ _ _ => rfl) h
      · rename_i hop
        exact findOnePair_combines hc hop (merges_of (by decide) fun _ _ _ => rfl) h
      · rename_i hop
        exact findOnePair_combines hc hop (merges_of (by decide) fun _ _ _ => rfl) h
      · rename_i hop
        exact findInsTriple_combines hc hop (merges_of (by decide) fun _ _ _ => rfl)
          (merges_of (by decide) fun _ _ _ => rfl) (fun r ha hb hp => .andOr ha hb hp)
          (fun r ha hb hp => .andOrAnd ha hb hp) h
      · rename_i hop
        exact findInsTriple_combines hc hop (merges_of (by decide) fun _ _ _ => rfl)
          (merges_of (by decide) fun _ _ _ => rfl) (fun r ha hb hp => .orAnd ha hb hp)
          (fun r ha hb hp => .orAndOr ha hb hp) h
      · rename_i hop
        exact findInsTriple_combines hc hop (merges_of (by decide) fun _ _ _ => rfl) merges_rshift
          exchanges_noChange exchanges_noChange h
      · rename_i hop
        exact findInsTriple_combines hc hop merges_rshift (merges_of (by decide) fun _ _ _ => rfl)
          exchanges_noChange exchanges_noChange h

end

/-! ## the effect of a rewrite -/

section
variable {N K σ : Type} [DecidableEq N] {nm : Names N σ} {otherEffect : K → σ → σ}

/-- an operation on a word -/
def Arith.step (i : Arith N) (x : BitVec 32) : BitVec 32 := alu i.opcode i.type x (op2val i)

/-- the names of an operation have the size of its type -/
structure Arith.Sized (nm : Names N σ) (i : Arith N) : Prop where
  result : nm.size i.result = i.type.length
  op0 : ∀ n, i.op0 = .name n → nm.size n = i.type.length

/-- a command leaves the names of an operation alone -/
structure Arith.LeftBy (nm : Names N σ) (i : Arith N) (f : σ → σ) : Prop where
  op0 : ∀ n, i.op0 = .name n → nm.Keeps f n
  keeps : nm.Keeps f i.result
  passes : nm.Passes f i.result

/-- what `InsOrderDependant` promises: instructions it lets pass leave each other's names alone -/
def Respects (nm : Names N σ) (otherEffect : K → σ → σ) (orderDependant : Ins N K → Ins N K → Bool) :
    Prop :=
  ∀ i j, orderDependant i j = false →
    (∀ a, i = .arith a → a.LeftBy nm (exec nm otherEffect j)) ∧
    (∀ b, j = .arith b → b.LeftBy nm (exec nm otherEffect i))

theorem exec_arith {i : Arith N} (hc : i.op1.isConst = true) (s : σ) :
    exec nm otherEffect (.arith i) s = nm.set i.result (i.step (i.op0.value nm s)) s := by
  rw [exec, Arith.step, op2val]
  cases e : i.op1 with
  | const c => rfl
  | name n =>
    rw [e] at hc
    cases hc

theorem step_fits {i : Arith N} (hi : i.Sized nm) (x : BitVec 32) : nm.Fits i.result (i.step x) := by
  rw [nm.fits_iff, hi.result]
  exact alu_fits i.type x (op2val i) i.opcode

/-- the same for all instructions between two others -/
theorem LeftBy.all {a : Arith N} {mid : List (Ins N K)}
    (h : ∀ i ∈ mid, a.LeftBy nm (exec nm otherEffect i)) :
    a.LeftBy nm (runAll (exec nm otherEffect) mid) :=
  ⟨fun n hn => runAll_keeps fun i hi => (h i hi).op0 n hn, runAll_keeps fun i hi => (h i hi).keeps,
    runAll_passes fun i hi => (h i hi).passes⟩

theorem LeftBy.value {a : Arith N} {f : σ → σ} (h : a.LeftBy nm f) (s : σ) :
    a.op0.value nm (f s) = a.op0.value nm s := by
  cases e : a.op0 with
  | name n => exact h.op0 n e s
  | const c => rfl

/-- an instruction, others and an instruction -/
theorem run_two (i j : Ins N K) (mid : List (Ins N K)) (s : σ) :
    runAll (exec nm otherEffect) (i :: (mid ++ [j])) s
      = exec nm otherEffect j (runAll (exec nm otherEffect) mid (exec nm otherEffect i s)) := by
  rw [runAll_cons, runAll_append]
  rfl

variable {a b : Arith N} {mid : List (Ins N K)}

/-- two operations on one name -/
theorem run_same (ha : a.op1.isConst = true) (hb : b.op1.isConst = true) (hb0 : b.op0 = .name a.result)
    (hr : b.result = a.result) (hs : a.Sized nm) (hl : a.LeftBy nm (runAll (exec nm otherEffect) mid))
    (s : σ) : runAll (exec nm otherEffect) (.arith a :: (mid ++ [.arith b])) s
      = runAll (exec nm otherEffect) mid
          (nm.set a.result (b.step (a.step (a.op0.value nm s))) s) := by
  rw [run_two, exec_arith ha, exec_arith hb, hb0, hr]
  show nm.set a.result (b.step (nm.get a.result _)) _ = _
  rw [get_through hl.passes (step_fits hs _), set_through hl.passes]

/-- names that are told apart do not overlap where it matters: the two results when the operations change
places, the first result and the first operand when the second operation is given that operand -/
structure SeparateNames (nm : Names N σ) (a b : Arith N) : Prop where
  results : a.op0 = b.op0 → nm.Apart a.result b.result
  operand : a.op0 ≠ b.op0 → ∀ n, a.op0 = .name n → ∀ v, nm.Keeps (nm.set a.result v) n

theorem alu_types {op : Opcode} {t u : IntType} (ht : t.bits ≤ 32) (hl : u.length = t.length)
    (h : op = .rshift → t = u) (x c : BitVec 32) : alu op u x c = alu op t x c := by
  by_cases hop : op = .rshift
  · rw [h hop]
  · exact alu_sign ht op hop hl x c

/-- the pair before and after the merge leave the same state but for the word that is computed -/
theorem mergeTwo_run {orderDependant : Ins N K → Ins N K → Bool}
    {insChangeable : Arith N → Operand N → Slot → Bool} {value : BitVec 32} {a' : Ins N K}
    {b' : Option (Ins N K)} (ha : a.op1.isConst = true) (hsame : sameOpWithConst a b = true)
    (hop : a.opcode = b.opcode) (htype : a.opcode = .rshift → a.type = b.type)
    (hsa : a.Sized nm) (hsb : b.Sized nm) (ht : a.type.bits ≤ 32)
    (hl : a.LeftBy nm (runAll (exec nm otherEffect) mid))
    (hresp : Respects nm otherEffect orderDependant)
    (hsep : a.result ≠ b.result → SeparateNames nm a b)
    (h : mergeTwo orderDependant insChangeable a mid b value = some (a', b')) (s : σ) :
    ∃ F : BitVec 32 → σ,
      runAll (exec nm otherEffect) (.arith a :: (mid ++ [.arith b])) s
          = F (alu a.opcode a.type (alu a.opcode a.type (a.op0.value nm s) (op2val a)) (op2val b)) ∧
      runAll (exec nm otherEffect) (a' :: (mid ++ b'.toList)) s
          = F (alu a.opcode a.type (a.op0.value nm s) value) ∧
      ∀ v, nm.Fits b.result v → nm.get b.result (F v) = v := by
  rw [sameOpWithConst, decide_eq_true_iff] at hsame
  obtain ⟨hb0, hb⟩ := hsame
  have hlen : b.type.length = a.type.length := by rw [← hsb.op0 _ hb0, hsa.result]
  have hbstep : ∀ x c, alu b.opcode b.type x c = alu a.opcode a.type x c := fun x c => by
    rw [← hop, alu_types ht hlen htype]
  have hastep : ∀ x, a.step x = alu a.opcode a.type x (op2val a) := fun x => rfl
  have hbs : ∀ x, b.step x = alu a.opcode a.type x (op2val b) := fun x => hbstep x _
  rw [mergeTwo] at h
  by_cases hr : a.result = b.result
  · -- one instruction is left
    rw [if_pos hr] at h
    split_ifs at h with hch
    obtain ⟨rfl, rfl⟩ := Prod.mk.inj (Option.some.inj h)
    refine ⟨fun v => runAll (exec nm otherEffect) mid (nm.set a.result v s), ?_, ?_, fun v hv => ?_⟩
    · rw [run_same ha hb hb0 hr.symm hsa hl, hbs, hastep]
    · rw [Option.toList_none, List.append_nil, runAll_cons, exec_arith rfl]
      rfl
    · rw [← hr] at hv ⊢
      exact get_through hl.passes hv s
  have hsep := hsep hr
  rw [if_neg hr] at h
  by_cases h0 : a.op0 = b.op0
  · -- the operations change places
    rw [if_pos h0, h0, hb0] at h
    split_ifs at h with hdep hch
    dsimp only at h
    split_ifs at h with hch2
    obtain ⟨rfl, rfl⟩ := Prod.mk.inj (Option.some.inj h)
    have ha0 : a.op0 = .name a.result := h0.trans hb0
    have hlb : b.LeftBy nm (runAll (exec nm otherEffect) mid) := by
      refine LeftBy.all fun i hi => (hresp i (.arith b) ?_).2 b rfl
      have hany := (Bool.not_eq_true _ ▸ hdep : (mid.any fun i => orderDependant i (.arith b)) = false)
      rw [List.any_eq_false] at hany
      exact Bool.eq_false_iff.mpr (hany i hi)
    have hap := hsep.results h0
    rw [ha0]
    refine ⟨fun v => nm.set b.result v
      (nm.set a.result (a.step (nm.get a.result s)) (runAll (exec nm otherEffect) mid s)), ?_, ?_,
      fun v hv => nm.get_set _ _ _ hv⟩
    · rw [run_two, exec_arith ha, exec_arith hb, hb0, ha0]
      show nm.set b.result (b.step (nm.get a.result _)) _ = _
      rw [get_through hl.passes (step_fits hsa _), hl.passes, hbs]
      rfl
    · have hb' : ({ b with op0 := .name a.result, op1 := a.op1, result := a.result } : Arith N).op1.isConst
          = true := ha
      rw [Option.toList_some, run_two, exec_arith hb', exec_arith rfl]
      show nm.set a.result (alu b.opcode b.type (nm.get a.result
        (runAll (exec nm otherEffect) mid (nm.set b.result _ s))) (op2val a))
        (runAll (exec nm otherEffect) mid (nm.set b.result _ s)) = _
      rw [hlb.passes, hap.keeps, hl.keeps, hbstep, ← hastep]
      exact (hap.passes _ _ _).symm
  · -- the second operation is given the first operand
    rw [if_neg h0] at h
    split_ifs at h with hcond hch
    obtain ⟨rfl, rfl⟩ := Prod.mk.inj (Option.some.inj h)
    refine ⟨fun v => nm.set b.result v (runAll (exec nm otherEffect) mid
      (nm.set a.result (a.step (a.op0.value nm s)) s)), ?_, ?_, fun v hv => nm.get_set _ _ _ hv⟩
    · rw [run_two, exec_arith ha, exec_arith hb, hb0]
      show nm.set b.result (b.step (nm.get a.result _)) _ = _
      rw [get_through hl.passes (step_fits hsa _), hbs]
      rfl
    · have hread : a.op0.value nm (nm.set a.result (a.step (a.op0.value nm s)) s) = a.op0.value nm s := by
        cases e : a.op0 with
        | name n => exact hsep.operand h0 n e _ s
        | const c => rfl
      rw [Option.toList_some, run_two, exec_arith ha, exec_arith rfl]
      show nm.set b.result (alu b.opcode b.type (a.op0.value nm _) value) _ = _
      rw [LeftBy.value hl, hread, hbstep]

/-- two operations on one name, exchanged for two others that compute the same -/
theorem run_exchange {a' b' : Arith N} (ha : a.op1.isConst = true) (hb : b.op1.isConst = true)
    (ha' : a'.op1.isConst = true) (hb' : b'.op1.isConst = true) (hb0 : b.op0 = .name a.result)
    (hr : b.result = a.result) (hs : a.Sized nm) (hl : a.LeftBy nm (runAll (exec nm otherEffect) mid))
    (htype : a'.type = a.type) (hop0 : a'.op0 = a.op0) (hres : a'.result = a.result)
    (hbop0 : b'.op0 = b.op0) (hbres : b'.result = b.result)
    (heq : ∀ x, b'.step (a'.step x) = b.step (a.step x)) (s : σ) :
    runAll (exec nm otherEffect) (.arith a' :: (mid ++ [.arith b'])) s
      = runAll (exec nm otherEffect) (.arith a :: (mid ++ [.arith b])) s := by
  have hs' : a'.Sized nm :=
    ⟨by rw [hres, htype]; exact hs.result, fun n hn => by rw [htype]; exact hs.op0 n (hop0 ▸ hn)⟩
  have hl' : a'.LeftBy nm (runAll (exec nm otherEffect) mid) :=
    ⟨fun n hn => hl.op0 n (hop0 ▸ hn), by rw [hres]; exact hl.keeps, by rw [hres]; exact hl.passes⟩
  rw [run_same ha hb hb0 hr hs hl, run_same ha' hb' (by rw [hbop0, hb0, hres]) (by rw [hbres, hr, hres])
    hs' hl', hop0, hres, heq]

/-- the bit operations that are put in the other order -/
theorem exchange_run {orderDependant : Ins N K → Ins N K → Bool}
    {insChangeable : Arith N → Operand N → Slot → Bool} {r : Rewrite N K}
    (ha : r.a.op1.isConst = true) (hsame : sameOpWithConst r.a r.b = true)
    (hsa : r.a.Sized nm) (hsb : r.b.Sized nm) (ht : r.a.type.bits ≤ 32)
    (hl : r.a.LeftBy nm (runAll (exec nm otherEffect) r.mid))
    (hmade : r.Made orderDependant insChangeable) (hne : r.a.opcode ≠ r.b.opcode) (s : σ) :
    runAll (exec nm otherEffect) r.after s = runAll (exec nm otherEffect) r.before s := by
  rw [sameOpWithConst, decide_eq_true_iff] at hsame
  obtain ⟨hb0, hb⟩ := hsame
  have hlen : r.b.type.length = r.a.type.length := by rw [← hsb.op0 _ hb0, hsa.result]
  have hand : ∀ x c, alu .and r.b.type x c = alu .and r.a.type x c := alu_sign ht _ (by decide) hlen
  have hor : ∀ x c, alu .or r.b.type x c = alu .or r.a.type x c := alu_sign ht _ (by decide) hlen
  rw [Rewrite.after, Rewrite.before]
  cases hmade with
  | merge hop _ _ => exact absurd hop hne
  | andOr hao hbo h =>
    rw [andOr] at h
    split_ifs at h with h1 h2
    dsimp only at h
    split_ifs at h with h3 h4
    obtain ⟨e1, e2⟩ := Prod.mk.inj (Option.some.inj h)
    rw [← e1, ← e2]
    have hr : r.b.result = r.a.result := Operand.name.inj ((not_not.mp h2).symm.trans hb0)
    refine run_exchange ha hb ?_ ?_ hb0 hr hsa hl ?_ ?_ ?_ ?_ ?_ (fun x => ?heq) s
    case heq =>
      show alu r.b.opcode _ (alu r.a.opcode _ x _) _ = alu r.b.opcode _ (alu r.a.opcode _ x _) _
      rw [hao, hbo, hor, hor]
      exact and_or ht x _ _
    all_goals first | rfl | exact hb
  | andOrAnd hao hbo h =>
    rw [andOrAnd, exchangeTwo] at h
    split_ifs at h with h1
    dsimp only at h
    split_ifs at h with h2
    obtain ⟨e1, e2⟩ := Prod.mk.inj (Option.some.inj h)
    rw [← e1, ← e2]
    refine run_exchange ha hb ?_ ?_ hb0 (not_not.mp h1).symm hsa hl ?_ ?_ ?_ ?_ ?_ (fun x => ?heq) s
    case heq =>
      show alu .and _ (alu .or _ x _) _ = alu r.b.opcode _ (alu r.a.opcode _ x _) _
      rw [hao, hbo, hor, hand]
      exact and_or_exchange ht x _ _
    all_goals first | rfl | exact hb
  | orAnd hao hbo h =>
    rw [orAnd] at h
    split_ifs at h with h1 h2 h3
    · -- the bits of the first operation are all gone
      obtain ⟨e1, e2⟩ := Prod.mk.inj (Option.some.inj h)
      have hr : r.b.result = r.a.result := Operand.name.inj ((not_not.mp h2).symm.trans hb0)
      rw [← e1, ← e2, run_same ha hb hb0 hr hsa hl, Option.toList_none, List.append_nil, runAll_cons,
        exec, or_and_subset ht (r.a.op0.value nm s) h3, Arith.step, Arith.step, hao, hbo, hand]
    · dsimp only at h
      split_ifs at h with h4 h5
      obtain ⟨e1, e2⟩ := Prod.mk.inj (Option.some.inj h)
      rw [← e1, ← e2]
      have hr : r.b.result = r.a.result := Operand.name.inj ((not_not.mp h2).symm.trans hb0)
      refine run_exchange ha hb ?_ ?_ hb0 hr hsa hl ?_ ?_ ?_ ?_ ?_ (fun x => ?heq) s
      case heq =>
        show alu r.b.opcode _ (alu r.a.opcode _ x _) _ = alu r.b.opcode _ (alu r.a.opcode _ x _) _
        rw [hao, hbo, hand, hand]
        exact or_and ht x _ _
      all_goals first | rfl | exact hb
  | orAndOr hao hbo h =>
    rw [orAndOr, exchangeTwo] at h
    split_ifs at h with h1
    dsimp only at h
    split_ifs at h with h2
    obtain ⟨e1, e2⟩ := Prod.mk.inj (Option.some.inj h)
    rw [← e1, ← e2]
    refine run_exchange ha hb ?_ ?_ hb0 (not_not.mp h1).symm hsa hl ?_ ?_ ?_ ?_ ?_ (fun x => ?heq) s
    case heq =>
      show alu .or _ (alu .and _ x _) _ = alu r.b.opcode _ (alu r.a.opcode _ x _) _
      rw [hao, hbo, hor, hand]
      exact or_and_exchange ht x _ _
    all_goals first | rfl | exact hb

/-- the masked shift counts of a rewrite allow it, or its operand is a constant for which they do -/
def Rewrite.CountsAllow (r : Rewrite N K) : Prop :=
  r.a.opcode.isShift = true →
    CountsOk r.a.opcode r.a.type (op2val r.a) (op2val r.b) ∨
    ∃ x, r.a.op0 = .const x ∧ alu r.a.opcode r.a.type (alu r.a.opcode r.a.type x (op2val r.a)) (op2val r.b)
      = alu r.a.opcode r.a.type x (op2val r.a + op2val r.b)

theorem combine_shift {op : Opcode} (h : op.isShift = true) (c d : BitVec 32) : op.combine c d = c + d := by
  cases op <;> first | rfl | cases h

/-- the rewrite keeps every name in every block that has its instructions -/
def Rewrite.Right (nm : Names N σ) (otherEffect : K → σ → σ) (r : Rewrite N K) : Prop :=
  ∀ front back s n, nm.get n (runAll (exec nm otherEffect) (front ++ r.after ++ back) s)
    = nm.get n (runAll (exec nm otherEffect) (front ++ r.before ++ back) s)

theorem right_of_run {r : Rewrite N K} (h : ∀ s, runAll (exec nm otherEffect) r.after s
    = runAll (exec nm otherEffect) r.before s) : r.Right nm otherEffect := by
  intro front back s n
  rw [runAll_append, runAll_append, runAll_append, runAll_append, h]

/-- the word a merge computes is the one of the pair exactly when the counts allow it -/
theorem merge_right_iff {orderDependant : Ins N K → Ins N K → Bool}
    {insChangeable : Arith N → Operand N → Slot → Bool} {r : Rewrite N K} (s0 : σ)
    (hc : r.a.op1.isConst = true) (hsame : sameOpWithConst r.a r.b = true)
    (hop : r.a.opcode = r.b.opcode) (htype : r.a.opcode = .rshift → r.a.type = r.b.type)
    (hsa : r.a.Sized nm) (hsb : r.b.Sized nm) (ht : r.a.type.bits ≤ 32)
    (hl : r.a.LeftBy nm (runAll (exec nm otherEffect) r.mid))
    (hresp : Respects nm otherEffect orderDependant)
    (hsep : r.a.result ≠ r.b.result → SeparateNames nm r.a r.b)
    (h : mergeTwo orderDependant insChangeable r.a r.mid r.b
      (r.a.opcode.combine (op2val r.a) (op2val r.b)) = some (r.a', r.b')) :
    r.Right nm otherEffect ↔ r.CountsAllow := by
  have hrun := mergeTwo_run hc hsame hop htype hsa hsb ht hl hresp hsep h
  by_cases hshift : r.a.opcode.isShift = true
  · rw [combine_shift hshift] at hrun
    constructor
    · intro hright _
      by_contra hne
      rw [not_or] at hne
      obtain ⟨hbad, hnc⟩ := hne
      -- an operand for which the words differ
      obtain ⟨s, hs⟩ : ∃ s, alu r.a.opcode r.a.type (alu r.a.opcode r.a.type (r.a.op0.value nm s)
          (op2val r.a)) (op2val r.b) ≠ alu r.a.opcode r.a.type (r.a.op0.value nm s)
          (op2val r.a + op2val r.b) := by
        cases e : r.a.op0 with
        | const x => exact ⟨s0, fun heq => hnc ⟨x, e, heq⟩⟩
        | name n =>
          obtain ⟨x, hx, hne⟩ := shift_shift_bad ht hshift hbad
          refine ⟨nm.set n x s0, ?_⟩
          have hget : nm.get n (nm.set n x s0) = x := by
            refine nm.get_set _ _ _ ((nm.fits_iff _ _).mpr ?_)
            rw [hsa.op0 n e]
            exact hx
          show alu _ _ (alu _ _ (nm.get n _) _) _ ≠ alu _ _ (nm.get n _) _
          rw [hget]
          exact hne
      obtain ⟨F, hF1, hF2, hF3⟩ := hrun s
      have hfits : ∀ x c, nm.Fits r.b.result (alu r.a.opcode r.a.type x c) := by
        intro x c
        rw [nm.fits_iff, hsb.result]
        have hb0 : r.b.op0 = .name r.a.result := by
          rw [sameOpWithConst, decide_eq_true_iff] at hsame
          exact hsame.1
        rw [← hsb.op0 _ hb0, hsa.result]
        exact alu_fits _ _ _ _
      have heq := hright [] [] s r.b.result
      rw [List.nil_append, List.append_nil, List.nil_append, List.append_nil, Rewrite.after,
        Rewrite.before, hF1, hF2, hF3 _ (hfits _ _), hF3 _ (hfits _ _)] at heq
      exact hs heq.symm
    · intro hcounts
      refine right_of_run fun s => ?_
      obtain ⟨F, hF1, hF2, -⟩ := hrun s
      rw [Rewrite.after, Rewrite.before, hF1, hF2]
      obtain hok | ⟨x, hx, heq⟩ := hcounts hshift
      · rw [shift_shift_of_ok ht hshift hok]
      · rw [hx]
        exact congrArg F heq.symm
  · refine iff_of_true (right_of_run fun s => ?_) (fun h => absurd h hshift)
    obtain ⟨F, hF1, hF2, -⟩ := hrun s
    rw [Rewrite.after, Rewrite.before, hF1, hF2, alu_alu ht (Bool.eq_false_iff.mpr hshift)]

end

/-! ## temporaries -/

/-- temporaries of 4 bytes, none of which overlap -/
def tempNames : Names Nat (Nat → BitVec 32) where
  get n s := s n
  set n v s := Function.update s n v
  Fits _ v := v.toNat < 2 ^ 32
  get_fits n s := (s n).isLt
  get_set n v s _ := Function.update_self n v s
  set_set _ _ _ _ := Function.update_idem ..
  size _ := .b4
  fits_iff _ _ := Iff.rfl

/-- two shifts of temporary 0 -/
def shiftBlock (c d : BitVec 32) : List (Ins Nat Empty) :=
  [.arith ⟨.lshift, ⟨.b4, false⟩, .name 0, .const c, 0⟩,
   .arith ⟨.lshift, ⟨.b4, false⟩, .name 0, .const d, 0⟩]

theorem shiftBlock_sized (c d : BitVec 32) (i : Arith Nat) (hi : Ins.arith i ∈ shiftBlock c d) :
    i.Sized tempNames := by
  rw [shiftBlock, List.mem_cons, List.mem_singleton] at hi
  obtain hi | hi := hi <;> obtain rfl := Ins.arith.inj hi <;> exact ⟨rfl, fun _ _ => rfl⟩

/-- two registers, and the memory the first one points to -/
inductive IndexName where
  | ebx | ecx | atEbx
deriving DecidableEq

structure IndexState where
  ebx : BitVec 32
  ecx : BitVec 32
  memory : BitVec 32 → BitVec 32

def indexNames : Names IndexName IndexState where
  get n s := match n with
    | .ebx => s.ebx
    | .ecx => s.ecx
    | .atEbx => s.memory s.ebx
  set n v s := match n with
    | .ebx => { s with ebx := v }
    | .ecx => { s with ecx := v }
    | .atEbx => { s with memory := Function.update s.memory s.ebx v }
  Fits _ v := v.toNat < 2 ^ 32
  get_fits n s := BitVec.isLt _
  get_set n v s _ := by
    cases n with
    | atEbx => exact Function.update_self ..
    | _ => rfl
  set_set n v w s := by
    cases n with
    | atEbx => exact congrArg (IndexState.mk s.ebx s.ecx) (Function.update_idem ..)
    | _ => rfl
  size _ := .b4
  fits_iff _ _ := Iff.rfl

/-- `ebx := [ebx] + 1; ecx := ebx + 2` -/
def indexBlock : List (Ins IndexName Empty) :=
  [.arith ⟨.add, ⟨.b4, false⟩, .name .atEbx, .const 1, .ebx⟩,
   .arith ⟨.add, ⟨.b4, false⟩, .name .ebx, .const 2, .ecx⟩]

/-- the second addition is made to read `[ebx]` again, behind the write of `ebx` -/
theorem index_merge_wrong :
    ∃ r, doArithmeticOps (fun _ _ => true) (fun _ _ _ => true) indexBlock = some r ∧
      (runAll (exec indexNames Empty.elim) r.before ⟨5, 0, fun a => a⟩).ecx = 8 ∧
      (runAll (exec indexNames Empty.elim) r.after ⟨5, 0, fun a => a⟩).ecx = 9 :=
  ⟨_, rfl, by decide, by decide⟩

end Cg
