import OpenWatcom.X64Obj.Pass2Spec

/-!
# Stretches of the text that Pass 2 carries over

* `Whole`, `whole_byteAt`   a stretch in which no pattern begins is copied byte for byte;
* `whole_movedTo`   and its positions keep their distances;
* `Untouched`, `untouched_slice`   a stretch of the output that no branch adjustment writes;
* `untouched_scan`, `untouched_inside`   where the scan is in step, only the displacement of the
  branch at hand is written.
-/

namespace X64Obj
open Bytes Stride

section
variable (code : List UInt8) (fixups : List FixupRec)

/-- no pattern begins at the places looked at among the `n` bytes at `a` -/
def Whole (a n : Nat) : Prop :=
  ∀ i, i < n → Looks code fixups (a + i) → patternAt code fixups (a + i) = .plain

instance (a n : Nat) : Decidable (Whole code fixups a n) := Nat.decidableBallLT _ _

/-- no branch the scan adjusts has its displacement among the `n` output bytes at `p` -/
def Untouched (p n : Nat) : Prop :=
  ∀ k, k < code.length → Scans code k → ∀ b ∈ relBranch code k,
    Writes code (rewriteText code fixups).2 k b →
    p + n ≤ movedTo code fixups k + b.dispOff ∨ movedTo code fixups k + b.instLen ≤ p

instance (p n : Nat) : Decidable (Untouched code fixups p n) := Nat.decidableBallLT _ _

end

section
variable {code : List UInt8} {fixups : List FixupRec}

/-! ## stretches without patterns -/

theorem Whole.mono {a n m : Nat} (h : Whole code fixups a n) (hm : m ≤ n) :
    Whole code fixups a m := fun i hi => h i (by omega)

/-- how the loop goes through a stretch without patterns -/
theorem whole_run {a n : Nat} (ha : Kept code fixups a) (hw : Whole code fixups a n) (i : Nat)
    (hi : i ≤ n) :
    (Looks code fixups (a + i) ∧ moved code fixups (a + i) = movedTo code fixups a + i) ∨
      (IsOperand code fixups a ∧ i < 4) := by
  induction i with
  | zero =>
    rcases ha with h | h
    · exact Or.inl ⟨h, (movedTo_looks h).symm⟩
    · exact Or.inr ⟨h, by decide⟩
  | succ i ih =>
    rcases ih (by omega) with ⟨h1, h2⟩ | ⟨h1, h2⟩
    · have hp := hw i hi h1
      left
      rw [← Nat.add_assoc, moved_plain h1 hp, h2]
      refine ⟨?_, by omega⟩
      rw [← rewriteNext_plain hp]
      exact looks_next code fixups h1
    · by_cases h3 : i + 1 < 4
      · exact Or.inr ⟨h1, h3⟩
      · have e : i + 1 = 4 := by omega
        rw [e]
        exact Or.inl ⟨h1.looks_next, h1.moved_next⟩

/-- a stretch without patterns is copied -/
theorem whole_byteAt {a n : Nat} (ha : Kept code fixups a) (hw : Whole code fixups a n)
    (hn : a + n ≤ code.length) (i : Nat) (hi : i < n) :
    byteAt (rewriteText code fixups).1 (movedTo code fixups a + i) = byteAt code (a + i) := by
  rcases whole_run ha hw i hi.le with ⟨h1, h2⟩ | ⟨h1, h2⟩
  · rw [← h2]
    exact byteAt_plain h1 (by omega) (hw i hi h1)
  · exact byteAt_operand h1 h2

/-- positions of a stretch without patterns keep their distances -/
theorem whole_movedTo {a n : Nat} (ha : Kept code fixups a) (hw : Whole code fixups a n) (i : Nat)
    (hi : i ≤ n) (hk : Kept code fixups (a + i)) :
    movedTo code fixups (a + i) = movedTo code fixups a + i := by
  rcases whole_run ha hw i hi with ⟨h1, h2⟩ | ⟨h1, h2⟩
  · rw [movedTo_looks h1, h2]
  · cases i with
    | zero => rfl
    | succ i => exact absurd hk (h1.not_kept (by omega) (by omega))

/-- the bytes patterns begin with -/
theorem pattern_head {k : Nat} (hp : patternAt code fixups k ≠ .plain) :
    byteAt code k ∈ [0x89, 0x8B, 0x8D, 0x81, 0x83, 0x68, 0xA1, 0xA3] := by
  simp only [List.mem_cons, List.not_mem_nil, or_false]
  rcases patternAt_cases code fixups k with ⟨_, _, h1⟩ | ⟨_, _, h1⟩ | ⟨_, _, h1⟩ | ⟨_, h1⟩ |
    ⟨_, h1⟩ | ⟨_, h1⟩ | h1
  · simp only [isRexMov, Bool.or_eq_true, Bool.and_eq_true, decide_eq_true_eq] at h1
    tauto
  · simp only [isRexLea, Bool.and_eq_true, decide_eq_true_eq] at h1
    tauto
  · simp only [isRexAddSub, Bool.or_eq_true, Bool.and_eq_true, decide_eq_true_eq] at h1
    tauto
  · simp only [isPushImm32, Bool.and_eq_true, decide_eq_true_eq] at h1
    tauto
  · simp only [isPushImm8, Bool.and_eq_true, decide_eq_true_eq] at h1
    tauto
  · simp only [isMoffs, Bool.and_eq_true, Bool.or_eq_true, decide_eq_true_eq] at h1
    tauto
  · exact absurd h1 hp

/-- a byte no pattern begins with -/
theorem plain_of_head {k : Nat} {b : UInt8} (hb : byteAt code k = b)
    (h : b ∉ [0x89, 0x8B, 0x8D, 0x81, 0x83, 0x68, 0xA1, 0xA3]) :
    patternAt code fixups k = .plain := by
  by_contra hp
  exact h (hb ▸ pattern_head hp)

/-- the first byte a pattern emits is not the byte it stands on -/
theorem byteAt_pattern {k : Nat} (hk : Looks code fixups k) (hn : k < code.length)
    (hp : patternAt code fixups k ≠ .plain) :
    byteAt (rewriteText code fixups).1 (moved code fixups k) ≠ byteAt code k := by
  have e := rewriteText_byteAt (i := 0) hk hn (by cases patternAt code fixups k <;> decide)
  rw [Nat.add_zero] at e
  rw [e, emitAt]
  rcases patternAt_cases code fixups k with ⟨h, _, h1⟩ | ⟨h, _, h1⟩ | ⟨h, _, h1⟩ | ⟨h, h1⟩ |
    ⟨h, h1⟩ | ⟨h, h1⟩ | h
  · rw [h]
    intro h2
    rw [← h2] at h1
    simp [isRexMov] at h1
  · rw [h]
    intro h2
    rw [← h2] at h1
    simp [isRexLea] at h1
  · rw [h]
    intro h2
    rw [← h2] at h1
    simp [isRexAddSub] at h1
  · rw [h]
    intro h2
    rw [isPushImm32, ← h2] at h1
    simp [pushPairBytes] at h1
  · rw [h]
    intro h2
    rw [isPushImm8, ← h2] at h1
    simp [pushPairBytes] at h1
  · rw [h]
    rw [isMoffs] at h1
    simp only [Bool.and_eq_true, Bool.or_eq_true, decide_eq_true_eq] at h1
    rcases h1.1.1 with h2 | h2 <;> simp [h2]
  · exact absurd h hp

/-- a stretch keeps its bytes only when no pattern begins in it -/
theorem whole_of_byteAt {a n : Nat} (ha : Kept code fixups a) (hn : a + n ≤ code.length)
    (h : ∀ i, i < n →
      byteAt (rewriteText code fixups).1 (movedTo code fixups a + i) = byteAt code (a + i)) :
    Whole code fixups a n := by
  intro i
  induction i using Nat.strong_induction_on with
  | _ i ih =>
    intro hi hk
    have hw : Whole code fixups a i := fun j hj => ih j hj (by omega)
    by_contra hp
    apply byteAt_pattern hk (by omega) hp
    rw [← movedTo_looks hk, whole_movedTo ha hw i (Nat.le_refl _) (Or.inl hk)]
    exact h i hi

/-! ## stretches no adjustment writes -/

theorem untouched_byteAt {p n i : Nat} (h : Untouched code fixups p n) (hi : i < n) :
    byteAt (pass2 code fixups).1 (p + i) = byteAt (rewriteText code fixups).1 (p + i) := by
  rw [pass2_fst]
  apply foldl_adjustAt_frame
  intro k hk b hb hw
  obtain ⟨hv, hlt⟩ := (mem_stops_zero (scanNext_forward code)).mp hk
  rw [offsetMap_toNat ((kept_iff hlt.le).mp hw.1.2.2.1) hlt.le]
  rcases h k hlt hv b hb hw with h1 | h1
  · exact Or.inl (by omega)
  · exact Or.inr (by omega)

theorem untouched_slice {p n : Nat} (h : Untouched code fixups p n) :
    slice (pass2 code fixups).1 p n = slice (rewriteText code fixups).1 p n := by
  rw [slice_eq_iff]
  intro i hi
  exact untouched_byteAt h hi

/-- behind a stop `s` of the scan, up to the next one, only a branch at `s` is adjusted -/
theorem untouched_inside {s a n : Nat} (hs : Scans code s) (ha : Kept code fixups a) (h1 : s ≤ a)
    (h2 : a + n ≤ scanNext code s)
    (h : ∀ b ∈ relBranch code s, Writes code (rewriteText code fixups).2 s b →
      movedTo code fixups a + n ≤ movedTo code fixups s + b.dispOff ∨
        movedTo code fixups s + b.instLen ≤ movedTo code fixups a) :
    Untouched code fixups (movedTo code fixups a) n := by
  have hf := scanNext_forward code
  intro k hk hv b hb hw
  have hkk := (kept_iff hk.le).mp hw.1.2.2.1
  rw [Option.mem_def] at hb
  rcases Nat.lt_trichotomy k s with h3 | h3 | h3
  · -- an earlier branch ends before `s`
    have h4 := hv.next_le hf hs h3
    rw [scanNext, hb] at h4
    have h5 := kept_sub hkk ha (by omega)
    dsimp only at h4
    exact Or.inr (by omega)
  · subst h3
    exact h b hb hw
  · have h4 := hs.next_le hf hv h3
    have h5 := kept_sub ha hkk (by omega)
    exact Or.inl (by omega)

/-- an instruction the scan stops at that is no branch is not written -/
theorem untouched_scan {s a n : Nat} (hs : Scans code s) (ha : Kept code fixups a) (h1 : s ≤ a)
    (h2 : a + n ≤ scanNext code s) (hb : relBranch code s = none) :
    Untouched code fixups (movedTo code fixups a) n := by
  apply untouched_inside hs ha h1 h2
  intro b h
  rw [hb] at h
  exact absurd h (Option.not_mem_none b)

end
end X64Obj
