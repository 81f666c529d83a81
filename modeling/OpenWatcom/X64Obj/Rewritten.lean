import OpenWatcom.Lib.Pieces
import OpenWatcom.X64Obj.Retarget

/-!
# The patched text as a sequence of rewritten instructions

`RewriteOf` is what may become of one instruction, or of a pair of pushes; `Rewritten` says that
the patched text is the concatenation of such rewrites, each at the place `offset_map` gives.

* `OnlyAtStarts`   every pattern the loop meets begins at an instruction (or is an `A1`/`A3`
                   behind prefixes);
* `rewritten_of_starts`, `starts_of_rewritten`   that is enough, and needed;
* `rewritten_iff`   both together.
-/

namespace X64Obj
open Bytes Stride Pieces Ia32

/-! ## rewrites of instructions -/

/-- an immediate byte as a doubleword -/
def signExtend (l : UInt8) : List UInt8 :=
  let s := if l < 0x80 then 0 else 0xFF
  [l, s, s, s]

inductive RewriteOf : List (List UInt8) → List UInt8 → Prop
  | copy (i : List UInt8) : RewriteOf [i] i
  /-- a branch with another displacement -/
  | branch (pf i out : List UInt8) (b : Branch) (hpf : ∀ x ∈ pf, Ia32.isPrefix x = true)
      (hb : relBranch i 0 = some b) (hi : b.instLen = i.length) (hout : out.length = i.length)
      (hop : slice out 0 b.dispOff = slice i 0 b.dispOff) : RewriteOf [pf ++ i] (pf ++ out)
  | rexW (i : List UInt8) : RewriteOf [i] (0x48 :: i)
  | moffs (pf d : List UInt8) (op : UInt8) (hpf : ∀ x ∈ pf, Ia32.isPrefix x = true)
      (hop : op = 0xA1 ∨ op = 0xA3) (hd : d.length = 4) :
      RewriteOf [pf ++ op :: d] (pf ++ ([if op = 0xA1 then 0x8B else 0x89, 0x05] ++ d))
  | pushImm32 (hi lo : List UInt8) (hhi : hi.length = 4) (hlo : lo.length = 4) :
      RewriteOf [0x68 :: hi, 0x68 :: lo] (pushPairBytes lo hi)
  | pushImm8 (hi : List UInt8) (l : UInt8) (hhi : hi.length = 4) :
      RewriteOf [0x68 :: hi, [0x6A, l]] (pushPairBytes (signExtend l) hi)

/-- from position `s` of the text and `p` of the patched text on, the instructions come out
rewritten, each at the place `offset_map` gives -/
inductive Rewritten (offsetMap : Nat → Int) : Nat → Nat → List (List UInt8) → List UInt8 → Prop
  | nil (s p : Nat) (h : offsetMap s = p) : Rewritten offsetMap s p [] []
  | cons (s p : Nat) (g : List (List UInt8)) (out : List UInt8) (insns : List (List UInt8))
      (rest : List UInt8) (h : offsetMap s = p) (hg : RewriteOf g out)
      (hr : Rewritten offsetMap (s + g.flatten.length) (p + out.length) insns rest) :
      Rewritten offsetMap s p (g ++ insns) (out ++ rest)

/-- the pattern at `k` begins an instruction (and if that is a pair with `push imm8`, its operand
is not negative), or it is an `A1`/`A3` behind the prefixes of its instruction -/
def BeginsAtStart (insns : List (List UInt8)) (fixups : List FixupRec) (k : Nat) : Prop :=
  (∃ x ∈ starts insns, x.1 = k ∧
      (patternAt insns.flatten fixups k = .pushImm8 → byteAt insns.flatten (k + 6) < 0x80)) ∨
    (∃ x ∈ starts insns, x.1 + prefixCount x.2 = k ∧ 0x67 ∉ x.2.take (prefixCount x.2) ∧
      patternAt insns.flatten fixups k = .moffs)

instance (insns : List (List UInt8)) (fixups : List FixupRec) (k : Nat) :
    Decidable (BeginsAtStart insns fixups k) := inferInstanceAs (Decidable (_ ∨ _))

/-- every pattern the rewrite loop meets begins at an instruction -/
def OnlyAtStarts (insns : List (List UInt8)) (fixups : List FixupRec) : Prop :=
  ∀ k, k < insns.flatten.length → Looks insns.flatten fixups k →
    patternAt insns.flatten fixups k ≠ .plain → BeginsAtStart insns fixups k

instance (insns : List (List UInt8)) (fixups : List FixupRec) :
    Decidable (OnlyAtStarts insns fixups) := Nat.decidableBallLT _ _

/-- every displacement the adjustment stores belongs to a branch of the text -/
def AdjustsBranches (insns : List (List UInt8)) (fixups : List FixupRec) : Prop :=
  ∀ k, k < insns.flatten.length → Scans insns.flatten k → ∀ b ∈ relBranch insns.flatten k,
    Writes insns.flatten (rewriteText insns.flatten fixups).2 k b →
    ∃ x ∈ starts insns, x.1 = k ∧ relBranch x.2 0 = some b ∧ b.instLen = x.2.length

instance (insns : List (List UInt8)) (fixups : List FixupRec) :
    Decidable (AdjustsBranches insns fixups) := Nat.decidableBallLT _ _

/-! ## what the rewrite loop emits between two places it looks at -/

section
variable {code : List UInt8} {fixups : List FixupRec}

def emitted (code : List UInt8) (fixups : List FixupRec) (a b : Nat) : List UInt8 :=
  (stops (rewriteNext code fixups) b a).flatMap (emitAt code fixups)

theorem emitted_self (a : Nat) : emitted code fixups a a = [] := by
  rw [emitted, stops_of_le (Nat.le_refl a)]
  rfl

theorem emitted_next {a b : Nat} (h : rewriteNext code fixups a ≤ b) :
    emitted code fixups a b
      = emitAt code fixups a ++ emitted code fixups (rewriteNext code fixups a) b := by
  rw [emitted, stops_next (rewriteNext_forward code fixups) h, List.flatMap_cons, emitted]

theorem emitted_append {a b c : Nat} (ha : Looks code fixups a) (hb : Looks code fixups b)
    (h1 : a ≤ b) (h2 : b ≤ c) :
    emitted code fixups a c = emitted code fixups a b ++ emitted code fixups b c := by
  rw [emitted, stops_append (rewriteNext_forward code fixups) ha hb h1 h2, List.flatMap_append,
    emitted, emitted]

/-- a stretch without patterns -/
theorem emitted_whole {a : Nat} (n : Nat) (ha : Looks code fixups a) (hw : Whole code fixups a n) :
    Looks code fixups (a + n) ∧ emitted code fixups a (a + n) = slice code a n := by
  induction n with
  | zero => exact ⟨ha, emitted_self a⟩
  | succ n ih =>
    obtain ⟨h1, h2⟩ := ih (hw.mono (Nat.le_succ n))
    have hp := hw n (Nat.lt_succ_self n) h1
    have e := rewriteNext_plain hp
    have h3 := looks_next code fixups h1
    rw [e] at h3
    refine ⟨h3, ?_⟩
    rw [← Nat.add_assoc, emitted_append ha h1 (by omega) (by omega), h2, slice_add,
      emitted_next (by rw [e]), e, emitted_self, emitAt_plain hp]
    rfl

/-- where the emitted bytes stand -/
theorem emitted_at {a b : Nat} (ha : Looks code fixups a) (hb : Looks code fixups b) (h1 : a ≤ b)
    (h2 : b ≤ code.length) :
    moved code fixups b = moved code fixups a + (emitted code fixups a b).length ∧
      slice (rewriteText code fixups).1 (moved code fixups a) (emitted code fixups a b).length
        = emitted code fixups a b := by
  have hf := rewriteNext_forward code fixups
  have e : emit (rewriteNext code fixups) (emitAt code fixups) b = _ := emit_split hf ha h1
  constructor
  · rw [moved, moved, pos, pos, e, List.length_append]
    rfl
  · have e2 : emit (rewriteNext code fixups) (emitAt code fixups) code.length = _ :=
      emit_split hf hb h2
    rw [e, List.append_assoc] at e2
    rw [rewriteText_fst, e2, moved, pos]
    exact slice_append _ _ _

end

/-! ## one group of instructions -/

theorem relBranch_unprefixed {i : List UInt8} {b : Branch} (hb : relBranch i 0 = some b) :
    Ia32.isPrefix (byteAt i 0) = false := by
  by_contra h
  rw [Bool.not_eq_false] at h
  unfold relBranch at hb
  dsimp only at hb
  generalize byteAt i 0 = y at hb h
  simp only [Ia32.isPrefix, Bool.or_eq_true, decide_eq_true_eq] at h
  rcases h with (((((((((rfl | rfl) | rfl) | rfl) | rfl) | rfl) | rfl) | rfl) | rfl) | rfl) | rfl
    <;> simp at hb

section
variable {insns : List (List UInt8)} {fixups : List FixupRec}

/-- a branch of the text is a branch for the scan -/
theorem branch_start {s : Nat} {i : List UInt8} {b : Branch} (hst : StartsAt insns s i)
    (hb : relBranch i 0 = some b) (hl : b.instLen = i.length) :
    relBranch insns.flatten s = some b := by
  obtain ⟨h0, h1, _⟩ := relBranch_some i hb
  have hle := hst.le
  apply relBranch_congr hb (by omega)
  intro j hj
  rw [Nat.zero_add]
  exact hst.byteAt j (by omega)

variable (ht : IsText insns) (ha : AdjustsBranches insns fixups)
include ht ha

/-- output bytes of the instructions from `s` up to `e` that precede the displacements there -/
theorem untouched_between {s e p n : Nat} {i : List UInt8} (hst : StartsAt insns s i)
    (hs : Kept insns.flatten fixups s) (he : Kept insns.flatten fixups e)
    (h1 : movedTo insns.flatten fixups s ≤ p) (h2 : p + n ≤ movedTo insns.flatten fixups e)
    (h : ∀ k x b, StartsAt insns k x → Kept insns.flatten fixups k → s ≤ k → k < e →
      relBranch x 0 = some b → b.instLen = x.length → p + n ≤ movedTo insns.flatten fixups k + b.dispOff) :
    Untouched insns.flatten fixups p n := by
  intro k hk hv b hb hw
  have hkk := (kept_iff hk.le).mp hw.1.2.2.1
  obtain ⟨⟨k', x⟩, hx, rfl, hxb, hxl⟩ := ha k hk hv b hb hw
  rw [mem_starts] at hx
  dsimp only at *
  by_cases h3 : k' < s
  · -- the branch ends before `s`, as `s` is a start
    have h4 : k' + x.length ≤ s := by
      by_contra hc
      have := (StartsAt.inside ht.ne_nil hx hst h3.le (by omega)).1
      omega
    have h5 := kept_sub hkk hs (by omega)
    exact Or.inr (by omega)
  · by_cases h6 : k' < e
    · exact Or.inl (h k' x b hx hkk (by omega) h6 hxb hxl)
    · have h5 := kept_sub he hkk (by omega)
      exact Or.inl (by omega)

omit ht ha in
/-- the loop has dealt with the instructions `g` at `s` -/
def GroupDone (insns : List (List UInt8)) (fixups : List FixupRec) (s : Nat)
    (g : List (List UInt8)) : Prop :=
  Looks insns.flatten fixups (s + g.flatten.length) ∧ ∃ out, RewriteOf g out ∧
    moved insns.flatten fixups (s + g.flatten.length) = moved insns.flatten fixups s + out.length ∧
    slice (pass2 insns.flatten fixups).1 (moved insns.flatten fixups s) out.length = out

/-- a group without branches -/
theorem group_done {s e : Nat} {i : List UInt8} {g : List (List UInt8)} (hst : StartsAt insns s i)
    (hs : Looks insns.flatten fixups s) (he : Looks insns.flatten fixups e)
    (hse : s + g.flatten.length = e) (hn : e ≤ insns.flatten.length)
    (hrw : RewriteOf g (emitted insns.flatten fixups s e))
    (hno : ∀ k x b, StartsAt insns k x → s ≤ k → k < e → relBranch x 0 = some b →
      b.instLen ≠ x.length) : GroupDone insns fixups s g := by
  have hle : s ≤ e := by omega
  obtain ⟨h1, h2⟩ := emitted_at hs he hle hn
  refine ⟨hse ▸ he, _, hrw, hse ▸ h1, ?_⟩
  rw [untouched_slice, h2]
  apply untouched_between ht ha hst (Or.inl hs) (Or.inl he)
  · rw [movedTo_looks hs]
  · rw [movedTo_looks he, h1]
  · intro k x b hk _ hsk hke hb hl
    exact absurd hl (hno k x b hk hsk hke hb)

/-- an instruction in which no pattern begins -/
theorem copy_group {s : Nat} {i : List UInt8} (hst : StartsAt insns s i)
    (hs : Looks insns.flatten fixups s) (hw : Whole insns.flatten fixups s i.length) :
    GroupDone insns fixups s [i] := by
  have hle := hst.le
  obtain ⟨he, hem⟩ := emitted_whole i.length hs hw
  have hflat : [i].flatten.length = i.length := by simp
  by_cases hb : ∃ b, relBranch i 0 = some b ∧ b.instLen = i.length
  · obtain ⟨b, hb, hl⟩ := hb
    obtain ⟨h1, h2⟩ := emitted_at hs he (by omega) hle
    obtain ⟨_, hlen, _⟩ := relBranch_some i hb
    rw [hem, slice_length] at h1
    refine ⟨hflat ▸ he, slice (pass2 insns.flatten fixups).1 (moved insns.flatten fixups s) i.length,
      ?_, by rw [hflat, h1, slice_length], by rw [slice_length]⟩
    have hbr := RewriteOf.branch [] i
      (slice (pass2 insns.flatten fixups).1 (moved insns.flatten fixups s) i.length) b
      (by simp) hb hl (by simp)
    rw [List.nil_append, List.nil_append] at hbr
    apply hbr
    rw [slice_eq_iff]
    intro j hj
    have hu : Untouched insns.flatten fixups (moved insns.flatten fixups s) b.dispOff := by
      apply untouched_between ht ha hst (Or.inl hs) (Or.inl he)
      · rw [movedTo_looks hs]
      · rw [movedTo_looks he, h1]
        omega
      · intro k x b' hx _ hsk hke hb' _
        obtain ⟨rfl, rfl⟩ := StartsAt.inside ht.ne_nil hst hx hsk hke
        rw [hb, Option.some.injEq] at hb'
        rw [movedTo_looks hs, hb']
    have hby := whole_byteAt (Or.inl hs) hw hle j (by omega)
    rw [movedTo_looks hs] at hby
    rw [Nat.zero_add, byteAt_slice _ _ _ _ (by omega), untouched_byteAt hu hj, hby,
      hst.byteAt j (by omega)]
  · apply group_done ht ha hst hs he (by rw [hflat]) hle
    · rw [hem, hst.slice]
      exact RewriteOf.copy i
    · intro k x b hx hsk hke hb' hl
      obtain ⟨_, rfl⟩ := StartsAt.inside ht.ne_nil hst hx hsk hke
      exact hb ⟨b, hb', hl⟩

omit ht ha in
/-- an instruction at which a pattern begins is no branch -/
theorem not_branch_of_pattern {s : Nat} {i : List UInt8} {b : Branch} (hst : StartsAt insns s i)
    (hp : patternAt insns.flatten fixups s ≠ .plain) (hb : relBranch i 0 = some b) :
    b.instLen ≠ i.length := fun hl => hp (relBranch_plain fixups (branch_start hst hb hl))

/-- an instruction that gets a `48` in front -/
theorem rexW_group {s : Nat} {i : List UInt8} (hst : StartsAt insns s i)
    (hs : Looks insns.flatten fixups s)
    (hp : patternAt insns.flatten fixups s = .rexMov ∨
      patternAt insns.flatten fixups s = .rexLea ∨ patternAt insns.flatten fixups s = .rexAddSub)
    (hwi : (patternAt insns.flatten fixups s).width ≤ i.length)
    (hw : Whole insns.flatten fixups (s + (patternAt insns.flatten fixups s).width)
      (i.length - (patternAt insns.flatten fixups s).width)) :
    GroupDone insns fixups s [i] := by
  have hle := hst.le
  have hnp : patternAt insns.flatten fixups s ≠ .plain := by
    rcases hp with h | h | h <;> rw [h] <;> decide
  have hem : emitAt insns.flatten fixups s
      = 0x48 :: slice insns.flatten s (patternAt insns.flatten fixups s).width := by
    rw [emitAt]
    rcases hp with h | h | h <;> rw [h] <;> rfl
  have hnext := looks_next insns.flatten fixups hs
  generalize hwd : (patternAt insns.flatten fixups s).width = w at *
  have e : rewriteNext insns.flatten fixups s = s + w := by rw [rewriteNext, hwd]
  rw [e] at hnext
  obtain ⟨he, hrest⟩ := emitted_whole (i.length - w) hnext hw
  have e2 : s + w + (i.length - w) = s + i.length := by omega
  rw [e2] at he hrest
  apply group_done ht ha hst hs he (by simp) hle
  · rw [emitted_next (by rw [e]; omega), e, hem, hrest, List.cons_append, ← slice_add]
    have e3 : w + (i.length - w) = i.length := by omega
    rw [e3, hst.slice]
    exact RewriteOf.rexW i
  · intro k x b hx hsk hke hb
    obtain ⟨rfl, rfl⟩ := StartsAt.inside ht.ne_nil hst hx hsk hke
    exact not_branch_of_pattern hst hnp hb

/-- an `A1`/`A3` instruction, with its prefixes -/
theorem moffs_group {s : Nat} {i : List UInt8} (hst : StartsAt insns s i) (hi : IsInsn i)
    (hs : Looks insns.flatten fixups s)
    (hp : patternAt insns.flatten fixups (s + prefixCount i) = .moffs)
    (h67 : 0x67 ∉ i.take (prefixCount i)) : GroupDone insns fixups s [i] := by
  have hle := hst.le
  have hlt := hi.prefixCount_lt
  have hw : Whole insns.flatten fixups s (prefixCount i) := by
    intro j hj _
    refine plain_of_head (hst.byteAt j (by omega)) fun hm => ?_
    have := isPrefix_of_lt i j hj
    generalize byteAt i j = x at hm this
    fin_cases hm <;> exact absurd this (by decide)
  obtain ⟨hk, hpre⟩ := emitted_whole (prefixCount i) hs hw
  have hop : byteAt i (prefixCount i) = 0xA1 ∨ byteAt i (prefixCount i) = 0xA3 := by
    rw [← hst.byteAt _ hlt]
    rcases patternAt_cases insns.flatten fixups (s + prefixCount i) with
      ⟨h, _⟩ | ⟨h, _⟩ | ⟨h, _⟩ | ⟨h, _⟩ | ⟨h, _⟩ | ⟨_, h⟩ | h
    · exact absurd (hp.symm.trans h) (by decide)
    · exact absurd (hp.symm.trans h) (by decide)
    · exact absurd (hp.symm.trans h) (by decide)
    · exact absurd (hp.symm.trans h) (by decide)
    · exact absurd (hp.symm.trans h) (by decide)
    · simp only [isMoffs, Bool.and_eq_true, Bool.or_eq_true, decide_eq_true_eq] at h
      exact h.1.1
    · exact absurd (hp.symm.trans h) (by decide)
  obtain ⟨d, hd, hsplit⟩ := hi.moffs_split hop h67
  have hlen : i.length = prefixCount i + (1 + 4) := by
    have := congrArg List.length hsplit
    rw [List.length_append, List.length_cons, hd, List.length_take] at this
    omega
  have e : rewriteNext insns.flatten fixups (s + prefixCount i) = s + i.length := by
    rw [rewriteNext, hp, hlen, ← Nat.add_assoc]
    rfl
  have he := looks_next insns.flatten fixups hk
  rw [e] at he
  -- the bytes of the instruction, cut at the opcode
  have hsl := hst.slice.trans hsplit
  rw [hlen, slice_add, slice_add] at hsl
  obtain ⟨h1, h2⟩ := List.append_inj hsl (by rw [slice_length, List.length_take]; omega)
  have h3 : byteAt insns.flatten (s + prefixCount i) = byteAt i (prefixCount i) :=
    hst.byteAt _ hlt
  have h4 : slice insns.flatten (s + prefixCount i + 1) 4 = d := (List.cons.inj h2).2
  apply group_done ht ha hst hs he (by simp) hle
  · rw [emitted_append hs hk (by omega) (by omega), hpre, emitted_next (by rw [e]), e,
      emitted_self, emitAt, hp, h1]
    dsimp only
    rw [h3, h4, List.append_nil]
    have hrw := RewriteOf.moffs (i.take (prefixCount i)) d (byteAt i (prefixCount i))
      (isPrefix_of_mem_take i) hop hd
    rw [← hsplit] at hrw
    exact hrw
  · intro k x b hx hsk hke hb
    obtain ⟨rfl, rfl⟩ := StartsAt.inside ht.ne_nil hst hx hsk hke
    intro hl
    -- a branch has no prefixes and is no `A1`/`A3`
    have h0 := prefixCount_zero (relBranch_unprefixed hb)
    rw [h0, Nat.add_zero] at hp
    exact not_branch_of_pattern hst (by rw [hp]; decide) hb hl

omit ht ha in
/-- `push imm32` -/
theorem insn_68 {s : Nat} {i : List UInt8} (hst : StartsAt insns s i) (hi : IsInsn i)
    (h : byteAt insns.flatten s = 0x68) : i = 0x68 :: slice insns.flatten (s + 1) 4 := by
  have h0 : byteAt i 0 = 0x68 := by
    rw [← hst.byteAt 0 hi.length_pos, Nat.add_zero, h]
  have hl := hi.length_imm .iz (by rw [h0]; decide) (by rw [h0]; decide) (by rw [h0]; rfl)
  have e := hst.slice
  rw [hl] at e
  have e2 : (1 + Imm.size false false (byteAt i 1) .iz) = 1 + 4 := rfl
  rw [e2, slice_add, ← h] at *
  exact e.symm

omit ht ha in
/-- `push imm8` -/
theorem insn_6A {s : Nat} {i : List UInt8} (hst : StartsAt insns s i) (hi : IsInsn i)
    (h : byteAt insns.flatten s = 0x6A) : i = [0x6A, byteAt insns.flatten (s + 1)] := by
  have h0 : byteAt i 0 = 0x6A := by
    rw [← hst.byteAt 0 hi.length_pos, Nat.add_zero, h]
  have hl := hi.length_imm .ib (by rw [h0]; decide) (by rw [h0]; decide) (by rw [h0]; rfl)
  have e := hst.slice
  rw [hl] at e
  have e2 : (1 + Imm.size false false (byteAt i 1) .ib) = 1 + 1 := rfl
  rw [e2, slice_add, ← h] at *
  exact e.symm

omit ha in
/-- pushes are no branches -/
theorem pushes_no_branch {s k : Nat} {i j x : List UInt8} {b : Branch} (hst : StartsAt insns s i)
    (hsj : StartsAt insns (s + i.length) j) (hi : byteAt i 0 = 0x68)
    (hj : byteAt j 0 = 0x68 ∨ byteAt j 0 = 0x6A) (hx : StartsAt insns k x) (hsk : s ≤ k)
    (hke : k < s + (i.length + j.length)) : relBranch x 0 ≠ some b := by
  intro hb
  have key : byteAt x 0 = 0x68 ∨ byteAt x 0 = 0x6A := by
    by_cases h : k < s + i.length
    · obtain ⟨_, rfl⟩ := StartsAt.inside ht.ne_nil hst hx hsk h
      exact Or.inl hi
    · obtain ⟨_, rfl⟩ := StartsAt.inside ht.ne_nil hsj hx (by omega) (by omega)
      exact hj
  unfold relBranch at hb
  dsimp only at hb
  rcases key with h | h <;> rw [h] at hb <;> simp at hb

/-- a pair of pushes -/
theorem push_group {s : Nat} {i j : List UInt8} {out : List UInt8} (hst : StartsAt insns s i)
    (hsj : StartsAt insns (s + i.length) j) (hs : Looks insns.flatten fixups s)
    (hi : byteAt i 0 = 0x68) (hj : byteAt j 0 = 0x68 ∨ byteAt j 0 = 0x6A)
    (hnext : rewriteNext insns.flatten fixups s = s + (i.length + j.length))
    (hout : emitAt insns.flatten fixups s = out) (hrw : RewriteOf [i, j] out) :
    GroupDone insns fixups s [i, j] := by
  have hle := hsj.le
  have he := looks_next insns.flatten fixups hs
  rw [hnext] at he
  apply group_done ht ha hst hs he (by simp) (by omega)
  · rw [emitted_next (by rw [hnext]), hnext, emitted_self, hout, List.append_nil]
    exact hrw
  · intro k x b hx hsk hke hb hl
    exact pushes_no_branch ht hst hsj hi hj hx hsk hke hb

omit ha in
/-- behind the first byte of an instruction only an `A1`/`A3` with prefixes begins a pattern -/
theorem plain_inside {s k : Nat} {i : List UInt8} (ho : OnlyAtStarts insns fixups)
    (hst : StartsAt insns s i)
    (hm : ¬ (patternAt insns.flatten fixups (s + prefixCount i) = .moffs ∧
      0x67 ∉ i.take (prefixCount i)))
    (h1 : s < k) (h2 : k < s + i.length) (hk : Looks insns.flatten fixups k) :
    patternAt insns.flatten fixups k = .plain := by
  have hle := hst.le
  by_contra hp
  rcases ho k (by omega) hk hp with ⟨⟨k', x⟩, hx, rfl, _⟩ | ⟨⟨k', x⟩, hx, rfl, h67, hp'⟩
  · rw [mem_starts] at hx
    have := (StartsAt.inside ht.ne_nil hst hx h1.le h2).1
    dsimp only at h1
    omega
  · rw [mem_starts] at hx
    dsimp only at *
    have hpc := (ht x (by obtain ⟨pre, post, rfl, _⟩ := hx; simp)).prefixCount_lt
    by_cases h3 : k' < s
    · have := (StartsAt.inside ht.ne_nil hx hst h3.le (by omega)).1
      omega
    · obtain ⟨rfl, rfl⟩ := StartsAt.inside ht.ne_nil hst hx (by omega) (by omega)
      exact hm ⟨hp', h67⟩

/-- the loop deals with one group after the other -/
theorem group_exists {pre post : List (List UInt8)} {i : List UInt8}
    (h : insns = pre ++ i :: post) (ho : OnlyAtStarts insns fixups)
    (hs : Looks insns.flatten fixups pre.flatten.length) :
    ∃ g rest, i :: post = g ++ rest ∧ g ≠ [] ∧ GroupDone insns fixups pre.flatten.length g := by
  have hst : StartsAt insns pre.flatten.length i := ⟨pre, post, h, rfl⟩
  have hi : IsInsn i := ht i (by rw [h]; simp)
  have hi0 := hst.byteAt 0 hi.length_pos
  have hle := hst.le
  rw [Nat.add_zero] at hi0
  have hnext : (i.length + pre.flatten.length < insns.flatten.length) → ∃ j rest, post = j :: rest ∧
      StartsAt insns (pre.flatten.length + i.length) j ∧ IsInsn j := by
    intro hlt
    rcases startsAt_next pre post i with ⟨_, h2⟩ | ⟨j, rest, h1, h2⟩
    · rw [← h] at h2
      omega
    · rw [← h] at h2
      exact ⟨j, rest, h1, h2, ht j (by rw [h, h1]; simp)⟩
  generalize pre.flatten.length = s at *
  by_cases hm : patternAt insns.flatten fixups (s + prefixCount i) = .moffs ∧
      0x67 ∉ i.take (prefixCount i)
  · exact ⟨[i], post, rfl, by simp, moffs_group ht ha hst hi hs hm.1 hm.2⟩
  have hin : ∀ w, 0 < w → Whole insns.flatten fixups (s + w) (i.length - w) := by
    intro w hw j hj hl
    exact plain_inside ht ho hst hm (by omega) (by omega) hl
  rcases patternAt_cases insns.flatten fixups s with ⟨hp, _, h1⟩ | ⟨hp, _, h1⟩ | ⟨hp, _, h1⟩ |
    ⟨hp, h1⟩ | ⟨hp, h1⟩ | ⟨hp, h1⟩ | hp
  · refine ⟨[i], post, rfl, by simp, rexW_group ht ha hst hs (Or.inl hp) ?_
      (hin _ (Pattern.width_pos _))⟩
    simp only [isRexMov, Bool.or_eq_true, Bool.and_eq_true, decide_eq_true_eq] at h1
    have hb : byteAt i 0 = 0x89 ∨ byteAt i 0 = 0x8B := by
      rw [← hi0]
      tauto
    rw [hp]
    rcases hb with hb | hb <;>
      exact hi.two_le .none (by rw [hb]; decide) (by rw [hb]; decide) (by rw [hb]; rfl)
  · refine ⟨[i], post, rfl, by simp, rexW_group ht ha hst hs (Or.inr (Or.inl hp)) ?_
      (hin _ (Pattern.width_pos _))⟩
    rw [hp]
    exact hi.length_pos
  · refine ⟨[i], post, rfl, by simp, rexW_group ht ha hst hs (Or.inr (Or.inr hp)) ?_
      (hin _ (Pattern.width_pos _))⟩
    simp only [isRexAddSub, Bool.or_eq_true, Bool.and_eq_true, decide_eq_true_eq] at h1
    rw [hp]
    rcases h1.1 with hb | hb
    · rw [hi0] at hb
      exact hi.two_le .iz (by rw [hb]; decide) (by rw [hb]; decide) (by rw [hb]; rfl)
    · rw [hi0] at hb
      exact hi.two_le .ib (by rw [hb]; decide) (by rw [hb]; decide) (by rw [hb]; rfl)
  · simp only [isPushImm32, Bool.and_eq_true, decide_eq_true_eq] at h1
    obtain ⟨⟨⟨⟨⟨⟨h68, _⟩, h68'⟩, _⟩, _⟩, hlen⟩, _⟩ := h1
    have ei := insn_68 hst hi h68
    have hil : i.length = 5 := by rw [ei]; simp
    obtain ⟨j, rest, rfl, hsj, hj⟩ := hnext (by omega)
    rw [hil] at hsj
    have ej := insn_68 hsj hj h68'
    have hjl : j.length = 5 := by rw [ej]; simp
    refine ⟨[i, j], rest, rfl, by simp, push_group ht ha hst (by rw [hil]; exact hsj) hs
      (by rw [← hi0, h68]) (Or.inl (by rw [ej]; rfl)) (by rw [rewriteNext, hp, hil, hjl]; rfl) rfl ?_⟩
    rw [emitAt, hp, ei, ej]
    exact RewriteOf.pushImm32 _ _ (by simp) (by simp)
  · simp only [isPushImm8, Bool.and_eq_true, decide_eq_true_eq] at h1
    obtain ⟨⟨⟨⟨⟨h68, _⟩, h6A⟩, _⟩, hlen⟩, _⟩ := h1
    have ei := insn_68 hst hi h68
    have hil : i.length = 5 := by rw [ei]; simp
    obtain ⟨j, rest, rfl, hsj, hj⟩ := hnext (by omega)
    rw [hil] at hsj
    have ej := insn_6A hsj hj h6A
    have hjl : j.length = 2 := by rw [ej]; simp
    -- the operand is not negative, so zero and sign extension agree
    have hlow : byteAt insns.flatten (s + 6) < 0x80 := by
      rcases ho s (by omega) hs (by rw [hp]; decide) with ⟨_, _, _, h2⟩ | ⟨_, _, _, _, h2⟩
      · exact h2 hp
      · exact absurd (hp.symm.trans h2) (by decide)
    refine ⟨[i, j], rest, rfl, by simp, push_group ht ha hst (by rw [hil]; exact hsj) hs
      (by rw [← hi0, h68]) (Or.inr (by rw [ej]; rfl)) (by rw [rewriteNext, hp, hil, hjl]; rfl) rfl ?_⟩
    have hrw := RewriteOf.pushImm8 (slice insns.flatten (s + 1) 4) (byteAt insns.flatten (s + 6))
      (by simp)
    rw [signExtend, if_pos hlow] at hrw
    rw [emitAt, hp, ei, ej]
    exact hrw
  · exfalso
    simp only [isMoffs, Bool.and_eq_true, Bool.or_eq_true, decide_eq_true_eq] at h1
    have h0 : prefixCount i = 0 := by
      apply prefixCount_zero
      rw [← hi0]
      rcases h1.1.1 with hb | hb <;> rw [hb] <;> decide
    refine hm ⟨by rw [h0, Nat.add_zero, hp], ?_⟩
    rw [h0, List.take_zero]
    exact List.not_mem_nil
  · refine ⟨[i], post, rfl, by simp, copy_group ht ha hst hs fun j hj hl => ?_⟩
    rcases Nat.eq_zero_or_pos j with rfl | hj0
    · exact hp
    · exact plain_inside ht ho hst hm (by omega) (by omega) hl

/-- where patterns begin at instructions only, the text comes out rewritten -/
theorem rewritten_from (ho : OnlyAtStarts insns fixups) (n : Nat) (pre post : List (List UInt8))
    (hn : post.length ≤ n) (h : insns = pre ++ post)
    (hs : Looks insns.flatten fixups pre.flatten.length) :
    Rewritten (pass2 insns.flatten fixups).2 pre.flatten.length
      (moved insns.flatten fixups pre.flatten.length) post
      ((pass2 insns.flatten fixups).1.drop (moved insns.flatten fixups pre.flatten.length)) := by
  have hle : pre.flatten.length ≤ insns.flatten.length := by
    rw [h, List.flatten_append, List.length_append]
    omega
  have hmap : (pass2 insns.flatten fixups).2 pre.flatten.length
      = (moved insns.flatten fixups pre.flatten.length : Int) := offsetMap_looks hs hle
  induction n generalizing pre post with
  | zero =>
    have e : post = [] := List.length_eq_zero_iff.mp (by omega)
    subst e
    rw [List.append_nil] at h
    rw [List.drop_eq_nil_of_le (by rw [pass2_length, h])]
    exact Rewritten.nil _ _ hmap
  | succ n ih =>
    cases post with
    | nil =>
      rw [List.append_nil] at h
      rw [List.drop_eq_nil_of_le (by rw [pass2_length, h])]
      exact Rewritten.nil _ _ hmap
    | cons i post =>
      obtain ⟨g, rest, hg, hne, he, out, hrw, hlen, hout⟩ := group_exists ht ha h ho hs
      have hgl := List.length_pos_iff.mpr hne
      have hl := congrArg List.length hg
      rw [List.length_cons, List.length_append] at hl
      rw [List.length_cons] at hn
      have e : (pre ++ g).flatten.length = pre.flatten.length + g.flatten.length := by simp
      have h' : insns = (pre ++ g) ++ rest := by rw [h, hg, List.append_assoc]
      have hle' : (pre ++ g).flatten.length ≤ insns.flatten.length := by
        have h2 := congrArg (fun l => l.flatten.length) h'
        simp only [List.flatten_append, List.length_append] at h2 ⊢
        omega
      have hr := ih (pre ++ g) rest (by omega) h' (by rw [e]; exact he) hle'
        (offsetMap_looks (by rw [e]; exact he) hle')
      rw [e, hlen] at hr
      have hroom : moved insns.flatten fixups pre.flatten.length + out.length
          ≤ (pass2 insns.flatten fixups).1.length := by
        have := moved_sub insns.flatten fixups he (looks_length insns.flatten fixups)
          (by rw [← e]; exact hle')
        rw [pass2_length]
        omega
      rw [slice_eq_take _ _ _ hroom] at hout
      rw [hg, ← List.take_append_drop out.length
        ((pass2 insns.flatten fixups).1.drop (moved insns.flatten fixups pre.flatten.length)), hout,
        List.drop_drop]
      exact Rewritten.cons _ _ _ _ _ _ hmap hrw hr

theorem rewritten_of_starts (ho : OnlyAtStarts insns fixups) :
    Rewritten (pass2 insns.flatten fixups).2 0 0 insns (pass2 insns.flatten fixups).1 := by
  have h := rewritten_from ht ha ho insns.length [] insns (Nat.le_refl _) rfl
    (looks_zero insns.flatten fixups)
  have e : moved insns.flatten fixups 0 = 0 := pos_zero
  rw [List.flatten_nil, List.length_nil, e] at h
  exact h

end
end X64Obj
