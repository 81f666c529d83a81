import OpenWatcom.X64Obj.Rewritten

/-!
# A rewritten text has its patterns at instructions only

The converse of `rewritten_of_starts`: the lengths of the rewrites and their first bytes leave no
room for a pattern that begins inside an instruction.

* `Rewritten.group_at`   the group around a position;
* `fires_gain`   a pattern makes the group it begins in longer;
* `starts_of_rewritten`   the converse;
* `rewritten_iff`   both directions;
* `load_split`   a text that comes out otherwise.
-/

namespace X64Obj
open Bytes Stride Pieces Ia32

theorem Rewritten.head {offsetMap : Nat → Int} {s p : Nat} {insns : List (List UInt8)}
    {out : List UInt8} (h : Rewritten offsetMap s p insns out) : offsetMap s = p := by
  cases h with
  | nil _ _ h => exact h
  | cons _ _ _ _ _ _ h => exact h

/-- the group around a position -/
theorem Rewritten.group_at {offsetMap : Nat → Int} {s p : Nat} {insns : List (List UInt8)}
    {out : List UInt8} (h : Rewritten offsetMap s p insns out) (k : Nat) (h1 : s ≤ k)
    (h2 : k < s + insns.flatten.length) :
    ∃ pre g post a o b, insns = pre ++ g ++ post ∧ out = a ++ (o ++ b) ∧ RewriteOf g o ∧
      s + pre.flatten.length ≤ k ∧ k < s + pre.flatten.length + g.flatten.length ∧
      offsetMap (s + pre.flatten.length) = (p + a.length : Nat) ∧
      offsetMap (s + pre.flatten.length + g.flatten.length) = (p + a.length + o.length : Nat) := by
  induction h with
  | nil s p h =>
    rw [List.flatten_nil, List.length_nil] at h2
    omega
  | cons s p g o insns rest hm hg hr ih =>
    rw [List.flatten_append, List.length_append] at h2
    by_cases hk : k < s + g.flatten.length
    · exact ⟨[], g, insns, [], o, rest, rfl, rfl, hg, h1, hk, hm, hr.head⟩
    · obtain ⟨pre, g', post, a, o', b, e1, e2, hg', h3, h4, h5, h6⟩ := ih (by omega) (by omega)
      have e3 : s + (g ++ pre).flatten.length = s + g.flatten.length + pre.flatten.length := by
        rw [List.flatten_append, List.length_append, Nat.add_assoc]
      have e4 : p + (o ++ a).length = p + o.length + a.length := by
        rw [List.length_append, Nat.add_assoc]
      refine ⟨g ++ pre, g', post, o ++ a, o', b, ?_, ?_, hg', ?_, ?_, ?_, ?_⟩
      · rw [e1, List.append_assoc, List.append_assoc, List.append_assoc]
      · rw [e2, List.append_assoc]
      · rw [e3]; exact h3
      · rw [e3]; exact h4
      · rw [e3, e4]; exact h5
      · rw [e3, e4]; exact h6

/-! ## a pattern makes its group longer -/

/-- bytes a pattern adds -/
def Pattern.gain (p : Pattern) : Nat := p.outLen - p.width

section
variable {code : List UInt8} {fixups : List FixupRec}

theorem fires_gain {s k e : Nat} (hs : Kept code fixups s) (he : Kept code fixups e)
    (hk : Looks code fixups k) (h1 : s ≤ k) (h2 : k < e) :
    movedTo code fixups s + (e - s) + (patternAt code fixups k).gain ≤ movedTo code fixups e := by
  have hf := rewriteNext_forward code fixups
  have h3 := kept_sub hs (Or.inl hk) h1
  rw [movedTo_looks hk] at h3
  by_cases h4 : rewriteNext code fixups k ≤ e
  · have h5 := kept_sub (Or.inl (looks_next code fixups hk)) he h4
    have h6 : (patternAt code fixups k).outLen
        = (patternAt code fixups k).width + (patternAt code fixups k).gain := by
      cases patternAt code fixups k <;> rfl
    rw [movedTo_looks (looks_next code fixups hk), moved_next code fixups hk, h6] at h5
    rw [rewriteNext] at h4 h5
    omega
  · -- only the operand of an `A1`/`A3` at `k` has an entry of its own
    rcases he with he | he
    · exact absurd he (hk.not_between hf h2 (by omega))
    · have h5 : e - 1 = k := by
        by_contra hne
        exact hk.not_between hf (k := e - 1) (by omega) (by omega) he.2.1
      have h6 := movedTo_operand he
      have hp := he.2.2.2
      rw [h5] at h6 hp
      rw [hp]
      have h7 : Pattern.moffs.gain = 1 := rfl
      omega

theorem gain_pos {p : Pattern} (h : p ≠ .plain) : 0 < p.gain := by
  cases p <;> first | decide | exact absurd rfl h

/-- before the only pattern of a group nothing is inserted -/
theorem whole_before {s k e : Nat} (hs : Kept code fixups s) (he : Kept code fixups e)
    (hk : Looks code fixups k) (hp : patternAt code fixups k ≠ .plain) (h1 : s ≤ k) (h2 : k < e)
    (hlen : movedTo code fixups e = movedTo code fixups s + (e - s) + 1) :
    Whole code fixups s (k - s) := by
  intro i hi hl
  by_contra hpi
  have g1 := fires_gain hs (Or.inl hk) hl (by omega) (by omega)
  have g2 := fires_gain (Or.inl hk) he hk (Nat.le_refl k) h2
  have g3 := gain_pos hp
  have g4 := gain_pos hpi
  omega

end

/-! ## the converse -/

section
variable {insns : List (List UInt8)} {fixups : List FixupRec} (ht : IsText insns)
  (ha : AdjustsBranches insns fixups)
include ht ha

/-- the first byte of an instruction in which no pattern begins at once -/
theorem first_byte {s e : Nat} {i : List UInt8} (hst : StartsAt insns s i)
    (hs : Kept insns.flatten fixups s) (he : Kept insns.flatten fixups e) (hse : s < e)
    (hw : Whole insns.flatten fixups s 1) :
    byteAt (pass2 insns.flatten fixups).1 (movedTo insns.flatten fixups s) = byteAt i 0 := by
  have hle := hst.le
  have hpos := (ht i (by obtain ⟨pre, post, rfl, _⟩ := hst; simp)).length_pos
  have hu : Untouched insns.flatten fixups (movedTo insns.flatten fixups s) 1 := by
    apply untouched_between ht ha hst hs he (Nat.le_refl _)
    · have := kept_sub hs he hse.le
      omega
    · intro k x b _ hk hsk _ hb _
      have h0 := (relBranch_some x hb).1
      have := kept_sub hs hk hsk
      omega
  have h1 := untouched_byteAt hu (i := 0) Nat.one_pos
  have h2 := whole_byteAt hs hw (by omega) 0 Nat.one_pos
  have h3 := hst.byteAt 0 hpos
  rw [Nat.add_zero] at h1 h3
  rw [Nat.add_zero, Nat.add_zero] at h2
  rw [h1, h2, h3]

/-- an instruction that got a `48` in front -/
theorem allowed_rexW {s k : Nat} {i : List UInt8} (hst : StartsAt insns s i) (hi : IsInsn i)
    (hs : Kept insns.flatten fixups s) (he : Kept insns.flatten fixups (s + i.length))
    (hlen : movedTo insns.flatten fixups (s + i.length)
      = movedTo insns.flatten fixups s + (0x48 :: i).length)
    (hout : slice (pass2 insns.flatten fixups).1 (movedTo insns.flatten fixups s) (0x48 :: i).length
      = 0x48 :: i)
    (hk : Looks insns.flatten fixups k) (hp : patternAt insns.flatten fixups k ≠ .plain)
    (h1 : s ≤ k) (h2 : k < s + i.length) : BeginsAtStart insns fixups k := by
  rw [List.length_cons] at hlen hout
  have hgain := fires_gain hs he hk h1 h2
  by_cases hks : k = s
  · subst hks
    refine Or.inl ⟨(k, i), (mem_starts _ _ _).mpr hst, rfl, fun h8 => ?_⟩
    rw [h8] at hgain
    have h12 : Pattern.pushImm8.gain = 12 := rfl
    omega
  · -- the instruction would begin with the `48` itself, and so have no inside
    exfalso
    have hw := (whole_before hs he hk hp h1 h2 (by omega)).mono (m := 1) (by omega)
    have hb := first_byte ht ha hst hs he (by omega) hw
    have h48 : byteAt i 0 = 0x48 := by
      have e := byteAt_slice (pass2 insns.flatten fixups).1 (movedTo insns.flatten fixups s)
        (i.length + 1) 0 (Nat.succ_pos _)
      rw [hout, byteAt_cons_zero, Nat.add_zero] at e
      rw [← hb, ← e]
    have hl := hi.length_imm .none (by rw [h48]; decide) (by rw [h48]; decide)
      (by rw [h48]; rfl)
    have e0 : Imm.size false false (byteAt i 1) .none = 0 := rfl
    omega

/-- an `A1`/`A3` instruction that got a ModRM byte -/
theorem allowed_moffs {s k : Nat} {pf d : List UInt8} {op : UInt8}
    (hst : StartsAt insns s (pf ++ op :: d)) (hi : IsInsn (pf ++ op :: d))
    (hpf : ∀ x ∈ pf, Ia32.isPrefix x = true) (hop : op = 0xA1 ∨ op = 0xA3) (hd : d.length = 4)
    (hs : Kept insns.flatten fixups s)
    (he : Kept insns.flatten fixups (s + (pf ++ op :: d).length))
    (hlen : movedTo insns.flatten fixups (s + (pf ++ op :: d).length)
      = movedTo insns.flatten fixups s + (pf.length + 6))
    (hout : byteAt (pass2 insns.flatten fixups).1 (movedTo insns.flatten fixups s + pf.length)
      = if op = 0xA1 then 0x8B else 0x89)
    (hk : Looks insns.flatten fixups k) (hp : patternAt insns.flatten fixups k ≠ .plain)
    (h1 : s ≤ k) (h2 : k < s + (pf ++ op :: d).length) : BeginsAtStart insns fixups k := by
  have hil : (pf ++ op :: d).length = pf.length + 5 := by
    rw [List.length_append, List.length_cons, hd]
  have hle := hst.le
  have hopp : Ia32.isPrefix op = false := by rcases hop with rfl | rfl <;> decide
  have hpc : prefixCount (pf ++ op :: d) = pf.length := prefixCount_append d hpf hopp
  have hw := whole_before hs he hk hp h1 h2 (by omega)
  have hbyte : byteAt (pf ++ op :: d) pf.length = op := by
    have := byteAt_append_right pf (op :: d) 0
    rw [Nat.add_zero] at this
    rw [this, byteAt_cons_zero]
  have hopk : byteAt insns.flatten (s + pf.length) = op := by
    rw [hst.byteAt _ (by omega), hbyte]
  have hhead := pattern_head hp
  rcases Nat.lt_trichotomy (k - s) pf.length with h3 | h3 | h3
  · -- a prefix begins no pattern
    exfalso
    have hpx := isPrefix_of_lt (pf ++ op :: d) (k - s) (by omega)
    have e := hst.byteAt (k - s) (by omega)
    rw [Nat.add_sub_cancel' h1] at e
    rw [e] at hhead
    generalize byteAt (pf ++ op :: d) (k - s) = x at hhead hpx
    fin_cases hhead <;> exact absurd hpx (by decide)
  · have hks : k = s + pf.length := by omega
    subst hks
    right
    refine ⟨(s, pf ++ op :: d), (mem_starts _ _ _).mpr hst, by rw [hpc], ?_, ?_⟩
    · rw [hpc, List.take_left]
      have h := (isInsn_moffs hpf hop).mp hi
      rw [hd] at h
      intro h67
      rw [if_pos h67] at h
      omega
    · rcases patternAt_cases insns.flatten fixups (s + pf.length) with ⟨_, _, h⟩ | ⟨_, _, h⟩ |
        ⟨_, _, h⟩ | ⟨_, h⟩ | ⟨_, h⟩ | ⟨h, _⟩ | h
      · rw [hopk] at h
        rcases hop with rfl | rfl <;> simp [isRexMov] at h
      · rw [hopk] at h
        rcases hop with rfl | rfl <;> simp [isRexLea] at h
      · rw [hopk] at h
        rcases hop with rfl | rfl <;> simp [isRexAddSub] at h
      · rw [isPushImm32, hopk] at h
        rcases hop with rfl | rfl <;> simp at h
      · rw [isPushImm8, hopk] at h
        rcases hop with rfl | rfl <;> simp at h
      · exact h
      · exact absurd h hp
  · -- the opcode would have been copied
    exfalso
    have hu : Untouched insns.flatten fixups (movedTo insns.flatten fixups s) (pf.length + 1) := by
      apply untouched_between ht ha hst hs he (Nat.le_refl _) (by omega)
      intro k' x b hx _ hsk hke hb hl
      obtain ⟨rfl, rfl⟩ := StartsAt.inside ht.ne_nil hst hx hsk hke
      have h0 := prefixCount_zero (relBranch_unprefixed hb)
      rw [hpc] at h0
      have e := hbyte
      rw [h0] at e
      unfold relBranch at hb
      dsimp only at hb
      rw [e] at hb
      rcases hop with rfl | rfl <;> simp at hb
    have e := untouched_byteAt hu (i := pf.length) (by omega)
    rw [hout, whole_byteAt hs hw (by omega) _ h3, hopk] at e
    rcases hop with rfl | rfl <;> exact absurd e (by decide)

/-- a pair of pushes that became a stack adjustment -/
theorem allowed_push {s k : Nat} {i j o : List UInt8} (hst : StartsAt insns s i)
    (hsj : StartsAt insns (s + i.length) j) (hs : Kept insns.flatten fixups s)
    (he : Kept insns.flatten fixups (s + (i.length + j.length)))
    (hi0 : byteAt i 0 = 0x68) (hil : i.length = 5)
    (hj : byteAt j 0 = 0x68 ∧ j.length = 5 ∨ byteAt j 0 = 0x6A ∧ j.length = 2)
    (hlen : movedTo insns.flatten fixups (s + (i.length + j.length))
      = movedTo insns.flatten fixups s + 19)
    (hout : slice (pass2 insns.flatten fixups).1 (movedTo insns.flatten fixups s) 19 = o)
    (h48 : byteAt o 0 = 0x48)
    (hlow : byteAt j 0 = 0x6A → byteAt o 8 = 0 → byteAt j 1 < 0x80)
    (hk : Looks insns.flatten fixups k) (h1 : s ≤ k) (h2 : k < s + (i.length + j.length)) :
    BeginsAtStart insns fixups k := by
  have hf := rewriteNext_forward insns.flatten fixups
  have hlei := hst.le
  have hlej := hsj.le
  have hbs : byteAt insns.flatten s = 0x68 := by
    have e := hst.byteAt 0 (by omega)
    rw [Nat.add_zero] at e
    rw [e, hi0]
  have hbj : byteAt insns.flatten (s + 5) = byteAt j 0 := by
    have e := hsj.byteAt 0 (by omega)
    rw [Nat.add_zero, hil] at e
    exact e
  -- the pattern at `s`, which must begin one as `68` is not `48`
  have hsp : Looks insns.flatten fixups s ∧ patternAt insns.flatten fixups s ≠ .plain := by
    by_contra hc
    have hw : Whole insns.flatten fixups s 1 := by
      intro m hm hl
      have e : m = 0 := by omega
      subst e
      by_contra hp'
      exact hc ⟨hl, hp'⟩
    have hb := first_byte ht ha hst hs he (by omega) hw
    have e := byteAt_slice (pass2 insns.flatten fixups).1 (movedTo insns.flatten fixups s) 19 0
      (by decide)
    rw [hout, h48, Nat.add_zero, hb, hi0] at e
    exact absurd e (by decide)
  obtain ⟨hsl, hsp⟩ := hsp
  have hkind : patternAt insns.flatten fixups s = .pushImm32 ∧ byteAt j 0 = 0x68 ∨
      patternAt insns.flatten fixups s = .pushImm8 ∧ byteAt j 0 = 0x6A := by
    rcases patternAt_cases insns.flatten fixups s with ⟨_, _, h⟩ | ⟨_, _, h⟩ | ⟨_, _, h⟩ |
      ⟨h, h'⟩ | ⟨h, h'⟩ | ⟨_, h⟩ | h
    · rw [hbs] at h
      simp [isRexMov] at h
    · rw [hbs] at h
      simp [isRexLea] at h
    · rw [hbs] at h
      simp [isRexAddSub] at h
    · simp only [isPushImm32, Bool.and_eq_true, decide_eq_true_eq] at h'
      exact Or.inl ⟨h, by rw [← hbj]; tauto⟩
    · simp only [isPushImm8, Bool.and_eq_true, decide_eq_true_eq] at h'
      exact Or.inr ⟨h, by rw [← hbj]; tauto⟩
    · rw [isMoffs, hbs] at h
      simp at h
    · exact absurd h hsp
  have hnext : rewriteNext insns.flatten fixups s = s + (i.length + j.length) := by
    rw [rewriteNext]
    rcases hkind with ⟨h, h'⟩ | ⟨h, h'⟩
    · rcases hj with hj | hj
      · rw [h, hil, hj.2]
        rfl
      · exact absurd (h'.symm.trans hj.1) (by decide)
    · rcases hj with hj | hj
      · exact absurd (h'.symm.trans hj.1) (by decide)
      · rw [h, hil, hj.2]
        rfl
  have hks : k = s := by
    by_contra hne
    exact hsl.not_between hf (by omega) (by rw [hnext]; exact h2) hk
  subst hks
  refine Or.inl ⟨(k, i), (mem_starts _ _ _).mpr hst, rfl, fun h8 => ?_⟩
  obtain ⟨_, hj6⟩ : _ ∧ byteAt j 0 = 0x6A := by
    rcases hkind with ⟨h, _⟩ | h
    · exact absurd (h.symm.trans h8) (by decide)
    · exact h
  have hjl : j.length = 2 := by
    rcases hj with hj | hj
    · exact absurd (hj6.symm.trans hj.1) (by decide)
    · exact hj.2
  have e6 : byteAt insns.flatten (k + 6) = byteAt j 1 := by
    have e := hsj.byteAt 1 (by omega)
    rw [hil] at e
    exact e
  rw [e6]
  apply hlow hj6
  -- byte 8 of what the pattern emits is the zero behind the operand
  have hu : Untouched insns.flatten fixups (movedTo insns.flatten fixups k) 19 := by
    apply untouched_between ht ha hst hs he (Nat.le_refl _) (by omega)
    intro k' x b hx _ hsk hke hb _
    exact absurd hb (pushes_no_branch ht hst hsj hi0 (Or.inr hj6) hx hsk hke)
  have e := rewriteText_byteAt (i := 8) hsl (by omega) (by rw [h8]; decide)
  have e2 := untouched_byteAt hu (i := 8) (by decide)
  rw [movedTo_looks hsl] at e2 hout
  rw [← hout, byteAt_slice _ _ _ _ (by decide), e2, e, emitAt, h8]
  rfl

/-- a rewritten text has its patterns at instructions only -/
theorem starts_of_rewritten
    (h : Rewritten (pass2 insns.flatten fixups).2 0 0 insns (pass2 insns.flatten fixups).1) :
    OnlyAtStarts insns fixups := by
  intro k hkn hk hp
  obtain ⟨pre, g, post, a, o, b, e1, e2, hg, h1, h2, hms, hme⟩ :=
    h.group_at k (Nat.zero_le _) (by omega)
  rw [Nat.zero_add] at h1 h2 hms hme
  rw [Nat.zero_add] at hms hme
  have hle : pre.flatten.length + g.flatten.length ≤ insns.flatten.length := by
    have e := congrArg (fun l => l.flatten.length) e1
    simp only [List.flatten_append, List.length_append] at e ⊢
    omega
  -- both ends of the group have entries, and its bytes stand between them
  have hs : Kept insns.flatten fixups pre.flatten.length := by
    apply (kept_iff (by omega)).mp
    rw [← pass2_snd, hms]
    omega
  have he : Kept insns.flatten fixups (pre.flatten.length + g.flatten.length) := by
    apply (kept_iff hle).mp
    rw [← pass2_snd, hme]
    omega
  have hps : movedTo insns.flatten fixups pre.flatten.length = a.length := by
    rw [pass2_snd, offsetMap_kept hs (by omega)] at hms
    exact_mod_cast hms
  have hlen : movedTo insns.flatten fixups (pre.flatten.length + g.flatten.length)
      = movedTo insns.flatten fixups pre.flatten.length + o.length := by
    rw [pass2_snd, offsetMap_kept he hle] at hme
    rw [hps]
    exact_mod_cast hme
  have hout : slice (pass2 insns.flatten fixups).1
      (movedTo insns.flatten fixups pre.flatten.length) o.length = o := by
    rw [hps, e2, slice_append]
  have hstart : ∀ i g', g = i :: g' → StartsAt insns pre.flatten.length i := by
    rintro i g' rfl
    exact ⟨pre, g' ++ post, by rw [e1]; simp, rfl⟩
  have hsecond : ∀ i j, g = [i, j] → StartsAt insns (pre.flatten.length + i.length) j := by
    rintro i j rfl
    exact ⟨pre ++ [i], post, by rw [e1]; simp, by simp⟩
  have hgain := fires_gain hs he hk h1 h2
  have hpos := gain_pos hp
  have hin : ∀ i ∈ g, IsInsn i := fun i hi => ht i (by rw [e1]; simp [hi])
  clear e1 e2 hms hme hps h
  generalize pre.flatten.length = s at *
  cases hg with
  | copy i =>
    rw [List.flatten_singleton] at hlen hgain
    omega
  | branch pf i o' b hpf hb hi ho hop =>
    rw [List.flatten_singleton, List.length_append] at hlen hgain
    rw [List.length_append] at hlen
    omega
  | rexW i =>
    rw [List.flatten_singleton] at *
    exact allowed_rexW ht ha (hstart i [] rfl) (hin i (by simp)) hs he hlen hout hk hp h1 h2
  | moffs pf d op hpf hop hd =>
    rw [List.flatten_singleton] at *
    have hol : (pf ++ ([if op = 0xA1 then 0x8B else 0x89, 0x05] ++ d)).length = pf.length + 6 := by
      simp [hd]
    rw [hol] at hlen hout
    apply allowed_moffs ht ha (hstart _ [] rfl) (hin _ (by simp)) hpf hop hd hs he hlen _ hk hp h1 h2
    have e := byteAt_slice (pass2 insns.flatten fixups).1 (movedTo insns.flatten fixups s)
      (pf.length + 6) pf.length (by omega)
    have e' := byteAt_append_right pf ([if op = 0xA1 then (0x8B : UInt8) else 0x89, 0x05] ++ d) 0
    rw [Nat.add_zero] at e'
    rw [← e, hout, e']
    rfl
  | pushImm32 hi lo hhi hlo =>
    have hgl : [0x68 :: hi, 0x68 :: lo].flatten.length
        = (0x68 :: hi : List UInt8).length + (0x68 :: lo : List UInt8).length := by simp; omega
    have hol : (pushPairBytes lo hi).length = 19 := by simp [pushPairBytes, hhi, hlo]
    rw [hgl] at he h2 hlen
    rw [hol] at hlen hout
    exact allowed_push ht ha (hstart _ _ rfl) (hsecond _ _ rfl) hs he rfl (by simp [hhi])
      (Or.inl ⟨rfl, by simp [hlo]⟩) hlen hout rfl
      (fun h => absurd (show (0x68 : UInt8) = 0x6A from h) (by decide)) hk h1 h2
  | pushImm8 hi l hhi =>
    have hgl : [0x68 :: hi, [0x6A, l]].flatten.length
        = (0x68 :: hi : List UInt8).length + ([0x6A, l] : List UInt8).length := by simp
    have hol : (pushPairBytes (signExtend l) hi).length = 19 := by
      simp [pushPairBytes, signExtend, hhi]
    rw [hgl] at he h2 hlen
    rw [hol] at hlen hout
    refine allowed_push ht ha (hstart _ _ rfl) (hsecond _ _ rfl) hs he rfl (by simp [hhi])
      (Or.inr ⟨rfl, rfl⟩) hlen hout rfl (fun _ h8 => ?_) hk h1 h2
    have e : byteAt (pushPairBytes (signExtend l) hi) 8 = if l < 0x80 then 0 else 0xFF := rfl
    rw [e] at h8
    by_contra hl
    have hl' : ¬ l < 0x80 := hl
    rw [if_neg hl'] at h8
    exact absurd h8 (by decide)

omit ht ha in
/-- a text whose adjusted branches are its own comes out rewritten exactly when patterns begin
at instructions only -/
theorem rewritten_iff (insns : List (List UInt8)) (fixups : List FixupRec) (ht : IsText insns) :
    (AdjustsBranches insns fixups ∧ OnlyAtStarts insns fixups →
      Rewritten (pass2 insns.flatten fixups).2 0 0 insns (pass2 insns.flatten fixups).1) ∧
    (AdjustsBranches insns fixups →
      Rewritten (pass2 insns.flatten fixups).2 0 0 insns (pass2 insns.flatten fixups).1 →
      OnlyAtStarts insns fixups) :=
  ⟨fun h => rewritten_of_starts ht h.1 h.2, fun ha h => starts_of_rewritten ht ha h⟩

end

/-- `mov eax,ecx; jmp` back to the start -/
theorem rewritten_jmp : Rewritten (pass2 [[0x89, 0xC8], [0xEB, 0xFC]].flatten []).2 0 0
    [[0x89, 0xC8], [0xEB, 0xFC]] (pass2 [[0x89, 0xC8], [0xEB, 0xFC]].flatten []).1 :=
  (rewritten_iff [[0x89, 0xC8], [0xEB, 0xFC]] [] (by decide)).1 (by decide)

/-- the ModRM byte of `mov ecx,[ecx+192]` and its displacement look like a register move -/
theorem load_split : IsText [[0x8B, 0x89, 0xC0, 0x00, 0x00, 0x00]] ∧
    ¬ Rewritten (pass2 [[0x8B, 0x89, 0xC0, 0x00, 0x00, 0x00]].flatten []).2 0 0
      [[0x8B, 0x89, 0xC0, 0x00, 0x00, 0x00]]
      (pass2 [[0x8B, 0x89, 0xC0, 0x00, 0x00, 0x00]].flatten []).1 := by
  have ht : IsText [[0x8B, 0x89, 0xC0, 0x00, 0x00, 0x00]] := by decide
  refine ⟨ht, fun h => ?_⟩
  exact absurd (starts_of_rewritten ht (by decide) h) (by decide)

end X64Obj
