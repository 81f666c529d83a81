import OpenWatcom.Lib.Ia32
import OpenWatcom.X64Obj.Window

/-!
# Where the branches of the patched text go

A relative branch stands behind `np` prefixes at `st`; `Retargeted` says that the branch found at
`offset_map[st]` goes to `offset_map` of its old target.

* `Shifted`   when that holds of a branch the adjustment stops at;
* `Carried`   when it holds of a branch nobody adjusts;
* `retargeted_of_retargetable`   each is enough, and needed where a branch is `Settled`;
* `jns_split`   a branch that is lost.
-/

namespace X64Obj
open Bytes Stride

/-! ## fields -/

theorem toSigned_range (n v : Nat) (hn : 0 < n) (hv : v < 256 ^ n) :
    -(256 ^ n / 2 : Nat) ≤ toSigned n v ∧ toSigned n v < (256 ^ n / 2 : Nat) := by
  obtain ⟨m, rfl⟩ : ∃ m, n = m + 1 := ⟨n - 1, by omega⟩
  have e : 256 ^ (m + 1) = 2 * (256 ^ (m + 1) / 2) := by rw [pow_succ]; omega
  unfold toSigned
  generalize 256 ^ (m + 1) / 2 = d at e ⊢
  split <;> omega

theorem fieldAt_range (c : List UInt8) (p n : Nat) (hn : 0 < n) :
    -(256 ^ n / 2 : Nat) ≤ fieldAt c p n ∧ fieldAt c p n < (256 ^ n / 2 : Nat) := by
  have h := leNat_lt (slice c p n)
  rw [slice_length] at h
  exact toSigned_range n _ hn h

/-- a branch is recognised by its opcode bytes -/
theorem relBranch_congr {c d : List UInt8} {k q : Nat} {b : Branch} (h : relBranch c k = some b)
    (hd : q + b.dispOff ≤ d.length)
    (hb : ∀ i, i < b.dispOff → byteAt d (q + i) = byteAt c (k + i)) : relBranch d q = some b := by
  have h0 := hb 0 (relBranch_some c h).1
  rw [Nat.add_zero, Nat.add_zero] at h0
  unfold relBranch at h ⊢
  dsimp only at h ⊢
  rw [h0]
  split at h
  · rename_i h1
    rw [if_pos h1, h]
  · rename_i h1
    rw [if_neg h1]
    split at h
    · rename_i h2
      rw [if_pos h2, h]
    · rename_i h2
      rw [if_neg h2]
      split at h
      · rename_i h3
        cases h
        rw [if_pos ⟨h3.1, by dsimp only at hd; omega, by rw [hb 1 (by decide)]; exact h3.2.2⟩]
      · split at h
        · rename_i h4
          have h5 : byteAt c k ≠ 0x0F := by
            rcases h4 with h4 | h4 <;> rw [h4] <;> decide
          rw [if_neg (fun h6 => h5 h6.1), if_pos h4, h]
        · cases h

/-- the displacement of a near Jcc is what its second opcode byte makes it -/
theorem relBranch_two {c : List UInt8} {k : Nat} {b : Branch} (h : relBranch c k = some b)
    (h2 : b.dispOff ≠ 1) :
    b = ⟨2, 4, 6⟩ ∧ byteAt c k = 0x0F ∧ 0x80 ≤ byteAt c (k + 1) ∧ byteAt c (k + 1) ≤ 0x8F := by
  unfold relBranch at h
  dsimp only at h
  split at h
  · cases h; exact absurd rfl h2
  · split at h
    · cases h; exact absurd rfl h2
    · split at h
      · rename_i h3
        cases h
        exact ⟨rfl, h3.1, h3.2.2⟩
      · split at h
        · cases h; exact absurd rfl h2
        · cases h

/-- no pattern begins at the opcode of a branch -/
theorem relBranch_plain {code : List UInt8} (fixups : List FixupRec) {k : Nat} {b : Branch}
    (h : relBranch code k = some b) : patternAt code fixups k = .plain := by
  refine plain_of_head rfl fun hm => ?_
  unfold relBranch at h
  dsimp only at h
  generalize byteAt code k = x at h hm
  fin_cases hm <;> simp at h

/-! ## the round that stands on a branch -/

section
variable {code : List UInt8} {fixups : List FixupRec}

/-- what a new displacement has to satisfy to be written -/
def Fits (b : Branch) (d : Int) : Prop :=
  -(256 ^ b.dispSize / 2 : Nat) ≤ d ∧ d < (256 ^ b.dispSize / 2 : Nat)

instance (b : Branch) (d : Int) : Decidable (Fits b d) := inferInstanceAs (Decidable (_ ∧ _))

/-- the distance the displacement of the branch `b` at `s` has to cover in the patched text -/
def shiftedDisp (code : List UInt8) (fixups : List FixupRec) (s : Nat) (b : Branch) (t : Nat) :
    Int :=
  (movedTo code fixups t : Int) - (movedTo code fixups s + b.instLen : Nat)

theorem newDisp_kept {s t : Nat} {b : Branch} (ht : oldTarget code s b = t) (hn : s ≤ code.length)
    (htn : t ≤ code.length) (hs : Kept code fixups s) (hk : Kept code fixups t) :
    newDisp code (rewriteText code fixups).2 s b = shiftedDisp code fixups s b t := by
  rw [newDisp, ht, Int.toNat_natCast, offsetMap_kept hk htn, offsetMap_kept hs hn, shiftedDisp]
  push_cast
  rfl

/-- a branch whose ends have entries gets a displacement that fits -/
theorem writes_of_fits {s t : Nat} {b : Branch} (ht : oldTarget code s b = t)
    (hn : s ≤ code.length) (htn : t ≤ code.length) (hs : Kept code fixups s)
    (hk : Kept code fixups t)
    (hfit : b.dispSize = 1 → Fits b (shiftedDisp code fixups s b t)) :
    Writes code (rewriteText code fixups).2 s b := by
  refine ⟨⟨by omega, by omega, (kept_iff hn).mpr hs, ?_⟩, fun h1 => ?_⟩
  · rw [ht, Int.toNat_natCast]
    exact (kept_iff htn).mpr hk
  · have h := hfit h1
    rw [Fits, h1] at h
    rw [newDisp_kept ht hn htn hs hk]
    norm_num at h
    omega

/-- the displacement field of an adjusted branch -/
theorem slice_adjusted {s : Nat} {b : Branch} (hb : relBranch code s = some b)
    (hscan : Scans code s) (hn : s + b.instLen ≤ code.length)
    (hw : Writes code (rewriteText code fixups).2 s b) :
    slice (pass2 code fixups).1 (movedTo code fixups s + b.dispOff) b.dispSize
      = leBytes b.dispSize (ofSigned b.dispSize (newDisp code (rewriteText code fixups).2 s b)) := by
  obtain ⟨h0, hlen, hsize⟩ := relBranch_some code hb
  have hs : Kept code fixups s := (kept_iff (by omega)).mp hw.1.2.2.1
  have hnext : scanNext code s - s = b.instLen := by rw [scanNext, hb]; dsimp only; omega
  have hend : movedTo code fixups s + b.instLen ≤ (rewriteText code fixups).1.length := by
    have h1 := kept_sub hs (Or.inl (looks_length code fixups)) (by omega)
    rw [movedTo_looks (looks_length code fixups), ← rewriteText_length] at h1
    omega
  apply ext_byteAt _ _ (by simp)
  intro i hi
  rw [slice_length] at hi
  rw [byteAt_slice _ _ _ _ hi, Nat.add_assoc,
    pass2_window hscan (by omega) hs (by rw [hnext]; omega), adjustAt_eq, hb]
  dsimp only
  rw [if_pos hw, offsetMap_toNat hs (by omega), ← Nat.add_assoc,
    byteAt_writeBytes _ _ _ _ (by rw [leBytes_length]; exact hi) (by rw [leBytes_length]; omega)]

theorem fieldAt_adjusted {s t : Nat} {b : Branch} (hb : relBranch code s = some b)
    (hscan : Scans code s) (ht : oldTarget code s b = t) (hn : s + b.instLen ≤ code.length)
    (htn : t ≤ code.length) (hs : Kept code fixups s) (hk : Kept code fixups t)
    (hfit : Fits b (shiftedDisp code fixups s b t)) :
    fieldAt (pass2 code fixups).1 (movedTo code fixups s + b.dispOff) b.dispSize
      = shiftedDisp code fixups s b t := by
  have hsize := (relBranch_some code hb).2.2
  have hw := writes_of_fits ht (by omega) htn hs hk fun _ => hfit
  rw [fieldAt, slice_adjusted hb hscan hn hw, newDisp_kept ht (by omega) htn hs hk, leNat_leBytes,
    Nat.mod_eq_of_lt (ofSigned_lt _ _), toSigned_ofSigned _ (by omega) _ hfit.1 hfit.2]

/-! ## the branch found in the patched text -/

/-- the branch found at `offset_map[st]`, behind the same `np` prefixes, goes to
`offset_map[t]` -/
def Retargeted (code : List UInt8) (fixups : List FixupRec) (st np t : Nat) : Prop :=
  let patched := (pass2 code fixups).1
  let offsetMap := (pass2 code fixups).2
  0 ≤ offsetMap st ∧ 0 ≤ offsetMap t ∧
    slice patched (offsetMap st).toNat np = slice code st np ∧
    ∃ b ∈ relBranch patched ((offsetMap st).toNat + np),
      oldTarget patched ((offsetMap st).toNat + np) b = offsetMap t

instance (st np t : Nat) : Decidable (Retargeted code fixups st np t) :=
  inferInstanceAs (Decidable (_ ∧ _ ∧ _ ∧ _))

/-- a branch the adjustment stops at: its ends have entries, its opcode is not split, and the
new displacement fits -/
def Shifted (code : List UInt8) (fixups : List FixupRec) (st : Nat) (b : Branch) (t : Nat) : Prop :=
  Kept code fixups st ∧ Kept code fixups t ∧ Whole code fixups st b.dispOff ∧
    Fits b (shiftedDisp code fixups st b t)

instance (st : Nat) (b : Branch) (t : Nat) : Decidable (Shifted code fixups st b t) :=
  inferInstanceAs (Decidable (_ ∧ _ ∧ _ ∧ _))

/-- a branch nobody adjusts: its ends have entries and nothing is inserted between them -/
def Carried (code : List UInt8) (fixups : List FixupRec) (st t : Nat) : Prop :=
  Kept code fixups st ∧ Kept code fixups t ∧
    (movedTo code fixups t : Int) - movedTo code fixups st = (t : Int) - st

instance (st t : Nat) : Decidable (Carried code fixups st t) :=
  inferInstanceAs (Decidable (_ ∧ _ ∧ _))

/-- the two ways a branch is dealt with: the scan stops at its opcode, or its bytes are carried
over and no adjustment writes them -/
def Settled (code : List UInt8) (fixups : List FixupRec) (st np : Nat) (b : Branch) : Prop :=
  np = 0 ∧ Scans code st ∨
    Untouched code fixups (movedTo code fixups st) (np + b.instLen) ∧
      Whole code fixups st (np + b.instLen)

def Retargetable (code : List UInt8) (fixups : List FixupRec) (st np : Nat) (b : Branch)
    (t : Nat) : Prop :=
  (np = 0 ∧ Scans code st) ∧ Shifted code fixups st b t ∨
    (Untouched code fixups (movedTo code fixups st) (np + b.instLen) ∧
      Whole code fixups st (np + b.instLen)) ∧ Carried code fixups st t

instance (st np : Nat) (b : Branch) (t : Nat) : Decidable (Retargetable code fixups st np b t) :=
  inferInstanceAs (Decidable (_ ∨ _))

/-- the property in terms of the closed form of `offset_map` -/
theorem retargeted_kept {st np t : Nat} (hn : st ≤ code.length) (htn : t ≤ code.length) :
    Retargeted code fixups st np t ↔ Kept code fixups st ∧ Kept code fixups t ∧
      slice (pass2 code fixups).1 (movedTo code fixups st) np = slice code st np ∧
      ∃ b ∈ relBranch (pass2 code fixups).1 (movedTo code fixups st + np),
        oldTarget (pass2 code fixups).1 (movedTo code fixups st + np) b
          = (movedTo code fixups t : Int) := by
  unfold Retargeted
  simp only [pass2_snd, kept_iff hn, kept_iff htn]
  constructor
  · rintro ⟨h1, h2, h3⟩
    rw [offsetMap_toNat h1 hn, offsetMap_kept h2 htn] at h3
    exact ⟨h1, h2, h3⟩
  · rintro ⟨h1, h2, h3⟩
    rw [offsetMap_toNat h1 hn, offsetMap_kept h2 htn]
    exact ⟨h1, h2, h3⟩

/-- the patched text reaches as far behind a kept position as the text does -/
theorem pass2_room {s n : Nat} (hs : Kept code fixups s) (h : s + n ≤ code.length) :
    movedTo code fixups s + n ≤ (pass2 code fixups).1.length := by
  have h1 := kept_sub hs (Or.inl (looks_length code fixups)) (by omega)
  rw [movedTo_looks (looks_length code fixups), ← pass2_length] at h1
  omega

/-- the opcode of a branch the scan stops at -/
theorem opcode_kept {s : Nat} {b : Branch} (hb : relBranch code s = some b) (hscan : Scans code s)
    (hs : Kept code fixups s) (i : Nat) (hi : i < b.dispOff) :
    byteAt (pass2 code fixups).1 (movedTo code fixups s + i)
      = byteAt (rewriteText code fixups).1 (movedTo code fixups s + i) := by
  obtain ⟨_, hlen, _⟩ := relBranch_some code hb
  apply untouched_byteAt (untouched_inside (n := b.dispOff) hscan hs (Nat.le_refl _) ?_ ?_) hi
  · rw [scanNext, hb]
    dsimp only
    omega
  · intro b' hb' _
    rw [Option.mem_def, hb, Option.some.injEq] at hb'
    rw [hb']
    exact Or.inl (Nat.le_refl _)

/-- a branch whose opcode is split is no branch any more -/
theorem opcode_whole {s : Nat} {b b' : Branch} (hb : relBranch code s = some b)
    (hscan : Scans code s) (hn : s + b.instLen ≤ code.length) (hs : Kept code fixups s)
    (hb' : relBranch (pass2 code fixups).1 (movedTo code fixups s) = some b') :
    Whole code fixups s b.dispOff := by
  obtain ⟨h0, hlen, _⟩ := relBranch_some code hb
  have hplain := relBranch_plain fixups hb
  intro i hi hk
  by_cases h1 : b.dispOff = 1
  · have e : i = 0 := by omega
    rw [e]
    exact hplain
  · obtain ⟨hbe, hop, hlo, hhi⟩ := relBranch_two hb h1
    rw [hbe] at hi hn
    dsimp only at hi hn
    cases i with
    | zero => exact hplain
    | succ i =>
      have e : i = 0 := by omega
      subst e
      -- the byte behind `0F` would be the `48` of the pattern
      by_contra hp
      have hw : Whole code fixups s 1 := by
        intro j hj _
        have e : j = 0 := by omega
        rw [e]
        exact hplain
      have hm := whole_movedTo hs hw 1 (Nat.le_refl _) (Or.inl hk)
      rw [movedTo_looks hk] at hm
      have h2 := opcode_kept hb hscan hs 1 (by rw [hbe]; decide)
      have h3 := opcode_kept hb hscan hs 0 h0
      rw [Nat.add_zero] at h3
      have h4 : byteAt (pass2 code fixups).1 (movedTo code fixups s) = 0x0F := by
        rw [h3, ← hop]
        exact whole_byteAt hs hw (by omega) 0 (by decide)
      have h5 : byteAt (pass2 code fixups).1 (movedTo code fixups s + 1) = 0x48 := by
        have e := rewriteText_byteAt (i := 0) hk (by omega)
          (by cases patternAt code fixups (s + 1) <;> decide)
        rw [h2, ← hm]
        rw [Nat.add_zero] at e
        rw [e, emitAt]
        rcases patternAt_cases code fixups (s + 1) with ⟨h, _⟩ | ⟨h, _⟩ | ⟨h, _⟩ | ⟨h, _⟩ | ⟨h, _⟩ |
          ⟨h, h6⟩ | h
        · rw [h]; rfl
        · rw [h]; rfl
        · rw [h]; rfl
        · rw [h]; rfl
        · rw [h]; rfl
        · exfalso
          simp only [isMoffs, Bool.and_eq_true, Bool.or_eq_true, decide_eq_true_eq] at h6
          rcases h6.1.1 with h7 | h7 <;> rw [h7] at hhi <;> exact absurd hhi (by decide)
        · exact absurd h hp
      unfold relBranch at hb'
      dsimp only at hb'
      rw [h4, h5] at hb'
      simp at hb'

/-- a branch the scan stops at -/
theorem retargeted_shifted {s t : Nat} {b : Branch} (hb : relBranch code s = some b)
    (hscan : Scans code s) (hn : s + b.instLen ≤ code.length) (ht : oldTarget code s b = t)
    (htn : t ≤ code.length) : Retargeted code fixups s 0 t ↔ Shifted code fixups s b t := by
  obtain ⟨h0, hlen, hsize⟩ := relBranch_some code hb
  rw [retargeted_kept (by omega) htn, Shifted]
  have hsame : ∀ (_ : Kept code fixups s), Whole code fixups s b.dispOff →
      relBranch (pass2 code fixups).1 (movedTo code fixups s) = some b := by
    intro hs hw
    have hroom := pass2_room hs hn
    apply relBranch_congr hb (by omega)
    intro i hi
    rw [opcode_kept hb hscan hs i hi]
    exact whole_byteAt hs hw (by omega) i hi
  constructor
  · rintro ⟨hs, hk, _, b', hb', htgt⟩
    rw [Option.mem_def, Nat.add_zero] at hb'
    have hw := opcode_whole hb hscan hn hs hb'
    rw [hsame hs hw, Option.some.injEq] at hb'
    subst hb'
    refine ⟨hs, hk, hw, ?_⟩
    have hd : shiftedDisp code fixups s b t
        = fieldAt (pass2 code fixups).1 (movedTo code fixups s + b.dispOff) b.dispSize := by
      rw [oldTarget, Nat.add_zero] at htgt
      rw [shiftedDisp]
      omega
    rw [Fits, hd]
    exact fieldAt_range _ _ _ (by omega)
  · rintro ⟨hs, hk, hw, hfit⟩
    refine ⟨hs, hk, rfl, b, hsame hs hw, ?_⟩
    rw [Nat.add_zero, oldTarget, fieldAt_adjusted hb hscan ht hn htn hs hk hfit, shiftedDisp]
    omega

/-- a branch nobody adjusts -/
theorem retargeted_carried {st np t : Nat} {b : Branch} (hb : relBranch code (st + np) = some b)
    (hu : Untouched code fixups (movedTo code fixups st) (np + b.instLen))
    (hw : Whole code fixups st (np + b.instLen)) (hn : st + np + b.instLen ≤ code.length)
    (ht : oldTarget code (st + np) b = t) (htn : t ≤ code.length) :
    Retargeted code fixups st np t ↔ Carried code fixups st t := by
  obtain ⟨h0, hlen, hsize⟩ := relBranch_some code hb
  rw [retargeted_kept (by omega) htn, Carried]
  have hbytes : ∀ (_ : Kept code fixups st) i, i < np + b.instLen →
      byteAt (pass2 code fixups).1 (movedTo code fixups st + i) = byteAt code (st + i) := by
    intro hs i hi
    rw [untouched_byteAt hu hi]
    exact whole_byteAt hs hw (by omega) i hi
  have hsame : ∀ (_ : Kept code fixups st),
      relBranch (pass2 code fixups).1 (movedTo code fixups st + np) = some b ∧
      oldTarget (pass2 code fixups).1 (movedTo code fixups st + np) b
        = (movedTo code fixups st : Int) + ((t : Int) - st) := by
    intro hs
    have hroom := pass2_room hs (n := np + b.instLen) (by omega)
    have hf : fieldAt (pass2 code fixups).1 (movedTo code fixups st + np + b.dispOff) b.dispSize
        = fieldAt code (st + np + b.dispOff) b.dispSize := by
      rw [fieldAt, fieldAt]
      congr 2
      rw [slice_eq_iff]
      intro i hi
      rw [Nat.add_assoc, Nat.add_assoc, Nat.add_assoc, Nat.add_assoc,
        hbytes hs (np + (b.dispOff + i)) (by omega)]
    constructor
    · apply relBranch_congr hb (by omega)
      intro i hi
      rw [Nat.add_assoc, Nat.add_assoc]
      exact hbytes hs (np + i) (by omega)
    · rw [oldTarget, hf]
      rw [oldTarget] at ht
      omega
  constructor
  · rintro ⟨hs, hk, _, b', hb', htgt⟩
    obtain ⟨h1, h2⟩ := hsame hs
    rw [Option.mem_def, h1, Option.some.injEq] at hb'
    subst hb'
    rw [h2] at htgt
    exact ⟨hs, hk, by omega⟩
  · rintro ⟨hs, hk, hd⟩
    obtain ⟨h1, h2⟩ := hsame hs
    refine ⟨hs, hk, ?_, b, h1, ?_⟩
    · rw [slice_eq_iff]
      intro i hi
      exact hbytes hs i (by omega)
    · rw [h2]
      omega

/-- the branch of the patched text goes where the old one went when it is `Retargetable`, and
a settled branch does so only then -/
theorem retargeted_of_retargetable (code : List UInt8) (fixups : List FixupRec) (st np : Nat)
    (b : Branch) (t : Nat) (hb : relBranch code (st + np) = some b)
    (hn : st + np + b.instLen ≤ code.length) (ht : oldTarget code (st + np) b = t)
    (htn : t ≤ code.length) :
    (Retargetable code fixups st np b t → Retargeted code fixups st np t) ∧
      (Settled code fixups st np b → Retargeted code fixups st np t →
        Retargetable code fixups st np b t) := by
  constructor
  · rintro (⟨⟨rfl, hscan⟩, h⟩ | ⟨⟨hu, hw⟩, h⟩)
    · exact (retargeted_shifted hb hscan hn ht htn).mpr h
    · exact (retargeted_carried hb hu hw hn ht htn).mpr h
  · rintro (⟨rfl, hscan⟩ | ⟨hu, hw⟩) h
    · exact Or.inl ⟨⟨rfl, hscan⟩, (retargeted_shifted hb hscan hn ht htn).mp h⟩
    · exact Or.inr ⟨⟨hu, hw⟩, (retargeted_carried hb hu hw hn ht htn).mp h⟩

end

/-- `mov eax,ecx; jmp` back to the start -/
theorem retargeted_jmp : Retargeted [0x89, 0xC8, 0xEB, 0xFC] [] 2 0 0 :=
  (retargeted_of_retargetable [0x89, 0xC8, 0xEB, 0xFC] [] 2 0 ⟨1, 1, 2⟩ 0 (by decide) (by decide)
    (by decide) (by decide)).1 (by decide)

/-- the second opcode byte of `jns` and its displacement look like a register move -/
theorem jns_split : Ia32.IsText [[0x0F, 0x89, 0xFA, 0xFF, 0xFF, 0xFF]] ∧
    relBranch [0x0F, 0x89, 0xFA, 0xFF, 0xFF, 0xFF] 0 = some ⟨2, 4, 6⟩ ∧
    oldTarget [0x0F, 0x89, 0xFA, 0xFF, 0xFF, 0xFF] 0 ⟨2, 4, 6⟩ = 0 ∧
    ¬ Retargeted [0x0F, 0x89, 0xFA, 0xFF, 0xFF, 0xFF] [] 0 0 0 := by decide

end X64Obj
