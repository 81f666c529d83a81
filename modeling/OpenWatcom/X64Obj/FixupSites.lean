import OpenWatcom.X64Obj.Retarget

/-!
# The bytes under a fixup

`FixupCarried` says that Pass 2 keeps the four bytes of a fixup and that its new `code_offset`
points at them.

* `carried_untouched`   a fixup no adjustment writes: the loop must copy the four bytes;
* `carried_branch`   a fixup inside an adjusted branch: the new displacement must have the old
  bytes there;
* `fixupCarried_of_stays`   each is enough, and needed inside an instruction the scan stops at.
-/

namespace X64Obj
open Bytes Stride

/-- the fixup `f` still points at the four bytes it pointed at -/
def FixupCarried (code : List UInt8) (fixups : List FixupRec) (f : FixupRec) : Prop :=
  let patched := (pass2 code fixups).1
  let f' := adjustFixup code.length (pass2 code fixups).2 f
  0 ≤ f'.codeOffset ∧ slice patched f'.codeOffset.toNat 4 = slice code f.codeOffset.toNat 4

instance (code : List UInt8) (fixups : List FixupRec) (f : FixupRec) :
    Decidable (FixupCarried code fixups f) := inferInstanceAs (Decidable (_ ∧ _))

section
variable (code : List UInt8) (fixups : List FixupRec)

/-- nothing happens to the four bytes at `o` -/
def StaysPut (o : Nat) : Prop :=
  Untouched code fixups (movedTo code fixups o) 4 ∧ Kept code fixups o ∧ Whole code fixups o 4

/-- bytes inserted between the branch `b` at `s` and its target -/
def grown (s : Nat) (b : Branch) : Int :=
  let t := oldTarget code s b
  ((movedTo code fixups t.toNat : Int) - movedTo code fixups s) - (t - s)

/-- `o` lies in the branch `b` at `s`, which is adjusted, and the bytes of its displacement under
the fixup come out as they were -/
def StaysInBranch (s o : Nat) (b : Branch) : Prop :=
  Scans code s ∧ Writes code (rewriteText code fixups).2 s b ∧ o + 4 ≤ s + b.instLen ∧
    Whole code fixups s b.dispOff ∧ Kept code fixups o ∧
    ((256 ^ (o + 4 - (s + b.dispOff)) : Nat) : Int) ∣ grown code fixups s b

def FixupStays (s o : Nat) : Prop :=
  StaysPut code fixups o ∨ ∃ b ∈ relBranch code s, StaysInBranch code fixups s o b

instance (o : Nat) : Decidable (StaysPut code fixups o) := inferInstanceAs (Decidable (_ ∧ _ ∧ _))

instance (s o : Nat) (b : Branch) : Decidable (StaysInBranch code fixups s o b) :=
  inferInstanceAs (Decidable (_ ∧ _ ∧ _ ∧ _ ∧ _ ∧ _))

instance (s o : Nat) : Decidable (FixupStays code fixups s o) :=
  inferInstanceAs (Decidable (_ ∨ _))

/-- the scan stops at `s`, `o` lies in the instruction there, and if that is an adjusted branch
its opcode is not split -/
def FixupInStep (s o : Nat) : Prop :=
  Scans code s ∧ s ≤ o ∧ o + 4 ≤ scanNext code s ∧
    ∀ b ∈ relBranch code s, Writes code (rewriteText code fixups).2 s b →
      Whole code fixups s b.dispOff

instance (s o : Nat) : Decidable (FixupInStep code fixups s o) :=
  inferInstanceAs (Decidable (_ ∧ _ ∧ _ ∧ _))

end

section
variable {code : List UInt8} {fixups : List FixupRec}

/-- the property in terms of the closed form of `offset_map` -/
theorem fixupCarried_kept {f : FixupRec} {o : Nat} (hf : f.codeOffset = o)
    (ho : o + 4 ≤ code.length) :
    FixupCarried code fixups f ↔ Kept code fixups o ∧
      ∀ i, i < 4 → byteAt (pass2 code fixups).1 (movedTo code fixups o + i) = byteAt code (o + i) := by
  have e : (adjustFixup code.length (pass2 code fixups).2 f).codeOffset
      = (rewriteText code fixups).2 o := by
    rw [adjustFixup, if_pos (by rw [hf]; omega), pass2_snd, hf, Int.toNat_natCast]
  unfold FixupCarried
  dsimp only
  rw [e, hf, Int.toNat_natCast, kept_iff (by omega), ← slice_eq_iff]
  constructor
  · rintro ⟨h1, h2⟩
    rw [offsetMap_toNat h1 (by omega)] at h2
    exact ⟨h1, h2⟩
  · rintro ⟨h1, h2⟩
    rw [offsetMap_toNat h1 (by omega)]
    exact ⟨h1, h2⟩

/-- a fixup no adjustment writes -/
theorem carried_untouched {f : FixupRec} {o : Nat} (hf : f.codeOffset = o)
    (ho : o + 4 ≤ code.length) (hu : Untouched code fixups (movedTo code fixups o) 4) :
    FixupCarried code fixups f ↔ Kept code fixups o ∧ Whole code fixups o 4 := by
  rw [fixupCarried_kept hf ho]
  constructor
  · rintro ⟨hk, h⟩
    refine ⟨hk, whole_of_byteAt hk ho fun i hi => ?_⟩
    rw [← untouched_byteAt hu hi]
    exact h i hi
  · rintro ⟨hk, hw⟩
    refine ⟨hk, fun i hi => ?_⟩
    rw [untouched_byteAt hu hi]
    exact whole_byteAt hk hw ho i hi

/-- the old displacement as bytes -/
theorem byteAt_field (c : List UInt8) (p n i : Nat) (hi : i < n) :
    byteAt c (p + i) = byteAt (leBytes n (ofSigned n (fieldAt c p n))) i := by
  have h := leNat_lt (slice c p n)
  have e := leBytes_leNat (slice c p n)
  rw [slice_length] at h e
  rw [fieldAt, ofSigned_toSigned n _ h, e, byteAt_slice _ _ _ _ hi]

theorem grown_eq {s : Nat} {b : Branch} (hn : s ≤ code.length)
    (hw : Writes code (rewriteText code fixups).2 s b) :
    newDisp code (rewriteText code fixups).2 s b - fieldAt code (s + b.dispOff) b.dispSize
      = grown code fixups s b := by
  obtain ⟨⟨h0, hlen, hs, hk⟩, _⟩ := hw
  have hs' := (kept_iff hn).mp hs
  have hk' := (kept_iff (by omega)).mp hk
  rw [newDisp, grown, offsetMap_kept hk' (by omega), offsetMap_kept hs' hn]
  have e : oldTarget code s b
      = (s + b.instLen : Nat) + fieldAt code (s + b.dispOff) b.dispSize := rfl
  push_cast at e
  omega

/-- a fixup inside a branch that is adjusted and whose opcode is not split -/
theorem carried_branch {f : FixupRec} {s o : Nat} {b : Branch} (hf : f.codeOffset = o)
    (hb : relBranch code s = some b) (hscan : Scans code s) (hso : s ≤ o)
    (ho : o + 4 ≤ s + b.instLen) (hn : s + b.instLen ≤ code.length)
    (hwr : Writes code (rewriteText code fixups).2 s b) (hw : Whole code fixups s b.dispOff) :
    FixupCarried code fixups f ↔ Kept code fixups o ∧
      ((256 ^ (o + 4 - (s + b.dispOff)) : Nat) : Int) ∣ grown code fixups s b := by
  obtain ⟨h0, hlen, hsize⟩ := relBranch_some code hb
  have h4 : b.dispSize = 4 := by
    rcases hsize with h | h
    · unfold relBranch at hb
      dsimp only at hb
      split at hb
      · cases hb; dsimp only at ho; omega
      · split at hb
        · cases hb; dsimp only at ho; omega
        · split at hb
          · cases hb; exact absurd h (by decide)
          · split at hb
            · cases hb; exact absurd h (by decide)
            · cases hb
    · exact h
  have hs : Kept code fixups s := (kept_iff (by omega)).mp hwr.1.2.2.1
  obtain ⟨j, rfl⟩ : ∃ j, o = s + j := ⟨o - s, by omega⟩
  have hjd : j ≤ b.dispOff := by omega
  have em : s + j + 4 - (s + b.dispOff) = 4 - (b.dispOff - j) := by omega
  rw [fixupCarried_kept hf (by omega), em, ← grown_eq (by omega) hwr, h4]
  apply and_congr_right
  intro hk
  rw [whole_movedTo hs hw j hjd hk]
  -- the bytes of the opcode stay, those of the displacement are the low bytes of the new one
  have hop : ∀ i, j + i < b.dispOff →
      byteAt (pass2 code fixups).1 (movedTo code fixups s + j + i) = byteAt code (s + j + i) := by
    intro i hi
    rw [Nat.add_assoc, Nat.add_assoc, opcode_kept hb hscan hs (j + i) hi]
    exact whole_byteAt hs hw (by omega) (j + i) hi
  have hd : ∀ i, i < 4 → byteAt (pass2 code fixups).1 (movedTo code fixups s + b.dispOff + i)
      = byteAt (leBytes 4 (ofSigned 4 (newDisp code (rewriteText code fixups).2 s b))) i := by
    intro i hi
    have e := slice_adjusted hb hscan hn hwr
    rw [h4] at e
    rw [← e, byteAt_slice _ _ _ _ hi]
  rw [← low_bytes_iff (4 - (b.dispOff - j)) 4 (by omega)]
  constructor
  · intro h i hi
    have e1 : movedTo code fixups s + b.dispOff + i
        = movedTo code fixups s + j + (b.dispOff - j + i) := by omega
    have e2 : s + b.dispOff + i = s + j + (b.dispOff - j + i) := by omega
    rw [← hd i (by omega), ← byteAt_field code (s + b.dispOff) 4 i (by omega), e1, e2]
    exact h _ (by omega)
  · intro h i hi
    by_cases hi2 : j + i < b.dispOff
    · exact hop i hi2
    · have e1 : movedTo code fixups s + j + i
          = movedTo code fixups s + b.dispOff + (j + i - b.dispOff) := by omega
      have e2 : s + j + i = s + b.dispOff + (j + i - b.dispOff) := by omega
      rw [e1, e2, hd _ (by omega), byteAt_field code (s + b.dispOff) 4 _ (by omega)]
      exact h _ (by omega)

/-- inside an instruction the scan stops at, only an adjusted branch is written -/
theorem untouched_or_branch {s o : Nat} (hscan : Scans code s) (hso : s ≤ o)
    (ho : o + 4 ≤ scanNext code s) (hk : Kept code fixups o) :
    Untouched code fixups (movedTo code fixups o) 4 ∨
      ∃ b ∈ relBranch code s, Writes code (rewriteText code fixups).2 s b := by
  by_cases h : ∃ b ∈ relBranch code s, Writes code (rewriteText code fixups).2 s b
  · exact Or.inr h
  · refine Or.inl (untouched_inside hscan hk hso ho ?_)
    intro b hb hw
    exact absurd ⟨b, hb, hw⟩ h

/-- a fixup keeps its bytes when it `FixupStays`, and only then where the scan is in step with
the instruction around it or no adjustment writes it -/
theorem fixupCarried_of_stays (code : List UInt8) (fixups : List FixupRec) (f : FixupRec)
    (s o : Nat) (hf : f.codeOffset = o) (hso : s ≤ o) (ho : o + 4 ≤ code.length)
    (hn : scanNext code s ≤ code.length) :
    (FixupStays code fixups s o → FixupCarried code fixups f) ∧
      (FixupInStep code fixups s o ∨ Untouched code fixups (movedTo code fixups o) 4 →
        FixupCarried code fixups f → FixupStays code fixups s o) := by
  have hnext : ∀ b, relBranch code s = some b → scanNext code s = s + b.instLen := by
    intro b hb
    rw [scanNext, hb]
  constructor
  · rintro (⟨hu, hk, hw⟩ | ⟨b, hb, hscan, hwr, hob, hw, hk, hd⟩)
    · exact (carried_untouched hf ho hu).mpr ⟨hk, hw⟩
    · rw [Option.mem_def] at hb
      rw [hnext b hb] at hn
      exact (carried_branch hf hb hscan hso hob hn hwr hw).mpr ⟨hk, hd⟩
  · rintro (⟨hscan, _, hon, hsplit⟩ | hu) h
    · have hk := ((fixupCarried_kept hf ho).mp h).1
      rcases untouched_or_branch hscan hso hon hk with hu | ⟨b, hb, hwr⟩
      · exact Or.inl ⟨hu, (carried_untouched hf ho hu).mp h⟩
      · have hw := hsplit b hb hwr
        rw [Option.mem_def] at hb
        rw [hnext b hb] at hn hon
        obtain ⟨_, hd⟩ := (carried_branch hf hb hscan hso hon hn hwr hw).mp h
        exact Or.inr ⟨b, hb, hscan, hwr, hon, hw, hk, hd⟩
    · exact Or.inl ⟨hu, (carried_untouched hf ho hu).mp h⟩

end

/-- the fixup of `mov eax,[x]`, with a register move before it -/
theorem fixupCarried_moffs : FixupCarried [0x89, 0xC8, 0xA1, 0, 0, 0, 0] [⟨3, 0, 0⟩] ⟨3, 0, 0⟩ :=
  (fixupCarried_of_stays [0x89, 0xC8, 0xA1, 0, 0, 0, 0] [⟨3, 0, 0⟩] ⟨3, 0, 0⟩ 2 3 (by decide)
    (by decide) (by decide) (by decide)).1 (by decide)

/-- the ModRM byte of `mov ecx,[ecx+192]` and its displacement look like a register move -/
theorem fixup_lost : Ia32.IsText [[0x8B, 0x89, 0xC0, 0x00, 0x00, 0x00]] ∧
    ¬ FixupCarried [0x8B, 0x89, 0xC0, 0x00, 0x00, 0x00] [⟨2, 0, 0⟩] ⟨2, 0, 0⟩ := by decide

end X64Obj
