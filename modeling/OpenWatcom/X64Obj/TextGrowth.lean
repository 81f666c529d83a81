import OpenWatcom.X64Obj.OmfRecords
import OpenWatcom.X64Obj.Pass2Spec
import OpenWatcom.X64Obj.Publics

/-!
# Room for the patched text

* `textOf_le`       the text collected in Pass 1 is not larger than the object;
* `pass2_length_le`     the patched text is at most three times the text;
* `patched_fits_iff`    it fits where the text was exactly when the sites that grow fit into the rest of
                        the object.
-/

namespace X64Obj
open Bytes Stride

/-! ## the text -/

theorem pass1Step_code {omf : List UInt8} {s : Segs} {im : Image} {i : Nat} (hi : im.code.length ≤ i)
    (hl : im.code.length ≤ omf.length) : (pass1Step omf s im i).code.length ≤ recNext omf i ∧
      (pass1Step omf s im i).code.length ≤ omf.length := by
  have hnext : recNext omf i = i + (3 + recLen omf i) := rfl
  have hkeep : im.code.length ≤ recNext omf i ∧ im.code.length ≤ omf.length := ⟨by omega, hl⟩
  rw [pass1Step]
  split_ifs with hdata
  · rw [ledataStep]
    dsimp only
    by_cases hlen : 0 < (ledataAt omf i).len ∧
        (ledataAt omf i).start + (ledataAt omf i).len ≤ omf.length
    · rw [if_pos hlen]
      by_cases htext : (ledataAt omf i).segIdx = s.textSegIdx
      · rw [if_pos htext]
        -- the data stand behind the head of the record
        have hstart : i + 3 ≤ (ledataAt omf i).start := by
          unfold ledataAt
          dsimp only
          split_ifs <;> omega
        have hrec : (ledataAt omf i).len
            = (recLen omf i : Int) - ((ledataAt omf i).start - (i + 3) : Nat) - 1 := rfl
        have hslice : (slice omf (ledataAt omf i).start (ledataAt omf i).len.toNat).length
            ≤ (ledataAt omf i).len.toNat := by
          rw [slice, List.length_map, List.length_range]
        dsimp only
        rw [List.length_append]
        omega
      · rw [if_neg htext]
        split_ifs <;> exact hkeep
    · rw [if_neg hlen]
      exact hkeep
  all_goals exact hkeep

theorem textOf_le (omf : List UInt8) : (textOf omf).length ≤ omf.length := by
  have key : ∀ (s : Segs) (f k : Nat) (im : Image), im.code.length ≤ k → im.code.length ≤ omf.length →
      ((stopsFuel (recNext omf) (omf.length - 2) f k).foldl (pass1Step omf s) im).code.length
        ≤ omf.length := by
    intro s f
    induction f with
    | zero => exact fun k im _ hl => hl
    | succ f ih =>
      intro k im hk hl
      rw [stopsFuel]
      split_ifs
      · obtain ⟨h1, h2⟩ := pass1Step_code (s := s) hk hl
        exact ih _ _ h1 h2
      · exact hl
  exact key _ _ 0 pass1Init (Nat.le_refl 0) (Nat.zero_le _)

/-! ## growth -/

section
variable (code : List UInt8) (fixups : List FixupRec)

/-- how often the rewrite loop meets a pattern -/
def sites (p : Pattern) : Nat :=
  (stops (rewriteNext code fixups) code.length 0).countP fun k => patternAt code fixups k = p

/-- bytes a pattern adds -/
def Pattern.growth (p : Pattern) : Nat := p.outLen - p.width

/-- bytes all sites add: a prefix or a ModRM byte, or a pair of pushes made two stores -/
def growth : Nat :=
  sites code fixups .rexMov + sites code fixups .rexAddSub + sites code fixups .rexLea
    + sites code fixups .moffs + 9 * sites code fixups .pushImm32 + 12 * sites code fixups .pushImm8

theorem insertedBefore_eq : insertedBefore code fixups code.length = growth code fixups := by
  rw [insertedBefore, inserted, growth]
  unfold sites
  generalize stops (rewriteNext code fixups) code.length 0 = l
  have hs : ∀ k, surplus (rewriteNext code fixups) (emitAt code fixups) k
      = (patternAt code fixups k).growth := by
    intro k
    rw [surplus, emitAt_length, rewriteNext_sub, Pattern.growth]
  induction l with
  | nil => rfl
  | cons k l ih =>
    rw [List.map_cons, List.sum_cons, ih, hs]
    simp only [List.countP_cons]
    cases patternAt code fixups k <;> simp [Pattern.growth, Pattern.outLen, Pattern.width] <;> omega

theorem pass2_length_eq : (pass2 code fixups).1.length = code.length + growth code fixups := by
  rw [pass2_length, moved_eq code fixups (looks_length code fixups), insertedBefore_eq]

/-- no pattern is made more than three times as large -/
theorem pass2_length_le : (pass2 code fixups).1.length ≤ 3 * code.length := by
  have key : ∀ k, Looks code fixups k → moved code fixups k ≤ 3 * k := fun k hk => by
    refine hk.rec' (rewriteNext_forward code fixups) (P := fun k => moved code fixups k ≤ 3 * k) ?_ ?_
    · exact Nat.le_of_eq (@pos_zero _ (rewriteNext code fixups) (emitAt code fixups))
    · intro k hk ih
      rw [moved_next code fixups hk, rewriteNext]
      have : (patternAt code fixups k).outLen ≤ 3 * (patternAt code fixups k).width := by
        cases patternAt code fixups k <;> decide
      omega
  rw [pass2_length]
  exact key _ (looks_length code fixups)

end

/-- the patched text of an object fits into both buffers exactly when what its sites add fits into the part
of the object that is no text -/
theorem patched_fits_iff (omf : List UInt8) :
    (pass2 (textOf omf) (fixupsOf omf)).1.length ≤ omf.length ∧
      (pass2 (textOf omf) (fixupsOf omf)).1.length ≤ 3 * (textOf omf).length ↔
    growth (textOf omf) (fixupsOf omf) ≤ omf.length - (textOf omf).length := by
  have h1 := textOf_le omf
  have h2 := pass2_length_eq (textOf omf) (fixupsOf omf)
  have h3 := pass2_length_le (textOf omf) (fixupsOf omf)
  omega

/-- a module with one segment of class CODE, whose text is `text` -/
def textObject (text : List UInt8) : List UInt8 :=
  -- THEADR, LNAMES, SEGDEF32, LEDATA32, MODEND
  [0x80, 3, 0, 1, 0x61, 0] ++ [0x96, 13, 0, 0, 4, 0x43, 0x4F, 0x44, 0x45, 5, 0x5F, 0x54, 0x45, 0x58, 0x54, 0]
    ++ [0x99, 9, 0, 0xA9, UInt8.ofNat text.length, 0, 0, 0, 3, 2, 1, 0]
    ++ [0xA1, UInt8.ofNat (text.length + 6), 0, 1, 0, 0, 0, 0] ++ text ++ [0] ++ [0x8A, 2, 0, 0, 0]

/-- fifty `mov eax, ecx` and a `ret`: the patched text is larger than the object -/
def movText : List UInt8 := (List.replicate 50 [0x8B, 0xC1]).flatten ++ [0xC3]

theorem movText_overflows :
    ¬ (pass2 (textOf (textObject movText)) (fixupsOf (textObject movText))).1.length
      ≤ (textObject movText).length := by
  have ht : textOf (textObject movText) = movText := by decide +kernel
  have hf : fixupsOf (textObject movText) = [] := by decide +kernel
  have hg : growth movText [] = 50 := by decide +kernel
  have hl : (textObject movText).length = 149 ∧ movText.length = 101 := by decide +kernel
  rw [pass2_length_eq, ht, hf]
  omega

end X64Obj
