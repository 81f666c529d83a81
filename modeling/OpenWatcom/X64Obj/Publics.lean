import OpenWatcom.X64Obj.ElfSpec
import OpenWatcom.X64Obj.Window

/-!
# The values of public symbols

Pass 2 sends every recorded PUBDEF offset through `offset_map`, also those of data and BSS
symbols.

* `ValueOk`   the value a symbol ought to have;
* `pubSym_value`   the value it gets;
* `valueOk_iff`   when both agree;
* `data_symbol_moved`   a data symbol that is moved with the text.
-/

namespace X64Obj
open Bytes Tables

/-- the text Pass 1 collects and the fixups in it -/
def textOf (omf : List UInt8) : List UInt8 := (parse omf).image.code

def fixupsOf (omf : List UInt8) : List FixupRec := (parse omf).relocs.fixups

/-- the symbol written for PUBDEF `q` has `offset_map` of its offset as its value if it belongs to
the text, and its segment's base plus its offset if it belongs to data or BSS -/
def ValueOk (omf : List UInt8) (q : Nat) (p : Pub) : Prop :=
  let o := finish omf
  let offsetMap := (pass2 (textOf omf) (fixupsOf omf)).2
  ∃ s ∈ (symbols o)[pubSymidx o q]?,
    (p.seg = o.segs.textSegIdx → p.off ≤ (textOf omf).length ∧ (s.value : Int) = offsetMap p.off) ∧
    (p.seg ≠ o.segs.textSegIdx → o.segs.segIsData p.seg ∨ isBssSeg o p.seg →
      (s.value : Int) = segmentBase o p.seg + p.off)

/-- the offset of a PUBDEF is one `offset_map` has an entry for -/
def OffsetKept (omf : List UInt8) (p : Pub) : Prop :=
  p.off ≤ (textOf omf).length ∧ Kept (textOf omf) (fixupsOf omf) p.off

/-- a text symbol stands where the rewrite loop looks; nothing is inserted in the text before the
offset of a data symbol, or the text does not reach that far or has no entry there, and the value
fits 32 bits -/
def ValueKept (omf : List UInt8) (p : Pub) : Prop :=
  let o := finish omf
  (p.seg = o.segs.textSegIdx → OffsetKept omf p) ∧
  (p.seg ≠ o.segs.textSegIdx → o.segs.segIsData p.seg ∨ isBssSeg o p.seg →
    (OffsetKept omf p → 2 ^ 32 ∣ movedTo (textOf omf) (fixupsOf omf) p.off - p.off) ∧
      segmentBase o p.seg + p.off < 2 ^ 32)

instance (omf : List UInt8) (q : Nat) (p : Pub) : Decidable (ValueOk omf q p) :=
  inferInstanceAs (Decidable (∃ s ∈ (symbols (finish omf))[pubSymidx (finish omf) q]?, _ ∧ _))

instance (omf : List UInt8) (p : Pub) : Decidable (OffsetKept omf p) :=
  inferInstanceAs (Decidable (_ ∧ _))

instance (omf : List UInt8) (p : Pub) : Decidable (ValueKept omf p) :=
  inferInstanceAs (Decidable ((_ → _) ∧ (_ → _ → _ ∧ _)))

/-! ## the offset after Pass 2 -/

/-- the adjusted offset of a PUBDEF -/
theorem adjustPub_off (omf : List UInt8) (p : Pub) :
    (adjustPub (textOf omf).length (pass2 (textOf omf) (fixupsOf omf)).2 p).off
      = if OffsetKept omf p then movedTo (textOf omf) (fixupsOf omf) p.off else p.off := by
  unfold adjustPub
  rw [pass2_snd]
  by_cases hl : p.off ≤ (textOf omf).length
  · by_cases hk : Kept (textOf omf) (fixupsOf omf) p.off
    · rw [if_pos ⟨hl, (kept_iff hl).mpr hk⟩, if_pos ⟨hl, hk⟩]
      exact offsetMap_toNat hk hl
    · rw [if_neg (fun h => hk ((kept_iff hl).mp h.2)), if_neg (fun h => hk h.2)]
  · rw [if_neg (fun h => hl h.1), if_neg (fun h => hl h.1)]

theorem adjustPub_seg (len : Nat) (offsetMap : Nat → Int) (p : Pub) :
    (adjustPub len offsetMap p).seg = p.seg := by
  unfold adjustPub
  split <;> rfl

theorem segmentBase_nonneg (o : Obj) (z : Int) : 0 ≤ segmentBase o z := by
  unfold segmentBase
  split
  · split
    · assumption
    · exact Int.le_refl 0
  · split
    · rename_i h
      exact h.2.2
    · exact Int.le_refl 0

/-- the symbol written for a PUBDEF -/
theorem finish_symbol (omf : List UInt8) (q : Nat) (p : Pub)
    (h : (parse omf).image.pubs[q]? = some p) :
    ∃ st, (symbols (finish omf))[pubSymidx (finish omf) q]? = some (pubSym (finish omf)
      (adjustPub (textOf omf).length (pass2 (textOf omf) (fixupsOf omf)).2 p) st) := by
  have hp : (finish omf).pubs[q]?
      = some (adjustPub (textOf omf).length (pass2 (textOf omf) (fixupsOf omf)).2 p) := by
    show (List.map _ (parse omf).image.pubs)[q]? = _
    rw [List.getElem?_map, h]
    rfl
  have hq : q < (strPub (finish omf)).length := by
    rw [strPub_length]
    exact (List.getElem?_eq_some_iff.mp hp).1
  exact ⟨_, symbols_pub (finish omf) q _ _ hp (List.getElem?_eq_getElem hq)⟩

/-- the value a symbol gets -/
theorem pubSym_value (o : Obj) (p : Pub) (st : Nat) :
    (pubSym o p st).value = if p.seg = o.segs.textSegIdx then p.off
      else ofSigned 4 (segmentBase o p.seg + p.off) := by
  unfold pubSym
  split <;> rfl

/-- a 32-bit sum is the sum exactly when the offset is right modulo `2^32` and the sum fits -/
theorem ofSigned_sum (b : Int) (off off' : Nat) (hb : 0 ≤ b) (ho : off ≤ off') :
    ((ofSigned 4 (b + off') : Nat) : Int) = b + off ↔ 2 ^ 32 ∣ off' - off ∧ b + off < 2 ^ 32 := by
  have e : (256 ^ 4 : Nat) = 2 ^ 32 := by norm_num
  rw [ofSigned, e]
  omega

/-- a symbol's value is right exactly when `offset_map` does not move a data symbol and knows a
text symbol -/
theorem valueOk_iff (omf : List UInt8) (q : Nat) (p : Pub)
    (h : (parse omf).image.pubs[q]? = some p) : ValueOk omf q p ↔ ValueKept omf p := by
  obtain ⟨st, hs⟩ := finish_symbol omf q p h
  have hv := pubSym_value (finish omf)
    (adjustPub (textOf omf).length (pass2 (textOf omf) (fixupsOf omf)).2 p) st
  rw [adjustPub_seg, adjustPub_off] at hv
  have hex : ValueOk omf q p ↔
      (p.seg = (finish omf).segs.textSegIdx → p.off ≤ (textOf omf).length ∧
        ((pubSym (finish omf) (adjustPub (textOf omf).length
          (pass2 (textOf omf) (fixupsOf omf)).2 p) st).value : Int)
            = (pass2 (textOf omf) (fixupsOf omf)).2 p.off) ∧
      (p.seg ≠ (finish omf).segs.textSegIdx →
        (finish omf).segs.segIsData p.seg ∨ isBssSeg (finish omf) p.seg →
        ((pubSym (finish omf) (adjustPub (textOf omf).length
          (pass2 (textOf omf) (fixupsOf omf)).2 p) st).value : Int)
            = segmentBase (finish omf) p.seg + p.off) := by
    unfold ValueOk
    dsimp only
    rw [hs]
    simp only [Option.mem_def, Option.some.injEq, exists_eq_left']
  rw [hex, hv, ValueKept]
  by_cases hseg : p.seg = (finish omf).segs.textSegIdx
  · rw [if_pos hseg]
    simp only [hseg, ne_eq, not_true_eq_false, false_imp_iff, and_true, true_imp_iff]
    constructor
    · rintro ⟨hl, hm⟩
      refine ⟨hl, ?_⟩
      apply (kept_iff hl).mp
      rw [pass2_snd] at hm
      rw [← hm]
      exact Int.natCast_nonneg _
    · rintro ⟨hl, hk⟩
      refine ⟨hl, ?_⟩
      rw [if_pos ⟨hl, hk⟩, pass2_snd, offsetMap_kept hk hl]
  · rw [if_neg hseg]
    simp only [hseg, false_imp_iff, true_and, ne_eq, not_false_eq_true, true_imp_iff]
    apply imp_congr_right
    intro _
    have hb := segmentBase_nonneg (finish omf) p.seg
    by_cases hk : OffsetKept omf p
    · have hle : p.off ≤ movedTo (textOf omf) (fixupsOf omf) p.off := by
        have := kept_sub (Or.inl (looks_zero _ _)) hk.2 (Nat.zero_le _)
        omega
      rw [if_pos hk, ofSigned_sum _ _ _ hb hle]
      simp only [hk, true_imp_iff]
    · rw [if_neg hk, ofSigned_sum _ _ _ hb (Nat.le_refl _)]
      simp only [hk, false_imp_iff, Nat.sub_self, dvd_zero, true_and]

/-- an object with the text `mov eax,ecx; nop`, four bytes of data and a symbol `x` at offset
`off` of the data -/
def smallObject (off : UInt8) : List UInt8 :=
  [0x96, 11, 0, 4, 0x43, 0x4F, 0x44, 0x45, 4, 0x44, 0x41, 0x54, 0x41, 0] ++
  [0x99, 9, 0, 0xA9, 3, 0, 0, 0, 1, 1, 1, 0] ++
  [0x99, 9, 0, 0xA9, 4, 0, 0, 0, 2, 2, 1, 0] ++
  [0xA1, 9, 0, 1, 0, 0, 0, 0, 0x89, 0xC8, 0x90, 0] ++
  [0xA1, 10, 0, 2, 0, 0, 0, 0, 0x11, 0x22, 0x33, 0x44, 0] ++
  [0x91, 10, 0, 0, 2, 1, 0x78, off, 0, 0, 0, 0, 0]

/-- the first byte of the data keeps its symbol -/
theorem data_symbol_first : ValueOk (smallObject 0) 0 ⟨[0x78], 0, 2, false⟩ :=
  (valueOk_iff (smallObject 0) 0 ⟨[0x78], 0, 2, false⟩ (by decide)).mpr (by decide)

/-- a symbol at offset 2 of the data gets offset 3, where the third byte of the text went -/
theorem data_symbol_moved :
    (parse (smallObject 2)).image.pubs[0]? = some ⟨[0x78], 2, 2, false⟩ ∧
    (finish (smallObject 2)).segs.segIsData 2 = true ∧
    ¬ ValueOk (smallObject 2) 0 ⟨[0x78], 2, 2, false⟩ := by decide

end X64Obj
