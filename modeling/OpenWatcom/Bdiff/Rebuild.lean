import Mathlib
import OpenWatcom.Bdiff.Holes

/-!
# The file that a patch rebuilds

`WritePatchFile` writes the similar regions, the difference regions and the holes; `Execute` makes
the new file from the old one and the patch.

* `writeSimilars`, `writeDiffs`, `writePatch`     the commands of a patch, behind its header;
* `Access.apply`, `rebuild`     what the accesses of `Execute` make of the new file;
* `Found`     what `FindRegions` leaves: regions and holes that account for every byte;
* `execute_writePatch`     the accesses that a written patch stands for;
* `Found.outcome_iff`     the new file comes back exactly when no coded distance reaches `2 ^ 22`.
-/

namespace Bdiff
open Bytes

/-! ## writing a patch -/

/-- the bytes of a file -/
abbrev File := ℕ → UInt8

/-- `WriteSimilars` -/
def writeSimilars (similar : List Region) : List UInt8 :=
  similar.flatMap fun curr => PatchCmd.sames.byte :: (outFoff curr.newStart
    ++ (outFoff curr.oldStart ++ outFoff curr.size))

/-- `NewFile[curr_start++]`, `size` times -/
def diffBytes (new : File) (currStart : Foff) : ℕ → List UInt8
  | 0 => []
  | size + 1 => new currStart.toNat :: diffBytes new (currStart + 1) size

/-- `WriteDiffs` -/
def writeDiffs (new : File) (diffs : List Region) : List UInt8 :=
  diffs.flatMap fun curr => PatchCmd.diffs.byte :: (outFoff curr.newStart
    ++ (outFoff curr.size ++ diffBytes new curr.newStart curr.size.toNat))

/-- the commands of `WritePatchFile` -/
def writePatch (new : File) (similar diffs holes : List Region) : List UInt8 :=
  writeSimilars similar ++ (writeDiffs new diffs
    ++ (processHoleArray holes ++ [PatchCmd.done.byte]))

/-! ## rebuilding a file -/

/-- `InNew( p )` -/
def inNew (f : File) (p : ℕ) : Foff := UInt32.ofNat (leNat [f p, f (p + 1), f (p + 2), f (p + 3)])

/-- `OutNew( p, v, hole )` -/
def outNew (f : File) (p : ℕ) (v : Foff) : File :=
  fun q => if p ≤ q ∧ q < p + 4 then byteAt (leBytes 4 v.toNat) (q - p) else f q

/-- an access to the new file, with `old` for the bytes of the old one -/
def Access.apply (old f : File) : Access → File
  | .out off x => Function.update f off.toNat x
  | .same off o => Function.update f off.toNat (old o.toNat)
  | .hole off diff => outNew f off.toNat (inNew f off.toNat + diff)

def rebuild (old : File) (f : File) (acc : List Access) : File := acc.foldl (Access.apply old) f

/-- what `Execute` makes of the new file -/
def rebuilt (old init : File) (pat : List UInt8) : Option File :=
  (execute pat).map (rebuild old init)

theorem rebuild_append (old f : File) (a b : List Access) :
    rebuild old f (a ++ b) = rebuild old (rebuild old f a) b := List.foldl_append

theorem rebuild_cons (old f : File) (a : Access) (b : List Access) :
    rebuild old f (a :: b) = rebuild old (a.apply old f) b := rfl

/-! ### words -/

theorem inNew_congr {f g : File} {p q : ℕ} (h : ∀ i < 4, f (p + i) = g (q + i)) :
    inNew f p = inNew g q := by
  rw [inNew, inNew, h 1 (by omega), h 2 (by omega), h 3 (by omega)]
  have h0 : f p = g q := h 0 (by omega)
  rw [h0]

theorem inNew_inj {f g : File} {p q : ℕ} (h : inNew f p = inNew g q) :
    ∀ i < 4, f (p + i) = g (q + i) := by
  have hl : ∀ a b c d : UInt8, leNat [a, b, c, d] < 2 ^ 32 := by
    intro a b c d
    have h4 := leNat_lt [a, b, c, d]
    rwa [List.length_cons, List.length_cons, List.length_cons, List.length_singleton,
      show 256 ^ (1 + 1 + 1 + 1) = 2 ^ 32 from by norm_num] at h4
  have hn := congrArg UInt32.toNat h
  rw [inNew, inNew, UInt32.toNat_ofNat_of_lt' (hl _ _ _ _),
    UInt32.toNat_ofNat_of_lt' (hl _ _ _ _)] at hn
  have hb := leNat_inj _ _ (by rw [List.length_cons]; rfl) hn
  simp only [List.cons.injEq, and_true] at hb
  intro i hi
  obtain rfl | rfl | rfl | rfl : i = 0 ∨ i = 1 ∨ i = 2 ∨ i = 3 := by omega
  · exact hb.1
  · exact hb.2.1
  · exact hb.2.2.1
  · exact hb.2.2.2

theorem outNew_of_outside {f : File} {p q : ℕ} (v : Foff) (h : ¬ (p ≤ q ∧ q < p + 4)) :
    outNew f p v q = f q := if_neg h

theorem inNew_outNew (f : File) (p : ℕ) (v : Foff) : inNew (outNew f p v) p = v := by
  have hb : ∀ i < 4, outNew f p v (p + i) = byteAt (leBytes 4 v.toNat) i := by
    intro i hi
    rw [outNew, if_pos (by omega), Nat.add_sub_cancel_left]
  have h0 : outNew f p v p = byteAt (leBytes 4 v.toNat) 0 := hb 0 (by omega)
  rw [inNew, h0, hb 1 (by omega), hb 2 (by omega), hb 3 (by omega)]
  have hv := v.toNat_lt
  have hs : leNat (leBytes 4 v.toNat) = v.toNat := by
    rw [leNat_leBytes]
    omega
  show UInt32.ofNat (leNat (leBytes 4 v.toNat)) = v
  rw [hs, UInt32.ofNat_toNat]

/-! ### what an access leaves alone -/

/-- the bytes that an access writes -/
def Access.Touches (p : ℕ) : Access → Prop
  | .out off _ => off.toNat = p
  | .same off _ => off.toNat = p
  | .hole off _ => off.toNat ≤ p ∧ p < off.toNat + 4

theorem apply_of_not_touches {old f : File} {a : Access} {p : ℕ} (h : ¬ a.Touches p) :
    a.apply old f p = f p := by
  cases a with
  | out off x => exact Function.update_of_ne (fun e => h e.symm) _ _
  | same off o => exact Function.update_of_ne (fun e => h e.symm) _ _
  | hole off diff => exact outNew_of_outside _ h

theorem rebuild_of_not_touches {old f : File} {acc : List Access} {p : ℕ}
    (h : ∀ a ∈ acc, ¬ a.Touches p) : rebuild old f acc p = f p := by
  induction acc generalizing f with
  | nil => rfl
  | cons a acc ih =>
    rw [rebuild_cons, ih fun b hb => h b (List.mem_cons_of_mem a hb),
      apply_of_not_touches (h a List.mem_cons_self)]

/-! ### the commands of regions -/

/-- the byte `p` of the new file lies in the region -/
def Region.Holds (r : Region) (p : ℕ) : Prop :=
  r.newStart.toNat ≤ p ∧ p < r.newStart.toNat + r.size.toNat

instance (r : Region) (p : ℕ) : Decidable (r.Holds p) := inferInstanceAs (Decidable (_ ∧ _))

/-- a region does not go around the end of the offsets -/
def Region.Fits (r : Region) : Prop :=
  r.newStart.toNat + r.size.toNat < 2 ^ 32 ∧ r.oldStart.toNat + r.size.toNat < 2 ^ 32

theorem succ_toNat {x : Foff} (h : x.toNat + 1 < 2 ^ 32) : (x + 1).toNat = x.toNat + 1 := by
  rw [UInt32.toNat_add]
  exact Nat.mod_eq_of_lt h

theorem rebuild_samesLoop {old f : File} {off o : Foff} {n : ℕ} (hn : off.toNat + n < 2 ^ 32)
    (ho : o.toNat + n < 2 ^ 32) (p : ℕ) :
    rebuild old f (samesLoop off o n) p
      = if off.toNat ≤ p ∧ p < off.toNat + n then old (o.toNat + (p - off.toNat)) else f p := by
  induction n generalizing off o f with
  | zero =>
    rw [if_neg (by omega)]
    rfl
  | succ n ih =>
    have h1 := succ_toNat (x := off) (by omega)
    have h2 := succ_toNat (x := o) (by omega)
    rw [samesLoop, rebuild_cons, ih (by omega) (by omega), h1, h2]
    by_cases hp : off.toNat + 1 ≤ p ∧ p < off.toNat + 1 + n
    · rw [if_pos hp, if_pos (by omega)]
      congr 1
      omega
    · rw [if_neg hp]
      by_cases he : p = off.toNat
      · rw [if_pos (by omega), he, Nat.sub_self]
        exact Function.update_self _ _ _
      · rw [if_neg (by omega)]
        exact Function.update_of_ne he _ _

/-- the accesses of `CMD_DIFFS` for bytes of the new file -/
def outsLoop (new : File) (off : Foff) : ℕ → List Access
  | 0 => []
  | n + 1 => .out off (new off.toNat) :: outsLoop new (off + 1) n

theorem diffsLoop_diffBytes (new : File) (off : Foff) (n : ℕ) (pat : List UInt8) :
    diffsLoop off n (diffBytes new off n ++ pat) = some (outsLoop new off n, pat) := by
  induction n generalizing off with
  | zero => rw [diffBytes, List.nil_append, diffsLoop, outsLoop]
  | succ n ih =>
    rw [diffBytes, List.cons_append, diffsLoop, ih]
    rfl

theorem rebuild_outsLoop {old new f : File} {off : Foff} {n : ℕ} (hn : off.toNat + n < 2 ^ 32)
    (p : ℕ) :
    rebuild old f (outsLoop new off n) p
      = if off.toNat ≤ p ∧ p < off.toNat + n then new p else f p := by
  induction n generalizing off f with
  | zero =>
    rw [if_neg (by omega)]
    rfl
  | succ n ih =>
    have h1 := succ_toNat (x := off) (by omega)
    rw [outsLoop, rebuild_cons, ih (by omega), h1]
    by_cases hp : off.toNat + 1 ≤ p ∧ p < off.toNat + 1 + n
    · rw [if_pos hp, if_pos (by omega)]
    · rw [if_neg hp]
      by_cases he : p = off.toNat
      · rw [if_pos (by omega), he]
        exact Function.update_self _ _ _
      · rw [if_neg (by omega)]
        exact Function.update_of_ne he _ _

/-- the accesses of the similar regions -/
def samesOf (similar : List Region) : List Access :=
  similar.flatMap fun r => samesLoop r.newStart r.oldStart r.size.toNat

/-- the accesses of the difference regions -/
def outsOf (new : File) (diffs : List Region) : List Access :=
  diffs.flatMap fun r => outsLoop new r.newStart r.size.toNat

theorem rebuild_samesOf_of_not_holds {old f : File} {similar : List Region} {p : ℕ}
    (hf : ∀ r ∈ similar, r.Fits) (h : ∀ r ∈ similar, ¬ r.Holds p) :
    rebuild old f (samesOf similar) p = f p := by
  induction similar generalizing f with
  | nil => rfl
  | cons r rs ih =>
    obtain ⟨h1, h2⟩ := hf r List.mem_cons_self
    rw [samesOf, List.flatMap_cons, rebuild_append]
    refine (ih (fun x hx => hf x (List.mem_cons_of_mem r hx))
      fun x hx => h x (List.mem_cons_of_mem r hx)).trans ?_
    rw [rebuild_samesLoop h1 h2]
    exact if_neg (h r List.mem_cons_self)

/-- a byte of a similar region is copied, as no other similar region has it -/
theorem rebuild_samesOf {old f : File} {similar : List Region} {p : ℕ}
    (hf : ∀ r ∈ similar, r.Fits)
    (hd : similar.Pairwise fun r s => ∀ q, r.Holds q → ¬ s.Holds q) {r : Region}
    (hr : r ∈ similar) (hp : r.Holds p) :
    rebuild old f (samesOf similar) p = old (r.oldStart.toNat + (p - r.newStart.toNat)) := by
  induction similar generalizing f with
  | nil => exact absurd hr List.not_mem_nil
  | cons s rs ih =>
    obtain ⟨hds, hdr⟩ := List.pairwise_cons.mp hd
    have hfr : ∀ x ∈ rs, x.Fits := fun x hx => hf x (List.mem_cons_of_mem s hx)
    rw [samesOf, List.flatMap_cons, rebuild_append]
    rcases List.mem_cons.mp hr with rfl | hr
    · obtain ⟨h1, h2⟩ := hf r List.mem_cons_self
      refine (rebuild_samesOf_of_not_holds hfr fun x hx => hds x hx p hp).trans ?_
      rw [rebuild_samesLoop h1 h2]
      exact if_pos hp
    · exact ih hfr hdr hr

theorem rebuild_outsOf {old new f : File} {diffs : List Region} (p : ℕ)
    (hf : ∀ r ∈ diffs, r.newStart.toNat + r.size.toNat < 2 ^ 32) :
    rebuild old f (outsOf new diffs) p = if ∃ r ∈ diffs, r.Holds p then new p else f p := by
  induction diffs generalizing f with
  | nil =>
    rw [if_neg (by simp)]
    rfl
  | cons r rs ih =>
    rw [outsOf, List.flatMap_cons, rebuild_append]
    refine (ih fun x hx => hf x (List.mem_cons_of_mem r hx)).trans ?_
    rw [rebuild_outsLoop (hf r List.mem_cons_self)]
    by_cases h : ∃ x ∈ rs, x.Holds p
    · obtain ⟨x, hx, hxp⟩ := h
      rw [if_pos ⟨x, hx, hxp⟩, if_pos ⟨x, List.mem_cons_of_mem r hx, hxp⟩]
    · rw [if_neg h]
      by_cases hr : r.Holds p
      · exact (if_pos hr).trans (if_pos ⟨r, List.mem_cons_self, hr⟩).symm
      · have hn : ¬ ∃ x ∈ r :: rs, x.Holds p := by
          intro hx
          obtain ⟨x, hx, hxp⟩ := hx
          rcases List.mem_cons.mp hx with rfl | hx
          · exact hr hxp
          · exact h ⟨x, hx, hxp⟩
        exact (if_neg hr).trans (if_neg hn).symm

/-! ## what is found -/

/-- the four bytes of a hole have no byte of the region -/
def Region.Apart (h r : Region) : Prop :=
  h.newStart.toNat + 4 ≤ r.newStart.toNat ∨ r.newStart.toNat + r.size.toNat ≤ h.newStart.toNat

instance (h r : Region) : Decidable (h.Apart r) := inferInstanceAs (Decidable (_ ∨ _))

/-- two holes have no byte in common -/
def HolesApart (a b : Region) : Prop :=
  a.newStart.toNat + 4 ≤ b.newStart.toNat ∨ b.newStart.toNat + 4 ≤ a.newStart.toNat

theorem HolesApart.symm {a b : Region} (h : HolesApart a b) : HolesApart b a := Or.symm h

/-- the hole stands for a word of the similar region that is another one in the new file -/
structure LiesIn (old new : File) (h r : Region) : Prop where
  starts : r.newStart.toNat ≤ h.newStart.toNat
  ends : h.newStart.toNat + 4 ≤ r.newStart.toNat + r.size.toNat
  shifted : h.oldStart.toNat + r.newStart.toNat = r.oldStart.toNat + h.newStart.toNat
  word : inNew new h.newStart.toNat = inNew old h.oldStart.toNat + h.diff

/-- regions and holes account for the new file -/
structure Found (old new : File) (endNew : Foff) (similar diffs holes : List Region) : Prop where
  similarFit : ∀ r ∈ similar, r.Fits
  diffsFit : ∀ r ∈ diffs, r.newStart.toNat + r.size.toNat < 2 ^ 32
  similarDisjoint : similar.Pairwise fun r s => ∀ q, r.Holds q → ¬ s.Holds q
  holesDisjoint : holes.Pairwise HolesApart
  inFile : InFile endNew holes
  /-- a word that is the same in both files is no hole -/
  differs : ∀ h ∈ holes, h.diff ≠ 0
  liesIn : ∀ h ∈ holes, ∃ r ∈ similar, LiesIn old new h r
  apart : ∀ h ∈ holes, ∀ r ∈ diffs, h.Apart r
  covered : ∀ p < endNew.toNat, (∃ r ∈ similar, r.Holds p) ∨ ∃ r ∈ diffs, r.Holds p
  same : ∀ r ∈ similar, ∀ p < endNew.toNat, r.Holds p → (∀ s ∈ diffs, ¬ s.Holds p) →
    (∀ h ∈ holes, ¬ (h.newStart.toNat ≤ p ∧ p < h.newStart.toNat + 4)) →
    old (r.oldStart.toNat + (p - r.newStart.toNat)) = new p

section
variable {old new init : File} {endNew : Foff} {similar diffs holes : List Region}

/-- the new file in front of the hole commands -/
def beforeHoles (old new init : File) (similar diffs : List Region) : File :=
  rebuild old (rebuild old init (samesOf similar)) (outsOf new diffs)

theorem Found.beforeHoles_same (hf : Found old new endNew similar diffs holes) {p : ℕ}
    (hp : p < endNew.toNat)
    (hh : ∀ h ∈ holes, ¬ (h.newStart.toNat ≤ p ∧ p < h.newStart.toNat + 4)) :
    beforeHoles old new init similar diffs p = new p := by
  rw [beforeHoles, rebuild_outsOf p hf.diffsFit]
  by_cases hd : ∃ r ∈ diffs, r.Holds p
  · exact if_pos hd
  · rw [if_neg hd]
    rcases hf.covered p hp with ⟨r, hr, hrp⟩ | hx
    · rw [rebuild_samesOf hf.similarFit hf.similarDisjoint hr hrp]
      exact hf.same r hr p hp hrp (fun s hs hsp => hd ⟨s, hs, hsp⟩) hh
    · exact absurd hx hd

/-- a hole begins as the word of the old file -/
theorem Found.beforeHoles_hole (hf : Found old new endNew similar diffs holes) {h : Region}
    (hh : h ∈ holes) :
    inNew (beforeHoles old new init similar diffs) h.newStart.toNat
      = inNew old h.oldStart.toNat := by
  obtain ⟨r, hr, hl⟩ := hf.liesIn h hh
  have h1 := hl.starts
  have h2 := hl.ends
  have h3 := hl.shifted
  refine inNew_congr fun i hi => ?_
  have hd : ¬ ∃ s ∈ diffs, s.Holds (h.newStart.toNat + i) := by
    intro hx
    obtain ⟨s, hs, hsp⟩ := hx
    obtain ⟨h4, h5⟩ := hsp
    rcases hf.apart h hh s hs with ha | ha <;> omega
  rw [beforeHoles, rebuild_outsOf _ hf.diffsFit, if_neg hd,
    rebuild_samesOf hf.similarFit hf.similarDisjoint hr ⟨by omega, by omega⟩]
  congr 1
  omega

end

/-! ## executing a written patch -/

theorem executeLoop_sames (r : Region) (n : ℕ) (pat : List UInt8) :
    executeLoop (n + 1) (PatchCmd.sames.byte :: (outFoff r.newStart
        ++ (outFoff r.oldStart ++ outFoff r.size)) ++ pat)
      = (executeLoop n pat).map (samesLoop r.newStart r.oldStart r.size.toNat ++ ·) := by
  have hr : command .sames (outFoff r.newStart ++ (outFoff r.oldStart ++ (outFoff r.size ++ pat)))
      = some (samesLoop r.newStart r.oldStart r.size.toNat, pat) := by
    simp only [command, inFoff_outFoff, Option.bind_eq_bind, Option.bind_some]
  rw [List.cons_append, executeLoop, PatchCmd.ofByte_byte]
  simp only [List.append_assoc, hr]

theorem executeLoop_diffs (new : File) (r : Region) (n : ℕ) (pat : List UInt8) :
    executeLoop (n + 1) (PatchCmd.diffs.byte :: (outFoff r.newStart
        ++ (outFoff r.size ++ diffBytes new r.newStart r.size.toNat)) ++ pat)
      = (executeLoop n pat).map (outsLoop new r.newStart r.size.toNat ++ ·) := by
  have hr : command .diffs (outFoff r.newStart ++ (outFoff r.size
      ++ (diffBytes new r.newStart r.size.toNat ++ pat)))
      = some (outsLoop new r.newStart r.size.toNat, pat) := by
    simp only [command, inFoff_outFoff, Option.bind_eq_bind, Option.bind_some,
      diffsLoop_diffBytes]
  rw [List.cons_append, executeLoop, PatchCmd.ofByte_byte]
  simp only [List.append_assoc, hr]

theorem executeLoop_writeSimilars (similar : List Region) (n : ℕ) (pat : List UInt8) :
    executeLoop (similar.length + n) (writeSimilars similar ++ pat)
      = (executeLoop n pat).map (samesOf similar ++ ·) := by
  induction similar with
  | nil =>
    rw [List.length_nil, Nat.zero_add]
    exact Option.map_id'.symm
  | cons r rs ih =>
    rw [writeSimilars, List.flatMap_cons, List.append_assoc, List.length_cons,
      Nat.add_right_comm, executeLoop_sames]
    rw [writeSimilars] at ih
    rw [ih, Option.map_map]
    congr 1
    funext acc
    rw [Function.comp_apply, samesOf, samesOf, List.flatMap_cons, List.append_assoc]

theorem executeLoop_writeDiffs (new : File) (diffs : List Region) (n : ℕ) (pat : List UInt8) :
    executeLoop (diffs.length + n) (writeDiffs new diffs ++ pat)
      = (executeLoop n pat).map (outsOf new diffs ++ ·) := by
  induction diffs with
  | nil =>
    rw [List.length_nil, Nat.zero_add]
    exact Option.map_id'.symm
  | cons r rs ih =>
    rw [writeDiffs, List.flatMap_cons, List.append_assoc, List.length_cons,
      Nat.add_right_comm, executeLoop_diffs]
    rw [writeDiffs] at ih
    rw [ih, Option.map_map]
    congr 1
    funext acc
    rw [Function.comp_apply, outsOf, outsOf, List.flatMap_cons, List.append_assoc]

theorem length_le_flatMap {α : Type} (l : List α) {f : α → List UInt8}
    (h : ∀ a, 1 ≤ (f a).length) : l.length ≤ (l.flatMap f).length := by
  induction l with
  | nil => exact Nat.le_refl _
  | cons a l ih =>
    have ha := h a
    rw [List.flatMap_cons, List.length_append, List.length_cons]
    omega

/-- the accesses of a patch are those of its regions and of the distances that were kept -/
theorem execute_writePatch (new : File) (similar diffs : List Region) {holes : List Region}
    (hnz : ∀ h ∈ holes, h.diff ≠ 0) (hm : ∀ c ∈ commands holes, c.Moves) :
    execute (writePatch new similar diffs holes)
      = some (samesOf similar ++ (outsOf new diffs
        ++ (commands holes).flatMap (HoleCmd.accesses kept))) := by
  have h1 : similar.length ≤ (writeSimilars similar).length :=
    length_le_flatMap similar fun r => Nat.succ_le_succ (Nat.zero_le _)
  have h2 : diffs.length ≤ (writeDiffs new diffs).length :=
    length_le_flatMap diffs fun r => Nat.succ_le_succ (Nat.zero_le _)
  have h3 := length_le_bytes (commands holes)
  obtain ⟨n, hn, hl⟩ : ∃ n, (writePatch new similar diffs holes).length
      = similar.length + (diffs.length + n) ∧ (commands holes).length < n := by
    refine ⟨(writePatch new similar diffs holes).length - similar.length - diffs.length, ?_, ?_⟩
    all_goals
      rw [writePatch, processHoleArray_eq hnz, List.length_append, List.length_append,
        List.length_append, List.length_singleton]
      omega
  rw [execute, hn, writePatch, executeLoop_writeSimilars, executeLoop_writeDiffs,
    processHoleArray_eq hnz, executeLoop_cmds hm n hl]
  rfl

/-! ## holes that are put where they belong -/

theorem inNew_rebuild_holes {old f : File} {holes : List Region}
    (hd : holes.Pairwise HolesApart) {h : Region} (hh : h ∈ holes) :
    inNew (rebuild old f (holes.map Region.access)) h.newStart.toNat
      = inNew f h.newStart.toNat + h.diff := by
  induction holes generalizing f with
  | nil => exact absurd hh List.not_mem_nil
  | cons g gs ih =>
    obtain ⟨hg, hgs⟩ := List.pairwise_cons.mp hd
    rw [List.map_cons, rebuild_cons]
    rcases List.mem_cons.mp hh with rfl | hh
    · have hrest : inNew (rebuild old (h.access.apply old f) (gs.map Region.access))
          h.newStart.toNat = inNew (h.access.apply old f) h.newStart.toNat := by
        refine inNew_congr fun i hi => rebuild_of_not_touches fun a ha ht => ?_
        obtain ⟨x, hx, rfl⟩ := List.mem_map.mp ha
        obtain ⟨h1, h2⟩ := ht
        rcases hg x hx with h3 | h3 <;> omega
      rw [hrest]
      exact inNew_outNew _ _ _
    · rw [ih hgs hh]
      congr 1
      refine inNew_congr fun i hi => apply_of_not_touches fun ht => ?_
      obtain ⟨h1, h2⟩ := ht
      rcases hg h hh with h3 | h3 <;> omega

/-- no access to a byte outside the holes -/
theorem rebuild_holes_outside {old f : File} {holes : List Region} {p : ℕ}
    (hp : ∀ h ∈ holes, ¬ (h.newStart.toNat ≤ p ∧ p < h.newStart.toNat + 4)) :
    rebuild old f (holes.map Region.access) p = f p := by
  refine rebuild_of_not_touches fun a ha => ?_
  obtain ⟨x, hx, rfl⟩ := List.mem_map.mp ha
  exact hp x hx

/-! ## holes that a cut distance moves -/

/-- what the reader makes of the addition of a hole: it stays or moves by at least `2 ^ 22` -/
def Kept (h : Access) (a : Access) : Prop :=
  ∃ off off' diff, h = .hole off diff ∧ a = .hole off' diff ∧
    (off' = off ∨ off'.toNat + 2 ^ 22 ≤ off.toNat)

theorem Kept.refl (off diff : Foff) : Kept (.hole off diff) (.hole off diff) :=
  ⟨off, off, diff, rfl, rfl, Or.inl rfl⟩

theorem chainFrom_kept {diff : Foff} {off off' : Foff} {ds : List Foff}
    (ho : off' = off ∨ off'.toNat + 2 ^ 22 ≤ off.toNat)
    (h : off.toNat + (ds.map UInt32.toNat).sum < 2 ^ 32) :
    List.Forall₂ Kept (chainFrom id diff off ds) (chainFrom kept diff off' ds) := by
  induction ds generalizing off off' with
  | nil => exact .nil
  | cons d ds ih =>
    rw [List.map_cons, List.sum_cons] at h
    have hk := kept_toNat d
    have e1 : (off + d).toNat = off.toNat + d.toNat := by
      rw [UInt32.toNat_add]
      exact Nat.mod_eq_of_lt (by omega)
    have hle : off'.toNat ≤ off.toNat := by
      rcases ho with rfl | ho <;> omega
    have e2 : (off' + kept d).toNat = off'.toNat + (kept d).toNat := by
      rw [UInt32.toNat_add]
      exact Nat.mod_eq_of_lt (by omega)
    have hn : off' + kept d = off + d ∨ (off' + kept d).toNat + 2 ^ 22 ≤ (off + d).toNat := by
      rw [e1, e2]
      rcases ho with rfl | ho
      · by_cases hd : d.toNat < 2 ^ 22
        · left
          rw [UInt32.toNat_inj.mp (hk.trans (Nat.mod_eq_of_lt hd))]
        · right
          omega
      · right
        omega
    exact .cons ⟨off + d, off' + kept d, diff, rfl, rfl, hn⟩ (ih hn (by
      show (off + d).toNat + (ds.map UInt32.toNat).sum < 2 ^ 32
      omega))

theorem accesses_kept_of_climbs {c : HoleCmd} (hc : c.Climbs) :
    List.Forall₂ Kept (c.accesses id) (c.accesses kept) := by
  cases c with
  | iter start diff iters incr =>
    show List.Forall₂ Kept (iterLoop start diff incr iters.toNat)
      (iterLoop start diff incr iters.toNat)
    clear hc
    generalize iters.toNat = n
    induction n generalizing start with
    | zero => exact .nil
    | succ n ih => exact .cons (.refl start diff) (ih (start + incr))
  | chain start diff ds => exact .cons (.refl start diff) (chainFrom_kept (Or.inl rfl) hc.2)

theorem cmds_kept {cs : List HoleCmd} (hcs : ∀ c ∈ cs, c.Climbs) :
    List.Forall₂ Kept (cs.flatMap (HoleCmd.accesses id)) (cs.flatMap (HoleCmd.accesses kept)) := by
  induction cs with
  | nil => exact .nil
  | cons c cs ih =>
    rw [List.flatMap_cons, List.flatMap_cons]
    exact List.rel_append (accesses_kept_of_climbs (hcs c List.mem_cons_self))
      (ih fun x hx => hcs x (List.mem_cons_of_mem c hx))

/-- the last of the holes that moved is left without its addition -/
theorem exists_untouched {holes : List Region} {acc : List Access}
    (hd : holes.Pairwise HolesApart) (hk : List.Forall₂ Kept (holes.map Region.access) acc)
    (hne : holes.map Region.access ≠ acc) :
    ∃ h ∈ holes, ∀ i < 4, ∀ a ∈ acc, ¬ a.Touches (h.newStart.toNat + i) := by
  obtain ⟨hlen, hzip⟩ := List.forall₂_iff_zip.mp (List.forall₂_map_left_iff.mp hk)
  have hfst : (holes.zip acc).map Prod.fst = holes := List.map_fst_zip (Nat.le_of_eq hlen)
  have hsnd : (holes.zip acc).map Prod.snd = acc := List.map_snd_zip (Nat.le_of_eq hlen.symm)
  -- two pairs are the same or belong to holes apart
  have hpair : ∀ x ∈ holes.zip acc, ∀ y ∈ holes.zip acc, x = y ∨ HolesApart x.1 y.1 := by
    have hp : (holes.zip acc).Pairwise fun x y => HolesApart x.1 y.1 := by
      rw [← hfst] at hd
      exact List.pairwise_map.mp hd
    intro x hx y hy
    by_cases hxy : x = y
    · exact Or.inl hxy
    · have : Std.Symm fun x y : Region × Access => HolesApart x.1 y.1 :=
        ⟨fun _ _ h => HolesApart.symm h⟩
      exact Or.inr (hp.forall hx hy hxy)
  let moved : Set ℕ := {n | ∃ x ∈ holes.zip acc, x.1.access ≠ x.2 ∧ x.1.newStart.toNat = n}
  have hbdd : BddAbove moved := by
    refine ⟨2 ^ 32, ?_⟩
    rintro n ⟨x, -, -, rfl⟩
    exact Nat.le_of_lt x.1.newStart.toNat_lt
  have hsome : moved.Nonempty := by
    by_contra hx
    apply hne
    have hall : ∀ x ∈ holes.zip acc, x.1.access = x.2 := fun x hx' => by
      by_contra hc
      exact hx ⟨_, x, hx', hc, rfl⟩
    calc holes.map Region.access = ((holes.zip acc).map Prod.fst).map Region.access := by rw [hfst]
      _ = (holes.zip acc).map Prod.snd := by
        rw [List.map_map]
        exact List.map_congr_left hall
      _ = acc := hsnd
  obtain ⟨x, hx, hxne, hxn⟩ := Nat.sSup_mem hsome hbdd
  obtain ⟨off, off', diff, he, he', hoff⟩ := hzip (show (x.1, x.2) ∈ holes.zip acc from hx)
  have hmem : x.1 ∈ holes := by
    rw [← hfst]
    exact List.mem_map_of_mem hx
  refine ⟨x.1, hmem, fun i hi a ha ht => ?_⟩
  rw [← hsnd] at ha
  obtain ⟨y, hy, rfl⟩ := List.mem_map.mp ha
  obtain ⟨o, o', d, hye, hye', ho⟩ := hzip (show (y.1, y.2) ∈ holes.zip acc from hy)
  have hyo : y.1.newStart = o := (Access.hole.inj hye).1
  rw [hye'] at ht
  obtain ⟨h1, h2⟩ := ht
  by_cases hyn : y.1.access = y.2
  · -- `y` stayed, so it is another hole than `x`
    rcases hpair x hx y hy with rfl | hap
    · exact hxne hyn
    · have hoo : o' = o := by
        rw [hye, hye'] at hyn
        exact (Access.hole.inj hyn).1.symm
      rw [hoo, ← hyo] at h1 h2
      rcases hap with h3 | h3 <;> omega
  · -- `y` moved, from an offset that is not behind that of `x`
    have hle : y.1.newStart.toNat ≤ x.1.newStart.toNat := by
      rw [hxn]
      exact le_csSup hbdd ⟨y, hy, hyn, rfl⟩
    rcases ho with rfl | ho
    · exact hyn (hye.trans hye'.symm)
    · rw [← hyo] at ho
      omega

/-! ## the file that comes back -/

section
variable {old new init : File} {endNew : Foff} {similar diffs holes : List Region}

theorem Found.grouped (hf : Found old new endNew similar diffs holes) (hs : SortedHoles holes) :
    Grouped 0 0 holes [] (commands holes) := by
  have hd : (holes.map Region.newStart).Nodup := by
    refine List.pairwise_map.mpr (hf.holesDisjoint.imp fun h e => ?_)
    rw [HolesApart, e] at h
    omega
  have hg := grouped_group holes.length 0 0 (Nat.le_refl _) hf.differs (before_of_sorted hs hd)
    hf.inFile fun h hh e => absurd e (hf.differs h hh)
  rw [group_zero_fst holes.length 0 hf.differs] at hg
  exact hg

/-- the file that a written patch makes -/
def outcome (old new init : File) (similar diffs holes : List Region) : File :=
  rebuild old (beforeHoles old new init similar diffs)
    ((commands holes).flatMap (HoleCmd.accesses kept))

theorem Found.rebuilt_eq (hf : Found old new endNew similar diffs holes)
    (hs : SortedHoles holes) :
    rebuilt old init (writePatch new similar diffs holes)
      = some (outcome old new init similar diffs holes) := by
  have hm : ∀ c ∈ commands holes, c.Moves := by
    intro c hx
    cases c with
    | iter => exact fun d hd => absurd hd List.not_mem_nil
    | chain => exact ((hf.grouped hs).climbs.2 _ hx).1
  rw [rebuilt, execute_writePatch new similar diffs hf.differs hm, Option.map_some,
    rebuild_append, rebuild_append]
  rfl

/-- the new file comes back exactly when no coded distance reaches `2 ^ 22` -/
theorem Found.outcome_iff (hf : Found old new endNew similar diffs holes)
    (hs : SortedHoles holes) :
    (∀ p < endNew.toNat, outcome old new init similar diffs holes p = new p)
      ↔ NearHoles holes := by
  have hg := hf.grouped hs
  have hh : holes.map Region.access = (commands holes).flatMap (HoleCmd.accesses id) := hg.holes
  constructor
  · intro h
    by_contra hn
    rw [nearHoles_iff hf.differs] at hn
    simp only [not_forall] at hn
    obtain ⟨c, hcm, d, hdm, hge⟩ := hn
    have hlt := offsetSum_cmds_lt hg.climbs.2 ⟨c, hcm, d, hdm, hge⟩
    have hk := cmds_kept hg.climbs.2
    rw [← hh] at hk
    obtain ⟨x, hx, hu⟩ := exists_untouched hf.holesDisjoint hk fun e => by
      rw [← hh, e] at hlt
      exact absurd hlt (Nat.lt_irrefl _)
    -- the hole that nothing is added to still has its old word
    have hin := hf.inFile x hx
    have h1 : inNew (outcome old new init similar diffs holes) x.newStart.toNat
        = inNew old x.oldStart.toNat := by
      have hbefore : inNew (beforeHoles old new init similar diffs) x.newStart.toNat
          = inNew old x.oldStart.toNat := hf.beforeHoles_hole hx
      rw [← hbefore]
      exact inNew_congr fun i hi => rebuild_of_not_touches (hu i hi)
    have h2 : inNew (outcome old new init similar diffs holes) x.newStart.toNat
        = inNew new x.newStart.toNat := inNew_congr fun i hi => h _ (by omega)
    obtain ⟨r, -, hl⟩ := hf.liesIn x hx
    rw [h2, hl.word] at h1
    exact hf.differs x hx (add_eq_left.mp h1)
  · intro hn p hp
    have hacc : (commands holes).flatMap (HoleCmd.accesses kept) = holes.map Region.access := by
      rw [hh]
      exact List.flatMap_congr fun c hcm =>
        accesses_kept ((nearHoles_iff hf.differs).mp hn c hcm)
    rw [outcome, hacc]
    by_cases hx : ∃ h ∈ holes, h.newStart.toNat ≤ p ∧ p < h.newStart.toNat + 4
    · obtain ⟨x, hx, h1, h2⟩ := hx
      obtain ⟨r, -, hl⟩ := hf.liesIn x hx
      have hw : inNew (rebuild old (beforeHoles old new init similar diffs)
          (holes.map Region.access)) x.newStart.toNat = inNew new x.newStart.toNat := by
        rw [inNew_rebuild_holes hf.holesDisjoint hx, hf.beforeHoles_hole hx, hl.word]
      have hb := inNew_inj hw (p - x.newStart.toNat) (by omega)
      rwa [Nat.add_sub_cancel' h1] at hb
    · have ho : ∀ h ∈ holes, ¬ (h.newStart.toNat ≤ p ∧ p < h.newStart.toNat + 4) :=
        fun h hh' hc => hx ⟨h, hh', hc⟩
      rw [rebuild_holes_outside ho]
      exact hf.beforeHoles_same hp ho

end

end Bdiff
