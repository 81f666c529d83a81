import OpenWatcom.X64Obj.Elf

/-!
# What every parsed object satisfies

* `pass1_named`   no name contains a NUL;
* `pass1b_bounded`   a fixup that refers to an external has its index in the table;
* `finish_pubs_named`, `finish_exts_named`, `finish_fixups_bounded`, `finish_dfixups_bounded`   the
  same of the tables the writer starts from.
-/

namespace X64Obj
open Bytes

/-! ## names -/

theorem cstr_nul (n : List UInt8) : (0 : UInt8) ∉ cstr n := by
  intro h
  have := List.mem_takeWhile_imp h
  simp at this

theorem symName_nul (omf : List UInt8) (j nl : Nat) : (0 : UInt8) ∉ symName omf j nl :=
  cstr_nul _

/-- no name in the tables contains a NUL -/
def Named (im : Image) : Prop :=
  (∀ p ∈ im.pubs, (0 : UInt8) ∉ p.name) ∧ ∀ e ∈ im.exts, (0 : UInt8) ∉ e

theorem pubLoop_named (omf : List UInt8) (stop : Nat) (wide isLocal : Bool) (seg f j : Nat)
    (pubs : List Pub) (h : ∀ p ∈ pubs, (0 : UInt8) ∉ p.name) :
    ∀ p ∈ pubLoop omf stop wide isLocal seg f j pubs, (0 : UInt8) ∉ p.name := by
  induction f generalizing j pubs with
  | zero => exact h
  | succ f ih =>
    rw [pubLoop]
    split
    · dsimp only
      split
      · exact h
      · apply ih
        intro p hp
        rcases List.mem_append.mp hp with hp | hp
        · exact h p hp
        · rw [List.mem_singleton.mp hp]
          exact symName_nul omf _ _
    · exact h

theorem extLoop_named (omf : List UInt8) (stop f j : Nat) (exts : List (List UInt8))
    (h : ∀ e ∈ exts, (0 : UInt8) ∉ e) : ∀ e ∈ extLoop omf stop f j exts, (0 : UInt8) ∉ e := by
  induction f generalizing j exts with
  | zero => exact h
  | succ f ih =>
    rw [extLoop]
    split
    · dsimp only
      split
      · apply ih
        intro e he
        rcases List.mem_append.mp he with he | he
        · exact h e he
        · rw [List.mem_singleton.mp he]
          exact symName_nul omf _ _
      · exact ih _ _ h
    · exact h

theorem ledataStep_tables (omf : List UInt8) (s : Segs) (im : Image) (i : Nat) :
    (ledataStep omf s im i).pubs = im.pubs ∧ (ledataStep omf s im i).exts = im.exts := by
  unfold ledataStep
  dsimp only
  split
  · split
    · exact ⟨rfl, rfl⟩
    · split <;> exact ⟨rfl, rfl⟩
  · exact ⟨rfl, rfl⟩

theorem pass1Step_named (omf : List UInt8) (s : Segs) (im : Image) (i : Nat) (h : Named im) :
    Named (pass1Step omf s im i) := by
  unfold pass1Step
  split
  · obtain ⟨h1, h2⟩ := ledataStep_tables omf s im i
    rw [Named, h1, h2]
    exact h
  · split
    · exact ⟨pubLoop_named omf _ _ _ _ _ _ _ h.1, h.2⟩
    · split
      · exact ⟨h.1, extLoop_named omf _ _ _ _ h.2⟩
      · exact h

theorem pass1_named (omf : List UInt8) (s : Segs) : Named (pass1 omf s) := by
  refine List.foldlRecOn (recPositions omf) (pass1Step omf s) ?_ ?_
  · constructor <;> intro x hx <;> exact absurd hx List.not_mem_nil
  · intro im h i _
    exact pass1Step_named omf s im i h

/-! ## fixups -/

/-- a reference to an external has its index below `n` -/
def ExtBounded (n : Nat) (f : FixupRec) : Prop := 0 ≤ f.extIdx → f.extIdx.toNat < n

def Bounded (n : Nat) (r : Relocs) : Prop :=
  (∀ f ∈ r.fixups, ExtBounded n f) ∧ ∀ f ∈ r.dfixups, ExtBounded n f

theorem fixupStep_bounded (omf : List UInt8) (n : Nat) (c : Chunk) (r : Relocs) (j : Nat)
    (h : Bounded n r) : Bounded n (fixupStep omf n c r j) := by
  unfold fixupStep
  split
  · exact h
  · dsimp only
    split
    · split
      · refine ⟨h.1, fun f hf => ?_⟩
        rcases List.mem_append.mp hf with hf | hf
        · exact h.2 f hf
        · rw [List.mem_singleton.mp hf, ExtBounded]
          dsimp only
          split <;> omega
      · exact h
    · split
      · refine ⟨fun f hf => ?_, h.2⟩
        rcases List.mem_append.mp hf with hf | hf
        · exact h.1 f hf
        · rw [List.mem_singleton.mp hf, ExtBounded]
          dsimp only
          omega
      · split
        · refine ⟨fun f hf => ?_, h.2⟩
          rcases List.mem_append.mp hf with hf | hf
          · exact h.1 f hf
          · rw [List.mem_singleton.mp hf, ExtBounded]
            dsimp only
            omega
        · exact h

theorem fixupLoop_bounded (omf : List UInt8) (wide : Bool) (n : Nat) (c : Chunk) (stop f j : Nat)
    (r : Relocs) (h : Bounded n r) : Bounded n (fixupLoop omf wide n c stop f j r) := by
  induction f generalizing j r with
  | zero => exact h
  | succ f ih =>
    rw [fixupLoop]
    split
    · exact ih _ _ (fixupStep_bounded omf n c r j h)
    · exact h

theorem pass1b_bounded (omf : List UInt8) (s : Segs) (im : Image) :
    Bounded im.exts.length (pass1b omf s im) := by
  refine List.foldlRecOn (motive := fun st : Chunk × Relocs => Bounded im.exts.length st.2)
    (recPositions omf) (pass1bStep omf s im) ?_ ?_
  · constructor <;> intro x hx <;> exact absurd hx List.not_mem_nil
  · intro st h i _
    unfold pass1bStep
    dsimp only
    split
    · exact fixupLoop_bounded omf _ _ _ _ _ _ _ h
    · exact h

/-! ## the tables the writer starts from -/

theorem adjustPub_name (len : Nat) (offsetMap : Nat → Int) (p : Pub) :
    (adjustPub len offsetMap p).name = p.name := by
  unfold adjustPub
  split <;> rfl

theorem adjustFixup_extIdx (len : Nat) (offsetMap : Nat → Int) (f : FixupRec) :
    (adjustFixup len offsetMap f).extIdx = f.extIdx := by
  unfold adjustFixup
  split <;> rfl

theorem finish_pubs_named (omf : List UInt8) : ∀ p ∈ (finish omf).pubs, (0 : UInt8) ∉ p.name := by
  intro p hp
  obtain ⟨p', hp', rfl⟩ := List.mem_map.mp hp
  rw [adjustPub_name]
  exact (pass1_named omf (pass0 omf)).1 p' hp'

theorem finish_exts_named (omf : List UInt8) : ∀ e ∈ (finish omf).exts, (0 : UInt8) ∉ e :=
  (pass1_named omf (pass0 omf)).2

theorem finish_fixups_bounded (omf : List UInt8) :
    ∀ f ∈ (finish omf).fixups, ExtBounded (finish omf).exts.length f := by
  intro f hf
  obtain ⟨f', hf', rfl⟩ := List.mem_map.mp hf
  rw [ExtBounded, adjustFixup_extIdx]
  exact (pass1b_bounded omf (pass0 omf) (pass1 omf (pass0 omf))).1 f' hf'

theorem finish_dfixups_bounded (omf : List UInt8) :
    ∀ f ∈ (finish omf).dfixups, ExtBounded (finish omf).exts.length f :=
  (pass1b_bounded omf (pass0 omf) (pass1 omf (pass0 omf))).2

/-- every fixup of the text has its `fixup_orig_off` -/
theorem finish_origOff_length (omf : List UInt8) :
    (finish omf).fixupOrigOff.length = (finish omf).fixups.length := by
  show (List.map _ _).length = (List.map _ _).length
  rw [List.length_map, List.length_map]

end X64Obj
