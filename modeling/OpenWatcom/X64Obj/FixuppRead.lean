import OpenWatcom.X64Obj.OmfFormat

/-!
# The cursor on one FIXUPP subrecord

The subrecord `s` stands at the end of `a`.

* `Subrec.IsExact`, `fixNext_iff`   when the cursor passes over exactly the bytes of `s`;
* `fixupStep_thread`, `fixupStep_fixup`   what it records there.
-/

namespace X64Obj
open Bytes

/-! ## the fields of a FIXUP -/

theorem shr_toNat (u : UInt8) (k : Nat) (h : k < 8) :
    (u >>> UInt8.ofNat k).toNat = u.toNat / 2 ^ k := by
  rw [UInt8.toNat_shiftRight, Nat.shiftRight_eq_div_pow, UInt8.toNat_ofNat_of_lt'
    (by show k < 256; omega), Nat.mod_eq_of_lt h]

theorem and_low (u : UInt8) (k : Nat) (h : k < 8) :
    (u &&& UInt8.ofNat (2 ^ k - 1)).toNat = u.toNat % 2 ^ k := by
  have hk : 2 ^ k - 1 < UInt8.size := by
    have : (2 : Nat) ^ k ≤ 2 ^ 8 := Nat.pow_le_pow_right (by decide) h.le
    show _ < 256
    omega
  rw [UInt8.toNat_and, UInt8.toNat_ofNat_of_lt' hk, Nat.and_two_pow_sub_one_eq_mod]

/-- method and index of a target given in the subrecord itself -/
def Target.datum : Target → Option (Nat × Index)
  | .thread _ => none
  | .segment x => some (0, x)
  | .group x => some (1, x)
  | .external x => some (2, x)

theorem Frame.nibble_lt (f : Frame) : f.nibble < 12 := by
  cases f with
  | thread num => have := num.isLt; show 8 + num.val < 12; omega
  | datum method x => have := method.isLt; show method.val < 12; omega
  | location => decide
  | target => decide

theorem Target.bits_lt (t : Target) : t.bits < 12 ∧ t.bits / 4 % 2 = 0 := by
  cases t with
  | thread num =>
    have := num.isLt
    show 8 + num.val < 12 ∧ (8 + num.val) / 4 % 2 = 0
    omega
  | segment x => exact ⟨show 0 < 12 by decide, show 0 / 4 % 2 = 0 from rfl⟩
  | group x => exact ⟨show 1 < 12 by decide, show 1 / 4 % 2 = 0 from rfl⟩
  | external x => exact ⟨show 2 < 12 by decide, show 2 / 4 % 2 = 0 from rfl⟩

/-- the fix data byte -/
def fixDat (frame : Frame) (target : Target) (disp : Option Nat) : Nat :=
  16 * frame.nibble + target.bits + if disp.isSome then 0 else 4

theorem fixDat_lt (frame : Frame) (target : Target) (disp : Option Nat) :
    fixDat frame target disp < 256 := by
  have h1 := frame.nibble_lt
  have h2 := target.bits_lt.1
  rw [fixDat]
  split <;> omega

section
variable {omf a b : List UInt8} {wide mode : Bool} {loc : Fin 16} {off : Fin 1024} {frame : Frame}
  {target : Target} {disp : Option Nat}
  (e : omf = a ++ ((Subrec.fixup mode loc off frame target disp).bytes wide ++ b))
include e

theorem fixup_first :
    (byteAt omf a.length).toNat = 0x80 + (if mode then 0x40 else 0) + 4 * loc + off / 256 := by
  have h := byteAt_mid a ((Subrec.fixup mode loc off frame target disp).bytes wide ++ b) 0
  have h1 := loc.isLt
  have h2 := off.isLt
  rw [Nat.add_zero] at h
  rw [e, h]
  refine UInt8.toNat_ofNat_of_lt' ?_
  show _ < 256
  split <;> omega

theorem fixup_second : (byteAt omf (a.length + 1)).toNat = off % 256 := by
  rw [e, byteAt_mid]
  exact UInt8.toNat_ofNat' ..

theorem fixup_third : (byteAt omf (a.length + 2)).toNat = fixDat frame target disp := by
  rw [e, byteAt_mid]
  exact UInt8.toNat_ofNat_of_lt' (fixDat_lt frame target disp)

/-- what stands behind the fix data byte -/
theorem fixup_split : ∃ a', a'.length = a.length + 3 ∧
    omf = a' ++ (frame.bytes ++ (target.bytes ++ (dispBytes wide disp ++ b))) := by
  refine ⟨a ++ [UInt8.ofNat (0x80 + (if mode then 0x40 else 0) + 4 * loc + off / 256),
    UInt8.ofNat off, UInt8.ofNat (16 * frame.nibble + target.bits + if disp.isSome then 0 else 4)],
    by simp, ?_⟩
  rw [e, Subrec.bytes]
  simp

theorem fixup_isThread : isThread omf a.length = false := by
  rw [isThread, decide_eq_false_iff_not, ← ne_eq, and_80, fixup_first e]
  omega

theorem fixup_offset : fixOffset omf a.length = off := by
  have h : (byteAt omf a.length &&& 0x03).toNat = (byteAt omf a.length).toNat % 4 :=
    and_low (byteAt omf a.length) 2 (by decide)
  have h1 := loc.isLt
  have h2 := off.isLt
  rw [fixOffset, h, fixup_first e, fixup_second e]
  split <;> omega

/-- the frame bits of the fix data byte -/
theorem fixup_frame : (byteAt omf (a.length + 2) >>> 7 = 0 ∧
      (byteAt omf (a.length + 2) >>> 4) &&& 7 ≤ 3) ↔ frame.nibble < 4 := by
  have h3 := fixup_third e
  have hn := frame.nibble_lt
  generalize byteAt omf (a.length + 2) = u at *
  have h7 := shr_toNat u 7 (by decide)
  have h4 := shr_toNat u 4 (by decide)
  have h := and_low (u >>> 4) 3 (by decide)
  rw [show (u >>> 4).toNat = _ from h4, h3] at h
  have hsixteen : fixDat frame target disp / 16 = frame.nibble := by
    have hbits := target.bits_lt.1
    rw [fixDat]
    split <;> omega
  rw [← UInt8.toNat_inj, UInt8.le_iff_toNat_le, show (u >>> 7).toNat = _ from h7,
    show (u >>> 4 &&& 7).toNat = _ from h, h3]
  show fixDat frame target disp / 128 = 0 ∧ fixDat frame target disp / 16 % 8 ≤ 3 ↔ _
  omega

theorem fixup_frameLen : frameLen omf a.length = frame.bytes.length := by
  have hframe := fixup_frame e
  obtain ⟨a', ha', e'⟩ := fixup_split e
  rw [frameLen]
  cases frame with
  | thread num =>
    rw [if_neg]
    · rfl
    rw [hframe]
    show ¬ 8 + num.val < 4
    omega
  | datum method x =>
    have hm := method.isLt
    have hfirst := x.first (target.bytes ++ (dispBytes wide disp ++ b))
    have hbyte : byteAt omf (a.length + 3)
        = byteAt (x.bytes ++ (target.bytes ++ (dispBytes wide disp ++ b))) 0 := by
      rw [e', ← ha']
      exact byteAt_mid a' _ 0
    rw [if_pos (hframe.mpr (by show method.val < 4; omega)), hbyte]
    show _ = x.bytes.length
    rw [Index.bytes_length]
    cases h : x.two with
    | true =>
      rw [if_pos (hfirst.mpr h)]
      rfl
    | false =>
      rw [if_neg (fun e => by rw [hfirst.mp e] at h; exact absurd h (by decide))]
      rfl
  | location =>
    rw [if_neg]
    · rfl
    rw [hframe]
    decide
  | target =>
    rw [if_neg]
    · rfl
    rw [hframe]
    decide

theorem fixup_dispLen : dispLen omf wide a.length = (dispBytes wide disp).length := by
  have h3 := fixup_third e
  have hbits := target.bits_lt
  rw [dispLen]
  generalize byteAt omf (a.length + 2) = u at *
  have h2 := shr_toNat u 2 (by decide)
  have h := and_low (u >>> 2) 1 (by decide)
  rw [show (u >>> 2).toNat = _ from h2, h3] at h
  have hcond : u >>> 2 &&& 1 = 0 ↔ disp.isSome = true := by
    rw [← UInt8.toNat_inj, show (u >>> 2 &&& 1).toNat = _ from h, fixDat]
    show _ = 0 ↔ _
    cases disp with
    | none =>
      simp only [Option.isSome_none, Bool.false_eq_true, if_false, iff_false]
      omega
    | some d =>
      simp only [Option.isSome_some, if_true, iff_true]
      omega
  cases disp with
  | none =>
    rw [if_neg (by rw [hcond]; decide)]
    rfl
  | some d =>
    rw [if_pos (hcond.mpr rfl), dispBytes, leBytes_length]

theorem fixup_method : ((byteAt omf (a.length + 2)) &&& 3).toNat = target.bits % 4 := by
  have h := and_low (byteAt omf (a.length + 2)) 2 (by decide)
  rw [fixup_third e] at h
  refine Eq.trans h ?_
  rw [fixDat]
  split <;> omega

/-- the target index, if the FIXUP has one -/
theorem fixup_targetAt {method : Nat} {x : Index} (ht : target.datum = some (method, x)) :
    targetAt omf a.length = (x.val, x.bytes.length) := by
  obtain ⟨a', ha', e'⟩ := fixup_split e
  have hb : target.bytes = x.bytes := by
    cases target with
    | thread num => exact absurd ht (by simp [Target.datum])
    | _ y =>
      simp only [Target.datum, Option.some.injEq, Prod.mk.injEq] at ht
      rw [← ht.2]
      rfl
  have h := x.read (a' ++ frame.bytes) (dispBytes wide disp ++ b)
  rw [← hb, List.append_assoc, ← e', List.length_append, ha'] at h
  rw [targetAt, fixup_frameLen e, h, hb]

end

/-! ## the cursor -/

theorem targetAt_pos (omf : List UInt8) (j : Nat) : 0 < (targetAt omf j).2 := by
  rw [targetAt, indexAt]
  split
  · exact Nat.succ_pos 1
  · exact Nat.succ_pos 0

/-- the cursor passes over exactly the bytes of the subrecord -/
def Subrec.IsExact : Subrec → Prop
  | .thread _ _ _ x => x.two = true
  | .bareThread .. => False
  | .fixup _ _ _ _ target _ => target.datum.isSome = true

instance (s : Subrec) : Decidable s.IsExact := by
  cases s <;> unfold Subrec.IsExact <;> infer_instance

section
variable {omf a b : List UInt8} {wide : Bool}

theorem byteAt_of_cons {u : UInt8} {rest : List UInt8} (e : omf = a ++ ((u :: rest) ++ b)) :
    byteAt omf a.length = u := by
  have h := byteAt_mid a ((u :: rest) ++ b) 0
  rw [Nat.add_zero, ← e] at h
  exact h

theorem thread_isThread {frame : Bool} {method : Fin 3} {num : Fin 4} {x : Index}
    (e : omf = a ++ ((Subrec.thread frame method num x).bytes wide ++ b)) :
    isThread omf a.length = true := by
  have hm := method.isLt
  have hn := num.isLt
  rw [isThread, decide_eq_true_iff, byteAt_of_cons e, ← not_ne_iff, and_80,
    UInt8.toNat_ofNat_of_lt']
  · split <;> omega
  · show _ < 256
    split <;> omega

theorem bareThread_isThread {toTarget : Bool} {num : Fin 4}
    (e : omf = a ++ ((Subrec.bareThread toTarget num).bytes wide ++ b)) :
    isThread omf a.length = true := by
  have hn := num.isLt
  rw [isThread, decide_eq_true_iff, byteAt_of_cons e, ← not_ne_iff, and_80,
    UInt8.toNat_ofNat_of_lt']
  · split <;> omega
  · show _ < 256
    split <;> omega

/-- the cursor passes over exactly the bytes of the subrecord: a THREAD of three bytes, or a FIXUP
that gives its target -/
theorem fixNext_iff {s : Subrec} (e : omf = a ++ (s.bytes wide ++ b)) :
    fixNext omf wide a.length = a.length + (s.bytes wide).length ↔ s.IsExact := by
  cases s with
  | thread frame method num x =>
    rw [fixNext, if_pos (thread_isThread e), Subrec.bytes, List.length_cons, Index.bytes_length,
      Subrec.IsExact]
    cases x.two <;> simp
  | bareThread toTarget num =>
    rw [fixNext, if_pos (bareThread_isThread e), Subrec.IsExact, iff_false]
    show ¬ a.length + 3 = a.length + 1
    omega
  | fixup mode loc off frame target disp =>
    have hlen : ((Subrec.fixup mode loc off frame target disp).bytes wide).length
        = 3 + frame.bytes.length + target.bytes.length + (dispBytes wide disp).length := by
      simp only [Subrec.bytes, List.length_cons, List.length_append]
      omega
    rw [fixNext, if_neg (by rw [fixup_isThread e]; decide), fixup_frameLen e, fixup_dispLen e, hlen,
      Subrec.IsExact]
    cases hd : target.datum with
    | none =>
      have hpos := targetAt_pos omf a.length
      have hb : target.bytes.length = 0 := by
        cases target with
        | thread num => rfl
        | _ y => exact absurd hd (by simp [Target.datum])
      simp only [Option.isSome_none, Bool.false_eq_true, iff_false]
      omega
    | some datum =>
      obtain ⟨method, x⟩ := datum
      have hb : target.bytes = x.bytes := by
        cases target with
        | thread num => exact absurd hd (by simp [Target.datum])
        | _ y =>
          simp only [Target.datum, Option.some.injEq, Prod.mk.injEq] at hd
          rw [← hd.2]
          rfl
      rw [fixup_targetAt e hd, hb]
      simp only [Option.isSome_some, iff_true]
      omega

/-! ## what is recorded -/

theorem fixupStep_thread (n : Nat) (c : Chunk) (r : Relocs) {j : Nat} (h : isThread omf j = true) :
    fixupStep omf n c r j = r := by
  rw [fixupStep, if_pos h]

/-- what a FIXUP that gives its target adds -/
theorem fixupStep_fixup (n : Nat) (c : Chunk) (r : Relocs) {mode : Bool} {loc : Fin 16}
    {off : Fin 1024} {frame : Frame} {target : Target} {disp : Option Nat}
    (e : omf = a ++ ((Subrec.fixup mode loc off frame target disp).bytes wide ++ b))
    {method : Nat} {x : Index} (ht : target.datum = some (method, x)) :
    fixupStep omf n c r a.length =
      if c.isText = false then
        if r.dfixups.length < 256 then
          { r with dfixups := r.dfixups ++ [⟨c.dbase + off.val,
              if method = 2 ∧ 0 < x.val ∧ x.val ≤ n then (x.val : Int) - 1 else -1,
              if method = 2 then 0 else x.val⟩] }
        else r
      else if method = 2 ∧ 0 < x.val ∧ x.val ≤ n then
        { r with fixups := r.fixups ++ [⟨(c.base + off.val : Nat), (x.val : Int) - 1, 0⟩] }
      else if method = 2 then r
      else { r with fixups := r.fixups ++ [⟨(c.base + off.val : Nat), -1, x.val⟩] } := by
  have hm := fixup_method e
  have hbits : target.bits % 4 = method ∧ method < 3 := by
    cases target with
    | thread num => exact absurd ht (by simp [Target.datum])
    | _ y =>
      simp only [Target.datum, Option.some.injEq, Prod.mk.injEq] at ht
      rw [← ht.1]
      exact ⟨rfl, by decide⟩
  rw [hbits.1] at hm
  have h2 : byteAt omf (a.length + 2) &&& 3 = 2 ↔ method = 2 := by
    rw [← UInt8.toNat_inj, hm]
    rfl
  have h01 : (byteAt omf (a.length + 2) &&& 3 = 0 ∨ byteAt omf (a.length + 2) &&& 3 = 1) ↔
      ¬ method = 2 := by
    rw [← UInt8.toNat_inj, ← UInt8.toNat_inj, hm]
    show method = 0 ∨ method = 1 ↔ _
    omega
  rw [fixupStep, if_neg (by rw [fixup_isThread e]; decide), fixup_targetAt e ht, fixup_offset e]
  simp only [h2, h01]
  cases c.isText with
  | false => simp
  | true =>
    by_cases hx : method = 2 <;> simp [hx]

end

end X64Obj
