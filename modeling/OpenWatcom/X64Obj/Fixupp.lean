import OpenWatcom.X64Obj.FixuppRead
import OpenWatcom.X64Obj.OmfRecords

/-!
# The FIXUPP loop of Pass 1b

* `fixupVisits`      the subrecords the loop stands on;
* `SubCarried`, `AllCarried`   each subrecord is passed over exactly, a FIXUP of an external or a
  segment yields one entry, and an external its own name;
* `AllFit`             the subrecords the loop can deal with, and how many;
* `sub_iff`, `visits_iff`, `carried_iff`   a subrecord, a record and an object are carried exactly
  when they fit.
-/

namespace X64Obj
open Bytes Stride

/-! ## what should hold -/

/-- one entry more for the text or for the data -/
def Relocs.push (r : Relocs) (isText : Bool) (f : FixupRec) : Relocs :=
  if isText then { r with fixups := r.fixups ++ [f] } else { r with dfixups := r.dfixups ++ [f] }

/-- where offset `off` of the chunk lies in its image -/
def Chunk.loc (c : Chunk) (off : Nat) : Int :=
  if c.isText then (c.base + off : Nat) else c.dbase + off

/-- what a subrecord adds to the relocations; a FIXUP of a group may add anything -/
def Yields (c : Chunk) (r r' : Relocs) : Subrec → Prop
  | .fixup _ _ off _ (.external x) _ => r' = r.push c.isText ⟨c.loc off.val, (x.val : Int) - 1, 0⟩
  | .fixup _ _ off _ (.segment x) _ => r' = r.push c.isText ⟨c.loc off.val, -1, x.val⟩
  | .fixup .. => True
  | _ => r' = r

/-- the external of a FIXUP, if it has one, satisfies `named` -/
def Attributed (named : Index → Prop) : Subrec → Prop
  | .fixup _ _ _ _ (.external x) _ => named x
  | _ => True

section
variable (omf : List UInt8) (wide : Bool) (n : Nat) (c : Chunk)

/-- the subrecords `fixupLoop` stands on, each with what has been recorded before -/
def fixupVisits (stop : Nat) : Nat → Nat → Relocs → List (Nat × Relocs)
  | 0, _, _ => []
  | f + 1, j, r =>
    if j < stop ∧ r.fixups.length < 256 then
      (j, r) :: fixupVisits stop f (fixNext omf wide j) (fixupStep omf n c r j)
    else []

/-- `fixupLoop` records what its steps at these subrecords record -/
theorem fixupLoop_visits (stop f j : Nat) (r : Relocs) :
    fixupLoop omf wide n c stop f j r
      = (fixupVisits omf wide n c stop f j r).foldl (fun r v => fixupStep omf n c r v.1) r := by
  induction f generalizing j r with
  | zero => rfl
  | succ f ih =>
    rw [fixupLoop, fixupVisits]
    split
    · rw [List.foldl_cons, ih]
    · rfl

/-- the subrecords of a record that begin at `p`, each with its position -/
def located : Nat → List Subrec → List (Nat × Subrec)
  | _, [] => []
  | p, s :: subs => (p, s) :: located (p + (s.bytes wide).length) subs

/-- the loop stands on the subrecord, passes over exactly its bytes, and records what it says -/
def SubCarried (named : Index → Prop) (v : Nat × Relocs) (x : Nat × Subrec) : Prop :=
  v.1 = x.1 ∧ fixNext omf wide v.1 = x.1 + (x.2.bytes wide).length ∧
    Yields c v.2 (fixupStep omf n c v.2 v.1) x.2 ∧ Attributed named x.2

end

/-- the loop stands on every subrecord of the FIXUPP record at `k` and on nothing else -/
def RecCarried (omf : List UInt8) (named : Index → Prop) (k : Nat) (wide : Bool)
    (subs : List Subrec) : Prop :=
  let n := (parse omf).image.exts.length
  let st := relocsAt omf k
  List.Forall₂ (SubCarried omf wide n st.1 named)
    (fixupVisits omf wide n st.1 (recEnd omf k) (recLen omf k) (k + 3) st.2)
    (located wide (k + 3) subs)

/-- every FIXUPP record of the object is carried -/
def AllCarried (recs : List Rec) (named : Index → Prop) : Prop :=
  ∀ pre r post wide subs, recs = pre ++ r :: post → r.item = .fixupp wide subs →
    RecCarried (objectOf recs) named (objectOf pre).length wide subs

/-! ## what the loop can deal with -/

/-- what a FIXUP is relative to, and how many there were -/
structure Tally where
  isText : Bool
  text : Nat
  data : Nat

def Tally.sub (t : Tally) : Subrec → Tally
  | .fixup .. => if t.isText then { t with text := t.text + 1 } else { t with data := t.data + 1 }
  | _ => t

def Tally.record (s : Segs) (t : Tally) (r : Rec) : Tally :=
  match r.item with
  | .ledata _ seg _ _ => { t with isText := seg.val = s.textSegIdx }
  | .fixupp _ subs => subs.foldl Tally.sub t
  | _ => t

/-- a FIXUP of an external or a segment -/
def Subrec.IsRelocated : Subrec → Prop
  | .fixup _ _ _ _ (.external _) _ => True
  | .fixup _ _ _ _ (.segment _) _ => True
  | _ => False

instance (s : Subrec) : Decidable s.IsRelocated := by
  unfold Subrec.IsRelocated
  split <;> infer_instance

instance (named : Index → Prop) [DecidablePred named] (s : Subrec) :
    Decidable (Attributed named s) := by
  unfold Attributed
  split <;> infer_instance

def SubFits (named : Index → Prop) (t : Tally) (s : Subrec) : Prop :=
  s.IsExact ∧ (t.isText = false → s.IsRelocated → t.data < 256) ∧ Attributed named s

/-- no THREAD of another length than three, no FIXUP with a target thread, fewer than 256 FIXUPs
of the text before each subrecord and fewer than 256 of the data before one of these -/
def SubsFit (named : Index → Prop) : Tally → List Subrec → Prop
  | _, [] => True
  | t, s :: subs => t.text < 256 ∧ SubFits named t s ∧ SubsFit named (t.sub s) subs

def RecFits (named : Index → Prop) (t : Tally) (r : Rec) : Prop :=
  match r.item with
  | .fixupp _ subs => SubsFit named t subs
  | _ => True

def RecsFit (named : Index → Prop) (s : Segs) : Tally → List Rec → Prop
  | _, [] => True
  | t, r :: recs => RecFits named t r ∧ RecsFit named s (t.record s r) recs

def AllFit (recs : List Rec) (named : Index → Prop) : Prop :=
  RecsFit named (pass0 (objectOf recs)) ⟨true, 0, 0⟩ recs

section
variable (named : Index → Prop) [DecidablePred named]

instance (t : Tally) (s : Subrec) : Decidable (SubFits named t s) :=
  inferInstanceAs (Decidable (_ ∧ _ ∧ _))

def decSubsFit : (t : Tally) → (subs : List Subrec) → Decidable (SubsFit named t subs)
  | _, [] => .isTrue trivial
  | t, s :: subs =>
    have := decSubsFit (t.sub s) subs
    inferInstanceAs (Decidable (_ ∧ _ ∧ _))

instance (t : Tally) (subs : List Subrec) : Decidable (SubsFit named t subs) :=
  decSubsFit named t subs

instance (t : Tally) (r : Rec) : Decidable (RecFits named t r) := by
  unfold RecFits
  split <;> infer_instance

def decRecsFit (s : Segs) : (t : Tally) → (recs : List Rec) → Decidable (RecsFit named s t recs)
  | _, [] => .isTrue trivial
  | t, r :: recs =>
    have := decRecsFit s (t.record s r) recs
    inferInstanceAs (Decidable (_ ∧ _))

instance (recs : List Rec) : Decidable (AllFit recs named) := decRecsFit named _ _ recs

end

/-! ## one subrecord -/

/-- the tally counts what has been recorded -/
def Agrees (c : Chunk) (r : Relocs) (t : Tally) : Prop :=
  c.isText = t.isText ∧ r.fixups.length = t.text ∧ r.dfixups.length = min 256 t.data

section
variable {omf a b : List UInt8} {wide : Bool} {n : Nat} {c : Chunk} {r : Relocs} {t : Tally}
  {named : Index → Prop}

theorem push_ne (f : FixupRec) (isText : Bool) : r ≠ r.push isText f := by
  intro h
  cases isText with
  | true =>
    have := congrArg (fun x => x.fixups.length) h
    simp [Relocs.push] at this
  | false =>
    have := congrArg (fun x => x.dfixups.length) h
    simp [Relocs.push] at this

/-- a subrecord is carried exactly when it fits -/
theorem sub_iff {s : Subrec} (e : omf = a ++ (s.bytes wide ++ b)) (ht : Agrees c r t)
    (hn : ∀ x, named x → 0 < x.val ∧ x.val ≤ n) :
    SubCarried omf wide n c named (a.length, r) (a.length, s) ↔ SubFits named t s := by
  obtain ⟨h1, _, h3⟩ := ht
  have hnext := fixNext_iff e
  rw [SubCarried, SubFits]
  dsimp only
  rw [hnext]
  simp only [true_and]
  refine and_congr_right ?_
  intro hex
  cases s with
  | thread frame method num x =>
    rw [fixupStep_thread n c r (thread_isThread e)]
    simp [Yields, Attributed, Subrec.IsRelocated]
  | bareThread toTarget num => exact absurd hex id
  | fixup mode loc off frame target disp =>
    have hstep := fun (method : Nat) (x : Index) (ht : target.datum = some (method, x)) =>
      fixupStep_fixup n c r e ht
    cases target with
    | thread num => exact absurd hex (by simp [Subrec.IsExact, Target.datum])
    | group x => simp [Yields, Attributed, Subrec.IsRelocated]
    | segment x =>
      rw [hstep 0 x rfl]
      simp only [Yields, Attributed, Subrec.IsRelocated, and_true, forall_const]
      rw [← h1]
      cases hc : c.isText with
      | true => simp [Relocs.push, Chunk.loc, hc]
      | false =>
        simp only [if_true, forall_const]
        by_cases hd : r.dfixups.length < 256
        · rw [if_pos hd]
          simp [Relocs.push, Chunk.loc, hc]
          omega
        · rw [if_neg hd]
          constructor
          · intro h
            exact absurd h (push_ne _ _)
          · intro h
            omega
    | external x =>
      rw [hstep 2 x rfl]
      simp only [Yields, Attributed, Subrec.IsRelocated, forall_const]
      rw [and_congr_left_iff]
      intro hx
      obtain ⟨hx1, hx2⟩ := hn x hx
      rw [← h1]
      cases hc : c.isText with
      | true => simp [Relocs.push, Chunk.loc, hc, hx1, hx2]
      | false =>
        simp only [if_true, forall_const]
        by_cases hd : r.dfixups.length < 256
        · rw [if_pos hd]
          simp [Relocs.push, Chunk.loc, hc, hx1, hx2]
          omega
        · rw [if_neg hd]
          constructor
          · intro h
            exact absurd h (push_ne _ _)
          · intro h
            omega

/-- and then the tally goes on counting -/
theorem sub_agrees {s : Subrec} (e : omf = a ++ (s.bytes wide ++ b)) (ht : Agrees c r t)
    (hn : ∀ x, named x → 0 < x.val ∧ x.val ≤ n) (hs : SubFits named t s) :
    Agrees c (fixupStep omf n c r a.length) (t.sub s) := by
  obtain ⟨h1, h2, h3⟩ := ht
  obtain ⟨hex, _, hattr⟩ := hs
  cases s with
  | thread frame method num x =>
    rw [fixupStep_thread n c r (thread_isThread e)]
    exact ⟨h1, h2, h3⟩
  | bareThread toTarget num => exact absurd hex id
  | fixup mode loc off frame target disp =>
    rw [Subrec.IsExact, Option.isSome_iff_exists] at hex
    obtain ⟨⟨method, x⟩, hd⟩ := hex
    have hx : method = 2 → 0 < x.val ∧ x.val ≤ n := by
      rintro rfl
      cases target with
      | external y =>
        simp only [Target.datum, Option.some.injEq, Prod.mk.injEq, true_and] at hd
        rw [← hd]
        exact hn y hattr
      | _ => simp [Target.datum] at hd
    rw [fixupStep_fixup n c r e hd, Tally.sub]
    cases hc : c.isText with
    | true =>
      have hti : t.isText = true := by rw [← h1, hc]
      rw [if_neg (show ¬ true = false by decide), if_pos hti]
      by_cases hm : method = 2
      · rw [if_pos ⟨hm, hx hm⟩]
        exact ⟨h1, by simp [h2], h3⟩
      · rw [if_neg (fun h => hm h.1), if_neg hm]
        exact ⟨h1, by simp [h2], h3⟩
    | false =>
      have hti : ¬ t.isText = true := by
        rw [← h1, hc]
        decide
      rw [if_pos (show false = false from rfl), if_neg hti]
      split
      · refine ⟨h1, h2, ?_⟩
        simp only [List.length_append, List.length_singleton]
        omega
      · exact ⟨h1, h2, by simp only; omega⟩

end

/-! ## one record -/

theorem Subrec.bytes_pos (wide : Bool) (s : Subrec) : 0 < (s.bytes wide).length := by
  cases s <;> exact Nat.succ_pos _

section
variable {omf : List UInt8} {wide : Bool} {n : Nat} {c : Chunk} {named : Index → Prop}
  (hn : ∀ x, named x → 0 < x.val ∧ x.val ≤ n)
include hn

/-- the subrecords of a record are carried exactly when they fit, and then the tally has counted
what is recorded -/
theorem visits_iff (subs : List Subrec) (a b : List UInt8) (r : Relocs) (t : Tally) (f : Nat)
    (e : omf = a ++ (subs.flatMap (Subrec.bytes wide) ++ b))
    (hf : (subs.flatMap (Subrec.bytes wide)).length < f) (ht : Agrees c r t) :
    let stop := a.length + (subs.flatMap (Subrec.bytes wide)).length
    (List.Forall₂ (SubCarried omf wide n c named) (fixupVisits omf wide n c stop f a.length r)
        (located wide a.length subs) ↔ SubsFit named t subs) ∧
      (SubsFit named t subs →
        Agrees c (fixupLoop omf wide n c stop f a.length r) (subs.foldl Tally.sub t)) := by
  induction subs generalizing a r t f with
  | nil =>
    obtain ⟨f, rfl⟩ : ∃ g, f = g + 1 := ⟨f - 1, by omega⟩
    dsimp only
    rw [fixupVisits, if_neg (by simp), fixupLoop, if_neg (by simp)]
    exact ⟨⟨fun _ => trivial, fun _ => List.Forall₂.nil⟩, fun _ => ht⟩
  | cons s subs ih =>
    obtain ⟨f, rfl⟩ : ∃ g, f = g + 1 := ⟨f - 1, by omega⟩
    have hpos := s.bytes_pos wide
    rw [List.flatMap_cons] at e hf
    rw [List.append_assoc] at e
    rw [List.length_append] at hf
    have hsub := sub_iff e ht hn
    have hnext := fixNext_iff e
    -- the rest of the record, once the cursor has passed over `s`
    have ih := fun hs => ih (a ++ s.bytes wide) (fixupStep omf n c r a.length) (t.sub s) f
      (by rw [e, List.append_assoc]) (by omega) (sub_agrees e ht hn hs)
    rw [List.length_append, Nat.add_assoc, ← List.length_append, ← List.flatMap_cons] at ih
    have hstop : a.length < a.length + ((s :: subs).flatMap (Subrec.bytes wide)).length := by
      rw [List.flatMap_cons, List.length_append]
      omega
    dsimp only at ih ⊢
    generalize a.length + ((s :: subs).flatMap (Subrec.bytes wide)).length = stop at *
    rw [fixupVisits, located, fixupLoop, SubsFit, ht.2.1]
    by_cases h256 : t.text < 256
    · rw [if_pos ⟨hstop, h256⟩, if_pos ⟨hstop, h256⟩, List.forall₂_cons, hsub]
      refine ⟨?_, ?_⟩
      · rw [and_iff_right h256]
        refine and_congr_right fun hs => ?_
        rw [hnext.mpr hs.1]
        exact (ih hs).1
      · rintro ⟨_, hs, hrest⟩
        rw [hnext.mpr hs.1]
        exact (ih hs).2 hrest
    · rw [if_neg (fun h => h256 h.2)]
      exact ⟨⟨fun h => absurd h (by simp), fun h => absurd h.1 h256⟩, fun h => absurd h.1 h256⟩

end

/-! ## the object -/

theorem chunkStep_isText (omf : List UInt8) (s : Segs) (im : Image) (c : Chunk) (i : Nat) :
    (chunkStep omf s im c i).isText = decide ((ledataAt omf i).segIdx = s.textSegIdx) := by
  rw [chunkStep]
  split
  · rfl
  · split <;> rfl

section
variable (pre post : List Rec) {r : Rec}

theorem isFixupp_fixupp {wide : Bool} {subs : List Subrec} (hi : r.item = .fixupp wide subs) :
    isFixupp (objectOf (pre ++ r :: post)) (objectOf pre).length = true ∧
      decide (byteAt (objectOf (pre ++ r :: post)) (objectOf pre).length = 0x9D) = wide := by
  rw [isFixupp, Rec.type_at, hi]
  cases wide <;> exact ⟨rfl, rfl⟩

/-- a record that is no FIXUPP is not taken for one -/
theorem isFixupp_other (hr : r.Ok) (hi : ∀ wide subs, r.item ≠ .fixupp wide subs) :
    isFixupp (objectOf (pre ++ r :: post)) (objectOf pre).length = false := by
  rw [isFixupp, Rec.type_at]
  have hok := hr.2
  cases h : r.item with
  | ledata wide _ _ _ => cases wide <;> rfl
  | extdef isLocal _ => cases isLocal <;> rfl
  | comdef rt _ _ =>
    rw [h] at hok
    rcases hok with rfl | rfl | rfl <;> rfl
  | fixupp wide subs => exact absurd h (hi _ _)
  | other rt _ =>
    rw [h] at hok
    simp only [Item.Ok, isListed, Bool.or_eq_false_iff] at hok
    show (decide (rt = 0x9D) || decide (rt = 0x9C)) = false
    rw [hok.1.1.1.1.2, hok.1.1.1.2]
    rfl

variable (s : Segs) (im : Image) (st : Chunk × Relocs)

/-- Pass 1b at a record that is no FIXUPP -/
theorem pass1bStep_agrees {t : Tally} (hr : r.Ok) (hi : ∀ wide subs, r.item ≠ .fixupp wide subs)
    (ht : Agrees st.1 st.2 t) :
    Agrees (pass1bStep (objectOf (pre ++ r :: post)) s im st (objectOf pre).length).1
      (pass1bStep (objectOf (pre ++ r :: post)) s im st (objectOf pre).length).2 (t.record s r) := by
  have hf := isFixupp_other pre post hr hi
  have h2 : (pass1bStep (objectOf (pre ++ r :: post)) s im st (objectOf pre).length).2 = st.2 := by
    show (if _ then _ else _) = _
    rw [if_neg (by rw [hf]; simp)]
  have h1 : (pass1bStep (objectOf (pre ++ r :: post)) s im st (objectOf pre).length).1
      = if isLedata (objectOf (pre ++ r :: post)) (objectOf pre).length then
          chunkStep (objectOf (pre ++ r :: post)) s im st.1 (objectOf pre).length else st.1 := rfl
  obtain ⟨ha, hb, hc⟩ := ht
  cases h : r.item with
  | ledata wide seg off data =>
    rw [h1, h2, if_pos (isLedata_ledata pre post h), Tally.record, h]
    refine ⟨?_, hb, hc⟩
    rw [chunkStep_isText, (ledataAt_eq pre post hr h).1]
  | fixupp wide subs => exact absurd h (hi _ _)
  | _ =>
    rw [h1, h2, if_neg (by rw [isLedata_other pre post hr (by simp [h])]; decide), Tally.record, h]
    exact ⟨ha, hb, hc⟩

/-- Pass 1b at a FIXUPP record -/
theorem pass1bStep_fixupp (hr : r.Ok) {wide : Bool} {subs : List Subrec}
    (hi : r.item = .fixupp wide subs) :
    pass1bStep (objectOf (pre ++ r :: post)) s im st (objectOf pre).length
      = (st.1, fixupLoop (objectOf (pre ++ r :: post)) wide im.exts.length st.1
          (recEnd (objectOf (pre ++ r :: post)) (objectOf pre).length)
          (recLen (objectOf (pre ++ r :: post)) (objectOf pre).length)
          ((objectOf pre).length + 3) st.2) := by
  obtain ⟨h1, h2⟩ := isFixupp_fixupp pre post hi
  have h3 := isLedata_other pre post hr (by simp [hi])
  have hlen := Rec.recLen_at pre post hr
  rw [pass1bStep, h1, h2, h3]
  simp only [Bool.false_eq_true, if_false, true_and, Prod.mk.injEq]
  by_cases h : st.2.fixups.length < 256
  · rw [if_pos h]
  · rw [if_neg h, hlen, fixupLoop, if_neg (fun h' => h h'.2)]

end

/-- the subrecords of a record are carried exactly when they fit -/
theorem recCarried_iff {recs pre post : List Rec} {r : Rec} (hok : ObjOk recs)
    (h : recs = pre ++ r :: post) {named : Index → Prop}
    (hn : ∀ x, named x → 0 < x.val ∧ x.val ≤ (parse (objectOf recs)).image.exts.length)
    {t : Tally} (ht : Agrees (relocsAt (objectOf recs) (objectOf pre).length).1
      (relocsAt (objectOf recs) (objectOf pre).length).2 t) {wide : Bool} {subs : List Subrec}
    (hi : r.item = .fixupp wide subs) :
    (RecCarried (objectOf recs) named (objectOf pre).length wide subs ↔ SubsFit named t subs) ∧
      (SubsFit named t subs → Agrees (relocsAt (objectOf recs) (objectOf (pre ++ [r])).length).1
        (relocsAt (objectOf recs) (objectOf (pre ++ [r])).length).2 (subs.foldl Tally.sub t)) := by
  have hr := hok r (by rw [h]; simp)
  have hstep := relocsAt_snoc hok h
  subst h
  obtain ⟨a, b, e, ha⟩ := Rec.body_at pre post r
  rw [hi] at e
  have hlen := Rec.recLen_at pre post hr
  have hend := Rec.recEnd_at pre post hr
  rw [hi] at hlen hend
  have hv := visits_iff hn subs a b (relocsAt (objectOf (pre ++ r :: post)) (objectOf pre).length).2
    t (recLen (objectOf (pre ++ r :: post)) (objectOf pre).length) e
    (by rw [hlen]; exact Nat.lt_succ_self _) ht
  rw [ha, ← show recEnd _ _ = _ + (subs.flatMap (Subrec.bytes wide)).length from hend] at hv
  rw [hstep, pass1bStep_fixupp pre post _ _ _ hr hi]
  exact hv

/-- every subrecord of the object is passed over exactly, and its relocation recorded once and for
its own external, exactly when the subrecords fit -/
theorem carried_iff_fits (recs : List Rec) (hok : ObjOk recs) (named : Index → Prop)
    (hn : ∀ x, named x → 0 < x.val ∧ x.val ≤ (parse (objectOf recs)).image.exts.length) :
    AllCarried recs named ↔ AllFit recs named := by
  -- over the records still to come, for the tally of those before
  have key : ∀ (post pre : List Rec) (t : Tally), recs = pre ++ post →
      Agrees (relocsAt (objectOf recs) (objectOf pre).length).1
        (relocsAt (objectOf recs) (objectOf pre).length).2 t →
      ((∀ q r rest wide subs, post = q ++ r :: rest → r.item = .fixupp wide subs →
        RecCarried (objectOf recs) named (objectOf (pre ++ q)).length wide subs) ↔
          RecsFit named (pass0 (objectOf recs)) t post) := by
    intro post
    induction post with
    | nil =>
      intro pre t _ _
      exact ⟨fun _ => trivial, fun _ q r rest _ _ h _ => absurd h (by simp)⟩
    | cons r post ih =>
      intro pre t h ht
      have hr := hok r (by rw [h]; simp)
      have hstep := relocsAt_snoc hok h
      have ih := ih (pre ++ [r]) (t.record (pass0 (objectOf recs)) r) (by rw [h]; simp)
      rw [RecsFit]
      -- the record `r` itself, then the rest
      have hsplit : (∀ q x rest wide subs, r :: post = q ++ x :: rest → x.item = .fixupp wide subs →
            RecCarried (objectOf recs) named (objectOf (pre ++ q)).length wide subs) ↔
          (∀ wide subs, r.item = .fixupp wide subs →
            RecCarried (objectOf recs) named (objectOf pre).length wide subs) ∧
          (∀ q x rest wide subs, post = q ++ x :: rest → x.item = .fixupp wide subs →
            RecCarried (objectOf recs) named (objectOf (pre ++ [r] ++ q)).length wide subs) := by
        constructor
        · intro hall
          refine ⟨fun wide subs hi => ?_, fun q x rest wide subs hq hi => ?_⟩
          · have := hall [] r post wide subs rfl hi
            rwa [List.append_nil] at this
          · have := hall (r :: q) x rest wide subs (by rw [hq]; rfl) hi
            rwa [List.append_cons] at this
        · rintro ⟨h1, h2⟩ q x rest wide subs hq hi
          cases q with
          | nil =>
            rw [List.nil_append, List.cons.injEq] at hq
            rw [List.append_nil]
            exact h1 wide subs (by rw [hq.1]; exact hi)
          | cons y q =>
            rw [List.cons_append, List.cons.injEq] at hq
            have := h2 q x rest wide subs hq.2 hi
            rwa [← List.append_cons, hq.1] at this
      rw [hsplit]
      by_cases hfix : ∃ wide subs, r.item = .fixupp wide subs
      · obtain ⟨wide, subs, hi⟩ := hfix
        obtain ⟨hiff, hagree⟩ := recCarried_iff hok h hn ht hi
        have hone : (∀ wide subs, r.item = .fixupp wide subs →
            RecCarried (objectOf recs) named (objectOf pre).length wide subs) ↔
            RecFits named t r := by
          rw [RecFits, hi]
          constructor
          · intro hall
            exact hiff.mp (hall wide subs rfl)
          · rintro hs wide' subs' hi'
            cases hi'
            exact hiff.mpr hs
        rw [hone]
        refine and_congr_right fun hs => ih ?_
        rw [RecFits, hi] at hs
        have := hagree hs
        rw [Tally.record, hi]
        exact this
      · have hno : ∀ wide subs, r.item ≠ .fixupp wide subs := fun wide subs hi => hfix ⟨wide, subs, hi⟩
        have hfits : RecFits named t r := by
          rw [RecFits]
          split
          · next hi => exact absurd hi (hno _ _)
          · trivial
        rw [and_iff_right hfits, and_iff_right (fun wide subs hi => absurd hi (hno wide subs))]
        refine ih ?_
        rw [hstep]
        subst h
        exact pass1bStep_agrees pre post _ _ _ hr hno ht
  have := key recs [] ⟨true, 0, 0⟩ rfl ⟨rfl, rfl, rfl⟩
  exact this

end X64Obj
