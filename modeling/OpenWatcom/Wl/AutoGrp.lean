import Mathlib

/-!
# Packing segments into automatic groups (autogrp.c)

A `seg_leader *` is a `Cursor`: the segment with its class, and what `RingStep` and `class->next`
lead to from there.  The group of a segment, which the linker sets, is kept apart from it.  The
loops run on fuel, and there is no result where one of them would follow `NULL`.

* `getNextSeg_after`     the segments that `GetNextSeg` leads through are the list `cursors`
* `packLoop_eq`, `autoLoop_eq`     the two loops over that list
-/

namespace AutoGrp

/-! ## Segments and classes -/

/-- `combine` of a segment -/
inductive Combine
  | invalid
  | add
  | common
  | stack
  deriving DecidableEq

/-- a `seg_leader`: its identity, and the flags of `info` that are read here -/
structure SegLeader where
  id : ℕ
  size : UInt32
  align : Fin 32
  combine : Combine
  segflags : UInt16
  code : Bool
  use32 : Bool
  absolute : Bool
  lastSegment : Bool

/-- a `class_entry`, with its ring of segments -/
structure ClassEntry where
  id : ℕ
  sect : ℕ
  debugInfo : Bool
  fixed : Bool
  readOnly : Bool
  copy : Bool
  segs : List SegLeader

/-- a segment in its class: the rest of the ring, and the classes behind -/
structure Cursor where
  seg : SegLeader
  cls : ClassEntry
  ring : List SegLeader
  rest : List ClassEntry

/-- what the format and the options say -/
structure Target where
  realMode : Bool
  winNE : Bool
  packCode : Bool
  packCodeLimit : UInt32
  packData : Bool
  packDataLimit : UInt32

/-- the first segment of the first class that has one, debugging information apart -/
def firstSeg : List ClassEntry → Option Cursor
  | [] => none
  | cls :: rest =>
    if cls.debugInfo then firstSeg rest
    else
      match cls.segs with
      | [] => firstSeg rest
      | seg :: ring => some ⟨seg, cls, ring, rest⟩

/-- `GetNextSeg` -/
def getNextSeg (classes : List ClassEntry) : Option Cursor → Option Cursor
  | none => firstSeg classes
  | some c =>
    match c.ring with
    | [] => firstSeg c.rest
    | seg :: ring => some { c with seg := seg, ring := ring }

/-- `GetSegGroupPackLimit` -/
def getSegGroupPackLimit (t : Target) (seg : SegLeader) : UInt32 :=
  if seg.code ∧ t.packCode then t.packCodeLimit
  else if ¬ seg.code ∧ t.packData then t.packDataLimit
  else if seg.use32 then 0xFFFFFFFF
  else if t.winNE then 0xFFF0
  else 0xFFFF

/-- the bit that `CanPack` tests in `segflags` -/
def segFixed : UInt16 := 0x1000

/-- `CanPack`, with the groups the segments have -/
def canPack (groupOf : ℕ → Option ℕ) (one two : Cursor) : Bool :=
  if one.seg.code ∧ two.seg.combine = .invalid then false
  else if ¬ one.seg.code ∧ one.seg.align ≠ two.seg.align then false
  else if one.seg.use32 ≠ two.seg.use32 ∨ one.seg.code ≠ two.seg.code then false
  else if one.seg.segflags ≠ two.seg.segflags ∨ two.seg.segflags &&& segFixed ≠ 0 then false
  else if one.cls.id ≠ two.cls.id ∧ two.cls.fixed then false
  else if groupOf one.seg.id ≠ groupOf two.seg.id then false
  else true

/-- `CAlign`, where no segment is current -/
def cAlign (off : UInt32) (align : Fin 32) : UInt32 :=
  if 0 < align.val then
    let align : UInt32 := 1 <<< UInt32.ofNat align.val
    let part := off &&& (align - 1)
    if part ≠ 0 then off + (align - part) else off
  else off

/-! ## Groups -/

/-- a `group_entry` -/
structure GroupEntry where
  sect : ℕ
  segflags : UInt16
  isautogrp : Bool
  isdup : Bool
  leaders : List ℕ

def segData : UInt16 := 1

def segReadOnly : UInt16 := 0x80

def defaultGrpFlags : UInt16 := 0xC00 ||| segReadOnly

/-- the groups of the linker: `seg->group` of every segment, the groups allocated so far, and the
lists `Groups` and `AbsGroups` -/
structure Groups where
  groupOf : ℕ → Option ℕ
  group : ℕ → GroupEntry
  allocated : ℕ
  groups : List ℕ
  absGroups : List ℕ
  currGroup : Option ℕ

/-- `GetAutoGroup` -/
def getAutoGroup (st : Groups) (absSeg : Bool) : ℕ × Groups :=
  let new : GroupEntry := ⟨0, defaultGrpFlags, true, false, []⟩
  let st := { st with group := Function.update st.group st.allocated new,
                      allocated := st.allocated + 1 }
  (st.allocated - 1,
    if absSeg then { st with absGroups := st.absGroups ++ [st.allocated - 1] }
    else { st with groups := st.groups ++ [st.allocated - 1], currGroup := some (st.allocated - 1) })

/-- the flags that a group takes from a segment and its class -/
def mark (e : GroupEntry) (c : Cursor) : GroupEntry :=
  let e := if ¬ c.seg.code then { e with segflags := e.segflags ||| segData } else e
  let e := if ¬ c.cls.readOnly then { e with segflags := e.segflags &&& ~~~segReadOnly } else e
  if c.cls.copy then { e with isdup := true } else e

/-- a segment that counts for the group: the flags of the group, and the segment put there -/
def addSeg (st : Groups) (g : ℕ) (c : Cursor) : Groups :=
  let e := mark (st.group g) c
  if st.groupOf c.seg.id = none then
    { st with group := Function.update st.group g { e with leaders := e.leaders ++ [c.seg.id] },
              groupOf := Function.update st.groupOf c.seg.id (some g) }
  else { st with group := Function.update st.group g e }

/-- the loop of `PackSegs` -/
def packLoop (classes : List ClassEntry) (g : ℕ) :
    ℕ → ℕ → Option Cursor → Groups → Option Groups
  | 0, _, _, _ => none
  | _ + 1, 0, _, st => some st
  | _ + 1, _ + 1, none, _ => none
  | fuel + 1, n + 1, some c, st =>
    if st.groupOf c.seg.id = none ∨ st.groupOf c.seg.id = some g then
      packLoop classes g fuel n (getNextSeg classes (some c)) (addSeg st g c)
    else packLoop classes g fuel (n + 1) (getNextSeg classes (some c)) st

/-- `PackSegs`, from a segment -/
def packSegs (classes : List ClassEntry) (fuel : ℕ) (st : Groups) (c : Cursor) (numSegs : ℕ) :
    Option Groups :=
  if numSegs = 0 then some st
  else
    let p := match st.groupOf c.seg.id with
      | some g => (g, st)
      | none => getAutoGroup st c.seg.absolute
    let e := { p.2.group p.1 with sect := c.cls.sect }
    packLoop classes p.1 fuel numSegs (some c) { p.2 with group := Function.update p.2.group p.1 e }

/-- the locals of `AutoGroupSect` -/
structure Scan where
  packstart : Option Cursor
  size : UInt32
  numSegs : ℕ
  lastseg : Bool
  limit : UInt32

/-- one segment of the loop -/
def scanStep (t : Target) (classes : List ClassEntry) (fuel : ℕ) (s : Scan) (st : Groups)
    (c : Cursor) : Option (Scan × Groups) :=
  if c.seg.absolute then (packSegs classes fuel st c 1).map fun st => (s, st)
  else
    let packstart := s.packstart.getD c
    let limit := if s.packstart.isNone then getSegGroupPackLimit t c.seg else s.limit
    let alignSize := cAlign s.size c.seg.align
    let newSize := alignSize + c.seg.size
    if newSize ≥ limit ∨ newSize < s.size ∨ s.lastseg ∨ ¬ canPack st.groupOf packstart c then
      (packSegs classes fuel st packstart s.numSegs).map fun st =>
        ({ packstart := some c,
           size := if t.realMode then (alignSize &&& 0xF) + c.seg.size else c.seg.size,
           numSegs := 1,
           lastseg := c.seg.lastSegment,
           limit := getSegGroupPackLimit t c.seg }, st)
    else
      some ({ packstart := some packstart,
              size := newSize,
              numSegs := s.numSegs + 1,
              lastseg := s.lastseg || c.seg.lastSegment,
              limit := limit }, st)

/-- the loop of `AutoGroupSect` -/
def autoLoop (t : Target) (classes : List ClassEntry) (fuel : ℕ) :
    ℕ → Option Cursor → Scan → Groups → Option (Scan × Groups)
  | 0, _, _, _ => none
  | _ + 1, none, s, st => some (s, st)
  | n + 1, some c, s, st =>
    (scanStep t classes fuel s st c).bind fun r =>
      autoLoop t classes fuel n (getNextSeg classes (some c)) r.1 r.2

/-- the segments of some classes, debugging information apart -/
def cursors : List ClassEntry → List Cursor
  | [] => []
  | cls :: rest =>
    if cls.debugInfo then cursors rest
    else go cls rest cls.segs ++ cursors rest
where
  go (cls : ClassEntry) (rest : List ClassEntry) : List SegLeader → List Cursor
    | [] => []
    | seg :: ring => ⟨seg, cls, ring, rest⟩ :: go cls rest ring

/-- the last `PackSegs` -/
def packRest (classes : List ClassEntry) (fuel : ℕ) (r : Scan × Groups) : Option Groups :=
  match r.1.packstart with
  | none => some r.2
  | some c => packSegs classes fuel r.2 c r.1.numSegs

/-- `AutoGroupSect`; no loop makes more rounds than there are segments -/
def autoGroupSect (t : Target) (classes : List ClassEntry) (st : Groups) : Option Groups :=
  let fuel := (cursors classes).length + 1
  (autoLoop t classes fuel fuel (getNextSeg classes none) ⟨none, 0, 0, false, 0⟩ st).bind
    (packRest classes fuel)

/-! ## The segments as a list -/

/-- what follows a segment -/
def after (c : Cursor) : List Cursor := cursors.go c.cls c.rest c.ring ++ cursors c.rest

theorem firstSeg_eq (classes : List ClassEntry) : firstSeg classes = (cursors classes).head? := by
  induction classes with
  | nil => rfl
  | cons cls rest ih =>
    rw [firstSeg, cursors]
    by_cases hd : cls.debugInfo = true
    · rw [if_pos hd, if_pos hd, ih]
    · rw [if_neg hd, if_neg hd]
      cases hs : cls.segs with
      | nil => exact ih
      | cons seg ring => rfl

theorem getNextSeg_none (classes : List ClassEntry) :
    getNextSeg classes none = (cursors classes).head? := firstSeg_eq classes

/-- the next segment -/
theorem getNextSeg_after (classes : List ClassEntry) (c : Cursor) :
    getNextSeg classes (some c) = (after c).head? := by
  rw [getNextSeg, after]
  cases hr : c.ring with
  | nil => exact firstSeg_eq c.rest
  | cons seg ring => rfl

theorem cursors_cons {classes : List ClassEntry} {c : Cursor} {l : List Cursor}
    (h : cursors classes = c :: l) : after c = l := by
  induction classes with
  | nil => exact absurd h.symm (List.cons_ne_nil _ _)
  | cons cls rest ih =>
    rw [cursors] at h
    by_cases hd : cls.debugInfo = true
    · rw [if_pos hd] at h
      exact ih h
    · rw [if_neg hd] at h
      cases hs : cls.segs with
      | nil =>
        rw [hs] at h
        exact ih h
      | cons seg ring =>
        rw [hs, cursors.go, List.cons_append] at h
        obtain ⟨rfl, rfl⟩ := List.cons.inj h
        rfl

theorem after_cons {c d : Cursor} {l : List Cursor} (h : after c = d :: l) : after d = l := by
  rw [after] at h
  cases hr : c.ring with
  | nil =>
    rw [hr] at h
    exact cursors_cons h
  | cons seg ring =>
    rw [hr, cursors.go, List.cons_append] at h
    obtain ⟨rfl, rfl⟩ := List.cons.inj h
    rfl

/-- a list that `GetNextSeg` leads through -/
def Walked (l : List Cursor) : Prop := ∀ c l', l = c :: l' → after c = l'

theorem walked_cursors (classes : List ClassEntry) : Walked (cursors classes) :=
  fun _ _ h => cursors_cons h

theorem Walked.tail {c : Cursor} {l : List Cursor} (h : Walked (c :: l)) : Walked l :=
  fun _ _ hl => after_cons ((h c l rfl).trans hl)

theorem Walked.append : ∀ {k l : List Cursor}, Walked (k ++ l) → Walked l
  | [], _, h => h
  | _ :: _, _, h => Walked.append h.tail

/-- the loop of `PackSegs` over the segments from the first on -/
def packWalk (g : ℕ) : ℕ → List Cursor → Groups → Option Groups
  | 0, _, st => some st
  | _ + 1, [], _ => none
  | n + 1, c :: l, st =>
    if st.groupOf c.seg.id = none ∨ st.groupOf c.seg.id = some g then packWalk g n l (addSeg st g c)
    else packWalk g (n + 1) l st

theorem packLoop_eq (classes : List ClassEntry) (g : ℕ) {l : List Cursor} (hl : Walked l) :
    ∀ {fuel n : ℕ} {st : Groups}, l.length < fuel →
      packLoop classes g fuel n l.head? st = packWalk g n l st := by
  induction l with
  | nil =>
    intro fuel n st h
    obtain ⟨f, rfl⟩ := Nat.exists_eq_succ_of_ne_zero (Nat.ne_of_gt h)
    cases n with
    | zero => rfl
    | succ n => rfl
  | cons c l ih =>
    intro fuel n st h
    obtain ⟨f, rfl⟩ := Nat.exists_eq_succ_of_ne_zero (Nat.ne_of_gt (Nat.zero_lt_of_lt h))
    cases n with
    | zero => rfl
    | succ n =>
      have hlen : l.length < f := Nat.lt_of_succ_lt_succ h
      rw [List.head?_cons, packLoop, packWalk, getNextSeg_after, hl c l rfl, ih hl.tail hlen,
        ih hl.tail hlen]

theorem autoLoop_eq (t : Target) (classes : List ClassEntry) (fuel : ℕ) {l : List Cursor}
    (hl : Walked l) : ∀ {n : ℕ} {s : Scan} {st : Groups}, l.length < n →
      autoLoop t classes fuel n l.head? s st =
        l.foldlM (fun r c => scanStep t classes fuel r.1 r.2 c) (s, st) := by
  induction l with
  | nil =>
    intro n s st h
    obtain ⟨m, rfl⟩ := Nat.exists_eq_succ_of_ne_zero (Nat.ne_of_gt h)
    rfl
  | cons c l ih =>
    intro n s st h
    obtain ⟨m, rfl⟩ := Nat.exists_eq_succ_of_ne_zero (Nat.ne_of_gt (Nat.zero_lt_of_lt h))
    rw [List.head?_cons, autoLoop, List.foldlM_cons, getNextSeg_after, hl c l rfl]
    show (scanStep t classes fuel s st c).bind _ = (scanStep t classes fuel s st c).bind _
    congr 1
    funext r
    exact ih hl.tail (Nat.lt_of_succ_lt_succ h)

/-- `CanPack` asks for the groups of its two segments only -/
theorem canPack_congr {f g : ℕ → Option ℕ} {one two : Cursor} (h1 : f one.seg.id = g one.seg.id)
    (h2 : f two.seg.id = g two.seg.id) : canPack f one two = canPack g one two := by
  rw [canPack, canPack, h1, h2]

/-! ## What the two functions do to the groups -/

/-- the segments of a group are those that say so, and every group was allocated -/
structure Groups.Linked (st : Groups) : Prop where
  leaders : ∀ id g, id ∈ (st.group g).leaders ↔ st.groupOf id = some g
  allocated : ∀ id g, st.groupOf id = some g → g < st.allocated

theorem mark_leaders (e : GroupEntry) (c : Cursor) : (mark e c).leaders = e.leaders := by
  unfold mark
  dsimp only
  by_cases h1 : c.seg.code = true <;> by_cases h2 : c.cls.readOnly = true <;>
    by_cases h3 : c.cls.copy = true <;> simp [h1, h2, h3]

theorem addSeg_groupOf (st : Groups) (g : ℕ) (c : Cursor) (id : ℕ) :
    (addSeg st g c).groupOf id =
      if st.groupOf c.seg.id = none ∧ id = c.seg.id then some g else st.groupOf id := by
  rw [addSeg]
  by_cases hn : st.groupOf c.seg.id = none
  · rw [if_pos hn]
    by_cases hid : id = c.seg.id
    · rw [if_pos ⟨hn, hid⟩, hid]
      exact Function.update_self _ _ _
    · rw [if_neg fun h => hid h.2]
      exact Function.update_of_ne hid _ _
  · rw [if_neg hn, if_neg fun h => hn h.1]

theorem addSeg_allocated (st : Groups) (g : ℕ) (c : Cursor) :
    (addSeg st g c).allocated = st.allocated := by
  rw [addSeg]
  by_cases hn : st.groupOf c.seg.id = none
  · rw [if_pos hn]
  · rw [if_neg hn]

theorem addSeg_leaders (st : Groups) (g : ℕ) (c : Cursor) (g' : ℕ) :
    ((addSeg st g c).group g').leaders = (st.group g').leaders ++
      if st.groupOf c.seg.id = none ∧ g' = g then [c.seg.id] else [] := by
  by_cases hg : g' = g
  · subst hg
    by_cases hn : st.groupOf c.seg.id = none
    · simp [addSeg, hn, mark_leaders]
    · simp [addSeg, hn, mark_leaders]
  · by_cases hn : st.groupOf c.seg.id = none
    · simp [addSeg, hn, hg, Function.update_of_ne]
    · simp [addSeg, hn, hg, Function.update_of_ne]

theorem addSeg_linked {st : Groups} (h : st.Linked) {g : ℕ} (hg : g < st.allocated) (c : Cursor) :
    (addSeg st g c).Linked := by
  constructor
  · intro id g'
    rw [addSeg_leaders, addSeg_groupOf, List.mem_append, h.leaders]
    by_cases hn : st.groupOf c.seg.id = none
    · by_cases hid : id = c.seg.id
      · by_cases hg' : g' = g
        · rw [hid, hg', if_pos ⟨hn, rfl⟩, if_pos ⟨hn, rfl⟩]
          exact iff_of_true (Or.inr (List.mem_singleton_self _)) rfl
        · rw [hid, if_neg fun h => hg' h.2, if_pos ⟨hn, rfl⟩, hn]
          simp [Ne.symm hg']
      · have hnot : id ∉ if st.groupOf c.seg.id = none ∧ g' = g then [c.seg.id] else [] := by
          by_cases hg' : g' = g
          · rw [if_pos ⟨hn, hg'⟩]
            exact fun h => hid (List.mem_singleton.mp h)
          · rw [if_neg fun h => hg' h.2]
            exact List.not_mem_nil
        rw [if_neg (c := _ ∧ id = c.seg.id) fun h => hid h.2]
        exact or_iff_left hnot
    · rw [if_neg fun h => hn h.1, if_neg fun h => hn h.1]
      exact or_iff_left List.not_mem_nil
  · intro id g' h'
    rw [addSeg_groupOf] at h'
    rw [addSeg_allocated]
    by_cases hc : st.groupOf c.seg.id = none ∧ id = c.seg.id
    · rw [if_pos hc] at h'
      rwa [← Option.some.inj h']
    · rw [if_neg hc] at h'
      exact h.allocated id g' h'

/-- a segment that `PackSegs` counts for a group -/
def Counts (st : Groups) (g : ℕ) (c : Cursor) : Prop :=
  st.groupOf c.seg.id = none ∨ st.groupOf c.seg.id = some g

instance (st : Groups) (g : ℕ) (c : Cursor) : Decidable (Counts st g c) :=
  inferInstanceAs (Decidable (_ ∨ _))

theorem addSeg_counts (st : Groups) (g : ℕ) (c d : Cursor) :
    Counts (addSeg st g c) g d ↔ Counts st g d := by
  rw [Counts, Counts, addSeg_groupOf]
  by_cases h : st.groupOf c.seg.id = none ∧ d.seg.id = c.seg.id
  · rw [if_pos h, h.2, h.1]
    exact iff_of_true (Or.inr rfl) (Or.inl rfl)
  · rw [if_neg h]

theorem addSeg_countP (st : Groups) (g : ℕ) (c : Cursor) (l : List Cursor) :
    l.countP (fun d => Counts (addSeg st g c) g d) = l.countP fun d => Counts st g d := by
  congr 1
  funext d
  exact decide_eq_decide.mpr (addSeg_counts st g c d)

/-- the loop of `PackSegs`, where enough segments count: only segments without a group get it, and
all of them where all that count are taken -/
theorem packWalk_spec {g : ℕ} (part rest : List Cursor) : ∀ {n : ℕ} {st : Groups},
    n ≤ part.countP (fun c => Counts st g c) → st.Linked → g < st.allocated →
    ∃ st', packWalk g n (part ++ rest) st = some st' ∧ st'.allocated = st.allocated ∧ st'.Linked ∧
      (∀ id, st'.groupOf id = st.groupOf id ∨ st.groupOf id = none ∧
        id ∈ part.map (fun c => c.seg.id) ∧ st'.groupOf id = some g) ∧
      (n = part.countP (fun c => Counts st g c) → ∀ c ∈ part, st'.groupOf c.seg.id ≠ none) := by
  induction part with
  | nil =>
    intro n st hn hst hg
    have h0 : n = 0 := Nat.le_zero.mp hn
    rw [h0]
    cases rest <;>
      exact ⟨st, rfl, rfl, hst, fun id => Or.inl rfl, fun _ c hc => absurd hc List.not_mem_nil⟩
  | cons c part ih =>
    intro n st hn hst hg
    rw [List.countP_cons] at hn ⊢
    cases n with
    | zero =>
      refine ⟨st, rfl, rfl, hst, fun id => Or.inl rfl, fun h => ?_⟩
      have hzero : (c :: part).countP (fun c => Counts st g c) = 0 := by
        rw [List.countP_cons]
        exact h.symm
      intro d hd hnone
      exact List.countP_eq_zero.mp hzero d hd (decide_eq_true (Or.inl hnone))
    | succ n =>
      rw [List.cons_append, packWalk]
      by_cases hc : Counts st g c
      · rw [if_pos (decide_eq_true hc)] at hn ⊢
        rw [if_pos (show _ ∨ _ from hc)]
        obtain ⟨st', hrun, hall, hlink, hids, hfull⟩ := @ih n (addSeg st g c)
          (by rw [addSeg_countP]; omega) (addSeg_linked hst hg c) (by rwa [addSeg_allocated])
        rw [addSeg_countP] at hfull
        have hcg : st'.groupOf c.seg.id ≠ none := by
          have hadd : (addSeg st g c).groupOf c.seg.id ≠ none := by
            rw [addSeg_groupOf]
            by_cases hn : st.groupOf c.seg.id = none
            · rw [if_pos ⟨hn, rfl⟩]
              exact Option.some_ne_none g
            · rwa [if_neg fun h => hn h.1]
          obtain h | h := hids c.seg.id
          · rwa [h]
          · exact absurd h.1 hadd
        refine ⟨st', hrun, hall.trans (addSeg_allocated st g c), hlink, ?_, ?_⟩
        · intro id
          have hid := hids id
          rw [addSeg_groupOf] at hid
          by_cases h : st.groupOf c.seg.id = none ∧ id = c.seg.id
          · rw [if_pos h] at hid
            refine Or.inr ⟨h.2 ▸ h.1, ?_, ?_⟩
            · rw [h.2]
              exact List.mem_cons_self
            · obtain h | h := hid
              · exact h
              · exact h.2.2
          · rw [if_neg h] at hid
            exact hid.imp_right fun h => ⟨h.1, List.mem_cons_of_mem _ h.2.1, h.2.2⟩
        · intro h d hd
          obtain rfl | hd := List.mem_cons.mp hd
          · exact hcg
          · exact hfull (by omega) d hd
      · rw [if_neg fun h => hc (of_decide_eq_true h)] at hn ⊢
        rw [if_neg (show ¬ (_ ∨ _) from hc)]
        obtain ⟨st', hrun, hall, hlink, hids, hfull⟩ := ih hn hst hg
        refine ⟨st', hrun, hall, hlink, fun id => ?_, fun h d hd => ?_⟩
        · exact (hids id).imp_right fun h => ⟨h.1, List.mem_cons_of_mem _ h.2.1, h.2.2⟩
        · obtain rfl | hd := List.mem_cons.mp hd
          · obtain h' | h' := hids d.seg.id
            · rw [h']
              exact fun hn => hc (Or.inl hn)
            · rw [h'.2.2]
              exact Option.some_ne_none g
          · exact hfull h d hd

theorem getAutoGroup_spec {st : Groups} (h : st.Linked) (absSeg : Bool) :
    (getAutoGroup st absSeg).1 = st.allocated ∧
      (getAutoGroup st absSeg).2.groupOf = st.groupOf ∧
      (getAutoGroup st absSeg).2.allocated = st.allocated + 1 ∧
      (getAutoGroup st absSeg).2.Linked := by
  have hl : ∀ id g, id ∈ ((Function.update st.group st.allocated
      ⟨0, defaultGrpFlags, true, false, []⟩ : ℕ → GroupEntry) g).leaders ↔
        st.groupOf id = some g := by
    intro id g
    by_cases hg : g = st.allocated
    · rw [hg, Function.update_self]
      exact iff_of_false List.not_mem_nil fun hid => Nat.lt_irrefl _ (h.allocated id _ hid)
    · rw [Function.update_of_ne hg]
      exact h.leaders id g
  have ha : ∀ id g, st.groupOf id = some g → g < st.allocated + 1 :=
    fun id g hid => Nat.lt_succ_of_lt (h.allocated id g hid)
  cases absSeg with
  | false => exact ⟨rfl, rfl, rfl, hl, ha⟩
  | true => exact ⟨rfl, rfl, rfl, hl, ha⟩

/-- the section of a group does not concern its segments -/
theorem Groups.Linked.sect {st : Groups} (h : st.Linked) (g sect : ℕ) :
    Groups.Linked
      { st with group := Function.update st.group g { st.group g with sect := sect } } := by
  refine ⟨fun id g' => ?_, h.allocated⟩
  by_cases hg : g' = g
  · rw [hg]
    show id ∈ (Function.update st.group g _ g : GroupEntry).leaders ↔ _
    rw [Function.update_self]
    exact h.leaders id g
  · show id ∈ (Function.update st.group g _ g' : GroupEntry).leaders ↔ _
    rw [Function.update_of_ne hg]
    exact h.leaders id g'

variable {classes : List ClassEntry} {fuel : ℕ} {st : Groups} {c : Cursor} {part rest : List Cursor}
  {n : ℕ}

/-- `PackSegs` where the first segment has no group: a new group has all of the part -/
theorem packSegs_new (classes : List ClassEntry) (part : List Cursor)
    (hw : Walked (c :: part ++ rest)) (hf : (c :: part ++ rest).length < fuel)
    (hst : st.Linked) (hc : st.groupOf c.seg.id = none)
    (hn : n = (c :: part).countP fun d => st.groupOf d.seg.id = none) :
    ∃ st', packSegs classes fuel st c n = some st' ∧ st'.allocated = st.allocated + 1 ∧
      st'.Linked ∧ ∀ id, st'.groupOf id =
        if st.groupOf id = none ∧ id ∈ (c :: part).map (fun d => d.seg.id)
          then some st.allocated else st.groupOf id := by
  have hpos : n ≠ 0 := by
    rw [hn, List.countP_cons, if_pos (decide_eq_true hc)]
    exact Nat.succ_ne_zero _
  obtain ⟨hg, hof, hall, hlink⟩ := getAutoGroup_spec hst c.seg.absolute
  rw [packSegs, if_neg hpos, hc]
  dsimp only
  generalize getAutoGroup st c.seg.absolute = r at *
  obtain ⟨g, st1⟩ := r
  dsimp only at hg hof hall hlink ⊢
  have hlink1 := hlink.sect g c.cls.sect
  -- the segments that count are those without a group
  have hcount : n = (c :: part).countP fun d => Counts
      { st1 with group := Function.update st1.group g { st1.group g with sect := c.cls.sect } } g d := by
    rw [hn]
    congr 1
    funext d
    refine decide_eq_decide.mpr ?_
    show st.groupOf d.seg.id = none ↔ st1.groupOf d.seg.id = none ∨ st1.groupOf d.seg.id = some g
    rw [hof, hg]
    exact (or_iff_left fun h => Nat.lt_irrefl _ (hst.allocated _ _ h)).symm
  rw [show some c = (c :: part ++ rest).head? from rfl, packLoop_eq classes g hw hf]
  obtain ⟨st', hrun, hall', hlink', hids, hfull⟩ := packWalk_spec (c :: part) rest
    (Nat.le_of_eq hcount) hlink1 (by show g < st1.allocated; omega)
  refine ⟨st', hrun, hall'.trans hall, hlink', fun id => ?_⟩
  have hid : st'.groupOf id = st.groupOf id ∨ st.groupOf id = none ∧
      id ∈ (c :: part).map (fun c => c.seg.id) ∧ st'.groupOf id = some g := by
    have := hids id
    rwa [show ({ st1 with group := _ } : Groups).groupOf = st.groupOf from hof] at this
  by_cases h : st.groupOf id = none ∧ id ∈ (c :: part).map (fun d => d.seg.id)
  · rw [if_pos h]
    obtain ⟨d, hd, rfl⟩ := List.mem_map.mp h.2
    obtain h' | h' := hid
    · exact absurd (h'.trans h.1) (hfull hcount d hd)
    · rw [h'.2.2, hg]
  · rw [if_neg h]
    obtain h' | h' := hid
    · exact h'
    · exact absurd ⟨h'.1, h'.2.1⟩ h

/-- `PackSegs` where the first segment has a group: no segment changes its group -/
theorem packSegs_old (classes : List ClassEntry) (part : List Cursor) {g : ℕ}
    (hw : Walked (c :: part ++ rest))
    (hf : (c :: part ++ rest).length < fuel) (hst : st.Linked) (hc : st.groupOf c.seg.id = some g)
    (hpart : ∀ d ∈ c :: part, st.groupOf d.seg.id ≠ none)
    (hn : n ≤ (c :: part).countP fun d => st.groupOf d.seg.id = some g) :
    ∃ st', packSegs classes fuel st c n = some st' ∧ st'.allocated = st.allocated ∧
      st'.Linked ∧ st'.groupOf = st.groupOf := by
  by_cases hpos : n = 0
  · rw [packSegs, if_pos hpos]
    exact ⟨st, rfl, rfl, hst, rfl⟩
  rw [packSegs, if_neg hpos, hc]
  dsimp only
  have hcount : n ≤ (c :: part).countP fun d => Counts
      { st with group := Function.update st.group g { st.group g with sect := c.cls.sect } } g d := by
    refine le_trans hn (List.countP_mono_left fun d _ hd => ?_)
    exact decide_eq_true (Or.inr (of_decide_eq_true hd))
  rw [show some c = (c :: part ++ rest).head? from rfl, packLoop_eq classes g hw hf]
  obtain ⟨st', hrun, hall, hlink, hids, -⟩ := packWalk_spec (c :: part) rest hcount
    (hst.sect g c.cls.sect) (hst.allocated _ _ hc)
  refine ⟨st', hrun, hall, hlink, ?_⟩
  funext id
  obtain h | h := hids id
  · exact h
  · obtain ⟨d, hd, rfl⟩ := List.mem_map.mp h.2.1
    exact absurd h.1 (hpart d hd)

end AutoGrp
