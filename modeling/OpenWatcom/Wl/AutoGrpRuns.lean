import OpenWatcom.Wl.AutoGrp

/-!
# The runs of segments that become groups

What `AutoGroupSect` decides depends on the segments only, so the runs it collects can be told
without the groups: an `Event` is an absolute segment on its own, a segment put behind a run, or
a run closed.

* `autoGroupSect_placed`     the new groups are the absolute segments and the closed runs
* `events_good`     what holds of a closed run
* `events_total_iff`     the sizes of the closed runs are below their limits exactly where no
  addition went round
* `autoGroupSect_iff`     the packing is right exactly where no segment that is put behind a run
  comes within its alignment of 4 GiB
-/

namespace AutoGrp

/-- a run being collected: where its first segment starts in a paragraph, and its size so far -/
structure Run where
  start : ℕ
  first : Cursor
  others : List Cursor
  size : UInt32

namespace Run

def segs (p : Run) : List Cursor := p.first :: p.others

def alignSize (p : Run) (c : Cursor) : UInt32 := cAlign p.size c.seg.align

def newSize (p : Run) (c : Cursor) : UInt32 := p.alignSize c + c.seg.size

/-- the first run of a section -/
def single (c : Cursor) : Run := ⟨0, c, [], c.seg.size⟩

/-- a segment put behind the run -/
def join (p : Run) (c : Cursor) : Run := { p with others := p.others ++ [c], size := p.newSize c }

/-- where the next run starts -/
def carry (p : Run) (t : Target) (c : Cursor) : UInt32 :=
  if t.realMode then p.alignSize c &&& 0xF else 0

/-- the run that a segment begins -/
def follow (p : Run) (t : Target) (c : Cursor) : Run :=
  ⟨(p.carry t c).toNat, c, [], p.carry t c + c.seg.size⟩

def limit (p : Run) (t : Target) : UInt32 := getSegGroupPackLimit t p.first.seg

/-- the test of `AutoGroupSect` lets a segment into the run -/
def Joins (t : Target) (groupOf : ℕ → Option ℕ) (p : Run) (c : Cursor) : Prop :=
  ¬ (p.newSize c ≥ p.limit t ∨ p.newSize c < p.size ∨ (p.segs.any fun d => d.seg.lastSegment) ∨
    ¬ canPack groupOf p.first c)

instance (t : Target) (groupOf : ℕ → Option ℕ) (p : Run) (c : Cursor) :
    Decidable (p.Joins t groupOf c) := inferInstanceAs (Decidable (¬ _))

theorem Joins.canPack {t : Target} {groupOf : ℕ → Option ℕ} {p : Run} {c : Cursor}
    (h : p.Joins t groupOf c) : canPack groupOf p.first c = true := by
  rw [Joins, not_or, not_or, not_or] at h
  exact not_not.mp h.2.2.2

/-- the locals of the loop -/
def scan (p : Run) (t : Target) : Scan :=
  ⟨some p.first, p.size, p.segs.length, p.segs.any fun d => d.seg.lastSegment, p.limit t⟩

end Run

/-- what the loop does with a segment or a run -/
inductive Event
  | alone (c : Cursor)
  | joined (p : Run) (c : Cursor)
  | closed (p : Run)

section

variable (t : Target) (groupOf : ℕ → Option ℕ)

/-- the events over some segments, from a run on -/
def events : Option Run → List Cursor → List Event
  | none, [] => []
  | some p, [] => [.closed p]
  | o, c :: l =>
    if c.seg.absolute then .alone c :: events o l
    else
      match o with
      | none => events (some (Run.single c)) l
      | some p =>
        if p.Joins t groupOf c then .joined p c :: events (some (p.join c)) l
        else .closed p :: events (some (p.follow t c)) l

/-- the segments of the group that an event makes -/
def Event.made : Event → Option (List Cursor)
  | .alone c => if groupOf c.seg.id = none then some [c] else none
  | .joined _ _ => none
  | .closed p => if groupOf p.first.seg.id = none then some p.segs else none

end

/-! ## The groups after a part of the loop -/

def ids (l : List Cursor) : List ℕ := l.map fun c => c.seg.id

/-- the groups `st` come from `st₀` by new groups of the segments in `made` -/
structure Placed (st₀ st : Groups) (made : List (List Cursor)) : Prop where
  linked : st.Linked
  allocated : st.allocated = st₀.allocated + made.length
  kept : ∀ id, st₀.groupOf id ≠ none → st.groupOf id = st₀.groupOf id
  placed : ∀ id, st₀.groupOf id = none → ∀ g, st.groupOf id = some g ↔
    ∃ i l, made[i]? = some l ∧ id ∈ ids l ∧ g = st₀.allocated + i

theorem Placed.refl {st : Groups} (h : st.Linked) : Placed st st [] := by
  refine ⟨h, rfl, fun _ _ => rfl, fun id hid g => iff_of_false ?_ ?_⟩
  · rw [hid]
    exact (Option.some_ne_none g).symm
  · rintro ⟨i, l, hl, -⟩
    exact absurd hl (by rw [List.getElem?_nil]; exact (Option.some_ne_none l).symm)

theorem Placed.same {st₀ st st' : Groups} {made : List (List Cursor)} (h : Placed st₀ st made)
    (hl : st'.Linked) (ha : st'.allocated = st.allocated) (hg : st'.groupOf = st.groupOf) :
    Placed st₀ st' made :=
  ⟨hl, ha.trans h.allocated, by rw [hg]; exact h.kept, by rw [hg]; exact h.placed⟩

/-- a segment in no new group has the group it had -/
theorem Placed.free {st₀ st : Groups} {made : List (List Cursor)} (h : Placed st₀ st made) {id : ℕ}
    (hid : id ∉ ids made.flatten) : st.groupOf id = st₀.groupOf id := by
  by_cases h0 : st₀.groupOf id = none
  · rw [h0]
    cases hg : st.groupOf id with
    | none => rfl
    | some g =>
      obtain ⟨i, l, hl, hm, -⟩ := (h.placed id h0 g).mp hg
      obtain ⟨d, hd, rfl⟩ := List.mem_map.mp hm
      exact absurd (List.mem_map_of_mem (List.mem_flatten.mpr
        ⟨l, List.mem_of_getElem? hl, hd⟩)) hid
  · exact h.kept id h0

/-- one more group -/
theorem Placed.push {st₀ st st' : Groups} {made : List (List Cursor)} (h : Placed st₀ st made)
    (part : List Cursor) {l : List Cursor} (hl : st'.Linked) (ha : st'.allocated = st.allocated + 1)
    (hg : ∀ id, st'.groupOf id =
      if st.groupOf id = none ∧ id ∈ ids part then some st.allocated else st.groupOf id)
    (hpart : ∀ id, st.groupOf id = none ∧ id ∈ ids part ↔ id ∈ ids l) :
    Placed st₀ st' (made ++ [l]) := by
  have hnone : ∀ id, id ∈ ids l → st₀.groupOf id = none := by
    intro id hid
    by_contra h0
    exact h0 ((h.kept id h0).symm.trans ((hpart id).mpr hid).1)
  refine ⟨hl, ?_, ?_, ?_⟩
  · rw [ha, h.allocated, List.length_append]
    rfl
  · intro id h0
    rw [hg, if_neg fun hc => h0 (hnone id ((hpart id).mp hc))]
    exact h.kept id h0
  · intro id h0 g
    rw [hg]
    by_cases hc : id ∈ ids l
    · have hst := ((hpart id).mpr hc).1
      rw [if_pos ((hpart id).mpr hc), h.allocated]
      constructor
      · intro hs
        exact ⟨made.length, l, List.getElem?_concat_length, hc, (Option.some.inj hs).symm⟩
      · rintro ⟨i, l', hl', hm, rfl⟩
        by_cases hi : i < made.length
        · rw [List.getElem?_append_left hi] at hl'
          have := (h.placed id h0 _).mpr ⟨i, l', hl', hm, rfl⟩
          exact absurd (hst.symm.trans this) (Option.some_ne_none _).symm
        · have hlt := (List.getElem?_eq_some_iff.mp hl').1
          rw [List.length_append, List.length_singleton] at hlt
          rw [show i = made.length by omega]
    · rw [if_neg fun hh => hc ((hpart id).mp hh), h.placed id h0]
      constructor
      · rintro ⟨i, l', hl', hm, rfl⟩
        refine ⟨i, l', ?_, hm, rfl⟩
        rw [List.getElem?_append_left (List.getElem?_eq_some_iff.mp hl').1]
        exact hl'
      · rintro ⟨i, l', hl', hm, rfl⟩
        by_cases hi : i < made.length
        · rw [List.getElem?_append_left hi] at hl'
          exact ⟨i, l', hl', hm, rfl⟩
        · have hlt := (List.getElem?_eq_some_iff.mp hl').1
          rw [List.length_append, List.length_singleton] at hlt
          rw [show i = made.length by omega, List.getElem?_concat_length] at hl'
          rw [← Option.some.inj hl'] at hm
          exact absurd hm hc

/-- the list of an event that makes a group -/
def Event.groups (groupOf : ℕ → Option ℕ) (e : Event) : List (List Cursor) :=
  (e.made groupOf).toList

/-- a run among the segments from its first on: the others of them are absolute -/
structure Opened (fuel : ℕ) (st₀ st : Groups) (p : Run) (part rest : List Cursor) : Prop where
  walked : Walked (p.first :: part ++ rest)
  fuel : (p.first :: part ++ rest).length < fuel
  first : p.first.seg.absolute = false
  segs : (p.first :: part).filter (fun d => !d.seg.absolute) = p.segs
  absolute : ∀ d ∈ part, d.seg.absolute = true → st.groupOf d.seg.id ≠ none
  same : ∀ d ∈ p.segs, st₀.groupOf d.seg.id = st₀.groupOf p.first.seg.id

section

variable {classes : List ClassEntry} {fuel : ℕ} {st₀ st : Groups} {made : List (List Cursor)}

/-- an absolute segment on its own -/
theorem alone_spec (classes : List ClassEntry) (h : Placed st₀ st made) {c : Cursor}
    {rest : List Cursor}
    (hw : Walked (c :: rest)) (hf : (c :: rest).length < fuel)
    (hfree : c.seg.id ∉ ids made.flatten) :
    ∃ st', packSegs classes fuel st c 1 = some st' ∧
      Placed st₀ st' (made ++ (Event.alone c).groups st₀.groupOf) ∧
      st'.groupOf c.seg.id ≠ none ∧ ∀ id, st.groupOf id ≠ none → st'.groupOf id ≠ none := by
  have hc := h.free hfree
  rw [Event.groups, Event.made]
  cases h0 : st₀.groupOf c.seg.id with
  | none =>
    rw [h0] at hc
    obtain ⟨st', hrun, hall, hlink, hof⟩ := packSegs_new classes []
      (n := 1) hw hf h.linked hc (by rw [List.countP_cons, if_pos (decide_eq_true hc)]; rfl)
    refine ⟨st', hrun, h.push [c] hlink hall hof fun id => ?_, ?_, fun id hid => ?_⟩
    · refine and_iff_right_of_imp fun hid => ?_
      rw [List.mem_singleton.mp hid]
      exact hc
    · rw [hof, if_pos ⟨hc, List.mem_cons_self⟩]
      exact Option.some_ne_none _
    · rwa [hof, if_neg fun hh => hid hh.1]
  | some g =>
    rw [h0] at hc
    obtain ⟨st', hrun, hall, hlink, hof⟩ := packSegs_old classes []
      (n := 1) hw hf h.linked hc
      (by
        intro d hd
        rw [List.mem_singleton.mp hd, hc]
        exact Option.some_ne_none g)
      (by rw [List.countP_cons, if_pos (decide_eq_true hc)]; exact Nat.le_add_left _ _)
    refine ⟨st', hrun, ?_, ?_, fun id hid => by rwa [hof]⟩
    · rw [if_neg (Option.some_ne_none g), Option.toList_none, List.append_nil]
      exact h.same hlink hall hof
    · rw [hof, hc]
      exact Option.some_ne_none g

/-- a run closed -/
theorem close_spec (classes : List ClassEntry) (h : Placed st₀ st made) {p : Run}
    {part rest : List Cursor}
    (ho : Opened fuel st₀ st p part rest) (hfree : ∀ d ∈ p.segs, d.seg.id ∉ ids made.flatten) :
    ∃ st', packSegs classes fuel st p.first p.segs.length = some st' ∧
      Placed st₀ st' (made ++ (Event.closed p).groups st₀.groupOf) := by
  have hmem : ∀ d ∈ p.first :: part, d.seg.absolute = false → d ∈ p.segs := by
    intro d hd ha
    rw [← ho.segs]
    exact List.mem_filter.mpr ⟨hd, by rw [ha]; rfl⟩
  have hsub : ∀ d ∈ p.segs, d ∈ p.first :: part ∧ d.seg.absolute = false := by
    intro d hd
    rw [← ho.segs] at hd
    obtain ⟨h1, h2⟩ := List.mem_filter.mp hd
    exact ⟨h1, by simpa using h2⟩
  have habs : ∀ d ∈ p.first :: part, d.seg.absolute = true → st.groupOf d.seg.id ≠ none := by
    intro d hd ha
    obtain rfl | hd := List.mem_cons.mp hd
    · rw [ho.first] at ha
      exact absurd ha Bool.false_ne_true
    · exact ho.absolute d hd ha
  have hlen : p.segs.length = (p.first :: part).countP fun d => !d.seg.absolute := by
    rw [← ho.segs, List.countP_eq_length_filter]
  have hfirst : p.first ∈ p.segs := List.mem_cons_self
  have hof : ∀ d ∈ p.segs, st.groupOf d.seg.id = st₀.groupOf p.first.seg.id :=
    fun d hd => (h.free (hfree d hd)).trans (ho.same d hd)
  rw [Event.groups, Event.made]
  cases h0 : st₀.groupOf p.first.seg.id with
  | none =>
    rw [h0] at hof
    have hcount : p.segs.length = (p.first :: part).countP fun d => st.groupOf d.seg.id = none := by
      rw [hlen]
      refine List.countP_congr fun d hd => ?_
      cases ha : d.seg.absolute with
      | false => simp [hof d (hmem d hd ha)]
      | true => simp [habs d hd ha]
    obtain ⟨st', hrun, hall, hlink, hof'⟩ := packSegs_new classes part ho.walked ho.fuel
      h.linked (hof p.first hfirst) hcount
    refine ⟨st', hrun, h.push (p.first :: part) hlink hall hof' fun id => ⟨?_, ?_⟩⟩
    · rintro ⟨hnone, hid⟩
      obtain ⟨d, hd, rfl⟩ := List.mem_map.mp hid
      refine List.mem_map_of_mem (hmem d hd ?_)
      by_contra ha
      exact habs d hd (Bool.eq_true_of_not_eq_false ha) hnone
    · intro hid
      obtain ⟨d, hd, rfl⟩ := List.mem_map.mp hid
      exact ⟨hof d hd, List.mem_map_of_mem (hsub d hd).1⟩
  | some g =>
    rw [h0] at hof
    obtain ⟨st', hrun, hall, hlink, hof'⟩ := packSegs_old classes part
      (n := p.segs.length) ho.walked ho.fuel h.linked (hof p.first hfirst)
      (by
        intro d hd
        cases ha : d.seg.absolute with
        | false =>
          rw [hof d (hmem d hd ha)]
          exact Option.some_ne_none g
        | true => exact habs d hd ha)
      (by
        rw [hlen]
        refine List.countP_mono_left fun d hd ha => decide_eq_true (hof d (hmem d hd ?_))
        simpa using ha)
    refine ⟨st', hrun, ?_⟩
    rw [if_neg (Option.some_ne_none g), Option.toList_none, List.append_nil]
    exact h.same hlink hall hof'

/-- a run with one more segment behind it, put there or absolute -/
theorem Opened.more {st' : Groups} {p q : Run} {part rest : List Cursor} {c : Cursor}
    (ho : Opened fuel st₀ st p part (c :: rest)) (hfirst : q.first = p.first)
    (hsegs : q.segs = p.segs ++ if c.seg.absolute then [] else [c])
    (hkeep : ∀ d ∈ part, st.groupOf d.seg.id ≠ none → st'.groupOf d.seg.id ≠ none)
    (habs : c.seg.absolute = true → st'.groupOf c.seg.id ≠ none)
    (hsame : c.seg.absolute = false → st₀.groupOf c.seg.id = st₀.groupOf p.first.seg.id) :
    Opened fuel st₀ st' q (part ++ [c]) rest := by
  have hlist : p.first :: (part ++ [c]) ++ rest = p.first :: part ++ c :: rest := by
    rw [List.cons_append, List.append_assoc, List.cons_append]
    rfl
  constructor
  · rw [hfirst, hlist]
    exact ho.walked
  · rw [hfirst, hlist]
    exact ho.fuel
  · rw [hfirst]
    exact ho.first
  · have hlast : [c].filter (fun d => !d.seg.absolute) = if c.seg.absolute then [] else [c] := by
      cases ha : c.seg.absolute <;> simp [ha]
    rw [hfirst, hsegs, ← ho.segs, ← List.cons_append, List.filter_append, hlast]
  · intro d hd ha
    obtain hd | hd := List.mem_append.mp hd
    · exact hkeep d hd (ho.absolute d hd ha)
    · rw [List.mem_singleton.mp hd] at ha ⊢
      exact habs ha
  · intro d hd
    rw [hsegs] at hd
    rw [hfirst]
    obtain hd | hd := List.mem_append.mp hd
    · exact ho.same d hd
    · cases ha : c.seg.absolute with
      | false =>
        rw [ha, if_neg Bool.false_ne_true] at hd
        rw [List.mem_singleton.mp hd]
        exact hsame ha
      | true =>
        rw [ha, if_pos rfl] at hd
        exact absurd hd List.not_mem_nil

/-- a run of one segment -/
theorem opened_single {q : Run} {c : Cursor} {rest : List Cursor} (hw : Walked (c :: rest))
    (hf : (c :: rest).length < fuel) (ha : c.seg.absolute = false) (hfirst : q.first = c)
    (hothers : q.others = []) : Opened fuel st₀ st q [] rest := by
  have hsegs : q.segs = [c] := by rw [Run.segs, hfirst, hothers]
  constructor
  · rw [hfirst]
    exact hw
  · rw [hfirst]
    exact hf
  · rw [hfirst]
    exact ha
  · rw [hfirst, hsegs, List.filter_cons_of_pos (by rw [ha]; rfl)]
    rfl
  · exact fun d hd => absurd hd List.not_mem_nil
  · intro d hd
    rw [hsegs] at hd
    rw [List.mem_singleton.mp hd, hfirst]

/-- the segments that are placed or to come, each once -/
def Apart (made : List (List Cursor)) (run rest : List Cursor) : Prop :=
  (ids made.flatten ++ ids run ++ ids rest).Nodup

theorem Apart.run {run rest : List Cursor} (h : Apart made run rest) :
    ∀ d ∈ run, d.seg.id ∉ ids made.flatten := by
  intro d hd hm
  have h1 := (List.nodup_append.mp h).1
  exact (List.nodup_append.mp h1).2.2 _ hm _ (List.mem_map_of_mem hd) rfl

theorem Apart.next {run rest : List Cursor} {c : Cursor} (h : Apart made run (c :: rest)) :
    c.seg.id ∉ ids made.flatten := fun hm =>
  (List.nodup_append.mp h).2.2 _ (List.mem_append_left _ hm) _ List.mem_cons_self rfl

theorem ids_append (k l : List Cursor) : ids (k ++ l) = ids k ++ ids l := List.map_append

theorem Apart.join {run rest : List Cursor} {c : Cursor} (h : Apart made run (c :: rest)) :
    Apart made (run ++ [c]) rest := by
  rw [Apart, ids_append, List.append_assoc, List.append_assoc]
  rw [Apart, List.append_assoc] at h
  exact h

/-- the groups of an event hold some segments of it, or none -/
theorem Apart.alone {run rest : List Cursor} {c : Cursor} (h : Apart made run (c :: rest)) :
    Apart (made ++ (Event.alone c).groups st₀.groupOf) run rest := by
  rw [Event.groups, Event.made]
  by_cases h0 : st₀.groupOf c.seg.id = none
  · rw [if_pos h0, Option.toList_some, Apart, List.flatten_append, ids_append, List.flatten_singleton]
    refine List.Perm.nodup ?_ h
    rw [List.append_assoc, List.append_assoc, List.append_assoc]
    exact List.Perm.append_left _ List.perm_middle
  · rw [if_neg h0, Option.toList_none, List.append_nil]
    exact List.Nodup.sublist (List.Sublist.append_left (List.sublist_cons_self _ _) _) h

theorem Apart.close {p : Run} {rest : List Cursor} (h : Apart made p.segs rest) :
    Apart (made ++ (Event.closed p).groups st₀.groupOf) [] rest := by
  rw [Event.groups, Event.made]
  by_cases h0 : st₀.groupOf p.first.seg.id = none
  · rw [if_pos h0, Option.toList_some, Apart, List.flatten_append, ids_append, List.flatten_singleton]
    rw [show ids [] = [] from rfl, List.append_nil]
    exact h
  · rw [if_neg h0, Option.toList_none, List.append_nil, Apart, show ids [] = [] from rfl,
      List.append_nil]
    exact List.Nodup.sublist (List.Sublist.append_right (List.sublist_append_left _ _) _) h

variable (t : Target)

theorem scan_join (p : Run) (c : Cursor) : (p.join c).scan t =
    ⟨some p.first, p.newSize c, p.segs.length + 1,
      (p.segs.any fun d => d.seg.lastSegment) || c.seg.lastSegment, p.limit t⟩ := by
  have hsegs : (p.join c).segs = p.segs ++ [c] := rfl
  rw [Run.scan, hsegs, List.length_append, List.any_append, List.any_cons, List.any_nil,
    Bool.or_false]
  rfl

theorem scan_follow (p : Run) (c : Cursor) : (p.follow t c).scan t =
    ⟨some c, if t.realMode then (p.alignSize c &&& 0xF) + c.seg.size else c.seg.size, 1,
      c.seg.lastSegment, getSegGroupPackLimit t c.seg⟩ := by
  have hsize : (if t.realMode then (p.alignSize c &&& 0xF) + c.seg.size else c.seg.size) =
      p.carry t c + c.seg.size := by
    rw [Run.carry]
    by_cases hr : t.realMode = true
    · rw [if_pos hr, if_pos hr]
    · rw [if_neg hr, if_neg hr, UInt32.zero_add]
  have hlast : (p.follow t c).segs.any (fun d => d.seg.lastSegment) = c.seg.lastSegment :=
    Bool.or_false _
  rw [Run.scan, hlast, hsize]
  rfl

theorem scan_single (c : Cursor) : (Run.single c).scan t =
    ⟨some c, c.seg.size, 1, c.seg.lastSegment, getSegGroupPackLimit t c.seg⟩ := by
  have hlast : (Run.single c).segs.any (fun d => d.seg.lastSegment) = c.seg.lastSegment :=
    Bool.or_false _
  rw [Run.scan, hlast]
  rfl

/-- the step of the loop puts the segment behind the run -/
theorem scanStep_join {p : Run} {c : Cursor} (ha : ¬ c.seg.absolute = true)
    (hj : p.Joins t st.groupOf c) :
    scanStep t classes fuel (p.scan t) st c = some ((p.join c).scan t, st) := by
  rw [scanStep, if_neg ha, scan_join]
  exact if_neg hj

/-- the step of the loop closes the run -/
theorem scanStep_follow {p : Run} {c : Cursor} (ha : ¬ c.seg.absolute = true)
    (hj : ¬ p.Joins t st.groupOf c) :
    scanStep t classes fuel (p.scan t) st c =
      (packSegs classes fuel st p.first p.segs.length).map fun st => ((p.follow t c).scan t, st) := by
  rw [scanStep, if_neg ha, scan_follow]
  exact if_pos (not_not.mp hj)

/-- the first segment that is not absolute begins a run -/
theorem scanStep_first {c : Cursor} (ha : ¬ c.seg.absolute = true) :
    scanStep t classes fuel ⟨none, 0, 0, false, 0⟩ st c = some ((Run.single c).scan t, st) := by
  have h0 : cAlign 0 c.seg.align = 0 := by
    rw [cAlign]
    by_cases hal : 0 < c.seg.align.val
    · rw [if_pos hal]
      exact if_neg (not_not.mpr (UInt32.zero_and))
    · rw [if_neg hal]
  rw [scanStep, if_neg ha, scan_single]
  dsimp only
  rw [h0, UInt32.zero_add, UInt32.zero_and, UInt32.zero_add, ite_self]
  by_cases hc : c.seg.size ≥ getSegGroupPackLimit t c.seg ∨ c.seg.size < 0 ∨
      (false : Bool) = true ∨ ¬ canPack st.groupOf c c = true
  · exact (if_pos hc).trans rfl
  · exact (if_neg hc).trans rfl

/-- segments that may share a group have the same one so far -/
theorem canPack_group {groupOf : ℕ → Option ℕ} {one two : Cursor}
    (h : canPack groupOf one two = true) : groupOf one.seg.id = groupOf two.seg.id := by
  by_contra hne
  rw [canPack, if_pos hne] at h
  simp only [ite_self] at h
  exact Bool.false_ne_true h

/-- the loop from a run on -/
theorem loop_placed (classes : List ClassEntry) (rest : List Cursor) : ∀ {st : Groups} {made : List (List Cursor)} {p : Run}
    {part : List Cursor}, Placed st₀ st made → Opened fuel st₀ st p part rest →
    Apart made p.segs rest →
    ∃ st', (rest.foldlM (fun r c => scanStep t classes fuel r.1 r.2 c) (p.scan t, st)).bind
        (packRest classes fuel) = some st' ∧
      Placed st₀ st' (made ++
        (events t st₀.groupOf (some p) rest).flatMap (Event.groups st₀.groupOf)) := by
  induction rest with
  | nil =>
    intro st made p part h ho hap
    obtain ⟨st', hrun, hpl⟩ := close_spec classes h ho hap.run
    refine ⟨st', hrun, ?_⟩
    rw [events, List.flatMap_singleton]
    exact hpl
  | cons c rest ih =>
    intro st made p part h ho hap
    rw [List.foldlM_cons, Option.bind_eq_bind, Option.bind_assoc]
    have hw : Walked (c :: rest) := ho.walked.append
    have hf : (c :: rest).length < fuel := by
      have := ho.fuel
      rw [List.length_append] at this
      omega
    cases ha : c.seg.absolute with
    | true =>
      obtain ⟨st', hrun, hpl, hc, hkeep⟩ := alone_spec classes h hw hf hap.next
      have hsegs : p.segs = p.segs ++ if c.seg.absolute then [] else [c] := by
        rw [ha, if_pos rfl, List.append_nil]
      obtain ⟨st'', hrun', hpl'⟩ := ih hpl (ho.more rfl hsegs (fun d _ => hkeep d.seg.id)
        (fun _ => hc) (fun h => absurd (ha.symm.trans h) (by decide))) hap.alone
      refine ⟨st'', ?_, ?_⟩
      · rw [scanStep, if_pos ha, hrun]
        exact hrun'
      · rw [events, if_pos ha, List.flatMap_cons, ← List.append_assoc]
        exact hpl'
    | false =>
      have hna : ¬ c.seg.absolute = true := by
        rw [ha]
        exact Bool.false_ne_true
      have hpack : canPack st.groupOf p.first c = canPack st₀.groupOf p.first c :=
        canPack_congr (h.free (hap.run _ List.mem_cons_self)) (h.free hap.next)
      have hjoins : p.Joins t st.groupOf c ↔ p.Joins t st₀.groupOf c := by
        rw [Run.Joins, Run.Joins, hpack]
      by_cases hj : p.Joins t st₀.groupOf c
      · have hsegs : (p.join c).segs = p.segs ++ if c.seg.absolute then [] else [c] := by
          rw [ha, if_neg Bool.false_ne_true]
          rfl
        have hsame : st₀.groupOf c.seg.id = st₀.groupOf p.first.seg.id :=
          (canPack_group hj.canPack).symm
        obtain ⟨st', hrun, hpl⟩ := ih h (ho.more (q := p.join c) rfl hsegs (fun _ _ h => h)
          (fun h => absurd h hna) (fun _ => hsame)) hap.join
        refine ⟨st', ?_, ?_⟩
        · rw [scanStep_join t hna (hjoins.mpr hj)]
          exact hrun
        · rw [events, if_neg hna, if_pos hj, List.flatMap_cons]
          exact hpl
      · obtain ⟨st', hrun, hpl⟩ := close_spec classes h ho hap.run
        obtain ⟨st'', hrun', hpl'⟩ := ih (p := p.follow t c) hpl
          (opened_single hw hf ha rfl rfl) hap.close.join
        refine ⟨st'', ?_, ?_⟩
        · rw [scanStep_follow t hna (fun h => hj (hjoins.mp h)), hrun]
          exact hrun'
        · rw [events, if_neg hna, if_neg hj, List.flatMap_cons, ← List.append_assoc]
          exact hpl'

/-- the loop before there is a run -/
theorem loop_start (classes : List ClassEntry) (rest : List Cursor) : ∀ {st : Groups} {made : List (List Cursor)},
    Placed st₀ st made → Walked rest → rest.length < fuel → Apart made [] rest →
    ∃ st', (rest.foldlM (fun r c => scanStep t classes fuel r.1 r.2 c)
        ((⟨none, 0, 0, false, 0⟩ : Scan), st)).bind (packRest classes fuel) = some st' ∧
      Placed st₀ st' (made ++
        (events t st₀.groupOf none rest).flatMap (Event.groups st₀.groupOf)) := by
  induction rest with
  | nil =>
    intro st made h _ _ _
    refine ⟨st, rfl, ?_⟩
    rw [events, List.flatMap_nil, List.append_nil]
    exact h
  | cons c rest ih =>
    intro st made h hw hf hap
    rw [List.foldlM_cons, Option.bind_eq_bind, Option.bind_assoc]
    by_cases ha : c.seg.absolute = true
    · obtain ⟨st', hrun, hpl, -, -⟩ := alone_spec classes h hw hf hap.next
      obtain ⟨st'', hrun', hpl'⟩ := ih hpl hw.tail (Nat.lt_of_succ_lt hf) hap.alone
      refine ⟨st'', ?_, ?_⟩
      · rw [scanStep, if_pos ha, hrun]
        exact hrun'
      · rw [events, if_pos ha, List.flatMap_cons, ← List.append_assoc]
        exact hpl'
    · obtain ⟨st', hrun, hpl⟩ := loop_placed t classes rest h
        (opened_single (q := Run.single c) hw hf (Bool.eq_false_of_not_eq_true ha) rfl rfl) hap.join
      refine ⟨st', ?_, ?_⟩
      · rw [scanStep_first t ha]
        exact hrun
      · rw [events, if_neg ha]
        exact hpl

end

/-- the new groups are the absolute segments and the closed runs that had no group -/
theorem autoGroupSect_placed (t : Target) {classes : List ClassEntry} {st : Groups}
    (hst : st.Linked) (hids : (ids (cursors classes)).Nodup) :
    ∃ st', autoGroupSect t classes st = some st' ∧
      Placed st st' ((events t st.groupOf none (cursors classes)).flatMap
        (Event.groups st.groupOf)) := by
  have hw := walked_cursors classes
  obtain ⟨st', hrun, hpl⟩ := loop_start t classes (cursors classes)
    (Placed.refl hst) hw (Nat.lt_succ_self _) hids
  refine ⟨st', ?_, hpl⟩
  rw [autoGroupSect, getNextSeg_none, autoLoop_eq t classes _ hw (Nat.lt_succ_self _)]
  exact hrun

/-! ## The runs -/

section

variable (t : Target) (groupOf : ℕ → Option ℕ)

/-- what holds of the segments of a run -/
structure Run.Good (p : Run) : Prop where
  absolute : ∀ d ∈ p.segs, ¬ d.seg.absolute = true
  pack : ∀ d ∈ p.others, canPack groupOf p.first d = true
  last : ∀ d ∈ p.segs.dropLast, ¬ d.seg.lastSegment = true

variable {t groupOf}

theorem Run.good_one {p : Run} (h : p.others = []) (ha : ¬ p.first.seg.absolute = true) :
    p.Good groupOf := by
  have hsegs : p.segs = [p.first] := by rw [Run.segs, h]
  refine ⟨fun d hd => ?_, fun d hd => ?_, fun d hd => ?_⟩
  · rw [hsegs] at hd
    rwa [List.mem_singleton.mp hd]
  · rw [h] at hd
    exact absurd hd List.not_mem_nil
  · rw [hsegs] at hd
    exact absurd hd List.not_mem_nil

theorem Run.Good.join {p : Run} (h : p.Good groupOf) {c : Cursor} (ha : ¬ c.seg.absolute = true)
    (hj : p.Joins t groupOf c) : (p.join c).Good groupOf := by
  have hsegs : (p.join c).segs = p.segs ++ [c] := rfl
  refine ⟨fun d hd => ?_, fun d hd => ?_, fun d hd => ?_⟩
  · rw [hsegs] at hd
    obtain hd | hd := List.mem_append.mp hd
    · exact h.absolute d hd
    · rwa [List.mem_singleton.mp hd]
  · obtain hd | hd := List.mem_append.mp hd
    · exact h.pack d hd
    · rw [List.mem_singleton.mp hd]
      exact hj.canPack
  · rw [hsegs, List.dropLast_concat] at hd
    intro hl
    rw [Run.Joins, not_or, not_or, not_or] at hj
    exact hj.2.2.1 (List.any_eq_true.mpr ⟨d, hd, hl⟩)

/-- the segments of a run that may not be there -/
def segsOf : Option Run → List Cursor
  | none => []
  | some p => p.segs

/-- what can happen to a segment -/
theorem events_cons (t : Target) (groupOf : ℕ → Option ℕ) (o : Option Run) (c : Cursor)
    (l : List Cursor) :
    (c.seg.absolute = true ∧ events t groupOf o (c :: l) = .alone c :: events t groupOf o l) ∨
    (¬ c.seg.absolute = true ∧ o = none ∧
      events t groupOf o (c :: l) = events t groupOf (some (Run.single c)) l) ∨
    (∃ p, ¬ c.seg.absolute = true ∧ o = some p ∧ p.Joins t groupOf c ∧
      events t groupOf o (c :: l) = .joined p c :: events t groupOf (some (p.join c)) l) ∨
    (∃ p, ¬ c.seg.absolute = true ∧ o = some p ∧ ¬ p.Joins t groupOf c ∧
      events t groupOf o (c :: l) = .closed p :: events t groupOf (some (p.follow t c)) l) := by
  by_cases ha : c.seg.absolute = true
  · cases o with
    | none => exact Or.inl ⟨ha, if_pos ha⟩
    | some p => exact Or.inl ⟨ha, if_pos ha⟩
  · cases o with
    | none => exact Or.inr (Or.inl ⟨ha, rfl, if_neg ha⟩)
    | some p =>
      rw [events, if_neg ha]
      by_cases hj : p.Joins t groupOf c
      · exact Or.inr (Or.inr (Or.inl ⟨p, ha, rfl, hj, if_pos hj⟩))
      · exact Or.inr (Or.inr (Or.inr ⟨p, ha, rfl, hj, if_neg hj⟩))

/-- what holds of a closed run -/
theorem events_good (l : List Cursor) : ∀ {o : Option Run}, (∀ p ∈ o, p.Good groupOf) →
    ∀ r, Event.closed r ∈ events t groupOf o l → r.Good groupOf ∧ r.segs.Sublist (segsOf o ++ l) := by
  induction l with
  | nil =>
    intro o ho r hr
    cases o with
    | none => exact absurd hr List.not_mem_nil
    | some p =>
      rw [events] at hr
      obtain rfl : r = p := Event.closed.inj (List.mem_singleton.mp hr)
      exact ⟨ho r rfl, by rw [segsOf, List.append_nil]⟩
  | cons c l ih =>
    intro o ho r hr
    have hmid : ∀ k, (segsOf o ++ k).Sublist (segsOf o ++ c :: k) :=
      fun k => List.Sublist.append_left (List.sublist_cons_self c k) _
    obtain ⟨ha, he⟩ | ⟨ha, rfl, he⟩ | ⟨p, ha, rfl, hj, he⟩ | ⟨p, ha, rfl, hj, he⟩ :=
      events_cons t groupOf o c l
    · rw [he] at hr
      obtain hr | hr := List.mem_cons.mp hr
      · exact Event.noConfusion hr
      · obtain ⟨hg, hs⟩ := ih ho r hr
        exact ⟨hg, hs.trans (hmid l)⟩
    · rw [he] at hr
      refine ih (fun p hp => ?_) r hr
      rw [← Option.some.inj hp]
      exact Run.good_one rfl ha
    · rw [he] at hr
      obtain hr | hr := List.mem_cons.mp hr
      · exact Event.noConfusion hr
      · obtain ⟨hg, hs⟩ := ih (fun q hq => by
          rw [← Option.some.inj hq]
          exact (ho p rfl).join ha hj) r hr
        refine ⟨hg, ?_⟩
        rw [show segsOf (some (p.join c)) = segsOf (some p) ++ [c] from rfl, List.append_assoc] at hs
        exact hs
    · rw [he] at hr
      obtain hr | hr := List.mem_cons.mp hr
      · obtain rfl := Event.closed.inj hr
        exact ⟨ho r rfl, List.sublist_append_left _ _⟩
      · obtain ⟨hg, hs⟩ := ih (fun q hq => by
          rw [← Option.some.inj hq]
          exact Run.good_one rfl ha) r hr
        exact ⟨hg, hs.trans (List.sublist_append_right _ _)⟩

/-- every segment that is not absolute is in a closed run -/
theorem events_run (t : Target) (groupOf : ℕ → Option ℕ) (l : List Cursor) :
    ∀ {o : Option Run} {d : Cursor},
    d ∈ segsOf o ∨ d ∈ l ∧ ¬ d.seg.absolute = true →
      ∃ r, Event.closed r ∈ events t groupOf o l ∧ d ∈ r.segs := by
  induction l with
  | nil =>
    intro o d hd
    obtain hd | hd := hd
    · cases o with
      | none => exact absurd hd List.not_mem_nil
      | some p => exact ⟨p, List.mem_singleton_self _, hd⟩
    · exact absurd hd.1 List.not_mem_nil
  | cons c l ih =>
    intro o d hd
    rw [List.mem_cons] at hd
    obtain ⟨ha, he⟩ | ⟨ha, rfl, he⟩ | ⟨p, ha, rfl, hj, he⟩ | ⟨p, ha, rfl, hj, he⟩ :=
      events_cons t groupOf o c l
    · have hd' : d ∈ segsOf o ∨ d ∈ l ∧ ¬ d.seg.absolute = true := by
        obtain hd | ⟨rfl | hd, hn⟩ := hd
        · exact Or.inl hd
        · exact absurd ha hn
        · exact Or.inr ⟨hd, hn⟩
      obtain ⟨r, hr, hm⟩ := ih hd'
      exact ⟨r, by rw [he]; exact List.mem_cons_of_mem _ hr, hm⟩
    · have hd' : d ∈ segsOf (some (Run.single c)) ∨ d ∈ l ∧ ¬ d.seg.absolute = true := by
        obtain hd | ⟨rfl | hd, hn⟩ := hd
        · exact absurd hd List.not_mem_nil
        · exact Or.inl List.mem_cons_self
        · exact Or.inr ⟨hd, hn⟩
      obtain ⟨r, hr, hm⟩ := ih hd'
      exact ⟨r, by rw [he]; exact hr, hm⟩
    · have hd' : d ∈ segsOf (some (p.join c)) ∨ d ∈ l ∧ ¬ d.seg.absolute = true := by
        rw [show segsOf (some (p.join c)) = segsOf (some p) ++ [c] from rfl, List.mem_append]
        obtain hd | ⟨rfl | hd, hn⟩ := hd
        · exact Or.inl (Or.inl hd)
        · exact Or.inl (Or.inr List.mem_cons_self)
        · exact Or.inr ⟨hd, hn⟩
      obtain ⟨r, hr, hm⟩ := ih hd'
      exact ⟨r, by rw [he]; exact List.mem_cons_of_mem _ hr, hm⟩
    · rw [he]
      by_cases hp : d ∈ p.segs
      · exact ⟨p, List.mem_cons_self, hp⟩
      · have hd' : d ∈ segsOf (some (p.follow t c)) ∨ d ∈ l ∧ ¬ d.seg.absolute = true := by
          obtain hd | ⟨rfl | hd, hn⟩ := hd
          · exact absurd hd hp
          · exact Or.inl List.mem_cons_self
          · exact Or.inr ⟨hd, hn⟩
        obtain ⟨r, hr, hm⟩ := ih hd'
        exact ⟨r, List.mem_cons_of_mem _ hr, hm⟩

/-- the absolute segments are on their own -/
theorem events_alone (l : List Cursor) : ∀ {o : Option Run} {d : Cursor},
    Event.alone d ∈ events t groupOf o l ↔ d ∈ l ∧ d.seg.absolute = true := by
  induction l with
  | nil =>
    intro o d
    refine iff_of_false ?_ fun h => List.not_mem_nil h.1
    cases o with
    | none => exact List.not_mem_nil
    | some p => exact fun h => Event.noConfusion (List.mem_singleton.mp h)
  | cons c l ih =>
    intro o d
    rw [List.mem_cons]
    obtain ⟨ha, he⟩ | ⟨ha, rfl, he⟩ | ⟨p, ha, rfl, hj, he⟩ | ⟨p, ha, rfl, hj, he⟩ :=
      events_cons t groupOf o c l
    · rw [he, List.mem_cons, ih, Event.alone.injEq]
      constructor
      · rintro (rfl | h)
        · exact ⟨Or.inl rfl, ha⟩
        · exact ⟨Or.inr h.1, h.2⟩
      · rintro ⟨rfl | h, hd⟩
        · exact Or.inl rfl
        · exact Or.inr ⟨h, hd⟩
    all_goals
      have hne : d.seg.absolute = true → d ≠ c := fun h hc => ha (hc ▸ h)
      rw [he]
    · rw [ih]
      exact ⟨fun h => ⟨Or.inr h.1, h.2⟩, fun h => ⟨h.1.resolve_left (hne h.2), h.2⟩⟩
    · rw [List.mem_cons, ih]
      refine ⟨fun h => ?_, fun h => Or.inr ⟨h.1.resolve_left (hne h.2), h.2⟩⟩
      obtain h | h := h
      · exact Event.noConfusion h
      · exact ⟨Or.inr h.1, h.2⟩
    · rw [List.mem_cons, ih]
      refine ⟨fun h => ?_, fun h => Or.inr ⟨h.1.resolve_left (hne h.2), h.2⟩⟩
      obtain h | h := h
      · exact Event.noConfusion h
      · exact ⟨Or.inr h.1, h.2⟩

end

/-! ## The sizes -/

/-- what aligning an offset to `2 ^ align` adds -/
def padding (n : ℕ) (align : Fin 32) : ℕ := (2 ^ align.val - n % 2 ^ align.val) % 2 ^ align.val

/-- the aligned size of a run, with where it starts -/
def Run.total (p : Run) : ℕ :=
  p.others.foldl (fun n d => n + padding n d.seg.align + d.seg.size.toNat)
    (p.start + p.first.seg.size.toNat)

theorem padding_mod (n : ℕ) (align : Fin 32) : padding (n % 2 ^ 32) align = padding n align := by
  have hd : 2 ^ align.val ∣ 2 ^ 32 := pow_dvd_pow 2 (Nat.le_of_lt align.isLt)
  rw [padding, padding, Nat.mod_mod_of_dvd _ hd]

theorem cAlign_toNat (off : UInt32) (align : Fin 32) :
    (cAlign off align).toNat = (off.toNat + padding off.toNat align) % 2 ^ 32 := by
  rw [cAlign, padding]
  by_cases h0 : 0 < align.val
  · have hlt : 2 ^ align.val < 2 ^ 32 := Nat.pow_lt_pow_right (by omega) align.isLt
    have hpos : 0 < 2 ^ align.val := Nat.two_pow_pos _
    have hal : ((1 : UInt32) <<< UInt32.ofNat align.val).toNat = 2 ^ align.val := by
      rw [UInt32.toNat_shiftLeft, UInt32.toNat_ofNat_of_lt' (lt_trans align.isLt (by decide)),
        Nat.mod_eq_of_lt align.isLt, UInt32.toNat_one, Nat.one_shiftLeft, Nat.mod_eq_of_lt hlt]
    have hmask : ((1 : UInt32) <<< UInt32.ofNat align.val - 1).toNat = 2 ^ align.val - 1 := by
      rw [UInt32.toNat_sub_of_le _ _ (UInt32.le_iff_toNat_le.mpr (by rw [hal]; exact hpos)), hal]
      rfl
    have hpart : (off &&& ((1 : UInt32) <<< UInt32.ofNat align.val - 1)).toNat =
        off.toNat % 2 ^ align.val := by
      rw [UInt32.toNat_and, hmask, Nat.and_two_pow_sub_one_eq_mod]
    have hm := Nat.mod_lt off.toNat hpos
    rw [if_pos h0]
    dsimp only
    by_cases hp : off &&& ((1 : UInt32) <<< UInt32.ofNat align.val - 1) = 0
    · rw [hp, UInt32.toNat_zero] at hpart
      rw [if_neg (not_not.mpr hp), ← hpart, Nat.sub_zero, Nat.mod_self, Nat.add_zero,
        Nat.mod_eq_of_lt off.toNat_lt]
    · have hne : off.toNat % 2 ^ align.val ≠ 0 := by
        rw [← hpart]
        exact fun h => hp (UInt32.toNat_inj.mp h)
      rw [if_pos hp, UInt32.toNat_add, UInt32.toNat_sub_of_le _ _
        (UInt32.le_iff_toNat_le.mpr (by rw [hal, hpart]; omega)), hal, hpart,
        Nat.mod_eq_of_lt (by omega : 2 ^ align.val - off.toNat % 2 ^ align.val < 2 ^ align.val)]
  · have h1 : align.val = 0 := by omega
    rw [if_neg h0, h1, pow_zero, Nat.mod_one, Nat.add_zero,
      Nat.mod_eq_of_lt off.toNat_lt]

theorem Run.newSize_toNat (p : Run) (c : Cursor) : (p.newSize c).toNat =
    (p.size.toNat + padding p.size.toNat c.seg.align + c.seg.size.toNat) % 2 ^ 32 := by
  rw [newSize, UInt32.toNat_add, alignSize, cAlign_toNat, Nat.mod_add_mod]

/-- the size that the code has is the size of the run, but for what went round -/
structure Run.Counted (p : Run) : Prop where
  start : p.start < 16
  size : p.size.toNat = p.total % 2 ^ 32

theorem Run.counted_single (c : Cursor) : (single c).Counted := by
  refine ⟨Nat.zero_lt_succ 15, ?_⟩
  show c.seg.size.toNat = (0 + c.seg.size.toNat) % 2 ^ 32
  rw [Nat.zero_add, Nat.mod_eq_of_lt c.seg.size.toNat_lt]

theorem Run.counted_follow (p : Run) (t : Target) (c : Cursor) : (p.follow t c).Counted := by
  refine ⟨?_, UInt32.toNat_add _ _⟩
  show (p.carry t c).toNat < 16
  rw [carry]
  by_cases hr : t.realMode = true
  · rw [if_pos hr, UInt32.toNat_and]
    exact lt_of_le_of_lt Nat.and_le_right (by decide)
  · rw [if_neg hr]
    decide

theorem Run.total_join (p : Run) (c : Cursor) :
    (p.join c).total = p.total + padding p.total c.seg.align + c.seg.size.toNat := by
  show (p.others ++ [c]).foldl _ _ = _
  rw [List.foldl_append]
  rfl

theorem Run.Counted.join {p : Run} (h : p.Counted) (c : Cursor) : (p.join c).Counted := by
  refine ⟨h.start, ?_⟩
  show (p.newSize c).toNat = _
  rw [newSize_toNat, total_join, h.size, padding_mod, Nat.add_assoc, Nat.mod_add_mod, Nat.add_assoc]

/-- a segment that is put behind a run comes with its padding below 4 GiB, and the first segment of
the run did so with where it starts -/
def Run.Fits (p : Run) (c : Cursor) : Prop :=
  padding p.size.toNat c.seg.align + c.seg.size.toNat < 2 ^ 32 ∧
    (p.others = [] → p.first.seg.size ≤ p.size)

/-- where a segment joins, the size stays below the limit exactly where nothing goes round -/
theorem Run.total_join_lt_iff {p : Run} (h : p.Counted) {t : Target} {groupOf : ℕ → Option ℕ}
    {c : Cursor} (hj : p.Joins t groupOf c) :
    (p.join c).total < (p.limit t).toNat ↔
      (p.others ≠ [] → p.total < (p.limit t).toNat) ∧ p.Fits c := by
  have hlim := (p.limit t).toNat_lt
  rw [Joins, not_or, not_or] at hj
  have hnew : (p.newSize c).toNat < (p.limit t).toNat :=
    UInt32.lt_iff_toNat_lt.mp (UInt32.not_le.mp hj.1)
  have hgrow : p.size.toNat ≤ (p.newSize c).toNat :=
    UInt32.le_iff_toNat_le.mp (UInt32.not_lt.mp hj.2.1)
  rw [newSize_toNat] at hnew hgrow
  have hsize := h.size
  rw [total_join]
  constructor
  · intro htot
    have hexact : p.size.toNat = p.total := by
      rw [hsize, Nat.mod_eq_of_lt (by omega)]
    refine ⟨fun _ => by omega, ?_, fun hnil => ?_⟩
    · rw [hexact]
      omega
    · rw [UInt32.le_iff_toNat_le, hexact, total, hnil]
      exact Nat.le_add_left _ _
  · rintro ⟨hmore, hpad, hone⟩
    have hsmall : p.total < 2 ^ 32 := by
      by_cases hnil : p.others = []
      · have hle := UInt32.le_iff_toNat_le.mp (hone hnil)
        have htot : p.total = p.start + p.first.seg.size.toNat := by rw [total, hnil]; rfl
        have hst := h.start
        have hf := p.first.seg.size.toNat_lt
        omega
      · exact lt_trans (hmore hnil) hlim
    have hexact : p.size.toNat = p.total := by
      rw [hsize, Nat.mod_eq_of_lt hsmall]
    rw [hexact] at hpad hgrow hnew
    omega

section

variable {t : Target} {groupOf : ℕ → Option ℕ}

/-- over all runs: the closed ones are below their limits exactly where every segment that joins
one fits.  The induction is over the segments, from a run that may be over its limit already -/
theorem events_total_iff (t : Target) (groupOf : ℕ → Option ℕ) (l : List Cursor) :
    ∀ {o : Option Run}, (∀ p ∈ o, p.Counted) →
    ((∀ r, Event.closed r ∈ events t groupOf o l → groupOf r.first.seg.id = none →
        r.others ≠ [] → r.total < (r.limit t).toNat) ↔
      (∀ p ∈ o, groupOf p.first.seg.id = none → p.others ≠ [] → p.total < (p.limit t).toNat) ∧
      ∀ p c, Event.joined p c ∈ events t groupOf o l → groupOf p.first.seg.id = none → p.Fits c) := by
  induction l with
  | nil =>
    intro o ho
    cases o with
    | none =>
      refine ⟨fun _ => ⟨fun p hp => absurd hp (Option.some_ne_none p).symm, fun p c h => ?_⟩,
        fun _ r h => ?_⟩
      · exact absurd h List.not_mem_nil
      · exact absurd h List.not_mem_nil
    | some q =>
      constructor
      · intro h
        refine ⟨fun p hp => ?_, fun p c hc => Event.noConfusion (List.mem_singleton.mp hc)⟩
        rw [← Option.some.inj hp]
        exact h q List.mem_cons_self
      · rintro ⟨h, -⟩ r hr
        rw [Event.closed.inj (List.mem_singleton.mp hr)]
        exact h q rfl
  | cons c l ih =>
    intro o ho
    obtain ⟨ha, he⟩ | ⟨ha, rfl, he⟩ | ⟨p, ha, rfl, hj, he⟩ | ⟨p, ha, rfl, hj, he⟩ :=
      events_cons t groupOf o c l
    · rw [he]
      simp only [List.mem_cons, reduceCtorEq, false_or]
      exact ih ho
    · have hone : (Run.single c).others = [] := rfl
      rw [he, ih fun q hq => by rw [← Option.some.inj hq]; exact Run.counted_single c]
      refine and_congr_left fun _ => iff_of_true (fun q hq _ hne => ?_) fun q hq => ?_
      · rw [← Option.some.inj hq] at hne
        exact absurd hone hne
      · exact absurd hq (Option.some_ne_none q).symm
    · have hp := ho p rfl
      have hih := ih (o := some (p.join c)) fun q hq => by
        rw [← Option.some.inj hq]
        exact hp.join c
      have hmore : (p.join c).others ≠ [] := List.append_ne_nil_of_right_ne_nil _ (List.cons_ne_nil _ _)
      have hlt := Run.total_join_lt_iff hp hj
      rw [he]
      simp only [Option.mem_some_iff, forall_eq'] at hih ⊢
      constructor
      · intro h
        obtain ⟨h1, h2⟩ := hih.mp fun r hr => h r (List.mem_cons_of_mem _ hr)
        refine ⟨fun hg => (hlt.mp (h1 hg hmore)).1, fun q d hq hg => ?_⟩
        obtain hq | hq := List.mem_cons.mp hq
        · obtain ⟨rfl, rfl⟩ := Event.joined.inj hq
          exact (hlt.mp (h1 hg hmore)).2
        · exact h2 q d hq hg
      · rintro ⟨h1, h2⟩ r hr
        refine hih.mpr ⟨fun hg _ => hlt.mpr ⟨h1 hg, h2 p c List.mem_cons_self hg⟩,
          fun q d hq => h2 q d (List.mem_cons_of_mem _ hq)⟩ r ?_
        exact (List.mem_cons.mp hr).resolve_left Event.noConfusion
    · have hone : (p.follow t c).others = [] := rfl
      have hih := ih (o := some (p.follow t c)) fun q hq => by
        rw [← Option.some.inj hq]
        exact p.counted_follow t c
      rw [he]
      simp only [Option.mem_some_iff, forall_eq'] at hih ⊢
      constructor
      · intro h
        refine ⟨h p List.mem_cons_self, fun q d hq => ?_⟩
        exact (hih.mp fun r hr => h r (List.mem_cons_of_mem _ hr)).2 q d
          ((List.mem_cons.mp hq).resolve_left Event.noConfusion)
      · rintro ⟨h1, h2⟩ r hr
        obtain hr | hr := List.mem_cons.mp hr
        · rw [Event.closed.inj hr]
          exact h1
        · exact hih.mpr ⟨fun _ hne => absurd hone hne,
            fun q d hq => h2 q d (List.mem_cons_of_mem _ hq)⟩ r hr

end

/-! ## The packing -/

/-- what the packing of a section should be, for the groups `st'` that come from `st` -/
structure Packed (t : Target) (classes : List ClassEntry) (st st' : Groups) : Prop where
  /-- a segment is in one group -/
  one : ∀ c ∈ cursors classes, ∃ g, ∀ g', c.seg.id ∈ (st'.group g').leaders ↔ g' = g
  /-- a segment keeps the group it has -/
  kept : ∀ c ∈ cursors classes, st.groupOf c.seg.id ≠ none →
    st'.groupOf c.seg.id = st.groupOf c.seg.id
  /-- an automatic group is an absolute segment, or a run of segments that can be packed with the
  first one, up to one that has to be the last -/
  auto : ∀ g, st.allocated ≤ g → g < st'.allocated →
    (∃ c, c.seg.absolute = true ∧
      ∀ d ∈ cursors classes, d.seg.id ∈ (st'.group g).leaders ↔ d = c) ∨
    ∃ r : Run, Event.closed r ∈ events t st.groupOf none (cursors classes) ∧
      (∀ d ∈ cursors classes, d.seg.id ∈ (st'.group g).leaders ↔ d ∈ r.segs) ∧
      r.segs.Sublist (cursors classes) ∧ r.Good st.groupOf
  /-- the size of a run that has a group, of two segments or more -/
  size : ∀ g, st.allocated ≤ g → g < st'.allocated →
    ∀ r : Run, Event.closed r ∈ events t st.groupOf none (cursors classes) →
      (∀ d ∈ cursors classes, d.seg.id ∈ (st'.group g).leaders ↔ d ∈ r.segs) →
      r.others ≠ [] → r.total < (r.limit t).toNat

section

variable {t : Target} {classes : List ClassEntry} {st st' : Groups}

theorem mem_ids_iff {l k : List Cursor} (hk : (ids k).Nodup) (hl : l.Sublist k) {d : Cursor}
    (hd : d ∈ k) : d.seg.id ∈ ids l ↔ d ∈ l := by
  refine ⟨fun h => ?_, fun h => List.mem_map_of_mem h⟩
  obtain ⟨e, he, hid⟩ := List.mem_map.mp h
  have := List.inj_on_of_nodup_map hk (hl.subset he) hd hid
  rwa [← this]

/-- the runs of a section -/
theorem closed_good {r : Run} (hr : Event.closed r ∈ events t st.groupOf none (cursors classes)) :
    r.Good st.groupOf ∧ r.segs.Sublist (cursors classes) :=
  events_good (cursors classes) (fun p hp => absurd hp (Option.some_ne_none p).symm) r hr

/-- the list of a new group is an absolute segment or a closed run -/
theorem mem_made {l : List Cursor} (hl : l ∈ (events t st.groupOf none (cursors classes)).flatMap
    (Event.groups st.groupOf)) :
    (∃ c ∈ cursors classes, c.seg.absolute = true ∧ st.groupOf c.seg.id = none ∧ l = [c]) ∨
    ∃ r, Event.closed r ∈ events t st.groupOf none (cursors classes) ∧
      st.groupOf r.first.seg.id = none ∧ l = r.segs := by
  obtain ⟨e, he, hm⟩ := List.mem_flatMap.mp hl
  rw [Event.groups, Option.mem_toList] at hm
  cases e with
  | alone c =>
    rw [Event.made] at hm
    by_cases h0 : st.groupOf c.seg.id = none
    · rw [if_pos h0] at hm
      obtain ⟨hc, ha⟩ := (events_alone (cursors classes)).mp he
      exact Or.inl ⟨c, hc, ha, h0, (Option.some.inj hm).symm⟩
    · rw [if_neg h0] at hm
      exact absurd hm (Option.some_ne_none l).symm
  | joined p c => exact absurd hm (Option.some_ne_none l).symm
  | closed r =>
    rw [Event.made] at hm
    by_cases h0 : st.groupOf r.first.seg.id = none
    · rw [if_pos h0] at hm
      exact Or.inr ⟨r, he, h0, (Option.some.inj hm).symm⟩
    · rw [if_neg h0] at hm
      exact absurd hm (Option.some_ne_none l).symm

/-- a run has one group as it has one group before -/
theorem Run.Good.same {r : Run} (h : r.Good st.groupOf) {d : Cursor} (hd : d ∈ r.segs) :
    st.groupOf d.seg.id = st.groupOf r.first.seg.id := by
  obtain rfl | hd := List.mem_cons.mp hd
  · rfl
  · exact (canPack_group (h.pack d hd)).symm

/-- the segments of a new group -/
theorem Placed.members {made : List (List Cursor)} (h : Placed st st' made) (hst : st.Linked)
    (hids : (ids (cursors classes)).Nodup) {i : ℕ} {l : List Cursor} (hi : made[i]? = some l)
    (hsub : l.Sublist (cursors classes)) (hnone : ∀ d ∈ l, st.groupOf d.seg.id = none) :
    ∀ d ∈ cursors classes, d.seg.id ∈ (st'.group (st.allocated + i)).leaders ↔ d ∈ l := by
  intro d hd
  rw [h.linked.leaders, ← mem_ids_iff hids hsub hd]
  cases h0 : st.groupOf d.seg.id with
  | none =>
    rw [h.placed _ h0]
    constructor
    · rintro ⟨j, k, hj, hm, hij⟩
      obtain rfl : i = j := by omega
      rw [hi] at hj
      rwa [← Option.some.inj hj] at hm
    · exact fun hm => ⟨i, l, hi, hm, rfl⟩
  | some g =>
    rw [h.kept _ (by rw [h0]; exact Option.some_ne_none g), h0]
    refine iff_of_false (fun hg => ?_) fun hm => ?_
    · have := hst.allocated _ _ h0
      have := Option.some.inj hg
      omega
    · have := hnone d ((mem_ids_iff hids hsub hd).mp hm)
      rw [h0] at this
      exact absurd this (Option.some_ne_none g)

/-- the list of a closed run without a group makes one -/
theorem closed_made {r : Run} (hr : Event.closed r ∈ events t st.groupOf none (cursors classes))
    (h0 : st.groupOf r.first.seg.id = none) :
    ∃ i : ℕ, ((events t st.groupOf none (cursors classes)).flatMap
      (Event.groups st.groupOf))[i]? = some r.segs := by
  refine List.mem_iff_getElem?.mp (List.mem_flatMap.mpr ⟨_, hr, ?_⟩)
  rw [Event.groups, Event.made, if_pos h0]
  exact List.mem_singleton_self _

theorem alone_made {c : Cursor} (hc : c ∈ cursors classes) (ha : c.seg.absolute = true)
    (h0 : st.groupOf c.seg.id = none) :
    ∃ i : ℕ, ((events t st.groupOf none (cursors classes)).flatMap
      (Event.groups st.groupOf))[i]? = some [c] := by
  refine List.mem_iff_getElem?.mp
    (List.mem_flatMap.mpr ⟨_, (events_alone (cursors classes)).mpr ⟨hc, ha⟩, ?_⟩)
  rw [Event.groups, Event.made, if_pos h0]
  exact List.mem_singleton_self _

/-- every segment has a group after the loop -/
theorem Placed.grouped (h : Placed st st' ((events t st.groupOf none (cursors classes)).flatMap
    (Event.groups st.groupOf))) {c : Cursor} (hc : c ∈ cursors classes) :
    ∃ g, st'.groupOf c.seg.id = some g := by
  cases h0 : st.groupOf c.seg.id with
  | some g => exact ⟨g, by rw [h.kept _ (by rw [h0]; exact Option.some_ne_none g), h0]⟩
  | none =>
    by_cases ha : c.seg.absolute = true
    · obtain ⟨i, hi⟩ := alone_made (t := t) hc ha h0
      exact ⟨_, (h.placed _ h0 _).mpr ⟨i, [c], hi, List.mem_cons_self, rfl⟩⟩
    · obtain ⟨r, hr, hm⟩ := events_run t st.groupOf (cursors classes)
        (o := none) (Or.inr ⟨hc, ha⟩)
      obtain ⟨i, hi⟩ := closed_made hr ((closed_good hr).1.same hm ▸ h0)
      exact ⟨_, (h.placed _ h0 _).mpr ⟨i, r.segs, hi, List.mem_map_of_mem hm, rfl⟩⟩

/-- the packing of a section is right where the runs are below their limits -/
theorem packed_of_sizes (hst : st.Linked) (hids : (ids (cursors classes)).Nodup)
    (h : Placed st st' ((events t st.groupOf none (cursors classes)).flatMap
      (Event.groups st.groupOf)))
    (hsize : ∀ r, Event.closed r ∈ events t st.groupOf none (cursors classes) →
      st.groupOf r.first.seg.id = none → r.others ≠ [] → r.total < (r.limit t).toNat) :
    Packed t classes st st' := by
  constructor
  · intro c hc
    obtain ⟨g, hg⟩ := h.grouped hc
    refine ⟨g, fun g' => ?_⟩
    rw [h.linked.leaders, hg]
    exact ⟨fun h => (Option.some.inj h).symm, fun h => by rw [h]⟩
  · exact fun c _ => h.kept c.seg.id
  · intro g hlo hhi
    rw [h.allocated] at hhi
    obtain ⟨i, rfl⟩ := Nat.exists_eq_add_of_le hlo
    have hlt := Nat.lt_of_add_lt_add_left hhi
    have hi := List.getElem?_eq_getElem hlt
    obtain ⟨c, hc, ha, h0, hl⟩ | ⟨r, hr, h0, hl⟩ := mem_made (List.getElem_mem hlt)
    · rw [hl] at hi
      refine Or.inl ⟨c, ha, fun d hd => ?_⟩
      rw [h.members hst hids hi (List.singleton_sublist.mpr hc)
        (fun d hd => by rwa [List.mem_singleton.mp hd]) d hd, List.mem_singleton]
    · rw [hl] at hi
      obtain ⟨hg, hs⟩ := closed_good hr
      exact Or.inr ⟨r, hr, h.members hst hids hi hs (fun d hd => (hg.same hd).trans h0), hs, hg⟩
  · intro g hlo _ r hr hm hne
    refine hsize r hr ?_ hne
    by_contra h0
    obtain ⟨-, hs⟩ := closed_good hr
    have hmem : r.first ∈ cursors classes := hs.subset List.mem_cons_self
    have hg := (h.linked.leaders _ _).mp ((hm _ hmem).mpr List.mem_cons_self)
    rw [h.kept _ h0] at hg
    have := hst.allocated _ _ hg
    omega

/-- the runs are below their limits where the packing of a section is right -/
theorem sizes_of_packed (hst : st.Linked) (hids : (ids (cursors classes)).Nodup)
    (h : Placed st st' ((events t st.groupOf none (cursors classes)).flatMap
      (Event.groups st.groupOf))) (hp : Packed t classes st st') {r : Run}
    (hr : Event.closed r ∈ events t st.groupOf none (cursors classes))
    (h0 : st.groupOf r.first.seg.id = none) (hne : r.others ≠ []) :
    r.total < (r.limit t).toNat := by
  obtain ⟨hg, hs⟩ := closed_good hr
  obtain ⟨i, hi⟩ := closed_made hr h0
  refine hp.size (st.allocated + i) (Nat.le_add_right _ _) ?_ r hr
    (h.members hst hids hi hs fun d hd => (hg.same hd).trans h0) hne
  rw [h.allocated]
  have := (List.getElem?_eq_some_iff.mp hi).1
  omega

/-- the packing is right exactly where no segment that is put behind others of an automatic group
brings its padding and its size to 4 GiB, nor the first one where it starts -/
theorem autoGroupSect_iff (t : Target) (hst : st.Linked) (hids : (ids (cursors classes)).Nodup) :
    (∃ st', autoGroupSect t classes st = some st' ∧ Packed t classes st st') ↔
      ∀ p c, Event.joined p c ∈ events t st.groupOf none (cursors classes) →
        st.groupOf p.first.seg.id = none → p.Fits c := by
  obtain ⟨st', hrun, hpl⟩ := autoGroupSect_placed t hst hids
  have hiff := events_total_iff t st.groupOf (cursors classes) (o := none)
    fun p hp => absurd hp (Option.some_ne_none p).symm
  constructor
  · rintro ⟨st'', hrun', hp⟩
    obtain rfl : st' = st'' := Option.some.inj (hrun.symm.trans hrun')
    exact (hiff.mp fun r hr h0 hne => sizes_of_packed hst hids hpl hp hr h0 hne).2
  · intro hfit
    refine ⟨st', hrun, packed_of_sizes hst hids hpl (hiff.mpr ⟨fun p hp => ?_, hfit⟩)⟩
    exact absurd hp (Option.some_ne_none p).symm

end

/-! ## Two sections -/

/-- a flat 32-bit target without packing options -/
def flat : Target := ⟨false, false, false, 0, false, 0⟩

/-- a 32-bit code segment aligned to a paragraph -/
def text32 (id : ℕ) (size : UInt32) : SegLeader :=
  ⟨id, size, 4, .add, 0, true, true, false, false⟩

/-- a class with two such segments, the first of 5 bytes -/
def textClass (size : UInt32) : ClassEntry :=
  ⟨0, 0, false, false, true, false, [text32 0 5, text32 1 size]⟩

def firstText (size : UInt32) : Cursor := ⟨text32 0 5, textClass size, [text32 1 size], []⟩

def secondText (size : UInt32) : Cursor := ⟨text32 1 size, textClass size, [], []⟩

/-- no groups yet -/
def noGroups : Groups := ⟨fun _ => none, fun _ => ⟨0, 0, false, false, []⟩, 0, [], [], none⟩

theorem noGroups_linked : noGroups.Linked := by
  refine ⟨fun id g => ?_, fun id g h => absurd h (Option.some_ne_none g).symm⟩
  exact iff_of_false List.not_mem_nil (Option.some_ne_none g).symm

theorem textClass_nodup (size : UInt32) : (ids (cursors [textClass size])).Nodup :=
  show [0, 1].Nodup by decide

/-- a second segment of 7 bytes goes behind the first one -/
theorem seven_packed : ∃ st', autoGroupSect flat [textClass 7] noGroups = some st' ∧
    Packed flat [textClass 7] noGroups st' := by
  refine (autoGroupSect_iff flat noGroups_linked (textClass_nodup 7)).mpr fun p c hj _ => ?_
  have he : events flat noGroups.groupOf none (cursors [textClass 7]) =
      [.joined (Run.single (firstText 7)) (secondText 7),
        .closed ⟨0, firstText 7, [secondText 7], 23⟩] := rfl
  rw [he] at hj
  obtain hj | hj := List.mem_cons.mp hj
  · obtain ⟨rfl, rfl⟩ := Event.joined.inj hj
    exact ⟨by decide +kernel, fun _ => by decide +kernel⟩
  · exact Event.noConfusion (List.mem_singleton.mp hj)

/-- a second segment of 4 GiB less 5 bytes goes behind the first one too: 16 and its size go round
to 11, which is more than the 5 so far -/
theorem wrapped_packed :
    (autoGroupSect flat [textClass 0xFFFFFFFB] noGroups).map
        (fun st => (st.groupOf 0, st.groupOf 1)) = some (some 0, some 0) ∧
      ¬ ∃ st', autoGroupSect flat [textClass 0xFFFFFFFB] noGroups = some st' ∧
        Packed flat [textClass 0xFFFFFFFB] noGroups st' := by
  refine ⟨by decide +kernel, ?_⟩
  rintro ⟨st', hrun, hp⟩
  have hids := textClass_nodup 0xFFFFFFFB
  obtain ⟨st'', hrun', hpl⟩ := autoGroupSect_placed flat noGroups_linked hids
  obtain rfl : st'' = st' := Option.some.inj (hrun'.symm.trans hrun)
  have he : events flat noGroups.groupOf none (cursors [textClass 0xFFFFFFFB]) =
      [.joined (Run.single (firstText 0xFFFFFFFB)) (secondText 0xFFFFFFFB),
        .closed ⟨0, firstText 0xFFFFFFFB, [secondText 0xFFFFFFFB], 11⟩] := rfl
  have hlt := sizes_of_packed noGroups_linked hids hpl hp
    (r := ⟨0, firstText 0xFFFFFFFB, [secondText 0xFFFFFFFB], 11⟩)
    (by rw [he]; exact List.mem_cons_of_mem _ List.mem_cons_self) rfl (List.cons_ne_nil _ _)
  exact absurd hlt (by decide +kernel)

end AutoGrp
