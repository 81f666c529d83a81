import OpenWatcom.Clib.HeapExpand
import OpenWatcom.Lib.Events

/-!
# Runs of a mini-heap

* `Call`, `step`           the calls of a program, and its stores into the storage it holds;
* `Proper`                 what is asked of the program: it gives back and expands what it holds;
* `Held`                   a well-formed mini-heap whose allocated blocks are the ones that are held;
* `heap_wellFormed`        every run from a new mini-heap keeps it so, and no call is left running.
-/

namespace Clib
open Rings Events

/-- what a program does with its mini-heap; `store` writes anything into the storage of a block -/
inductive Call
  | alloc (reqSize : Nat)
  | free (cstg : Nat)
  | expand (cstg reqSize : Nat)
  | store (cstg : Nat) (val : Nat → Freelist)

/-- the mini-heap, and the storage that is held -/
structure State where
  heap : Heapblk
  live : List Nat

section
variable (t : Target)

/-- the bytes behind the tag of the block `p` are overwritten -/
def Heapblk.store (h : Heapblk) (p : Nat) (val : Nat → Freelist) : Heapblk :=
  { h with mem := fun q =>
      if q = p then { val p with len := (h.mem p).len }
      else if p < q ∧ q < p + h.getBlkSize p then val q else h.mem q }

def step : Call → State → Option State
  | .alloc reqSize, s => (memAllocator t s.heap reqSize).map fun (p, h) =>
      ⟨h, if p = 0 then s.live else p :: s.live⟩
  | .free cstg, s => (memFree t s.heap cstg).map fun h => ⟨h, s.live.erase cstg⟩
  | .expand cstg reqSize, s => (heapManagerExpand t s.heap cstg reqSize).map fun (_, h) => ⟨h, s.live⟩
  | .store cstg val, s => some ⟨s.heap.store (cstg2Blk t cstg) val, s.live⟩

def Proper : Call → State → Prop
  | .alloc reqSize, _ => reqSize < t.word
  | .free cstg, s => cstg = 0 ∨ cstg ∈ s.live
  | .expand cstg _, s => cstg ∈ s.live
  | .store cstg _, s => cstg ∈ s.live

/-- a new mini-heap; its one block is about to be given back -/
def start (h : Heapblk) (largest : Nat) : State :=
  ⟨{ newNHeap t h with largestBlk := largest }, [blk2Cstg t (h.firstFrl t)]⟩

structure Held (s : State) (bs : List Block) : Prop where
  wf : WellFormed t s.heap bs
  live : s.live.Perm ((useds bs).map (blk2Cstg t))

end

section
variable {t : Target} {h : Heapblk} {s : State} {bs : List Block}

/-- the fields of a new mini-heap -/
theorem newNHeap_fields : (newNHeap t h).addr = h.addr ∧ (newNHeap t h).len = h.len ∧
    (newNHeap t h).rover = h.freehead t ∧ (newNHeap t h).numalloc = 1 ∧
    (newNHeap t h).numfree = 0 := by
  simp only [newNHeap, linkUpNewNHeap, Heapblk.setBlkInuse, Heapblk.setLen, Heapblk.setPrev,
    Heapblk.setNext, Heapblk.freehead, and_self]

/-- the records of a new mini-heap -/
theorem newNHeap_mem (hne : t.heapblkSize < h.len) :
    ((newNHeap t h).mem (h.firstFrl t)).len = h.len - t.heapblkSize - (h.len - t.heapblkSize) % 2 + 1 ∧
      ((newNHeap t h).mem h.last).len = t.endTag ∧ ((newNHeap t h).mem (h.freehead t)).len = 0 ∧
      ((newNHeap t h).mem (h.freehead t)).next = h.freehead t ∧
      ((newNHeap t h).mem (h.freehead t)).prev = h.freehead t := by
  have hlt : 8 * t.tagSize < t.heapblkSize := by
    have := freelistSize_pos t
    rw [Target.heapblkSize]
    omega
  have hlast : h.addr + t.heapblkSize + (h.len - t.heapblkSize) = h.addr + h.len := by omega
  have h1 : t.heapblkSize ≠ h.len := Nat.ne_of_lt hne
  have h2 : h.len ≠ t.heapblkSize := Ne.symm h1
  have h3 : 8 * t.tagSize ≠ h.len := by omega
  have h4 : 8 * t.tagSize ≠ t.heapblkSize := by omega
  simp [newNHeap, linkUpNewNHeap, Heapblk.setBlkInuse, Heapblk.getBlkSize, Heapblk.nextBlk,
    Heapblk.freehead, Heapblk.firstFrl, Heapblk.last, hlast, h1, h2, h3, h4]

theorem start_held {largest : Nat} (heven : h.len % 2 = 0)
    (hroom : t.heapblkSize + t.freelistSize ≤ h.len) (hfits : h.addr + h.len + t.tagSize ≤ t.word) :
    Held t (start t h largest) [⟨h.firstFrl t, h.len - t.heapblkSize, true⟩] := by
  have hsz : t.heapblkSize % 2 = 0 := by cases t <;> decide
  have hpos := freelistSize_pos t
  have hlast : h.firstFrl t + (h.len - t.heapblkSize) = h.last := by
    rw [Heapblk.firstFrl, Heapblk.last]
    omega
  obtain ⟨e1, e2, e3, e4, e5⟩ := newNHeap_mem (t := t) (h := h) (by omega)
  refine ⟨?_, List.Perm.refl _⟩
  generalize hh : (start t h largest).heap = x
  have f0 : x.mem = (newNHeap t h).mem := by rw [← hh]; rfl
  obtain ⟨f1, f2, f3, f4, f5⟩ : x.addr = h.addr ∧ x.len = h.len ∧ x.rover = h.freehead t ∧
      x.numalloc = 1 ∧ x.numfree = 0 := by
    rw [← hh, start]
    dsimp only
    exact newNHeap_fields
  clear hh
  rw [← f0] at e1 e2 e3 e4 e5
  have hhd : x.freehead t = h.freehead t := by rw [Heapblk.freehead, f1, Heapblk.freehead]
  have hff : x.firstFrl t = h.firstFrl t := by rw [Heapblk.firstFrl, f1, Heapblk.firstFrl]
  have hl : x.last = h.last := by rw [Heapblk.last, f1, f2, Heapblk.last]
  have hone : ∀ b ∈ [(⟨h.firstFrl t, h.len - t.heapblkSize, true⟩ : Block)],
      b = ⟨h.firstFrl t, h.len - t.heapblkSize, true⟩ := fun b hb => List.mem_singleton.mp hb
  refine ⟨⟨⟨hff.symm, ?_, ?_⟩, fun b hb => ?_, fun b hb => ?_, ?_, ?_, ?_⟩, ?_, List.isChain_singleton _,
    f5, f4, ?_, fun b hb hu => ?_, fun b hb hu => ?_⟩
  · show t.freelistSize ≤ h.len - t.heapblkSize
    omega
  · rw [hff, hl]
    exact hlast
  · rw [hone b hb, e1]
    show _ = h.len - t.heapblkSize + 1
    omega
  · rw [hone b hb]
    show (h.len - t.heapblkSize) % 2 = 0
    omega
  · rw [hl, e2]
  · rw [hhd, e3]
  · rw [hl]
    exact hfits
  · rw [hhd]
    refine ⟨?_, ?_, List.nodup_singleton _⟩
    · show [(x.mem (h.freehead t)).next] = _
      rw [e4]
      rfl
    · show [(x.mem (h.freehead t)).prev] = _
      rw [e5]
      rfl
  · rw [hhd]
    exact Or.inl f3
  · rw [hone b hb] at hu
    cases hu
  · rw [hone b hb] at hu
    cases hu

/-! ## what is held -/

/-- the block behind held storage -/
theorem Held.block (hs : Held t s bs) {cstg : Nat} (hc : cstg ∈ s.live) :
    ∃ l p n r, bs = l ++ ⟨p, n, true⟩ :: r ∧ cstg = blk2Cstg t p := by
  obtain ⟨p, hp, rfl⟩ := List.mem_map.mp (hs.live.mem_iff.mp hc)
  obtain ⟨⟨a, n, used⟩, hb, hu, ha⟩ := mem_useds.mp hp
  obtain ⟨l, r, e⟩ := List.append_of_mem hb
  dsimp only at hu ha
  rw [hu, ha] at e
  exact ⟨l, p, n, r, e, rfl⟩

theorem Held.free (hs : Held t s bs) {cstg : Nat} (hc : cstg = 0 ∨ cstg ∈ s.live) :
    ∃ s' bs', step t (.free cstg) s = some s' ∧ Held t s' bs' := by
  have htag : 0 < t.tagSize := by cases t <;> decide
  by_cases h0 : cstg = 0
  · have hnot : cstg ∉ s.live := by
      intro hc
      obtain ⟨l, p, n, r, -, e⟩ := hs.block hc
      rw [blk2Cstg] at e
      omega
    refine ⟨s, bs, ?_, hs⟩
    rw [step, memFree, if_neg fun hc => hc.1 h0, List.erase_of_not_mem hnot]
    rfl
  · obtain ⟨l, p, n, r, rfl, rfl⟩ := hs.block (hc.resolve_left h0)
    obtain ⟨h', bs', hfree, hwf, hlive⟩ := memFree_spec hs.wf
    refine ⟨⟨h', s.live.erase (blk2Cstg t p)⟩, bs', ?_, hwf, ?_⟩
    · rw [step, hfree]
      rfl
    · have e : useds bs' = useds l ++ useds r := by rw [useds, hlive, List.map_append]; rfl
      have hp := hs.live
      rw [useds_append, useds_used, List.map_append, List.map_cons] at hp
      have hp := (hp.trans List.perm_middle).erase (blk2Cstg t p)
      rw [List.erase_cons_head] at hp
      rw [e, List.map_append]
      exact hp

theorem Held.alloc (hs : Held t s bs) {req : Nat} (hreq : req < t.word) :
    ∃ s' bs', step t (.alloc req) s = some s' ∧ Held t s' bs' := by
  have htag : 0 < t.tagSize := by cases t <;> decide
  obtain ⟨p, h', bs', hal, hwf, ha⟩ := memAllocator_spec hs.wf hreq
  refine ⟨⟨h', if p = 0 then s.live else p :: s.live⟩, bs', ?_, hwf, ?_⟩
  · rw [step, hal]
    rfl
  · cases ha with
    | null hp hbs _ =>
      rw [hbs]
      exact (if_pos hp).symm ▸ hs.live
    | block c k hp hk hlive =>
      have hne : p ≠ 0 := by
        rw [hp, blk2Cstg]
        omega
      show (if p = 0 then s.live else p :: s.live).Perm _
      rw [if_neg hne, hp]
      have hu : (c :: useds bs).Perm (useds bs') := hlive.symm.map Block.addr
      exact (hs.live.cons _).trans (hu.map (blk2Cstg t))

theorem Held.expand (hs : Held t s bs) {cstg : Nat} (hc : cstg ∈ s.live) (req : Nat) :
    ∃ s' bs', step t (.expand cstg req) s = some s' ∧ Held t s' bs' := by
  obtain ⟨l, p, n, r, rfl, rfl⟩ := hs.block hc
  obtain ⟨res, h', bs', n', hexp, hwf, hlive, -, -⟩ := heapManagerExpand_spec hs.wf req
  refine ⟨⟨h', s.live⟩, bs', ?_, hwf, ?_⟩
  · rw [step, hexp]
    rfl
  · have e : useds bs' = useds (l ++ ⟨p, n, true⟩ :: r) := by
      rw [useds, hlive, List.map_append, List.map_cons, useds_append, useds_used]
      rfl
    rw [e]
    exact hs.live

/-- stores into an allocated block leave the mini-heap alone -/
theorem store_spec {l r : List Block} {p n : Nat} (hw : WellFormed t h (l ++ ⟨p, n, true⟩ :: r))
    (val : Nat → Freelist) : WellFormed t (h.store p val) (l ++ ⟨p, n, true⟩ :: r) := by
  have hpos := freelistSize_pos t
  have hb := hw.block (b := ⟨p, n, true⟩) (by simp)
  have hsize : h.getBlkSize p = n := hw.size (b := ⟨p, n, true⟩) (by simp)
  dsimp only at hb
  have hout : ∀ q, q < p ∨ p + n ≤ q → (h.store p val).mem q = h.mem q := by
    intro q hq
    show (if _ then _ else if _ then _ else _) = _
    rw [hsize, if_neg (by omega), if_neg (by omega)]
  have hlen : ((h.store p val).mem p).len = (h.mem p).len := by
    show (if p = p then _ else _ : Freelist).len = _
    rw [if_pos rfl]
  have hnode : ∀ y ∈ h.freehead t :: frees (l ++ ⟨p, n, true⟩ :: r), (h.store p val).mem y = h.mem y := by
    intro y hy
    refine hout y ?_
    rcases List.mem_cons.mp hy with rfl | hy
    · have := freehead_lt (t := t) (h := h)
      omega
    · rw [frees_append, frees_used] at hy
      rcases List.mem_append.mp hy with hy | hy
      · exact Or.inl (hw.tiles.frees_before hy)
      · exact Or.inr (hw.tiles.frees_behind hy)
  have hlaid : Laid t (h.store p val) (l ++ [⟨p, n, true⟩] ++ r) := by
    refine Laid.edit (h := h) (m := [⟨p, n, true⟩]) (by simpa using hw.toLaid) rfl rfl ?_ ?_ ?_
    · rintro a e ⟨rfl, h1, rfl⟩
      dsimp only at h1
      exact ⟨⟨rfl, h1, rfl⟩, by dsimp only; omega, fun q hq => by rw [hout q hq]⟩
    · intro b hb'
      rw [List.mem_singleton.mp hb', hlen]
      exact hw.tags ⟨p, n, true⟩ (by simp)
    · intro b hb'
      rw [List.mem_singleton.mp hb']
      exact hb.2.2.2
  refine ⟨by simpa using hlaid, ?_, hw.apart, hw.numfree, hw.numalloc, hw.rover, hw.b4rover, hw.largest⟩
  refine hw.ring.congr (fun y hy => ?_) fun y hy => ?_
  · show ((h.store p val).mem y).next = _
    rw [hnode y hy]
  · show ((h.store p val).mem y).prev = _
    rw [hnode y hy]

theorem Held.store (hs : Held t s bs) {cstg : Nat} (hc : cstg ∈ s.live) (val : Nat → Freelist) :
    ∃ s' bs', step t (.store cstg val) s = some s' ∧ Held t s' bs' := by
  obtain ⟨l, p, n, r, rfl, rfl⟩ := hs.block hc
  have hback : cstg2Blk t (blk2Cstg t p) = p := by rw [cstg2Blk, blk2Cstg, Nat.add_sub_cancel]
  refine ⟨_, _, rfl, ?_, hs.live⟩
  rw [hback]
  exact store_spec hs.wf val

/-! ## runs -/

/-- one call -/
theorem step_held (c : Call) (s : State) (hs : ∃ bs, Held t s bs) (hc : Proper t c s) :
    ∃ s', step t c s = some s' ∧ ∃ bs, Held t s' bs := by
  obtain ⟨bs, hs⟩ := hs
  have key : ∃ s' bs', step t c s = some s' ∧ Held t s' bs' := by
    cases c with
    | alloc req => exact hs.alloc hc
    | free cstg => exact hs.free hc
    | expand cstg req => exact hs.expand hc req
    | store cstg val => exact hs.store hc val
  obtain ⟨s', bs', h1, h2⟩ := key
  exact ⟨s', h1, bs', h2⟩

/-- every run of calls on a new mini-heap ends, in a well-formed mini-heap: the blocks tile the area, the
free ones are the entries of the free list in the order of their addresses and lie apart, the held ones
do not overlap, and `__MemAllocator` refuses a request only for want of a large enough free block -/
theorem heap_wellFormed (t : Target) (h : Heapblk) (largest : Nat) (heven : h.len % 2 = 0)
    (hroom : t.heapblkSize + t.freelistSize ≤ h.len) (hfits : h.addr + h.len + t.tagSize ≤ t.word)
    (calls : List Call) (hp : Along (step t) (Proper t) calls (start t h largest)) :
    ∃ s bs, run (step t) calls (start t h largest) = some s ∧ WellFormed t s.heap bs ∧
      (frees bs).Pairwise (· < ·) ∧ s.live.Perm ((useds bs).map (blk2Cstg t)) ∧
      (lives bs).Pairwise (fun x y => x.addr + x.size ≤ y.addr) ∧
      ∀ req < t.word, ∃ p h' bs', memAllocator t s.heap req = some (p, h') ∧ Allocates t req bs p bs' := by
  obtain ⟨s, hrun, bs, hs⟩ := run_total step_held calls _ ⟨_, start_held heven hroom hfits⟩ hp
  refine ⟨s, bs, hrun, hs.wf, hs.wf.tiles.frees_sorted, hs.live, hs.wf.tiles.pairwise.filter _, ?_⟩
  intro req hreq
  obtain ⟨p, h', bs', hal, -, ha⟩ := memAllocator_spec hs.wf hreq
  exact ⟨p, h', bs', hal, ha⟩

/-- a page at 0x1000: its block is given back, and two blocks are taken -/
theorem heap_wellFormed_page : ∃ s bs,
    run (step .ix86) [.free 0x1030, .alloc 100, .free 0, .alloc 20]
      (start .ix86 ⟨0x1000, 0xFFC, 0, 0, 0, 0, 0, fun _ => ⟨0, 0, 0⟩⟩ 0) = some s ∧
    WellFormed .ix86 s.heap bs := by
  have hp : Along (step .ix86) (Proper .ix86) [.free 0x1030, .alloc 100, .free 0, .alloc 20]
      (start .ix86 ⟨0x1000, 0xFFC, 0, 0, 0, 0, 0, fun _ => ⟨0, 0, 0⟩⟩ 0) :=
    ⟨Or.inr List.mem_cons_self, fun _ _ => ⟨(by decide : 100 < Target.ix86.word), fun _ _ =>
      ⟨Or.inl rfl, fun _ _ => ⟨(by decide : 20 < Target.ix86.word), fun _ _ => trivial⟩⟩⟩⟩
  obtain ⟨s, bs, h1, h2, -⟩ := heap_wellFormed .ix86 _ 0 (by decide) (by decide) (by decide) _ hp
  exact ⟨s, bs, h1, h2⟩

end

end Clib
