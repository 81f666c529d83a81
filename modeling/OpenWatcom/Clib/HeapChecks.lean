import OpenWatcom.Clib.HeapWalk

/-!
# What a look at the heap shows

* `Listing`     the mini-heaps with their blocks
* `nHeapWalk_behind`, `walkAll_lists`     the walk goes through the blocks in order
* `checkRing_spec`, `checkFreeList_spec`, `checkFree_spec`     the checks find nothing wrong
* `heap_walked`, `heap_checked`     so it is in every run
-/

namespace Clib
open Rings Events

section
variable {t : Target}

/-! ## blocks of all mini-heaps -/

/-- the mini-heaps, each with its blocks -/
structure Listing (t : Target) (list : List MiniHeap) (ls : List (MiniHeap × List Block)) : Prop where
  list : list = ls.map Prod.fst
  wf : ∀ p ∈ ls, WellFormed t p.1.blk p.2

theorem exists_listing {list : List MiniHeap} (hw : ∀ x ∈ list, ∃ bs, WellFormed t x.blk bs) :
    ∃ ls, Listing t list ls := by
  induction list with
  | nil => exact ⟨[], rfl, by simp⟩
  | cons x list ih =>
    obtain ⟨bs, hbs⟩ := hw x List.mem_cons_self
    obtain ⟨ls, hls⟩ := ih fun y hy => hw y (List.mem_cons_of_mem _ hy)
    exact ⟨(x, bs) :: ls, congrArg (x :: ·) hls.list, List.forall_mem_cons.mpr ⟨hbs, hls.wf⟩⟩

/-- the blocks in the order of their addresses -/
def allBlocks (ls : List (MiniHeap × List Block)) : List Block := ls.flatMap Prod.snd

/-- what `_nheapwalk` tells of a block -/
def entryOf (b : Block) : HeapInfo := ⟨b.addr, b.used, b.size⟩

/-- the answer for the next of the blocks -/
def answer : List Block → HeapStatus × HeapInfo
  | [] => (.heapEnd, ⟨0, true, 0⟩)
  | b :: _ => (.heapOk, entryOf b)

/-- the mini-heap of a block -/
theorem allBlocks_split {ls : List (MiniHeap × List Block)} {u v : List Block} {b : Block}
    (h : allBlocks ls = u ++ b :: v) :
    ∃ l x bl br r, ls = l ++ (x, bl ++ b :: br) :: r ∧ v = br ++ allBlocks r := by
  induction ls generalizing u with
  | nil => exact absurd h.symm (by simp [allBlocks])
  | cons p ls ih =>
    obtain ⟨x, bs⟩ := p
    have h' : bs ++ allBlocks ls = u ++ b :: v := h
    rcases List.append_eq_append_iff.mp h' with ⟨m, rfl, h2⟩ | ⟨m, rfl, h2⟩
    · obtain ⟨l, y, bl, br, r, rfl, hv⟩ := ih h2
      exact ⟨(x, bs) :: l, y, bl, br, r, rfl, hv⟩
    · cases m with
      | nil =>
        obtain ⟨l, y, bl, br, r, rfl, hv⟩ := ih (u := []) h2.symm
        exact ⟨(x, u ++ []) :: l, y, bl, br, r, rfl, hv⟩
      | cons c m =>
        obtain ⟨rfl, hv⟩ := List.cons_eq_cons.mp h2
        exact ⟨[], x, u, m, ls, rfl, hv⟩

/-! ## the walk -/

/-- at the start of a part of a mini-heap, the first of its blocks or of those behind it is next -/
theorem skipEnds_spec {x : MiniHeap} (bl : List Block) {br : List Block} {r : List (MiniHeap × List Block)} {a : ℕ}
    (hx : WellFormed t x.blk (bl ++ br)) (ha : Tiles t a br x.blk.last)
    (hr : ∀ p ∈ r, WellFormed t p.1.blk p.2) :
    skipEnds t (x :: r.map Prod.fst) a = answer (br ++ allBlocks r) := by
  induction r generalizing x bl br a with
  | nil =>
    rw [List.map_nil, skipEnds]
    cases br with
    | nil =>
      have ha' : a = x.blk.last := ha
      rw [ha', if_pos hx.end_last]
      rfl
    | cons b br =>
      have hb : b ∈ bl ++ b :: br := by simp
      have ha' : b.addr = a := ha.1
      rw [← ha', if_neg (by rw [hx.not_end hb]; exact Bool.false_ne_true), hx.inuse hb, hx.size hb]
      rfl
  | cons p r ih =>
    rw [List.map_cons, skipEnds]
    cases br with
    | nil =>
      have ha' : a = x.blk.last := ha
      have hp := hr p List.mem_cons_self
      rw [ha', if_pos hx.end_last]
      exact ih [] hp hp.tiles fun q hq => hr q (List.mem_cons_of_mem _ hq)
    | cons b br =>
      have hb : b ∈ bl ++ b :: br := by simp
      have ha' : b.addr = a := ha.1
      rw [← ha', if_neg (by rw [hx.not_end hb]; exact Bool.false_ne_true), hx.inuse hb, hx.size hb]
      rfl

theorem heapsFrom_eq {l r : List MiniHeap} {x : MiniHeap} {p : ℕ} (ho : Ascends t (l ++ x :: r))
    (hx : x.isInHeap p) : heapsFrom p (l ++ x :: r) = x :: r := by
  induction l with
  | nil =>
    cases r with
    | nil => rfl
    | cons y r =>
      rw [List.nil_append, heapsFrom, if_pos hx]
  | cons z l ih =>
    have hz : ¬ z.isInHeap p = true := by
      intro hz
      have e := ho.eq_of_isInHeap (x := z) (y := x) (by simp) (by simp) hz hx
      have := (Ascends.lt (t := t) ho (y := x) (by simp)).2
      rw [e] at this
      omega
    have hrec := ih ho.tail
    cases l with
    | nil =>
      show (if z.isInHeap p then z :: x :: r else heapsFrom p (x :: r)) = _
      rw [if_neg hz]
      exact hrec
    | cons w l =>
      show (if z.isInHeap p then z :: w :: (l ++ x :: r) else heapsFrom p (w :: (l ++ x :: r))) = _
      rw [if_neg hz]
      exact hrec

theorem block_isInHeap {x : MiniHeap} {bs : List Block} {b : Block} (hx : WellFormed t x.blk bs)
    (hb : b ∈ bs) : x.isInHeap b.addr = true := by
  have h1 := hx.block hb
  have h2 := freelistSize_pos t
  rw [Heapblk.firstFrl, Heapblk.last] at h1
  rw [MiniHeap.isInHeap, decide_eq_true_eq]
  omega

/-- behind a block comes the next one -/
theorem nHeapWalk_behind {list : List MiniHeap} {ls : List (MiniHeap × List Block)} (ho : Ascends t list)
    (hls : Listing t list ls) {u v : List Block} {b : Block} (h : allBlocks ls = u ++ b :: v) :
    nHeapWalk t (entryOf b) list = answer v := by
  obtain ⟨l, x, bl, br, r, rfl, rfl⟩ := allBlocks_split h
  have hx : WellFormed t x.blk (bl ++ b :: br) := hls.wf (x, bl ++ b :: br) (by simp)
  have hb : b ∈ bl ++ b :: br := by simp
  have hlist : list = l.map Prod.fst ++ x :: r.map Prod.fst := by
    rw [hls.list, List.map_append, List.map_cons]
  have hblk := hx.block hb
  have hpos := freelistSize_pos t
  have hfirst : 0 < x.blk.firstFrl t := lt_of_le_of_lt (Nat.zero_le _) freehead_lt
  have hfrom := heapsFrom_eq (hlist ▸ ho) (block_isInHeap hx hb)
  have hnext : x.blk.nextBlkA b.addr = b.addr + b.size := by rw [Heapblk.nextBlkA, hx.size hb]
  have htiles : Tiles t (b.addr + b.size) br x.blk.last := hx.tiles.around.2.2
  have hskip : skipEnds t (x :: r.map Prod.fst) (b.addr + b.size) = answer (br ++ allBlocks r) :=
    skipEnds_spec (bl ++ [b]) (by rw [List.append_assoc]; exact hx) htiles fun p hp =>
      hls.wf p (by simp [hp])
  rw [hlist]
  cases hl : l.map Prod.fst with
  | nil =>
    rw [hl, List.nil_append] at hfrom
    rw [List.nil_append, nHeapWalk]
    dsimp only
    rw [if_neg (show ¬ (entryOf b).pentry = 0 by show ¬ b.addr = 0; omega),
      show (entryOf b).pentry = b.addr from rfl, hfrom]
    dsimp only
    rw [hnext, if_neg (by omega)]
    exact hskip
  | cons y l' =>
    rw [hl, List.cons_append] at hfrom
    rw [List.cons_append, nHeapWalk]
    dsimp only
    rw [if_neg (show ¬ (entryOf b).pentry = 0 by show ¬ b.addr = 0; omega),
      show (entryOf b).pentry = b.addr from rfl, hfrom]
    dsimp only
    rw [hnext, if_neg (by omega)]
    exact hskip

/-- the walk starts at the first block -/
theorem nHeapWalk_start {list : List MiniHeap} {ls : List (MiniHeap × List Block)} (hls : Listing t list ls)
    (hne : list ≠ []) (used : Bool) (size : ℕ) : nHeapWalk t ⟨0, used, size⟩ list = answer (allBlocks ls) := by
  cases ls with
  | nil => exact absurd hls.list hne
  | cons p ls =>
    have hp := hls.wf p List.mem_cons_self
    rw [hls.list, List.map_cons, nHeapWalk]
    dsimp only
    rw [if_pos rfl]
    exact skipEnds_spec [] hp hp.tiles fun q hq => hls.wf q (List.mem_cons_of_mem _ hq)

/-- from an entry on, which the walk answers with the first of some blocks, it goes through them -/
theorem walkAll_from {list : List MiniHeap} {ls : List (MiniHeap × List Block)} (ho : Ascends t list)
    (hls : Listing t list ls) {u v : List Block} (h : allBlocks ls = u ++ v) {entry : HeapInfo}
    (he : nHeapWalk t entry list = answer v) {f : ℕ} (hf : v.length < f) :
    walkAll t list f entry = some (v.map entryOf, .heapEnd) := by
  induction v generalizing u entry f with
  | nil =>
    cases f with
    | zero => omega
    | succ f =>
      rw [walkAll, he]
      rfl
  | cons b v ih =>
    cases f with
    | zero => omega
    | succ f =>
      have hb := nHeapWalk_behind ho hls h
      rw [List.length_cons] at hf
      have hrec := ih (u := u ++ [b]) (by rw [List.append_assoc]; exact h) hb
        (show v.length < f by omega)
      rw [walkAll, he]
      show (walkAll t list f (entryOf b)).map _ = _
      rw [hrec]
      rfl

/-! ## the free list -/

/-- the head of the free list and its entries -/
def ringNodes (t : Target) (h : Heapblk) (bs : List Block) : List ℕ := h.freehead t :: frees bs

theorem ringNodes_spec {h : Heapblk} {bs : List Block} (hw : WellFormed t h bs) {p : ℕ}
    (hp : p ∈ ringNodes t h bs) :
    p ≠ 0 ∧ h.freehead t ≤ p ∧ p < h.last ∧ h.isBlkInuse p = false := by
  have hpos := freelistSize_pos t
  have htag : 0 < t.tagSize := by cases t <;> decide
  have hlt := freehead_lt (t := t) (h := h)
  have hle := hw.tiles.le
  have hhead : 0 < h.freehead t := by
    rw [Heapblk.freehead]
    omega
  rcases List.mem_cons.mp hp with rfl | hp
  · refine ⟨by omega, le_refl _, by omega, ?_⟩
    rw [Heapblk.isBlkInuse, hw.headLen]
    rfl
  · obtain ⟨b, hb, hu, rfl⟩ := mem_frees.mp hp
    have := hw.block hb
    exact ⟨by omega, by omega, by omega, (hw.inuse hb).trans hu⟩

theorem ringNodes_inBounds {h : Heapblk} {bs : List Block} (hw : WellFormed t h bs) {p : ℕ}
    (hp : p ∈ ringNodes t h bs) : inBounds t h p = true := by
  obtain ⟨h1, h2, h3, -⟩ := ringNodes_spec hw hp
  exact decide_eq_true ⟨h1, h2, le_of_lt h3⟩

/-- the sizes of the free blocks -/
def freeSizes (bs : List Block) : List ℕ := (bs.filter fun b => !b.used).map Block.size

theorem frees_lens {h : Heapblk} {bs : List Block} (hw : WellFormed t h bs) :
    (frees bs).map (fun p => (h.mem p).len) = freeSizes bs := by
  rw [frees, freeSizes, List.map_map]
  refine List.map_congr_left fun b hb => ?_
  obtain ⟨hb, hu⟩ := List.mem_filter.mp hb
  exact hw.len_free hb (by simpa using hu)

/-- from an entry on, once around to the first one -/
theorem checkRing_from {h : Heapblk} {bs : List Block} (hw : WellFormed t h bs) {q r : List ℕ}
    (hf : frees bs = q ++ r) {f size : ℕ} (hfuel : r.length < f)
    (hsum : size + (r.map fun p => (h.mem p).len).sum < t.word) :
    checkRing t h ((frees bs).headD (h.freehead t)) f (r.headD (h.freehead t)) size
      = some (some (size + (r.map fun p => (h.mem p).len).sum)) := by
  have hring := hw.ring
  induction r generalizing q f size with
  | nil =>
    cases f with
    | zero => exact absurd hfuel (Nat.not_lt_zero _)
    | succ f =>
      have hmem : h.freehead t ∈ ringNodes t h bs := List.mem_cons_self
      have hnext := hring.next_ring
      have hb := ringNodes_inBounds hw (hring.next_mem hmem)
      have hback : (h.mem (h.mem (h.freehead t)).next).prev = h.freehead t := hring.prev_next hmem
      have hu := (ringNodes_spec hw hmem).2.2.2
      have hsize : size < t.word := by
        rw [List.map_nil, List.sum_nil] at hsum
        exact hsum
      rw [List.headD_nil, checkRing, if_neg (by rw [hb]; exact Bool.noConfusion),
        if_neg (not_not.mpr hback), if_neg (by rw [hu]; exact Bool.false_ne_true), hw.headLen]
      dsimp only
      rw [add_zero, Nat.mod_eq_of_lt hsize, if_neg (lt_irrefl _), if_pos hnext]
      rfl
  | cons y r ih =>
    cases f with
    | zero => exact absurd hfuel (Nat.not_lt_zero _)
    | succ f =>
      have hmem : y ∈ ringNodes t h bs := by
        refine List.mem_cons_of_mem _ ?_
        rw [hf]
        simp
      have hring' := hring
      rw [hf] at hring'
      have hnext : (h.mem y).next = r.headD (h.freehead t) := hring'.next_mid
      have hb := ringNodes_inBounds hw (hring.next_mem hmem)
      have hback : (h.mem (h.mem y).next).prev = y := hring.prev_next hmem
      have hu := (ringNodes_spec hw hmem).2.2.2
      -- the entry behind it is not the first one
      have hne : (h.mem y).next ≠ (frees bs).headD (h.freehead t) := by
        have hnd := hring'.nodup
        have hrev : (q ++ y :: r).headD (h.freehead t) ∈ q ++ [y] := by
          cases q <;> simp
        have hnot : r.headD (h.freehead t) ∉ q ++ [y] := by
          intro hin
          have hdis : (q ++ [y]).Disjoint (r ++ [h.freehead t]) := by
            have hnd' : ((q ++ [y]) ++ (r ++ [h.freehead t])).Nodup := by
              have hperm : (h.freehead t :: (q ++ y :: r)).Perm ((q ++ [y]) ++ (r ++ [h.freehead t])) := by
                have e : (q ++ [y]) ++ (r ++ [h.freehead t]) = (q ++ y :: r) ++ [h.freehead t] := by simp
                rw [e]
                exact (List.perm_append_singleton _ _).symm
              exact hperm.nodup_iff.mp hnd
            exact List.disjoint_of_nodup_append hnd'
          exact hdis hin (headD_mem _ _)
        rw [hf, hnext]
        exact fun e => hnot (e ▸ hrev)
      rw [List.map_cons, List.sum_cons] at hsum ⊢
      rw [List.length_cons] at hfuel
      rw [List.headD_cons, checkRing, if_neg (by rw [hb]; exact Bool.noConfusion),
        if_neg (not_not.mpr hback), if_neg (by rw [hu]; exact Bool.false_ne_true)]
      dsimp only
      rw [Nat.mod_eq_of_lt (show size + (h.mem y).len < t.word by omega), if_neg (by omega), if_neg hne,
        hnext, ih (q := q ++ [y]) (by rw [hf, List.append_assoc]; rfl) (by omega) (by omega), add_assoc]

theorem freeSizes_append (l r : List Block) : freeSizes (l ++ r) = freeSizes l ++ freeSizes r := by
  rw [freeSizes, List.filter_append, List.map_append]
  rfl

theorem freeSizes_sum_le {a e : ℕ} {bs : List Block} (h : Tiles t a bs e) :
    a + (freeSizes bs).sum ≤ e := by
  induction bs generalizing a with
  | nil => exact Nat.le_of_eq h
  | cons b bs ih =>
    have hrec := ih h.2.2
    cases hu : b.used with
    | true =>
      have e1 : freeSizes (b :: bs) = freeSizes bs := by
        rw [freeSizes, List.filter_cons_of_neg (by simp [hu])]
        rfl
      rw [e1]
      omega
    | false =>
      have e1 : freeSizes (b :: bs) = b.size :: freeSizes bs := by
        rw [freeSizes, List.filter_cons_of_pos (by simp [hu])]
        rfl
      rw [e1, List.sum_cons]
      omega

/-- the bound of the loops over a free list -/
theorem frees_fuel {h : Heapblk} {bs : List Block} (hw : WellFormed t h bs) :
    (frees bs).length < h.len + 2 := by
  have h1 := frees_length_le bs
  have h2 := hw.tiles.length_le
  have h3 : h.firstFrl t = h.addr + t.heapblkSize := rfl
  have h4 : h.last = h.addr + h.len := rfl
  omega

/-- the rings of all mini-heaps are right, and their sizes fit an `unsigned` -/
theorem checkFreeList_spec {list : List MiniHeap} {ls : List (MiniHeap × List Block)}
    (ho : Ascends t list) (hls : Listing t list ls) {size : ℕ} (hsize : size < t.word)
    (hle : ∀ x ∈ list, size ≤ x.addr) :
    checkFreeList t list size = some (some (size + (freeSizes (allBlocks ls)).sum)) ∧
      size + (freeSizes (allBlocks ls)).sum < t.word := by
  induction ls generalizing list size with
  | nil =>
    obtain rfl := hls.list
    exact ⟨rfl, hsize⟩
  | cons p ls ih =>
    obtain ⟨x, bs⟩ := p
    obtain rfl := hls.list
    have hw : WellFormed t x.blk bs := hls.wf _ List.mem_cons_self
    have hx : size ≤ x.addr := hle x List.mem_cons_self
    have hring := hw.ring
    have hmem : x.blk.freehead t ∈ ringNodes t x.blk bs := List.mem_cons_self
    have hfirst := hring.next_mem hmem
    have hsum := freeSizes_sum_le hw.tiles
    have hfits := hw.fits
    have htag : 0 < t.tagSize := by cases t <;> decide
    have haddr : x.blk.firstFrl t = x.addr + t.heapblkSize := rfl
    have hlens := frees_lens hw
    have hcheck := checkRing_from hw (q := []) (r := frees bs) rfl (frees_fuel hw)
      (show size + ((frees bs).map fun p => (x.blk.mem p).len).sum < t.word by rw [hlens]; omega)
    obtain ⟨hrec1, hrec2⟩ := ih (show Ascends t (ls.map Prod.fst) from ho.tail)
      ⟨rfl, fun q hq => hls.wf q (List.mem_cons_of_mem _ hq)⟩
      (show size + (freeSizes bs).sum < t.word by omega) fun y hy => by
        have hy' : x.blk.last + t.tagSize ≤ y.addr := (ho.lt hy).1
        omega
    have hall : (freeSizes (allBlocks ((x, bs) :: ls))).sum
        = (freeSizes bs).sum + (freeSizes (allBlocks ls)).sum := by
      show (freeSizes (bs ++ allBlocks ls)).sum = _
      rw [freeSizes_append, List.sum_append]
    have hin := ringNodes_inBounds hw (hring.prev_mem hfirst)
    have hback := hring.next_prev hfirst
    rw [hall, ← add_assoc]
    refine ⟨?_, hrec2⟩
    rw [List.map_cons, checkFreeList]
    dsimp only at hin hback ⊢
    rw [if_neg (by rw [hin]; exact Bool.noConfusion), if_neg (not_not.mpr hback), hring.next_ring, hcheck,
      hlens]
    exact hrec1

theorem recordAt_eq {list : List MiniHeap} {x : MiniHeap} {bs : List Block} (ho : Ascends t list)
    (hx : x ∈ list) (hw : WellFormed t x.blk bs) {p : ℕ} (hp : p ∈ ringNodes t x.blk bs) :
    recordAt list p = x.blk.mem p := by
  obtain ⟨-, h1, h2, -⟩ := ringNodes_spec hw hp
  have hin : x.isInHeap p = true := by
    rw [Heapblk.freehead] at h1
    rw [Heapblk.last] at h2
    rw [MiniHeap.isInHeap, decide_eq_true_eq]
    omega
  rw [recordAt]
  cases hf : list.find? (·.isInHeap p) with
  | none => exact absurd hin (List.find?_eq_none.mp hf x hx)
  | some y =>
    have hy : y.isInHeap p = true := List.find?_some (p := fun z : MiniHeap => z.isInHeap p) hf
    rw [ho.eq_of_isInHeap (List.mem_of_find?_eq_some hf) hx hy hin]
    rfl

/-- a free block passes the check of its links and those of its neighbours -/
theorem checkFree_spec {list : List MiniHeap} {x : MiniHeap} {bs : List Block} (ho : Ascends t list)
    (hx : x ∈ list) (hw : WellFormed t x.blk bs) {b : Block} (hb : b ∈ bs) (hu : b.used = false) :
    checkFree list b.addr = true := by
  have hring := hw.ring
  have hmem : b.addr ∈ ringNodes t x.blk bs :=
    List.mem_cons_of_mem _ (mem_frees.mpr ⟨b, hb, hu, rfl⟩)
  have hn := hring.next_mem hmem
  have hp := hring.prev_mem hmem
  have hnn := hring.next_mem hn
  have hpp := hring.prev_mem hp
  have heven : (x.blk.mem b.addr).len % 2 = 0 := by
    rw [hw.len_free hb hu]
    exact hw.even b hb
  have hread : ∀ p ∈ ringNodes t x.blk bs, recordAt list p = x.blk.mem p := fun p hp =>
    recordAt_eq ho hx hw hp
  have hne : ∀ p ∈ ringNodes t x.blk bs, p ≠ 0 := fun p hp => (ringNodes_spec hw hp).1
  rw [checkFree, hread _ hmem, hread _ hn, hread _ hp, hread _ hnn, hread _ hpp]
  exact decide_eq_true ⟨heven, hne _ hn, hne _ hp, hring.prev_next hmem, hring.next_prev hmem,
    hne _ hnn, hne _ hpp, hring.prev_next hn, hring.next_prev hp⟩

/-- the loop subtracts the sizes of the free blocks that it comes to -/
theorem chkLoop_from {list : List MiniHeap} {ls : List (MiniHeap × List Block)} (ho : Ascends t list)
    (hls : Listing t list ls) {u v : List Block} (h : allBlocks ls = u ++ v) {hi : HeapInfo}
    (he : nHeapWalk t hi list = answer v) {f freeSize : ℕ} (hf : v.length < f)
    (hle : (freeSizes v).sum ≤ freeSize) (hlt : freeSize < t.word) :
    chkLoop t list f hi freeSize = some (.heapEnd, freeSize - (freeSizes v).sum) := by
  induction v generalizing u hi f freeSize with
  | nil =>
    cases f with
    | zero => omega
    | succ f =>
      rw [chkLoop, he]
      rfl
  | cons b v ih =>
    cases f with
    | zero => omega
    | succ f =>
      have hb := nHeapWalk_behind ho hls h
      have huv : allBlocks ls = (u ++ [b]) ++ v := by rw [List.append_assoc]; exact h
      rw [List.length_cons] at hf
      rw [chkLoop, he]
      show (if b.used = true then chkLoop t list f (entryOf b) freeSize
        else if checkFree list b.addr = false then some (.heapBadNode, freeSize)
        else chkLoop t list f (entryOf b) ((freeSize + t.word - b.size) % t.word)) = _
      cases hu : b.used with
      | true =>
        have e1 : freeSizes (b :: v) = freeSizes v := by
          rw [freeSizes, List.filter_cons_of_neg (by simp [hu])]
          rfl
        rw [e1] at hle ⊢
        rw [if_pos rfl]
        exact ih huv hb (by omega) hle hlt
      | false =>
        have e1 : freeSizes (b :: v) = b.size :: freeSizes v := by
          rw [freeSizes, List.filter_cons_of_pos (by simp [hu])]
          rfl
        obtain ⟨l, x, bl, br, r, rfl, -⟩ := allBlocks_split h
        have hx : x ∈ list := by
          rw [hls.list]
          exact List.mem_map_of_mem (f := Prod.fst) (a := (x, bl ++ b :: br)) (by simp)
        have hcheck := checkFree_spec ho hx (hls.wf (x, bl ++ b :: br) (by simp)) (b := b) (by simp) hu
        rw [e1, List.sum_cons] at hle ⊢
        have hmod : (freeSize + t.word - b.size) % t.word = freeSize - b.size := by
          rw [show freeSize + t.word - b.size = freeSize - b.size + t.word by omega, Nat.add_mod_right]
          exact Nat.mod_eq_of_lt (by omega)
        rw [if_neg Bool.false_ne_true, hcheck, if_neg (by decide), hmod,
          ih huv hb (by omega) (by omega) (by omega), Nat.sub_sub]

/-! ## in every run -/

/-- `_nheapwalk` goes through all blocks of all mini-heaps, in order, and ends -/
theorem Sound.walked {s : Heaps} (hs : Sound t s) {ls : List (MiniHeap × List Block)}
    (hls : Listing t s.list ls) (hne : s.list ≠ []) {fuel : ℕ} (hf : (allBlocks ls).length < fuel) :
    walkAll t s.list fuel ⟨0, true, 0⟩ = some ((allBlocks ls).map entryOf, .heapEnd) :=
  walkAll_from hs.order hls (u := []) rfl (nHeapWalk_start hls hne true 0) hf

/-- `_nheapchk` finds nothing wrong -/
theorem Sound.checked {s : Heaps} (hs : Sound t s) {ls : List (MiniHeap × List Block)}
    (hls : Listing t s.list ls) (hne : s.list ≠ []) {fuel : ℕ} (hf : (allBlocks ls).length < fuel) :
    nheapchk t fuel s.list = some .heapOk := by
  have hword : 0 < t.word := by cases t <;> decide
  obtain ⟨h1, h2⟩ := checkFreeList_spec hs.order hls hword fun x _ => Nat.zero_le _
  rw [zero_add] at h1 h2
  have hloop : chkLoop t s.list fuel ⟨0, true, 0⟩ (freeSizes (allBlocks ls)).sum
      = some (.heapEnd, (freeSizes (allBlocks ls)).sum - (freeSizes (allBlocks ls)).sum) :=
    chkLoop_from hs.order hls (u := []) rfl (nHeapWalk_start hls hne true 0) hf (le_refl _) h2
  rw [nheapchk, h1]
  dsimp only
  rw [hloop, Nat.sub_self]
  rfl

theorem page_proper : Along (heapsStep .ix86) (HeapsProper .ix86) [.grow false 100 given] noHeaps := by
  refine ⟨fun amt ha => given_fresh ?_, fun _ _ => trivial⟩
  have h : adjustAmount .ix86 0 100 = some 4096 := by decide
  rw [← Option.some.inj (h.symm.trans ha)]
  decide

/-- in no run of the heap does its check report a corruption -/
theorem heap_checked (t : Target) (calls : List HeapsCall)
    (hp : Along (heapsStep t) (HeapsProper t) calls noHeaps) :
    ∃ s n, run (heapsStep t) calls noHeaps = some s ∧ ∀ fuel, n < fuel →
      nheapchk t fuel s.list = some (if s.list = [] then .heapEmpty else .heapOk) := by
  obtain ⟨s, hrun, hs⟩ := run_total heapsStep_sound calls noHeaps noHeaps_sound hp
  obtain ⟨ls, hls⟩ := exists_listing hs.wf
  refine ⟨s, (allBlocks ls).length, hrun, fun fuel hf => ?_⟩
  by_cases hne : s.list = []
  · rw [if_pos hne, hne]
    cases fuel with
    | zero => exact absurd hf (Nat.not_lt_zero _)
    | succ fuel => rfl
  · rw [if_neg hne]
    exact hs.checked hls hne hf

theorem heap_checked_page : ∃ s n, run (heapsStep .ix86) [.grow false 100 given] noHeaps = some s ∧
    ∀ fuel, n < fuel →
      nheapchk .ix86 fuel s.list = some (if s.list = [] then .heapEmpty else .heapOk) :=
  heap_checked .ix86 _ page_proper

end

end Clib
