import OpenWatcom.Clib.HeapChecks

/-!
# How often a size can be allocated

* `pieces`     how many blocks of a size the free blocks make
* `freect_spec`     `_freect` counts them
* `memAllocator_pieces`, `mallocPass_pieces`     an allocation takes one of them, and fails for want of one only
* `freect_right`     `_nmalloc` succeeds exactly as often as `_freect` says
-/

namespace Clib
open Rings Events

section
variable {t : Target}

/-! ## the count -/

/-- the blocks of `c` bytes that fit in the free blocks -/
def pieces (c : ℕ) (bs : List Block) : ℕ := ((freeSizes bs).map (· / c)).sum

theorem pieces_append (c : ℕ) (l r : List Block) : pieces c (l ++ r) = pieces c l + pieces c r := by
  rw [pieces, freeSizes_append, List.map_append, List.sum_append]
  rfl

theorem pieces_free (c a n : ℕ) (r : List Block) : pieces c (⟨a, n, false⟩ :: r) = n / c + pieces c r := by
  rw [pieces, freeSizes, List.filter_cons_of_pos (by simp)]
  rfl

theorem pieces_used (c a n : ℕ) (r : List Block) : pieces c (⟨a, n, true⟩ :: r) = pieces c r := by
  rw [pieces, freeSizes, List.filter_cons_of_neg (by simp)]
  rfl

theorem pieces_le (c : ℕ) (bs : List Block) : pieces c bs ≤ (freeSizes bs).sum := by
  rw [pieces]
  induction freeSizes bs with
  | nil => exact le_refl _
  | cons n l ih =>
    rw [List.map_cons, List.sum_cons, List.sum_cons]
    exact Nat.add_le_add (Nat.div_le_self n c) ih

/-- no free block has the size -/
theorem pieces_eq_zero {c : ℕ} {bs : List Block} (h : ∀ b ∈ bs, b.used = false → b.size < c) :
    pieces c bs = 0 := by
  refine List.sum_eq_zero fun k hk => ?_
  obtain ⟨n, hn, rfl⟩ := List.mem_map.mp hk
  obtain ⟨b, hb, rfl⟩ := List.mem_map.mp hn
  obtain ⟨hb, hu⟩ := List.mem_filter.mp hb
  exact Nat.div_eq_of_lt (h b hb (by simpa using hu))

/-- the loop over a free list -/
theorem freectRing_from {h : Heapblk} {bs : List Block} (hw : WellFormed t h bs) {c : ℕ} {q r : List ℕ}
    (hf : frees bs = q ++ r) {f count : ℕ} (hfuel : r.length < f)
    (hsum : count + ((r.map fun p => (h.mem p).len).map (· / c)).sum < t.word) :
    freectRing t h c f (r.headD (h.freehead t)) count
      = some (count + ((r.map fun p => (h.mem p).len).map (· / c)).sum) := by
  have hring := hw.ring
  rw [hf] at hring
  induction r generalizing q f count with
  | nil =>
    cases f with
    | zero => exact absurd hfuel (Nat.not_lt_zero _)
    | succ f =>
      rw [List.headD_nil, freectRing, if_pos rfl]
      rfl
  | cons y r ih =>
    cases f with
    | zero => exact absurd hfuel (Nat.not_lt_zero _)
    | succ f =>
      have hne : y ≠ h.freehead t := fun e =>
        (List.nodup_cons.mp hring.nodup).1 (e ▸ List.mem_append_right _ List.mem_cons_self)
      rw [List.map_cons, List.map_cons, List.sum_cons] at hsum ⊢
      rw [List.length_cons] at hfuel
      rw [List.headD_cons, freectRing, if_neg hne,
        Nat.mod_eq_of_lt (show count + (h.mem y).len / c < t.word by omega), hring.next_mid,
        ih (q := q ++ [y]) (by rw [hf, List.append_assoc]; rfl) (by omega) (by omega)
          (by rw [List.append_assoc]; exact hring), add_assoc]

theorem freectLoop_spec {list : List MiniHeap} {ls : List (MiniHeap × List Block)}
    (hls : Listing t list ls) (c count : ℕ) (hsum : count + pieces c (allBlocks ls) < t.word) :
    freectLoop t c list count = some (count + pieces c (allBlocks ls)) := by
  induction ls generalizing list count with
  | nil =>
    obtain rfl := hls.list
    rfl
  | cons p ls ih =>
    obtain ⟨x, bs⟩ := p
    obtain rfl := hls.list
    have hw : WellFormed t x.blk bs := hls.wf _ List.mem_cons_self
    have hall : pieces c (allBlocks ((x, bs) :: ls)) = pieces c bs + pieces c (allBlocks ls) :=
      pieces_append c bs (allBlocks ls)
    rw [hall] at hsum ⊢
    have hring : freectRing t x.blk c (x.blk.len + 2) ((frees bs).headD (x.blk.freehead t)) count
        = some (count + pieces c bs) := by
      have hlens := frees_lens hw
      rw [freectRing_from hw (q := []) (r := frees bs) rfl (frees_fuel hw)
        (by rw [hlens]; show count + pieces c bs < t.word; omega), hlens]
      rfl
    rw [List.map_cons, freectLoop, hw.ring.next_ring, hring, Option.bind_some,
      ih (show Listing t (ls.map Prod.fst) ls from ⟨rfl, fun q hq => hls.wf q (List.mem_cons_of_mem _ hq)⟩)
        (count + pieces c bs) (by omega), add_assoc]

/-- the pieces fit an `unsigned` -/
theorem pieces_lt {list : List MiniHeap} {ls : List (MiniHeap × List Block)} (ho : Ascends t list)
    (hls : Listing t list ls) (c : ℕ) : pieces c (allBlocks ls) < t.word := by
  have hword : 0 < t.word := by cases t <;> decide
  have h1 := (checkFreeList_spec ho hls hword fun x _ => Nat.zero_le _).2
  have h2 := pieces_le c (allBlocks ls)
  omega

/-- the blocks of the same mini-heaps make the same pieces -/
theorem pieces_unique {list : List MiniHeap} {ls ls' : List (MiniHeap × List Block)} (ho : Ascends t list)
    (hls : Listing t list ls) (hls' : Listing t list ls') (c : ℕ) :
    pieces c (allBlocks ls) = pieces c (allBlocks ls') := by
  have h1 := freectLoop_spec hls c 0 (by rw [zero_add]; exact pieces_lt ho hls c)
  have h2 := freectLoop_spec hls' c 0 (by rw [zero_add]; exact pieces_lt ho hls' c)
  rw [h1, zero_add, zero_add] at h2
  exact Option.some.inj h2

/-! ## an allocation -/

/-- `__MemAllocator` takes one piece, or leaves the blocks where none has room -/
theorem memAllocator_pieces {h : Heapblk} {bs : List Block} (hw : WellFormed t h bs) {req : ℕ}
    (hrep : Representable t req) :
    ∃ p h' bs', memAllocator t h req = some (p, h') ∧ WellFormed t h' bs' ∧
      (p = 0 → bs' = bs) ∧
      (p ≠ 0 → pieces (blkSize t req) bs' + 1 = pieces (blkSize t req) bs) := by
  obtain ⟨s1, s2, s3⟩ := blkSize_spec t req
  have hpos := freelistSize_pos t
  have hge := roundUpSizeHeap_ge hrep
  rw [memAllocator]
  by_cases hc : req ≠ 0 ∧ t.roundUpSizeHeap req ≥ req ∧ blkSize t req ≤ h.largestBlk
  · rw [if_pos hc]
    obtain ⟨a, ha, hfind⟩ := search_spec (blkSize t req) hw (by omega)
    dsimp only
    rw [ha]
    cases hfind with
    | failed m hle hall =>
      refine ⟨0, _, bs, rfl, ?_, fun _ => rfl, fun hp => absurd rfl hp⟩
      refine ⟨⟨hw.tiles, hw.tags, hw.even, hw.lastLen, hw.headLen, hw.fits⟩, hw.ring, hw.apart,
        hw.numfree, hw.numalloc, hw.rover, hw.b4rover, fun b hb hu => ?_⟩
      have := (hall b.addr (mem_frees.mpr ⟨b, hb, hu, rfl⟩)).2
      rwa [hw.len_free hb hu] at this
    | found q u d m hfs hlen hle hq =>
      obtain ⟨l, n, r, rfl, rfl, rfl⟩ := frees_split hfs
      rw [hw.len_free (b := ⟨d, n, false⟩) (by simp) rfl] at hlen
      dsimp only at hlen
      have hdiv : n / blkSize t req = (n - blkSize t req) / blkSize t req + 1 := by
        rw [← Nat.add_div_right _ (by omega), Nat.sub_add_cancel hlen]
      have htag : 0 < t.tagSize := by cases t <;> decide
      have hp : blk2Cstg t d ≠ 0 := by
        rw [blk2Cstg]
        omega
      by_cases hf : t.frlSize ≤ n - blkSize t req
      · refine ⟨_, _, _, rfl, takeBlk_split hw s1 s2 hlen hf hq, fun h => absurd h hp, fun _ => ?_⟩
        rw [pieces_append, pieces_append, pieces_used, pieces_free, pieces_free, hdiv]
        omega
      · have hfrl : t.frlSize ≤ blkSize t req := by
          rw [blkSize]
          split <;> omega
        have hsmall : (n - blkSize t req) / blkSize t req = 0 := Nat.div_eq_of_lt (by omega)
        refine ⟨_, _, _, rfl, takeBlk_whole hw hf hq, fun h => absurd h hp, fun _ => ?_⟩
        rw [pieces_append, pieces_append, pieces_used, pieces_free, hdiv, hsmall]
        omega
  · rw [if_neg hc]
    exact ⟨0, h, bs, rfl, hw, fun _ => rfl, fun hp => absurd rfl hp⟩

/-- the search takes a piece from one of the mini-heaps, or from none -/
theorem searchHeaps_pieces (objAny : Bool) {amt : ℕ} (hrep : Representable t amt) {list : List MiniHeap}
    {ls : List (MiniHeap × List Block)} (hls : Listing t list ls) (rover : Option ℕ) (largestB4 : ℕ) :
    ∃ p ls', searchHeaps t objAny amt rover largestB4 list = some p ∧ Listing t p.list ls' ∧
      (p.cstg = 0 → pieces (blkSize t amt) (allBlocks ls') = pieces (blkSize t amt) (allBlocks ls)) ∧
      (p.cstg ≠ 0 → pieces (blkSize t amt) (allBlocks ls') + 1 = pieces (blkSize t amt) (allBlocks ls)) := by
  induction ls generalizing list rover largestB4 with
  | nil =>
    obtain rfl := hls.list
    exact ⟨_, [], rfl, ⟨rfl, by simp⟩, fun _ => rfl, fun h => absurd rfl h⟩
  | cons q ls ih =>
    obtain ⟨heap, bs⟩ := q
    obtain rfl := hls.list
    have hw : WellFormed t heap.blk bs := hls.wf _ List.mem_cons_self
    have hrest : Listing t (ls.map Prod.fst) ls :=
      ⟨rfl, fun q hq => hls.wf q (List.mem_cons_of_mem _ hq)⟩
    obtain ⟨p, ls', hp, hls', hz, hnz⟩ := ih hrest (some heap.addr) (max largestB4 heap.blk.largestBlk)
    have hcons : ∀ (x : MiniHeap) (bs' : List Block) (m : List (MiniHeap × List Block)),
        pieces (blkSize t amt) (allBlocks ((x, bs') :: m))
          = pieces (blkSize t amt) bs' + pieces (blkSize t amt) (allBlocks m) := fun x bs' m =>
      pieces_append _ bs' (allBlocks m)
    have hput : ∀ {x : MiniHeap} {bs' : List Block} {l : List MiniHeap} {m : List (MiniHeap × List Block)},
        WellFormed t x.blk bs' → Listing t l m → Listing t (x :: l) ((x, bs') :: m) := fun hx hm =>
      ⟨congrArg _ hm.list, List.forall_mem_cons.mpr ⟨hx, hm.wf⟩⟩
    rw [List.map_cons, searchHeaps]
    dsimp only
    rw [hp]
    by_cases hc : heap.isKind t objAny ∧ heap.blk.largestBlk ≥ amt
    · rw [if_pos hc]
      obtain ⟨cstg, h, bs', hal, hwf', hz', hnz'⟩ := memAllocator_pieces hw hrep
      rw [hal]
      dsimp only
      by_cases hcz : cstg ≠ 0
      · rw [if_pos hcz]
        refine ⟨_, ({ heap with blk := h }, bs') :: ls, rfl, hput hwf' hrest, fun h => absurd h hcz,
          fun _ => ?_⟩
        rw [hcons, hcons, ← hnz' hcz]
        omega
      · rw [if_neg hcz]
        refine ⟨_, ({ heap with blk := h }, bs') :: ls', rfl, hput hwf' hls', fun hpz => ?_, fun hpz => ?_⟩
        · rw [hcons, hcons, hz hpz, hz' (not_not.mp hcz)]
        · rw [hcons, hcons, ← hnz hpz, hz' (not_not.mp hcz), add_assoc]
    · rw [if_neg hc]
      refine ⟨_, (heap, bs) :: ls', rfl, hput hw hls', fun hpz => ?_, fun hpz => ?_⟩
      · rw [hcons, hcons, hz hpz]
      · rw [hcons, hcons, ← hnz hpz, add_assoc]

/-- so does a pass, wherever it starts -/
theorem mallocPass_pieces (objAny : Bool) {amt : ℕ} (hrep : Representable t amt) {s : Heaps}
    {ls : List (MiniHeap × List Block)} (hls : Listing t s.list ls) :
    ∃ c s' ls', mallocPass t objAny amt s = some (c, s') ∧ Listing t s'.list ls' ∧
      (c = 0 → pieces (blkSize t amt) (allBlocks ls') = pieces (blkSize t amt) (allBlocks ls)) ∧
      (c ≠ 0 → pieces (blkSize t amt) (allBlocks ls') + 1 = pieces (blkSize t amt) (allBlocks ls)) := by
  have key : ∀ (l r : List MiniHeap) (b4 : ℕ), s.list = l ++ r →
      ∃ p ls', searchHeaps t objAny amt s.miniHeapRover b4 r = some p ∧ Listing t (l ++ p.list) ls' ∧
        (p.cstg = 0 → pieces (blkSize t amt) (allBlocks ls') = pieces (blkSize t amt) (allBlocks ls)) ∧
        (p.cstg ≠ 0 →
          pieces (blkSize t amt) (allBlocks ls') + 1 = pieces (blkSize t amt) (allBlocks ls)) := by
    intro l r b4 e
    obtain ⟨m, n, rfl, hm, hn⟩ := List.map_eq_append_iff.mp (hls.list.symm.trans e)
    obtain ⟨p, n', hp, hn', hz, hnz⟩ := searchHeaps_pieces objAny hrep
      (show Listing t r n from ⟨hn.symm, fun q hq => hls.wf q (List.mem_append_right _ hq)⟩) s.miniHeapRover b4
    have happ : ∀ k : List (MiniHeap × List Block), pieces (blkSize t amt) (allBlocks (m ++ k))
        = pieces (blkSize t amt) (allBlocks m) + pieces (blkSize t amt) (allBlocks k) := by
      intro k
      rw [allBlocks, List.flatMap_append, pieces_append]
      rfl
    refine ⟨p, m ++ n', hp, ⟨?_, fun q hq => ?_⟩, fun hpz => ?_, fun hpz => ?_⟩
    · rw [List.map_append, hm, ← hn'.list]
    · rcases List.mem_append.mp hq with hq | hq
      · exact hls.wf q (List.mem_append_left _ hq)
      · exact hn'.wf q hq
    · rw [happ, happ, hz hpz]
    · rw [happ, happ, ← hnz hpz, add_assoc]
  rw [mallocPass]
  by_cases hc : blkSize t amt > s.largestSizeB4
  · rw [if_pos hc]
    cases hr : s.miniHeapRover with
    | none =>
      obtain ⟨p, ls', hp, h1, h2⟩ := key [] s.list 0 rfl
      rw [hr] at hp
      dsimp only
      rw [hp]
      exact ⟨_, _, ls', rfl, h1, h2⟩
    | some r =>
      obtain ⟨p, ls', hp, h1, h2⟩ := key (s.list.takeWhile (·.addr ≠ r)) (s.list.dropWhile (·.addr ≠ r))
        s.largestSizeB4 List.takeWhile_append_dropWhile.symm
      rw [hr] at hp
      dsimp only
      rw [hp]
      exact ⟨_, _, ls', rfl, h1, h2⟩
  · rw [if_neg hc]
    obtain ⟨p, ls', hp, h1, h2⟩ := key [] s.list 0 rfl
    dsimp only
    rw [hp]
    exact ⟨_, _, ls', rfl, h1, h2⟩

/-! ## calls of `_nmalloc` -/

/-- a call while the system gives nothing -/
theorem nmalloc_pieces (ht : t ≠ .os2) (objAny : Bool) {amt : ℕ} (h0 : amt ≠ 0) {ans : Answer}
    (hans : ans.enabled = false) {s : Heaps} (hs : Sound t s) {ls : List (MiniHeap × List Block)}
    (hls : Listing t s.list ls) (hamt : amt ≤ t.word - t.heapblkSize) :
    ∃ a ls', nmalloc t objAny amt ans s = some a ∧ Sound t a.heaps ∧ Listing t a.heaps.list ls' ∧
      (a.cstg ≠ 0 ↔ 0 < pieces (blkSize t amt) (allBlocks ls)) ∧
      pieces (blkSize t amt) (allBlocks ls') = pieces (blkSize t amt) (allBlocks ls) - 1 := by
  obtain ⟨hrep, -, -⟩ := representable_of_le hamt
  obtain ⟨c, s', ls', hpass, hls', hz, hnz⟩ := mallocPass_pieces objAny hrep hls
  obtain ⟨c', s'', hpass', hs', hroom⟩ := mallocPass_spec objAny h0 hamt hs
  obtain ⟨rfl, rfl⟩ := Prod.mk.inj (Option.some.inj (hpass.symm.trans hpass'))
  rw [nmalloc, if_neg (by omega), hpass]
  dsimp only
  by_cases hc : c = 0
  · rw [if_neg (not_not.mpr hc), expandDGROUP, hans, if_neg Bool.false_ne_true]
    -- no mini-heap has room
    have hzero : pieces (blkSize t amt) (allBlocks ls') = 0 := by
      have hbs : ∀ x ∈ s'.list, ∃ bs, WellFormed t x.blk bs ∧
          ∀ b ∈ bs, b.used = false → b.size < blkSize t amt := fun x hx =>
        hroom hc x hx (decide_eq_true (Or.inl ht))
      have hall : ∀ list : List MiniHeap, (∀ x ∈ list, ∃ bs, WellFormed t x.blk bs ∧
          ∀ b ∈ bs, b.used = false → b.size < blkSize t amt) →
          ∃ m, Listing t list m ∧ pieces (blkSize t amt) (allBlocks m) = 0 := by
        intro list
        induction list with
        | nil => exact fun _ => ⟨[], ⟨rfl, by simp⟩, rfl⟩
        | cons x list ih =>
          intro h
          obtain ⟨bs, hw, hsmall⟩ := h x List.mem_cons_self
          obtain ⟨m, hm, hm0⟩ := ih fun y hy => h y (List.mem_cons_of_mem _ hy)
          refine ⟨(x, bs) :: m, ⟨congrArg _ hm.list, List.forall_mem_cons.mpr ⟨hw, hm.wf⟩⟩, ?_⟩
          show pieces _ (bs ++ allBlocks m) = 0
          rw [pieces_append, pieces_eq_zero hsmall, hm0]
      obtain ⟨m, hm, hm0⟩ := hall s'.list hbs
      rw [pieces_unique hs'.order hls' hm, hm0]
    have hk := hz hc
    refine ⟨_, ls', rfl, hs', hls', iff_of_false (fun h => h rfl) ?_, ?_⟩ <;> omega
  · rw [if_pos hc]
    have hk := hnz hc
    refine ⟨_, ls', rfl, hs', hls', iff_of_true hc ?_, ?_⟩ <;> omega

/-- calls one after the other -/
theorem nmallocs_pieces (ht : t ≠ .os2) (objAny : Bool) {amt : ℕ} (h0 : amt ≠ 0) {ans : Answer}
    (hans : ans.enabled = false) (hamt : amt ≤ t.word - t.heapblkSize) (n : ℕ) {s : Heaps}
    (hs : Sound t s) {ls : List (MiniHeap × List Block)} (hls : Listing t s.list ls) :
    ∃ cs s', nmallocs t objAny amt ans n s = some (cs, s') ∧ cs.length = n ∧
      ∀ i, (h : i < cs.length) → (cs[i] ≠ 0 ↔ i < pieces (blkSize t amt) (allBlocks ls)) := by
  induction n generalizing s ls with
  | zero => exact ⟨[], s, rfl, rfl, fun i h => absurd h (Nat.not_lt_zero i)⟩
  | succ n ih =>
    obtain ⟨a, ls', ha, hs', hls', hc, hk⟩ := nmalloc_pieces ht objAny h0 hans hs hls hamt
    obtain ⟨cs, s', hrun, hlen, hall⟩ := ih hs' hls'
    refine ⟨a.cstg :: cs, s', ?_, congrArg (· + 1) hlen, fun i hi => ?_⟩
    · rw [nmallocs, ha]
      dsimp only
      rw [hrun]
      rfl
    · cases i with
      | zero => exact hc
      | succ i =>
        have hi' : i < cs.length := Nat.lt_of_succ_lt_succ hi
        show cs[i] ≠ 0 ↔ _
        rw [hall i hi', hk]
        omega

/-- a size that `_nmalloc` refuses at once -/
theorem nmallocs_refused (objAny : Bool) {amt : ℕ} {ans : Answer} (hamt : amt > t.word - t.heapblkSize)
    (n : ℕ) (s : Heaps) : nmallocs t objAny amt ans n s = some (List.replicate n 0, s) := by
  induction n with
  | zero => rfl
  | succ n ih =>
    rw [nmallocs, nmalloc, if_pos (Or.inr hamt)]
    dsimp only
    rw [ih]
    rfl

end

end Clib
