import OpenWatcom.Clib.HeapShape

/-!
# Allocation

* `search_spec`          the search ends, at the first large enough entry or behind the last one;
* `takeBlk_split`, `takeBlk_whole`     a block is taken from a larger free one, or as it is;
* `memAllocator_spec`    `__MemAllocator` keeps the mini-heap well formed, and fails only when no free
                         block is large enough.
-/

namespace Clib
open Rings

section
variable {t : Target} {h : Heapblk} {bs : List Block} {size : Nat}

/-! ## the search -/

/-- what the search of the entries `fs` answers -/
inductive Finds (h : Heapblk) (size largest : Nat) (fs : List Nat) : Search → Prop
  | found (q u : List Nat) (d m : Nat) (hfs : fs = q ++ d :: u) (hlen : size ≤ (h.mem d).len)
      (hle : largest ≤ m) (hq : ∀ x ∈ q, (h.mem x).len ≤ m) : Finds h size largest fs (.found d m)
  | failed (m : Nat) (hle : largest ≤ m)
      (hall : ∀ x ∈ fs, (h.mem x).len < size ∧ (h.mem x).len ≤ m) : Finds h size largest fs (.failed m)

/-- an entry that is too small is passed -/
theorem Finds.cons {c m : Nat} {s : List Nat} {a : Search} (hc : (h.mem c).len < size)
    (hm : (h.mem c).len ≤ m) (ha : Finds h size m s a) {largest : Nat} (hle : largest ≤ m) :
    Finds h size largest (c :: s) a := by
  cases ha with
  | found q u d k hfs hlen hk hq =>
    refine .found (c :: q) u d k (by rw [hfs]; rfl) hlen (by omega) fun x hx => ?_
    rcases List.mem_cons.mp hx with rfl | hx
    · omega
    · exact hq x hx
  | failed k hk hall =>
    refine .failed k (by omega) fun x hx => ?_
    rcases List.mem_cons.mp hx with rfl | hx
    · exact ⟨hc, by omega⟩
    · exact hall x hx

variable (size) in
theorem search_entries {p s : List Nat} {c : Nat}
    (hr : Ring (fun p => (h.mem p).next) (fun p => (h.mem p).prev) (h.freehead t) (p ++ c :: s))
    {f : Nat} (hf : s.length < f) (largest : Nat) :
    ∃ a, search t h size f c largest = some a ∧ Finds h size largest (c :: s) a := by
  induction s generalizing p c f largest with
  | nil =>
    obtain ⟨f, rfl⟩ : ∃ k, f = k + 1 := ⟨f - 1, by omega⟩
    rw [search]
    by_cases hc : size ≤ (h.mem c).len
    · rw [if_pos hc]
      exact ⟨_, rfl, .found [] [] c largest rfl hc (Nat.le_refl _) (by simp)⟩
    · have hn : (h.mem c).next = h.freehead t := hr.next_mid
      rw [if_neg hc, if_pos hn]
      refine ⟨_, rfl, .failed _ ?_ ?_⟩
      · split <;> omega
      · intro x hx
        rw [List.mem_singleton.mp hx]
        refine ⟨by omega, ?_⟩
        split <;> omega
  | cons d s ih =>
    obtain ⟨f, rfl⟩ : ∃ k, f = k + 1 := ⟨f - 1, by omega⟩
    rw [search]
    by_cases hc : size ≤ (h.mem c).len
    · rw [if_pos hc]
      exact ⟨_, rfl, .found [] (d :: s) c largest rfl hc (Nat.le_refl _) (by simp)⟩
    · have hn : (h.mem c).next = d := hr.next_mid
      have hd : d ≠ h.freehead t := by
        rintro rfl
        exact (List.nodup_cons.mp hr.nodup).1 (by simp)
      rw [if_neg hc, hn, if_neg hd]
      rw [List.append_cons] at hr
      obtain ⟨a, ha, hfind⟩ := ih hr (f := f) (by rw [List.length_cons] at hf; omega)
        (if largest < (h.mem c).len then (h.mem c).len else largest)
      refine ⟨a, ha, hfind.cons (by omega) ?_ ?_⟩
      · split <;> omega
      · split <;> omega

/-- from the head the whole list is searched -/
theorem search_head (hw : WellFormed t h bs) (hs : 0 < size) {f : Nat}
    (hf : (frees bs).length + 1 < f) (largest : Nat) :
    ∃ a, search t h size f (h.freehead t) largest = some a ∧ Finds h size largest (frees bs) a := by
  obtain ⟨f, rfl⟩ : ∃ k, f = k + 1 := ⟨f - 1, by omega⟩
  have hn : (h.mem (h.freehead t)).next = (frees bs).headD (h.freehead t) := hw.ring.next_ring
  rw [search, hw.headLen, if_neg (show ¬ size ≤ 0 by omega),
    if_neg (Nat.not_lt_zero largest), hn]
  cases e : frees bs with
  | nil =>
    rw [List.headD_nil, if_pos rfl]
    exact ⟨_, rfl, .failed largest (Nat.le_refl _) (by simp)⟩
  | cons c s =>
    have hr := hw.ring
    rw [e] at hr hf
    have hc : c ≠ h.freehead t := by
      rintro rfl
      exact (List.nodup_cons.mp hr.nodup).1 (by simp)
    rw [List.headD_cons, if_neg hc]
    exact search_entries size (p := []) hr (by rw [List.length_cons] at hf; omega) largest

theorem frees_length_le (bs : List Block) : (frees bs).length ≤ bs.length := by
  rw [frees, List.length_map]
  exact List.length_filter_le _ _

variable (size) in
/-- `__MemAllocator` searches the whole list, or what lies behind a rover before which all entries are
too small -/
theorem search_spec (hw : WellFormed t h bs) (hs : 0 < size) :
    ∃ a, (if size ≤ h.b4rover then search t h size (h.len + 2) (h.mem (h.freehead t)).next 0
        else search t h size (h.len + 2) h.rover h.b4rover) = some a ∧ Finds h size 0 (frees bs) a := by
  have h1 := hw.tiles.length_le
  have h2 := frees_length_le bs
  have h3 : (frees bs).length + 1 < h.len + 2 := by
    rw [Heapblk.last, Heapblk.firstFrl] at h1
    omega
  have hr := hw.ring
  by_cases hb : size ≤ h.b4rover
  · rw [if_pos hb]
    have hn : (h.mem (h.freehead t)).next = (frees bs).headD (h.freehead t) := hw.ring.next_ring
    cases e : frees bs with
    | nil =>
      rw [hn, e, List.headD_nil, ← e]
      exact search_head hw hs h3 0
    | cons c s =>
      rw [e] at hr h3
      rw [hn, e, List.headD_cons]
      exact search_entries size (p := []) hr (by rw [List.length_cons] at h3; omega) 0
  · rw [if_neg hb]
    rcases hw.rover with hrov | hrov
    · rw [hrov]
      obtain ⟨a, ha, hfind⟩ := search_head hw hs h3 h.b4rover
      refine ⟨a, ha, ?_⟩
      cases hfind with
      | found q u d m hfs hlen hle hq => exact .found q u d m hfs hlen (Nat.zero_le _) hq
      | failed m hle hall => exact .failed m (Nat.zero_le _) hall
    · obtain ⟨p, s, e⟩ := List.append_of_mem hrov
      rw [e] at hr h3
      obtain ⟨a, ha, hfind⟩ := search_entries size hr (f := h.len + 2)
        (by rw [List.length_append, List.length_cons] at h3; omega) h.b4rover
      refine ⟨a, ha, ?_⟩
      -- the entries before the rover are bounded
      have hp : ∀ x ∈ p, (h.mem x).len ≤ h.b4rover := by
        intro x hx
        have hsorted := hw.tiles.frees_sorted
        rw [e] at hsorted
        have hlt := (List.pairwise_append.mp hsorted).2.2 x hx _ List.mem_cons_self
        obtain ⟨b, hbm, hbu, rfl⟩ := mem_frees.mp (e ▸ List.mem_append_left _ hx : x ∈ frees bs)
        rw [hw.len_free hbm hbu]
        exact hw.b4rover b hbm hbu hlt
      rw [e]
      cases hfind with
      | found q u d m hfs hlen hle hq =>
        refine .found (p ++ q) u d m (by rw [hfs, List.append_assoc]) hlen (Nat.zero_le _) ?_
        intro x hx
        rcases List.mem_append.mp hx with hx | hx
        · exact Nat.le_trans (hp x hx) hle
        · exact hq x hx
      | failed m hle hall =>
        refine .failed m (Nat.zero_le _) fun x hx => ?_
        rcases List.mem_append.mp hx with hx | hx
        · have := hp x hx
          omega
        · exact hall x hx

/-! ## taking a block -/

theorem frlSize_spec (t : Target) : t.freelistSize ≤ t.frlSize ∧ t.frlSize % 2 = 0 := by
  cases t <;> decide

variable {l r : List Block} {c n m : Nat}

/-- the links of a node that is not an entry are not read -/
theorem notMem_ring (hw : Laid t h (l ++ ⟨c, n, false⟩ :: r)) {k : Nat} (hk : 0 < k) (hn : k < n) :
    c + k ∉ h.freehead t :: (frees l ++ frees r) := by
  have hc := (hw.block (b := ⟨c, n, false⟩) (by simp)).1
  have hlt := freehead_lt (t := t) (h := h)
  dsimp only at hc
  intro hm
  rcases List.mem_cons.mp hm with hm | hm
  · omega
  rcases List.mem_append.mp hm with hm | hm
  · have := hw.tiles.frees_before hm
    dsimp only at this
    omega
  · have := hw.tiles.frees_behind hm
    dsimp only at this
    omega

/-- a part of a free block is taken; the rest stays on the list -/
theorem takeBlk_split (hw : WellFormed t h (l ++ ⟨c, n, false⟩ :: r)) (hs : t.freelistSize ≤ size)
    (he : size % 2 = 0) (hle : size ≤ n) (hf : t.frlSize ≤ n - size)
    (hm : ∀ x ∈ frees l, (h.mem x).len ≤ m) :
    WellFormed t (takeBlk t h c size m) (l ++ ⟨c, size, true⟩ :: ⟨c + size, n - size, false⟩ :: r) := by
  have hpos := freelistSize_pos t
  have hfrl := frlSize_spec t
  have hb := hw.block (b := ⟨c, n, false⟩) (by simp)
  have hlen : (h.mem c).len = n := hw.len_free (b := ⟨c, n, false⟩) (by simp) rfl
  dsimp only at hb
  have hring := hw.ring
  rw [frees_append, frees_free] at hring
  have hprev : (h.mem c).prev = (frees l).getLastD (h.freehead t) := hring.prev_mid
  have hnext : (h.mem c).next = (frees r).headD (h.freehead t) := hring.next_mid
  have hnot := notMem_ring hw.toLaid (k := size) (by omega) (by omega)
  have hne : c + size ≠ c := by omega
  generalize hh : takeBlk t h c size m = h'
  rw [takeBlk, if_pos (by rw [hlen]; exact hf)] at hh
  have e1 : ∀ q, (h'.mem q).len
      = if q = c then size + 1 else if q = c + size then n - size else (h.mem q).len := by
    intro q
    rw [← hh]
    simp only [Heapblk.setBlkInuse, Heapblk.getBlkSize, setLen_len, setNext_len, setPrev_len, hlen,
      if_true]
    split
    · omega
    · rfl
  have e2 : ∀ q, (h'.mem q).next = if q = (h.mem c).prev then c + size
      else if q = c + size then (h.mem c).next else (h.mem q).next := by
    intro q
    rw [← hh]
    simp [Heapblk.setBlkInuse]
  have e3 : ∀ q, (h'.mem q).prev = if q = (h.mem c).next then c + size
      else if q = c + size then (h.mem c).prev else (h.mem q).prev := by
    intro q
    rw [← hh]
    simp [Heapblk.setBlkInuse]
  have f1 : h'.addr = h.addr := by rw [← hh]; rfl
  have f2 : h'.len = h.len := by rw [← hh]; rfl
  have f3 : h'.rover = c + size := by rw [← hh]; rfl
  have f4 : h'.b4rover = m := by rw [← hh]; rfl
  have f5 : h'.largestBlk = h.largestBlk := by rw [← hh]; rfl
  have f6 : h'.numalloc = h.numalloc + 1 := by rw [← hh]; rfl
  have f7 : h'.numfree = h.numfree := by rw [← hh]; rfl
  clear hh
  have hlaid : Laid t h' (l ++ [⟨c, size, true⟩, ⟨c + size, n - size, false⟩] ++ r) := by
    refine Laid.edit (m := [⟨c, n, false⟩]) (by simpa using hw.toLaid) f1 f2 ?_ ?_ ?_
    · rintro a e ⟨rfl, -, rfl⟩
      refine ⟨⟨rfl, hs, rfl, by dsimp only; omega, by show c + size + (n - size) = c + n; omega⟩,
        by dsimp only; omega, fun q hq => ?_⟩
      dsimp only at hq
      rw [e1, if_neg (by omega), if_neg (by omega)]
    · intro b hb'
      rcases List.mem_cons.mp hb' with rfl | hb'
      · rw [e1, if_pos rfl]
        rfl
      · rw [List.mem_singleton.mp hb', e1, if_neg hne, if_pos rfl]
        rfl
    · intro b hb'
      rcases List.mem_cons.mp hb' with rfl | hb'
      · exact he
      · rw [List.mem_singleton.mp hb']
        show (n - size) % 2 = 0
        omega
  have hhead : h'.freehead t = h.freehead t := by rw [Heapblk.freehead, f1, Heapblk.freehead]
  have hap := hw.apart
  rw [apart_free rfl] at hap
  refine ⟨by simpa using hlaid, ?_, ?_, ?_, ?_, ?_, ?_, ?_⟩
  · rw [hhead, frees_append, frees_used, frees_free]
    refine hring.replace hnot ?_ ?_ ?_ ?_ ?_ ?_
    · show (h'.mem _).next = _
      rw [e2, hprev, if_pos rfl]
    · show (h'.mem _).next = _
      rw [e2, if_neg, if_pos rfl, hnext]
      intro e
      rw [hprev] at e
      have hmem := getLastD_mem (h.freehead t) (frees l)
      rw [← e] at hmem
      exact hnot (List.mem_append_left _ hmem : c + size ∈ (h.freehead t :: frees l) ++ frees r)
    · show (h'.mem _).prev = _
      rw [e3, hnext, if_pos rfl]
    · show (h'.mem _).prev = _
      rw [e3, if_neg, if_pos rfl, hprev]
      intro e
      rw [hnext] at e
      have hmem := headD_mem (h.freehead t) (frees r)
      rw [← e] at hmem
      refine hnot ?_
      rcases List.mem_append.mp hmem with hmem | hmem
      · simp [hmem]
      · simp [List.mem_singleton.mp hmem]
    · intro y hy hne'
      show (h'.mem y).next = _
      rw [e2, if_neg (by rw [hprev]; exact hne'), if_neg (fun e : y = c + size => hnot (e ▸ hy))]
    · intro y hy hne'
      show (h'.mem y).prev = _
      rw [e3, if_neg (by rw [hnext]; exact hne'), if_neg (fun e : y = c + size => hnot (e ▸ hy))]
  · refine (apart_used rfl).mpr ⟨hap.1, ?_⟩
    have := (apart_free (l := []) (b := ⟨c + size, n - size, false⟩) rfl).mpr
      ⟨List.isChain_nil, hap.2.1, by simp, hap.2.2.2⟩
    simpa using this
  · rw [f7, hw.numfree]
    simp
  · rw [f6, hw.numalloc]
    simp
    omega
  · rw [f3]
    exact Or.inr (by simp)
  · intro b hb' hu hlt
    rw [f3] at hlt
    rw [f4]
    rcases List.mem_append.mp hb' with hb' | hb'
    · have := hm b.addr (mem_frees.mpr ⟨b, hb', hu, rfl⟩)
      rwa [hw.len_free (by simp [hb']) hu] at this
    rcases List.mem_cons.mp hb' with rfl | hb'
    · cases hu
    rcases List.mem_cons.mp hb' with rfl | hb'
    · exact absurd hlt (Nat.lt_irrefl _)
    · have := hw.tiles.behind hb'
      dsimp only at this
      omega
  · intro b hb' hu
    rw [f5]
    rcases List.mem_append.mp hb' with hb' | hb'
    · exact hw.largest b (by simp [hb']) hu
    rcases List.mem_cons.mp hb' with rfl | hb'
    · cases hu
    rcases List.mem_cons.mp hb' with rfl | hb'
    · have := hw.largest ⟨c, n, false⟩ (by simp) rfl
      dsimp only at this ⊢
      omega
    · exact hw.largest b (by simp [hb']) hu


/-- a free block is taken as it is -/
theorem takeBlk_whole (hw : WellFormed t h (l ++ ⟨c, n, false⟩ :: r)) (hf : ¬ t.frlSize ≤ n - size)
    (hm : ∀ x ∈ frees l, (h.mem x).len ≤ m) :
    WellFormed t (takeBlk t h c size m) (l ++ ⟨c, n, true⟩ :: r) := by
  have hpos := freelistSize_pos t
  have hb := hw.block (b := ⟨c, n, false⟩) (by simp)
  have hlen : (h.mem c).len = n := hw.len_free (b := ⟨c, n, false⟩) (by simp) rfl
  dsimp only at hb
  have hring := hw.ring
  rw [frees_append, frees_free] at hring
  have hprev : (h.mem c).prev = (frees l).getLastD (h.freehead t) := hring.prev_mid
  have hnext : (h.mem c).next = (frees r).headD (h.freehead t) := hring.next_mid
  generalize hh : takeBlk t h c size m = h'
  rw [takeBlk, if_neg (by rw [hlen]; exact hf)] at hh
  have e1 : ∀ q, (h'.mem q).len = if q = c then n + 1 else (h.mem q).len := by
    intro q
    rw [← hh]
    simp only [Heapblk.setBlkInuse, Heapblk.getBlkSize, setLen_len, setNext_len, setPrev_len, hlen]
    split
    · omega
    · rfl
  have e2 : ∀ q, (h'.mem q).next = if q = (h.mem c).prev then (h.mem c).next else (h.mem q).next := by
    intro q
    rw [← hh]
    simp [Heapblk.setBlkInuse]
  have e3 : ∀ q, (h'.mem q).prev = if q = (h.mem c).next then (h.mem c).prev else (h.mem q).prev := by
    intro q
    rw [← hh]
    simp [Heapblk.setBlkInuse]
  have f1 : h'.addr = h.addr := by rw [← hh]; rfl
  have f2 : h'.len = h.len := by rw [← hh]; rfl
  have f3 : h'.rover = (h.mem c).prev := by rw [← hh]; rfl
  have f4 : h'.b4rover = m := by rw [← hh]; rfl
  have f5 : h'.largestBlk = h.largestBlk := by rw [← hh]; rfl
  have f6 : h'.numalloc = h.numalloc + 1 := by rw [← hh]; rfl
  have f7 : h'.numfree = h.numfree - 1 := by rw [← hh]; rfl
  clear hh
  have hlaid : Laid t h' (l ++ [⟨c, n, true⟩] ++ r) := by
    refine Laid.edit (m := [⟨c, n, false⟩]) (by simpa using hw.toLaid) f1 f2 ?_ ?_ ?_
    · rintro a e ⟨rfl, h1, rfl⟩
      refine ⟨⟨rfl, h1, rfl⟩, by dsimp only; omega, fun q hq => ?_⟩
      dsimp only at hq
      rw [e1, if_neg (by omega)]
    · intro b hb'
      rw [List.mem_singleton.mp hb', e1, if_pos rfl]
      rfl
    · intro b hb'
      rw [List.mem_singleton.mp hb']
      exact hb.2.2.2
  have hhead : h'.freehead t = h.freehead t := by rw [Heapblk.freehead, f1, Heapblk.freehead]
  have hap := hw.apart
  rw [apart_free rfl] at hap
  refine ⟨by simpa using hlaid, ?_, ?_, ?_, ?_, ?_, ?_, ?_⟩
  · rw [hhead, frees_append, frees_used]
    refine hring.remove ?_ ?_ ?_ ?_
    · show (h'.mem _).next = _
      rw [e2, hprev, if_pos rfl, hnext]
    · show (h'.mem _).prev = _
      rw [e3, hnext, if_pos rfl, hprev]
    · intro y _ hne'
      show (h'.mem y).next = _
      rw [e2, if_neg (by rw [hprev]; exact hne')]
    · intro y _ hne'
      show (h'.mem y).prev = _
      rw [e3, if_neg (by rw [hnext]; exact hne')]
  · exact (apart_used rfl).mpr ⟨hap.1, hap.2.1⟩
  · rw [f7, hw.numfree]
    simp
  · rw [f6, hw.numalloc]
    simp
    omega
  · rw [f3, hhead, hprev, frees_append, frees_used]
    rcases List.mem_cons.mp (getLastD_mem (h.freehead t) (frees l)) with e | e
    · exact Or.inl e
    · exact Or.inr (List.mem_append_left _ e)
  · intro b hb' hu hlt
    rw [f3, hprev] at hlt
    rw [f4]
    rcases List.mem_append.mp hb' with hb' | hb'
    · have := hm b.addr (mem_frees.mpr ⟨b, hb', hu, rfl⟩)
      rwa [hw.len_free (by simp [hb']) hu] at this
    rcases List.mem_cons.mp hb' with rfl | hb'
    · cases hu
    · -- the entry before the block taken lies before what follows it
      exfalso
      have h1 := hw.tiles.behind hb'
      dsimp only at h1
      rcases List.mem_cons.mp (getLastD_mem (h.freehead t) (frees l)) with e | e
      · rw [e] at hlt
        have := freehead_lt (t := t) (h := h)
        omega
      · have := hw.tiles.frees_before e
        dsimp only at this
        omega
  · intro b hb' hu
    rw [f5]
    rcases List.mem_append.mp hb' with hb' | hb'
    · exact hw.largest b (by simp [hb']) hu
    rcases List.mem_cons.mp hb' with rfl | hb'
    · cases hu
    · exact hw.largest b (by simp [hb']) hu

/-! ## `__MemAllocator` -/

/-- the sum that rounds a request up fits in an `unsigned` -/
def Representable (t : Target) (reqSize : Nat) : Prop :=
  reqSize + t.tagSize + (t.heapRoundSize - 1) < t.word

theorem roundUpSizeHeap_ge {req : Nat} (h : Representable t req) :
    req + t.tagSize ≤ t.roundUpSizeHeap req := by
  rw [Representable] at h
  rw [Target.roundUpSizeHeap, Target.roundUpSize]
  rw [Nat.mod_eq_of_lt h]
  have := Nat.mod_lt (req + t.tagSize + (t.heapRoundSize - 1)) (show 0 < t.heapRoundSize by
    cases t <;> decide)
  omega

/-- a request that overflows rounds to less -/
theorem representable_of_ge {req : Nat} (hlt : req < t.word) (h0 : req ≠ 0)
    (h : t.roundUpSizeHeap req ≥ req) : Representable t req := by
  rw [Representable]
  by_contra hc
  rw [Target.roundUpSizeHeap, Target.roundUpSize] at h
  have hsmall : t.tagSize + (t.heapRoundSize - 1) ≤ t.word := by cases t <;> decide
  have e : (req + t.tagSize + (t.heapRoundSize - 1)) % t.word
      = req + t.tagSize + (t.heapRoundSize - 1) - t.word := by
    rw [Nat.mod_eq_sub_mod (by omega), Nat.mod_eq_of_lt (by omega)]
  rw [e] at h
  have : t.tagSize + (t.heapRoundSize - 1) < t.word := by cases t <;> decide
  omega

theorem roundUpSizeHeap_even (req : Nat) : t.roundUpSizeHeap req % 2 = 0 := by
  rw [Target.roundUpSizeHeap, Target.roundUpSize]
  cases t with
  | i86 =>
    show ((_ % _) - _ % 2) % 2 = 0
    omega
  | ix86 | os2 =>
    show ((_ % _) - _ % 8) % 2 = 0
    omega

theorem blkSize_spec (t : Target) (req : Nat) :
    t.freelistSize ≤ blkSize t req ∧ blkSize t req % 2 = 0 ∧ t.roundUpSizeHeap req ≤ blkSize t req := by
  have h1 := frlSize_spec t
  have h2 := roundUpSizeHeap_even (t := t) req
  rw [blkSize]
  split <;> omega

/-- what a call of `__MemAllocator` may do: nothing, for want of a large enough free block, or take a
block that has room for the request -/
inductive Allocates (t : Target) (req : Nat) (bs : List Block) (p : Nat) (bs' : List Block) : Prop
  | null (hp : p = 0) (hbs : bs' = bs) (hnone : req ≠ 0 → Representable t req →
      ∀ b ∈ bs, b.used = false → b.size < blkSize t req) : Allocates t req bs p bs'
  | block (c k : Nat) (hp : p = blk2Cstg t c) (hk : req + t.tagSize ≤ k)
      (hlive : (lives bs').Perm (⟨c, k, true⟩ :: lives bs)) : Allocates t req bs p bs'

theorem memAllocator_spec (hw : WellFormed t h bs) {req : Nat} (hreq : req < t.word) :
    ∃ p h' bs', memAllocator t h req = some (p, h') ∧ WellFormed t h' bs' ∧
      Allocates t req bs p bs' := by
  obtain ⟨s1, s2, s3⟩ := blkSize_spec t req
  have hpos := freelistSize_pos t
  rw [memAllocator]
  by_cases hc : req ≠ 0 ∧ t.roundUpSizeHeap req ≥ req ∧ blkSize t req ≤ h.largestBlk
  · rw [if_pos hc]
    obtain ⟨a, ha, hfind⟩ := search_spec (blkSize t req) hw (by omega)
    dsimp only
    rw [ha]
    cases hfind with
    | failed m hle hall =>
      -- the largest block is known now
      refine ⟨0, _, bs, rfl, ?_, .null rfl rfl fun _ _ b hb hu => ?_⟩
      · refine ⟨⟨hw.tiles, hw.tags, hw.even, hw.lastLen, hw.headLen, hw.fits⟩, hw.ring, hw.apart,
          hw.numfree, hw.numalloc, hw.rover, hw.b4rover, fun b hb hu => ?_⟩
        have := (hall b.addr (mem_frees.mpr ⟨b, hb, hu, rfl⟩)).2
        rwa [hw.len_free hb hu] at this
      · have := (hall b.addr (mem_frees.mpr ⟨b, hb, hu, rfl⟩)).1
        rwa [hw.len_free hb hu] at this
    | found q u d m hfs hlen hle hq =>
      obtain ⟨l, n, r, rfl, rfl, rfl⟩ := frees_split hfs
      rw [hw.len_free (b := ⟨d, n, false⟩) (by simp) rfl] at hlen
      dsimp only at hlen
      have hge := roundUpSizeHeap_ge (representable_of_ge hreq hc.1 hc.2.1)
      by_cases hf : t.frlSize ≤ n - blkSize t req
      · refine ⟨_, _, _, rfl, takeBlk_split hw s1 s2 hlen hf hq,
          .block d (blkSize t req) rfl (by omega) ?_⟩
        simp only [lives_append, lives_used, lives_free]
        exact List.perm_middle
      · refine ⟨_, _, _, rfl, takeBlk_whole hw hf hq, .block d n rfl (by omega) ?_⟩
        simp only [lives_append, lives_used, lives_free]
        exact List.perm_middle
  · rw [if_neg hc]
    refine ⟨0, h, bs, rfl, hw, .null rfl rfl fun h0 hrep b hb hu => ?_⟩
    have h1 := hw.largest b hb hu
    have h2 := roundUpSizeHeap_ge hrep
    have h3 : ¬ blkSize t req ≤ h.largestBlk := fun h4 => hc ⟨h0, by omega, h4⟩
    omega

end

end Clib
