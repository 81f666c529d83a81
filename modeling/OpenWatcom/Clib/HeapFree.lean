import OpenWatcom.Clib.HeapAlloc

/-!
# Giving a block back

* `specialSpot_some`, `scanAhead_spec`, `searchSpot_spec`    all ways to the place of a block in the free
                 list lead to the first entry behind it;
* `Open`         a mini-heap while a block is neither allocated nor on the list;
* `findSpot_spec`, `linkFree_spec`, `memFree_spec`    `__MemFree` keeps the mini-heap well formed.
-/

namespace Clib
open Rings

/-! ## links of the front part of a ring -/

section
variable {α : Type} {next prev : α → α} {head x : α} {l r q s : List α}

theorem headD_append (s r : List α) (head : α) : (s ++ r).headD head = s.headD (r.headD head) := by
  cases s <;> rfl

theorem getLastD_append (s r : List α) (head : α) :
    (s ++ r).getLastD head = r.getLastD (s.getLastD head) := by
  induction s generalizing head with
  | nil => rfl
  | cons y s ih => rw [List.cons_append, List.getLastD_cons, List.getLastD_cons, ih]

theorem next_front (hr : Ring next prev head (l ++ r)) (e : head :: l = q ++ x :: s) :
    next x = (s ++ r).headD head := by
  cases q with
  | nil =>
    obtain ⟨rfl, rfl⟩ := List.cons_eq_cons.mp e
    exact hr.next_ring
  | cons y q =>
    obtain ⟨-, el⟩ := List.cons_eq_cons.mp e
    have el : l = q ++ x :: s := el
    rw [el, List.append_assoc, List.cons_append] at hr
    exact hr.next_mid

end

/-! ## the place in the free list -/

section
variable {t : Target} {h : Heapblk} {fl fr : List Nat} {p : Nat}

/-- the free list around an address: the entries before it and behind it -/
structure Spot (t : Target) (h : Heapblk) (fl fr : List Nat) (p : Nat) : Prop where
  ring : Ring (fun p => (h.mem p).next) (fun p => (h.mem p).prev) (h.freehead t) (fl ++ fr)
  head : h.freehead t < p
  before : ∀ x ∈ fl, x < p
  behind : ∀ x ∈ fr, p < x
  rover : h.rover ∈ h.freehead t :: (fl ++ fr)

theorem Spot.front_lt (hs : Spot t h fl fr p) {x : Nat} (hx : x ∈ h.freehead t :: fl) : x < p := by
  rcases List.mem_cons.mp hx with rfl | hx
  · exact hs.head
  · exact hs.before x hx

theorem searchSpot_front (hs : Spot t h fl fr p) (hne : fr ≠ []) {q s : List Nat} {c : Nat}
    (e : h.freehead t :: fl = q ++ c :: s) {f : Nat} (hf : s.length + 1 < f) :
    searchSpot h p f c = some (fr.headD (h.freehead t)) := by
  induction s generalizing q c f with
  | nil =>
    obtain ⟨f, rfl⟩ : ∃ k, f = k + 2 := ⟨f - 2, by rw [List.length_nil] at hf; omega⟩
    have hc : c < p := hs.front_lt (by rw [e]; simp)
    have hn : (h.mem c).next = fr.headD (h.freehead t) := next_front hs.ring e
    obtain ⟨y, fr', rfl⟩ := List.exists_cons_of_ne_nil hne
    have hy := hs.behind y List.mem_cons_self
    rw [searchSpot, if_neg (by omega), hn, List.headD_cons, searchSpot, if_pos hy]
  | cons d s ih =>
    obtain ⟨f, rfl⟩ : ∃ k, f = k + 1 := ⟨f - 1, by omega⟩
    have hc : c < p := hs.front_lt (by rw [e]; simp)
    have hn : (h.mem c).next = d := next_front hs.ring e
    rw [searchSpot, if_neg (by omega), hn]
    rw [List.append_cons] at e
    exact ih e (by rw [List.length_cons] at hf; omega)

/-- the search from the head or from the rover ends at the first entry behind the block -/
theorem searchSpot_spec (hs : Spot t h fl fr p) (hne : fr ≠ []) {f : Nat} (hf : fl.length + 1 < f) :
    searchSpot h p f (if p < h.rover then (h.mem (h.freehead t)).next else h.rover)
      = some (fr.headD (h.freehead t)) := by
  by_cases hlt : p < h.rover
  · rw [if_pos hlt]
    have hn : (h.mem (h.freehead t)).next = (fl ++ fr).headD (h.freehead t) := hs.ring.next_ring
    cases fl with
    | nil =>
      obtain ⟨f, rfl⟩ : ∃ k, f = k + 1 := ⟨f - 1, by omega⟩
      obtain ⟨y, fr', rfl⟩ := List.exists_cons_of_ne_nil hne
      have hy := hs.behind y List.mem_cons_self
      rw [hn]
      show searchSpot h p (f + 1) y = some y
      rw [searchSpot, if_pos hy]
    | cons x fl =>
      rw [hn]
      refine searchSpot_front hs hne (q := [h.freehead t]) (s := fl) rfl ?_
      rw [List.length_cons] at hf
      omega
  · rw [if_neg hlt]
    have hmem : h.rover ∈ h.freehead t :: fl := by
      rcases List.mem_cons.mp hs.rover with e | hr
      · exact List.mem_cons.mpr (Or.inl e)
      rcases List.mem_append.mp hr with hr | hr
      · exact List.mem_cons_of_mem _ hr
      · exact absurd (hs.behind _ hr) hlt
    obtain ⟨q, s, e⟩ := List.append_of_mem hmem
    refine searchSpot_front hs hne e ?_
    have hl := congrArg List.length e
    rw [List.length_cons, List.length_append, List.length_cons] at hl
    omega

theorem specialSpot_some (hs : Spot t h fl fr p) {x : Nat} (hx : specialSpot t h p = some x) :
    x = fr.headD (h.freehead t) := by
  have hn : (h.mem (h.freehead t)).next = (fl ++ fr).headD (h.freehead t) := hs.ring.next_ring
  have hp : (h.mem (h.freehead t)).prev = (fl ++ fr).getLastD (h.freehead t) := hs.ring.prev_ring
  rw [specialSpot] at hx
  split_ifs at hx with h1 h2 h3 h4 h5
  · -- nothing lies between the block and the rover
    obtain rfl := Option.some.inj hx
    have hr : h.rover ∈ fr := by
      rcases List.mem_cons.mp hs.rover with e | hr
      · have := hs.head
        omega
      rcases List.mem_append.mp hr with hr | hr
      · have := hs.before _ hr
        omega
      · exact hr
    obtain ⟨u, v, e⟩ := List.append_of_mem hr
    have hring := hs.ring
    rw [e, ← List.append_assoc] at hring
    have hprev : (h.mem h.rover).prev = (fl ++ u).getLastD (h.freehead t) := hring.prev_mid
    rcases List.eq_nil_or_concat u with rfl | ⟨u', y, rfl⟩
    · rw [e]
      rfl
    · exfalso
      rw [hprev, List.concat_eq_append, ← List.append_assoc, List.getLastD_concat] at h2
      have := hs.behind y (by rw [e]; simp)
      omega
  · obtain rfl := Option.some.inj hx
    rw [hn] at h3 ⊢
    cases fl with
    | nil => rfl
    | cons y fl =>
      have := hs.before y List.mem_cons_self
      exact absurd h3 (by show ¬p < y; omega)
  · obtain rfl := Option.some.inj hx
    have hmem : h.rover ∈ h.freehead t :: fl := by
      rcases List.mem_cons.mp hs.rover with e | hr
      · exact List.mem_cons.mpr (Or.inl e)
      rcases List.mem_append.mp hr with hr | hr
      · exact List.mem_cons_of_mem _ hr
      · exact absurd (hs.behind _ hr) h1
    obtain ⟨q, s, e⟩ := List.append_of_mem hmem
    have hnr : (h.mem h.rover).next = (s ++ fr).headD (h.freehead t) := next_front hs.ring e
    rw [hnr] at h4 ⊢
    cases s with
    | nil => rfl
    | cons y s =>
      have hy : y < p := hs.front_lt (by rw [e]; simp)
      exact absurd h4 (by show ¬p < y; omega)
  · obtain rfl := Option.some.inj hx
    rcases List.eq_nil_or_concat fr with rfl | ⟨u, y, rfl⟩
    · rfl
    · exfalso
      rw [hp, List.concat_eq_append, ← List.append_assoc, List.getLastD_concat] at h5
      have := hs.behind y (by simp)
      omega

theorem specialSpot_none (hs : Spot t h fl fr p) (hx : specialSpot t h p = none) : fr ≠ [] := by
  rintro rfl
  have hp : (h.mem (h.freehead t)).prev = (fl ++ []).getLastD (h.freehead t) := hs.ring.prev_ring
  rw [List.append_nil] at hp
  have hlast := hs.front_lt (getLastD_mem (h.freehead t) fl)
  have hr := hs.rover
  rw [List.append_nil] at hr
  have hrov := hs.front_lt hr
  rw [specialSpot, if_neg (by omega), hp] at hx
  split_ifs at hx

end

/-! ## the scan of the blocks behind -/

section
variable {t : Target} {h : Heapblk} {l r : List Block} {b : Block}

theorem scanLoop_spec {bs : List Block} (hl : Laid t h bs) (hr : ∀ c ∈ r, c ∈ bs) {a f average : Nat}
    (ht : Tiles t a r h.last) (hf : r.length < f) : ∃ o, scanLoop t h f a average = some o ∧
      ∀ x, o = some x → ∃ u, frees r = x :: u := by
  induction r generalizing a f average with
  | nil =>
    obtain ⟨f, rfl⟩ : ∃ k, f = k + 1 := ⟨f - 1, by omega⟩
    obtain rfl : a = h.last := ht
    refine ⟨none, ?_, fun x hx => by cases hx⟩
    rw [scanLoop, if_pos hl.end_last]
  | cons c r ih =>
    obtain ⟨f, rfl⟩ : ∃ k, f = k + 1 := ⟨f - 1, by omega⟩
    obtain ⟨rfl, -, htail⟩ := ht
    have hc := hr c List.mem_cons_self
    rw [scanLoop, hl.not_end hc, if_neg Bool.false_ne_true, hl.inuse hc]
    obtain ⟨ca, cn, cu⟩ := c
    cases cu with
    | false => exact ⟨some ca, if_pos rfl, fun x hx => ⟨frees r, by rw [← Option.some.inj hx]; rfl⟩⟩
    | true =>
      dsimp only
      rw [if_neg (by simp)]
      by_cases h0 : (average + t.word - 1) % t.word = 0
      · exact ⟨none, if_pos h0, fun x hx => by cases hx⟩
      · rw [if_neg h0, Heapblk.nextBlkA, hl.size hc]
        exact ih (fun x hx => hr x (List.mem_cons_of_mem _ hx)) htail
          (by rw [List.length_cons] at hf; omega)

theorem scanAhead_spec (hl : Laid t h (l ++ b :: r)) (hb : b.used = false) :
    ∃ o, scanAhead t h b.addr = some o ∧ ∀ x, o = some x → ∃ u, frees r = x :: u := by
  have hlen := hl.len_free (b := b) (by simp) hb
  have htiles := hl.tiles.around.2.2
  have hcount := htiles.length_le
  have hfirst := (hl.block (b := b) (by simp)).1
  have hf : r.length < h.len + 1 := by
    rw [Heapblk.last] at hcount
    rw [Heapblk.firstFrl] at hfirst
    omega
  rw [scanAhead]
  dsimp only
  split_ifs
  · rw [Heapblk.nextBlk, hlen]
    exact scanLoop_spec hl (fun c hc => by simp [hc]) htiles hf
  · rw [Heapblk.nextBlk, hlen]
    exact scanLoop_spec hl (fun c hc => by simp [hc]) htiles hf
  · exact ⟨none, rfl, fun x hx => by cases hx⟩

end

/-! ## a block between the two kinds -/

section
variable {t : Target} {h h' : Heapblk} {l r : List Block} {p n : Nat}

variable (t) in
/-- the block at `p` carries the tag of a free one and is not on the free list yet -/
structure Open (h : Heapblk) (l : List Block) (p n : Nat) (r : List Block) : Prop where
  laid : Laid t h (l ++ ⟨p, n, false⟩ :: r)
  ring : Ring (fun p => (h.mem p).next) (fun p => (h.mem p).prev) (h.freehead t) (frees l ++ frees r)
  apartL : Apart l
  apartR : Apart r
  nextUsed : ∀ y ∈ r.head?, y.used = true
  numfree : h.numfree = (frees l ++ frees r).length
  numalloc : h.numalloc = (useds l ++ useds r).length + 1
  rover : h.rover ∈ h.freehead t :: (frees l ++ frees r) ∨ h.rover = p
  b4rover : ∀ b ∈ l ++ r, b.used = false → b.addr < h.rover → b.size ≤ h.b4rover
  largest : ∀ b ∈ l ++ r, b.used = false → b.size ≤ h.largestBlk

/-- the free list around a block -/
theorem spot_of_laid {b : Block} (hl : Laid t h (l ++ b :: r))
    (hring : Ring (fun p => (h.mem p).next) (fun p => (h.mem p).prev) (h.freehead t)
      (frees l ++ frees r))
    (hrov : h.rover ∈ h.freehead t :: (frees l ++ frees r)) :
    Spot t h (frees l) (frees r) b.addr where
  ring := hring
  head := by
    have := (hl.block (b := b) (by simp)).1
    have := freehead_lt (t := t) (h := h)
    omega
  before x hx := hl.tiles.frees_before hx
  behind x hx := by
    have h1 := hl.tiles.frees_behind hx
    have h2 := (hl.block (b := b) (by simp)).2.2.1
    have := freelistSize_pos t
    omega
  rover := hrov

/-- the tag of an allocated block becomes that of a free one -/
theorem open_setLen (hw : WellFormed t h (l ++ ⟨p, n, true⟩ :: r)) (hnext : ∀ y ∈ r.head?, y.used = true) :
    Open t (h.setLen p n) l p n r := by
  have hring := hw.ring
  rw [frees_append, frees_used] at hring
  have hb := hw.block (b := ⟨p, n, true⟩) (by simp)
  dsimp only at hb
  have hpos := freelistSize_pos t
  have hap := (apart_used rfl).mp hw.apart
  have hlaid : Laid t (h.setLen p n) (l ++ [⟨p, n, false⟩] ++ r) := by
    refine Laid.edit (h := h) (m := [⟨p, n, true⟩]) (by simpa using hw.toLaid) rfl rfl ?_ ?_ ?_
    · rintro a e ⟨rfl, h1, rfl⟩
      refine ⟨⟨rfl, h1, rfl⟩, by dsimp only; omega, fun q hq => ?_⟩
      dsimp only at hq
      rw [setLen_len, if_neg (by omega)]
    · intro b hb'
      rw [List.mem_singleton.mp hb', setLen_len, if_pos rfl]
      rfl
    · intro b hb'
      rw [List.mem_singleton.mp hb']
      exact hb.2.2.2
  have hside : ∀ b ∈ l ++ r, b ∈ l ++ ⟨p, n, true⟩ :: r := by
    intro b hb
    rcases List.mem_append.mp hb with hb | hb <;> simp [hb]
  refine ⟨by simpa using hlaid, ?_, hap.1, hap.2, hnext, ?_, ?_, Or.inl ?_, ?_, ?_⟩
  · exact hring.congr (fun y _ => setLen_next h p y n) fun y _ => setLen_prev h p y n
  · rw [setLen_numfree, hw.numfree, frees_append, frees_used]
  · rw [setLen_numalloc, hw.numalloc, useds_append, useds_used, List.length_append, List.length_append,
      List.length_cons]
    omega
  · rw [setLen_rover]
    have hrov := hw.rover
    rw [frees_append, frees_used] at hrov
    exact List.mem_cons.mpr hrov
  · intro b hb hu hlt
    exact hw.b4rover b (hside b hb) hu hlt
  · intro b hb hu
    exact hw.largest b (hside b hb) hu

/-- the free block behind is taken out of the list and becomes part of the block -/
theorem joinNext_spec {m : Nat} (hw : WellFormed t h (l ++ ⟨p, n, true⟩ :: ⟨p + n, m, false⟩ :: r)) :
    Open t (joinNext h p n (p + n)).1 l p (n + m) r ∧
      (joinNext h p n (p + n)).2 = (frees r).headD (h.freehead t) ∧
      (joinNext h p n (p + n)).1.addr = h.addr ∧ (joinNext h p n (p + n)).1.len = h.len := by
  have hring := hw.ring
  rw [frees_append, frees_used, frees_free] at hring
  have hb := hw.block (b := ⟨p, n, true⟩) (by simp)
  have hb2 := hw.block (b := ⟨p + n, m, false⟩) (by simp)
  dsimp only at hb hb2
  have hpos := freelistSize_pos t
  have hlen2 : (h.mem (p + n)).len = m := hw.len_free (b := ⟨p + n, m, false⟩) (by simp) rfl
  have hprev : (h.mem (p + n)).prev = (frees l).getLastD (h.freehead t) := hring.prev_mid
  have hnext : (h.mem (p + n)).next = (frees r).headD (h.freehead t) := hring.next_mid
  obtain ⟨hapL, hapR⟩ := (apart_used rfl).mp hw.apart
  obtain ⟨-, hapR, -, hnu⟩ := (apart_free (l := []) rfl).mp hapR
  generalize hh : joinNext h p n (p + n) = x
  rw [joinNext] at hh
  have f0 : x.1.rover = if p + n = h.rover then p else h.rover := by
    rw [← hh]
    dsimp only
    by_cases hr : p + n = h.rover <;> simp [hr]
  have f00 : x.2 = (h.mem (p + n)).next := by
    rw [← hh]
    dsimp only
    by_cases hr : p + n = h.rover <;> simp [hr]
  have e1 : ∀ q, (x.1.mem q).len = if q = p then n + m else (h.mem q).len := by
    intro q
    rw [← hh]
    dsimp only
    by_cases hr : p + n = h.rover <;> simp [hr, ← hlen2]
  have e2 : ∀ q, (x.1.mem q).next
      = if q = (h.mem (p + n)).prev then (h.mem (p + n)).next else (h.mem q).next := by
    intro q
    rw [← hh]
    dsimp only
    by_cases hr : p + n = h.rover <;> simp [hr]
  have e3 : ∀ q, (x.1.mem q).prev
      = if q = (h.mem (p + n)).next then (h.mem (p + n)).prev else (h.mem q).prev := by
    intro q
    rw [← hh]
    dsimp only
    by_cases hr : p + n = h.rover <;> simp [hr]
  have f1 : x.1.addr = h.addr := by rw [← hh]; dsimp only; split <;> rfl
  have f2 : x.1.len = h.len := by rw [← hh]; dsimp only; split <;> rfl
  have f4 : x.1.b4rover = h.b4rover := by rw [← hh]; dsimp only; split <;> rfl
  have f5 : x.1.largestBlk = h.largestBlk := by rw [← hh]; dsimp only; split <;> rfl
  have f6 : x.1.numalloc = h.numalloc := by rw [← hh]; dsimp only; split <;> rfl
  have f7 : x.1.numfree = h.numfree - 1 := by rw [← hh]; dsimp only; split <;> rfl
  clear hh
  have hhead : x.1.freehead t = h.freehead t := by rw [Heapblk.freehead, f1, Heapblk.freehead]
  have hlaid : Laid t x.1 (l ++ [⟨p, n + m, false⟩] ++ r) := by
    refine Laid.edit (m := [⟨p, n, true⟩, ⟨p + n, m, false⟩]) (by simpa using hw.toLaid) f1 f2 ?_ ?_ ?_
    · rintro a e ⟨rfl, h1, -, h2, rfl⟩
      dsimp only at h1 h2
      refine ⟨⟨rfl, by dsimp only; omega, by show p + (n + m) = p + n + m; omega⟩,
        by dsimp only; omega, fun q hq => ?_⟩
      dsimp only at hq
      rw [e1, if_neg (by omega)]
    · intro b hb'
      rw [List.mem_singleton.mp hb', e1, if_pos rfl]
      rfl
    · intro b hb'
      rw [List.mem_singleton.mp hb']
      show (n + m) % 2 = 0
      omega
  have hside : ∀ b ∈ l ++ r, b ∈ l ++ ⟨p, n, true⟩ :: ⟨p + n, m, false⟩ :: r := by
    intro b hb
    rcases List.mem_append.mp hb with hb | hb <;> simp [hb]
  refine ⟨⟨by simpa using hlaid, ?_, hapL, hapR, hnu, ?_, ?_, ?_, ?_, ?_⟩, ?_, f1, f2⟩
  · rw [hhead]
    refine hring.remove ?_ ?_ ?_ ?_
    · show (x.1.mem _).next = _
      rw [e2, hprev, if_pos rfl, hnext]
    · show (x.1.mem _).prev = _
      rw [e3, hnext, if_pos rfl, hprev]
    · intro y _ hne
      show (x.1.mem y).next = _
      rw [e2, if_neg (by rw [hprev]; exact hne)]
    · intro y _ hne
      show (x.1.mem y).prev = _
      rw [e3, if_neg (by rw [hnext]; exact hne)]
  · rw [f7, hw.numfree]
    simp
  · rw [f6, hw.numalloc]
    simp
    omega
  · rw [f0, hhead]
    by_cases hr : p + n = h.rover
    · exact Or.inr (if_pos hr)
    · rw [if_neg hr]
      have hrov := hw.rover
      rw [frees_append, frees_used, frees_free] at hrov
      refine Or.inl (List.mem_cons.mpr (hrov.imp id fun hrov => ?_))
      rcases List.mem_append.mp hrov with hrov | hrov
      · exact List.mem_append_left _ hrov
      · exact List.mem_append_right _ ((List.mem_cons.mp hrov).resolve_left (Ne.symm hr))
  · intro b hb' hu hlt
    rw [f4]
    refine hw.b4rover b (hside b hb') hu ?_
    rw [f0] at hlt
    split_ifs at hlt with hr
    · omega
    · exact hlt
  · intro b hb' hu
    rw [f5]
    exact hw.largest b (hside b hb') hu
  · rw [f00, hnext]

/-- the way to the place of an allocated block, which joins a free block behind it -/
theorem findSpot_spec (hw : WellFormed t h (l ++ ⟨p, n, true⟩ :: r)) : ∃ h' n' r',
    findSpot t h p = some (h', (frees r').headD (h'.freehead t)) ∧ Open t h' l p n' r' ∧
      lives r' = lives r ∧ h'.addr = h.addr ∧ h'.len = h.len := by
  have hsize : h.getBlkSize p = n := hw.size (b := ⟨p, n, true⟩) (by simp)
  have htail : Tiles t (p + n) r h.last := hw.tiles.around.2.2
  rw [findSpot]
  dsimp only
  rw [hsize]
  by_cases hfree : ∃ m r', r = ⟨p + n, m, false⟩ :: r'
  · obtain ⟨m, r', rfl⟩ := hfree
    have hin : h.isBlkInuse (p + n) = false := hw.inuse (b := ⟨p + n, m, false⟩) (by simp)
    obtain ⟨hopen, hspot, ha, hl⟩ := joinNext_spec hw
    rw [if_pos hin]
    refine ⟨_, _, r', ?_, hopen, rfl, ha, hl⟩
    have hhead : (joinNext h p n (p + n)).1.freehead t = h.freehead t := by
      rw [Heapblk.freehead, ha, Heapblk.freehead]
    rw [hhead, ← hspot]
  · have hin : h.isBlkInuse (p + n) = true := by
      cases r with
      | nil =>
        rw [show p + n = h.last from htail]
        exact hw.inuse_last
      | cons c r =>
        have hca : c.addr = p + n := htail.1
        rw [← hca, hw.inuse (b := c) (by simp)]
        by_contra hc
        refine hfree ⟨c.size, r, ?_⟩
        rw [Bool.not_eq_true] at hc
        rw [← hc, ← hca]
    have hnu : ∀ y ∈ r.head?, y.used = true := by
      intro y hy
      cases r with
      | nil => cases hy
      | cons c r =>
        obtain rfl := Option.some.inj hy
        rw [← hw.inuse (b := c) (by simp), htail.1]
        exact hin
    have hopen := open_setLen hw hnu
    have hspot := spot_of_laid hopen.laid hopen.ring (hopen.rover.resolve_right fun e => by
      have hrov := hw.rover
      rw [frees_append, frees_used] at hrov
      have e : h.rover = p := e
      rw [e] at hrov
      rcases hrov with hrov | hrov
      · have := (hw.block (b := ⟨p, n, true⟩) (by simp)).1
        have := freehead_lt (t := t) (h := h)
        dsimp only at *
        omega
      · have hpos := freelistSize_pos t
        have hb := hw.block (b := ⟨p, n, true⟩) (by simp)
        dsimp only at hb
        rcases List.mem_append.mp hrov with hrov | hrov
        · exact absurd (hw.tiles.frees_before hrov) (Nat.lt_irrefl _)
        · have := hw.tiles.frees_behind hrov
          dsimp only at this
          omega)
    dsimp only at hspot
    rw [if_neg (by rw [hin]; simp)]
    refine ⟨_, n, r, ?_, hopen, rfl, rfl, rfl⟩
    cases hsp : specialSpot t (h.setLen p n) p with
    | some x => rw [specialSpot_some hspot hsp]
    | none =>
      have hne := specialSpot_none hspot hsp
      obtain ⟨o, ho, hox⟩ := scanAhead_spec hopen.laid rfl
      dsimp only at ho
      dsimp only
      rw [ho]
      cases o with
      | some x =>
        obtain ⟨u, hu⟩ := hox x rfl
        rw [hu]
        rfl
      | none =>
        have hcount := hw.tiles.length_le
        have hfl := frees_length_le l
        rw [List.length_append, List.length_cons, Heapblk.last, Heapblk.firstFrl] at hcount
        dsimp only
        rw [searchSpot_spec hspot hne (by rw [setLen_heapLen]; omega)]
        rfl

/-! ## the entry before -/

/-- the entry before the place of a block ends at the block when the block before is free -/
theorem prev_meets (ho : Open t h l p n r) :
    (∃ l1 m, l = l1 ++ [⟨p - m, m, false⟩] ∧ (frees l).getLastD (h.freehead t) = p - m ∧ p - m + m = p
      ∧ (h.mem (p - m)).len = m) ∨
    (h.nextBlk ((frees l).getLastD (h.freehead t)) ≠ p ∧ ∀ x ∈ l.getLast?, x.used = true) := by
  have hpos := freelistSize_pos t
  have htl : Tiles t (h.firstFrl t) l p := ho.laid.tiles.around.1
  have hfirst := htl.le
  have hhead := freehead_lt (t := t) (h := h)
  rcases List.eq_nil_or_concat l with rfl | ⟨l1, ⟨a, m, used⟩, e⟩
  · refine Or.inr ⟨?_, fun x hx => by cases hx⟩
    show h.nextBlk (h.freehead t) ≠ p
    rw [Heapblk.nextBlk, ho.laid.headLen]
    omega
  rw [List.concat_eq_append] at e
  subst e
  have hend : a + m = p := by
    obtain ⟨c, -, h1, -, h2⟩ := tiles_append.mp htl
    have h1 : a = c := h1
    have h2 : c + m = p := h2
    omega
  cases used with
  | false =>
    refine Or.inl ⟨l1, m, by rw [← hend, Nat.add_sub_cancel], ?_, by omega, ?_⟩
    · rw [frees_append, frees_free, frees_nil, List.getLastD_concat]
      omega
    · have := ho.laid.len_free (b := ⟨a, m, false⟩) (by simp) rfl
      rw [← hend, Nat.add_sub_cancel]
      exact this
  | true =>
    refine Or.inr ⟨?_, ?_⟩
    · rw [frees_append, frees_used, frees_nil, List.append_nil]
      have hm : t.freelistSize ≤ m := (htl.inside (b := ⟨a, m, true⟩) (by simp)).2.2
      rcases List.mem_cons.mp (getLastD_mem (h.freehead t) (frees l1)) with e | hx
      · rw [e, Heapblk.nextBlk, ho.laid.headLen]
        omega
      · obtain ⟨b, hb, hu, hx⟩ := mem_frees.mp hx
        have hlen := ho.laid.len_free (b := b) (by simp [hb]) hu
        have hle : b.addr + b.size ≤ a := htl.before (b := ⟨a, m, true⟩) hb
        rw [← hx, Heapblk.nextBlk, hlen]
        omega
    · intro x hx
      rw [List.getLast?_concat] at hx
      rw [← Option.some.inj hx]

/-- the counters and bounds at the end of `__MemFree` -/
theorem linkFree_eq (h : Heapblk) (p pnext : Nat) {j : Heapblk × Nat × Nat}
    (hj : joinPrev h p (h.mem pnext).prev pnext = j) :
    (linkFree h p pnext).mem = j.1.mem ∧ (linkFree h p pnext).addr = j.1.addr ∧
      (linkFree h p pnext).len = j.1.len ∧ (linkFree h p pnext).rover = j.1.rover ∧
      (linkFree h p pnext).numfree = j.1.numfree ∧ (linkFree h p pnext).numalloc = j.1.numalloc - 1 ∧
      j.1.b4rover ≤ (linkFree h p pnext).b4rover ∧
      (j.2.1 < j.1.rover → j.2.2 ≤ (linkFree h p pnext).b4rover) ∧
      j.1.largestBlk ≤ (linkFree h p pnext).largestBlk ∧ j.2.2 ≤ (linkFree h p pnext).largestBlk := by
  obtain ⟨x, q, len⟩ := j
  rw [linkFree, hj]
  dsimp only
  by_cases h1 : q < x.rover ∧ x.b4rover < len
  · by_cases h2 : x.largestBlk < len <;> simp [h1, h2] <;> omega
  · by_cases h2 : x.largestBlk < len <;> simp [h1, h2] <;> omega

/-- the block becomes part of the free block before it -/
theorem joinPrev_meets {a m : Nat} (ho : Open t h (l ++ [⟨a, m, false⟩]) p n r) (hend : a + m = p) :
    WellFormed t (linkFree h p ((frees r).headD (h.freehead t))) (l ++ ⟨a, m + n, false⟩ :: r) := by
  have hb := ho.laid.block (b := ⟨p, n, false⟩) (by simp)
  have hba := ho.laid.block (b := ⟨a, m, false⟩) (by simp)
  have hlenp : (h.mem p).len = n := ho.laid.len_free (b := ⟨p, n, false⟩) (by simp) rfl
  have hlena : (h.mem a).len = m := ho.laid.len_free (b := ⟨a, m, false⟩) (by simp) rfl
  dsimp only at hb hba
  have hpos := freelistSize_pos t
  have hring := ho.ring
  rw [frees_append, frees_free, frees_nil, List.append_assoc, List.singleton_append] at hring
  have hprev : (h.mem ((frees r).headD (h.freehead t))).prev = a := by
    have := ho.ring.prev_head
    rw [frees_append, frees_free, frees_nil, List.getLastD_concat] at this
    exact this
  obtain ⟨e1, e2, e3, e4, e5, e6, e7, e8, e9, e10⟩ := linkFree_eq h p ((frees r).headD (h.freehead t)) rfl
  generalize linkFree h p ((frees r).headD (h.freehead t)) = x at *
  rw [hprev, joinPrev, Heapblk.nextBlk, hlena, if_pos hend, hlenp] at e1 e2 e3 e4 e5 e6 e7 e8 e9 e10
  dsimp only at e1 e2 e3 e4 e5 e6 e7 e8 e9 e10
  have f0 : x.rover = if h.rover = p then a else h.rover := by
    rw [e4]
    by_cases hr : h.rover = p <;> simp [hr]
  have f1 : x.addr = h.addr := by rw [e2]; split <;> rfl
  have f2 : x.len = h.len := by rw [e3]; split <;> rfl
  have fmem : x.mem = (h.setLen a (n + m)).mem := by rw [e1]; split <;> rfl
  have f4 : h.b4rover ≤ x.b4rover := by
    refine le_trans (le_of_eq ?_) e7
    split <;> rfl
  have f4' : a < x.rover → n + m ≤ x.b4rover := fun hlt => e8 (by rw [← e4]; exact hlt)
  have f5 : h.largestBlk ≤ x.largestBlk := by
    refine le_trans (le_of_eq ?_) e9
    split <;> rfl
  have f6 : x.numalloc = h.numalloc - 1 := by rw [e6]; split <;> rfl
  have f7 : x.numfree = h.numfree := by rw [e5]; split <;> rfl
  clear e1 e2 e3 e4 e5 e6 e7 e8 e9
  have hhead : x.freehead t = h.freehead t := by rw [Heapblk.freehead, f1, Heapblk.freehead]
  obtain ⟨hapL, -, hlast, -⟩ := (apart_free (r := []) rfl).mp ho.apartL
  have hlaid : Laid t x (l ++ [⟨a, m + n, false⟩] ++ r) := by
    refine Laid.edit (m := [⟨a, m, false⟩, ⟨p, n, false⟩]) (by simpa using ho.laid) f1 f2 ?_ ?_ ?_
    · rintro a' e ⟨h1, h2, -, h3, h4⟩
      have h1 : a = a' := h1
      have h4 : a' + m + n = e := h4
      dsimp only at h2 h3
      refine ⟨⟨h1, by dsimp only; omega, by show a' + (m + n) = e; omega⟩, by omega, fun q hq => ?_⟩
      rw [fmem, setLen_len, if_neg (by omega)]
    · intro b hb'
      rw [List.mem_singleton.mp hb', fmem, setLen_len, if_pos rfl]
      show n + m = m + n
      omega
    · intro b hb'
      rw [List.mem_singleton.mp hb']
      show (m + n) % 2 = 0
      omega
  have hside : ∀ b ∈ l ++ r, b ∈ l ++ [⟨a, m, false⟩] ++ r := by
    intro b hb
    rcases List.mem_append.mp hb with hb | hb <;> simp [hb]
  have hcases : ∀ b ∈ l ++ ⟨a, m + n, false⟩ :: r, b = ⟨a, m + n, false⟩ ∨ b ∈ l ++ r := by
    intro b hb
    rcases List.mem_append.mp hb with hb | hb
    · exact Or.inr (List.mem_append_left _ hb)
    · rcases List.mem_cons.mp hb with hb | hb
      · exact Or.inl hb
      · exact Or.inr (List.mem_append_right _ hb)
  refine ⟨by simpa using hlaid, ?_, ?_, ?_, ?_, ?_, ?_, ?_⟩
  · rw [hhead, frees_append, frees_free]
    refine hring.congr (fun y _ => ?_) fun y _ => ?_
    · show (x.mem y).next = _
      rw [fmem, setLen_next]
    · show (x.mem y).prev = _
      rw [fmem, setLen_prev]
  · exact (apart_free rfl).mpr ⟨hapL, ho.apartR, hlast, ho.nextUsed⟩
  · rw [f7, ho.numfree]
    simp
  · rw [f6, ho.numalloc]
    simp
  · rw [f0, hhead]
    by_cases hr : h.rover = p
    · rw [if_pos hr]
      exact Or.inr (by simp)
    · rw [if_neg hr]
      have hrov := ho.rover.resolve_right hr
      rw [frees_append, frees_free, frees_nil, List.append_assoc, List.singleton_append] at hrov
      rw [frees_append, frees_free]
      exact List.mem_cons.mp hrov
  · intro b hb' hu hlt
    rcases hcases b hb' with rfl | hb'
    · show m + n ≤ _
      have := f4' hlt
      omega
    · have hbr : b.addr < h.rover := by
        rw [f0] at hlt
        split_ifs at hlt with hr
        · omega
        · exact hlt
      exact le_trans (ho.b4rover b (hside b hb') hu hbr) f4
  · intro b hb' hu
    rcases hcases b hb' with rfl | hb'
    · show m + n ≤ _
      omega
    · exact le_trans (ho.largest b (hside b hb') hu) f5

/-- the block becomes an entry of the free list -/
theorem joinPrev_insert (ho : Open t h l p n r)
    (hne : h.nextBlk ((frees l).getLastD (h.freehead t)) ≠ p) (hlast : ∀ x ∈ l.getLast?, x.used = true) :
    WellFormed t (linkFree h p ((frees r).headD (h.freehead t))) (l ++ ⟨p, n, false⟩ :: r) := by
  have hb := ho.laid.block (b := ⟨p, n, false⟩) (by simp)
  have hlenp : (h.mem p).len = n := ho.laid.len_free (b := ⟨p, n, false⟩) (by simp) rfl
  dsimp only at hb
  have hpos := freelistSize_pos t
  have hring := ho.ring
  have hprev : (h.mem ((frees r).headD (h.freehead t))).prev = (frees l).getLastD (h.freehead t) :=
    hring.prev_head
  have hnotin : p ∉ h.freehead t :: (frees l ++ frees r) := by
    intro hp
    rcases List.mem_cons.mp hp with e | hp
    · have := freehead_lt (t := t) (h := h)
      omega
    · rcases List.mem_append.mp hp with hp | hp
      · exact absurd (ho.laid.tiles.frees_before hp) (Nat.lt_irrefl _)
      · have := ho.laid.tiles.frees_behind hp
        dsimp only at this
        omega
  have hnp : p ≠ (frees l).getLastD (h.freehead t) := by
    intro e
    refine hnotin ?_
    rw [e]
    rcases List.mem_cons.mp (getLastD_mem (h.freehead t) (frees l)) with hm | hm
    · rw [hm]
      exact List.mem_cons_self
    · exact List.mem_cons_of_mem _ (List.mem_append_left _ hm)
  have hnn : p ≠ (frees r).headD (h.freehead t) := by
    intro e
    refine hnotin ?_
    rw [e]
    rcases List.mem_append.mp (headD_mem (h.freehead t) (frees r)) with hm | hm
    · exact List.mem_cons_of_mem _ (List.mem_append_right _ hm)
    · rw [List.mem_singleton.mp hm]
      exact List.mem_cons_self
  obtain ⟨e1, f1, f2, f3, f4, f5, f6, f7, f8, f9⟩ := linkFree_eq h p ((frees r).headD (h.freehead t)) rfl
  generalize linkFree h p ((frees r).headD (h.freehead t)) = x at *
  rw [hprev, joinPrev, if_neg hne, hlenp] at e1 f1 f2 f3 f4 f5 f6 f7 f8 f9
  dsimp only [setPrev_addr, setNext_addr, setPrev_heapLen, setNext_heapLen, setPrev_rover, setNext_rover,
    setPrev_numfree, setNext_numfree, setPrev_numalloc, setNext_numalloc, setPrev_b4rover, setNext_b4rover,
    setPrev_largestBlk, setNext_largestBlk] at e1 f1 f2 f3 f4 f5 f6 f7 f8 f9
  have g1 : ∀ q, (x.mem q).len = (h.mem q).len := by
    intro q
    rw [e1]
    simp
  have g2 : ∀ q, (x.mem q).next = if q = (frees l).getLastD (h.freehead t) then p
      else if q = p then (frees r).headD (h.freehead t) else (h.mem q).next := by
    intro q
    rw [e1]
    simp
  have g3 : ∀ q, (x.mem q).prev = if q = (frees r).headD (h.freehead t) then p
      else if q = p then (frees l).getLastD (h.freehead t) else (h.mem q).prev := by
    intro q
    rw [e1]
    simp
  clear e1
  have hhead : x.freehead t = h.freehead t := by rw [Heapblk.freehead, f1, Heapblk.freehead]
  have hlaid : Laid t x (l ++ [⟨p, n, false⟩] ++ r) := by
    refine Laid.edit (m := [⟨p, n, false⟩]) (by simpa using ho.laid) f1 f2 ?_ ?_ ?_
    · rintro a e ⟨h1, h2, h3⟩
      have h3 : a + n = e := h3
      dsimp only at h2
      exact ⟨⟨h1, h2, h3⟩, by omega, fun q _ => g1 q⟩
    · intro b hb'
      rw [g1]
      exact ho.laid.tags b (by simp [List.mem_singleton.mp hb'])
    · intro b hb'
      exact ho.laid.even b (by simp [List.mem_singleton.mp hb'])
  have hcases : ∀ b ∈ l ++ ⟨p, n, false⟩ :: r, b = ⟨p, n, false⟩ ∨ b ∈ l ++ r := by
    intro b hb
    rcases List.mem_append.mp hb with hb | hb
    · exact Or.inr (List.mem_append_left _ hb)
    · rcases List.mem_cons.mp hb with hb | hb
      · exact Or.inl hb
      · exact Or.inr (List.mem_append_right _ hb)
  refine ⟨by simpa using hlaid, ?_, ?_, ?_, ?_, ?_, ?_, ?_⟩
  · rw [hhead, frees_append, frees_free]
    refine hring.insert hnotin ?_ ?_ ?_ ?_ (fun y hy hye => ?_) fun y hy hye => ?_
    · exact (g2 _).trans (if_pos rfl)
    · exact (g2 _).trans ((if_neg hnp).trans (if_pos rfl))
    · exact (g3 _).trans (if_pos rfl)
    · exact (g3 _).trans ((if_neg hnn).trans (if_pos rfl))
    · exact (g2 _).trans ((if_neg hye).trans (if_neg fun e => hnotin (by rwa [← e])))
    · exact (g3 _).trans ((if_neg hye).trans (if_neg fun e => hnotin (by rwa [← e])))
  · exact (apart_free rfl).mpr ⟨ho.apartL, ho.apartR, hlast, ho.nextUsed⟩
  · rw [f4, ho.numfree]
    simp
    omega
  · rw [f5, ho.numalloc]
    simp
  · rw [f3, hhead, frees_append, frees_free]
    rcases ho.rover with hrov | hrov
    · rcases List.mem_cons.mp hrov with hrov | hrov
      · exact Or.inl hrov
      · refine Or.inr ?_
        rcases List.mem_append.mp hrov with hrov | hrov
        · exact List.mem_append_left _ hrov
        · exact List.mem_append_right _ (List.mem_cons_of_mem _ hrov)
    · exact Or.inr (by rw [hrov]; simp)
  · intro b hb' hu hlt
    rw [f3] at hlt
    rcases hcases b hb' with rfl | hb'
    · exact f7 hlt
    · exact le_trans (ho.b4rover b hb' hu hlt) f6
  · intro b hb' hu
    rcases hcases b hb' with rfl | hb'
    · exact f9
    · exact le_trans (ho.largest b hb' hu) f8

/-- the block is on the free list afterwards, and the other allocated blocks stay -/
theorem linkFree_spec (ho : Open t h l p n r) :
    ∃ bs, WellFormed t (linkFree h p ((frees r).headD (h.freehead t))) bs ∧
      lives bs = lives l ++ lives r := by
  rcases prev_meets ho with ⟨l1, m, rfl, -, hend, -⟩ | ⟨hne, hlast⟩
  · refine ⟨_, joinPrev_meets ho hend, ?_⟩
    simp
  · refine ⟨_, joinPrev_insert ho hne hlast, ?_⟩
    simp

/-- `__MemFree` of a live block: it is none afterwards, and all others are as before -/
theorem memFree_spec (hw : WellFormed t h (l ++ ⟨p, n, true⟩ :: r)) :
    ∃ h' bs, memFree t h (blk2Cstg t p) = some h' ∧ WellFormed t h' bs ∧
      lives bs = lives l ++ lives r := by
  obtain ⟨h', n', r', hfind, ho, hlive, -, -⟩ := findSpot_spec hw
  obtain ⟨bs, hwf, hbs⟩ := linkFree_spec ho
  have hback : cstg2Blk t (blk2Cstg t p) = p := by rw [cstg2Blk, blk2Cstg, Nat.add_sub_cancel]
  have hin : h.isBlkInuse p = true := hw.inuse (b := ⟨p, n, true⟩) (by simp)
  have htag : 0 < t.tagSize := by cases t <;> decide
  refine ⟨_, bs, ?_, hwf, by rw [hbs, hlive]⟩
  rw [memFree, if_pos ⟨by rw [blk2Cstg]; omega, by rw [hback]; exact hin⟩, hback, hfind]
  rfl

end

end Clib
