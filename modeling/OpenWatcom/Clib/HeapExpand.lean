import OpenWatcom.Clib.HeapFree

/-!
# Expanding a block in place

* `swallow`, `takePart`        what `growLoop` does with a free block behind the block: the whole of it, or
                               a part;
* `growLoop_spec`              the loop ends, and the block only gains;
* `heapManagerExpand_spec`     `__HeapManager_expand` keeps the mini-heap well formed, and all other live
                               blocks.
-/

namespace Clib
open Rings

section
variable (t : Target)

/-- the free block `p2` becomes part of the block `p1` -/
def swallow (h : Heapblk) (p1 p2 : Nat) : Heapblk :=
  let freeSize := (h.mem p2).len
  let pnext := (h.mem p2).next
  let pprev := (h.mem p2).prev
  let h := if h.rover = p2 then { h with rover := (h.mem p2).prev } else h
  let h := h.setNext pprev pnext
  let h := h.setPrev pnext pprev
  let h := h.setLen p1 ((h.mem p1).len + freeSize)
  { h with numfree := h.numfree - 1 }

/-- `growthSize` bytes of the free block `p2` become part of the block `p1` -/
def takePart (h : Heapblk) (p1 p2 growthSize : Nat) : Heapblk :=
  let freeSize := (h.mem p2).len
  let pnext := (h.mem p2).next
  let pprev := (h.mem p2).prev
  let h := if h.rover = p2 then { h with rover := (h.mem p2).prev } else h
  let p2 := p2 + growthSize
  let h := h.setLen p2 (freeSize - growthSize)
  let h := h.setPrev p2 pprev
  let h := h.setNext p2 pnext
  let h := h.setNext pprev p2
  let h := h.setPrev pnext p2
  h.setLen p1 ((h.mem p1).len + growthSize)

theorem growLoop_succ (p1 f : Nat) (h : Heapblk) (p2 g : Nat) : growLoop t p1 (f + 1) h p2 g =
    if h.isBlkEnd t p2 then some (.tryGrow g, h)
    else if h.isBlkInuse p2 then some (.fail, h)
    else if (h.mem p2).len < g ∨ (h.mem p2).len - g < t.frlSize then
      if (h.mem p2).len ≥ g then some (.success, swallow h p1 p2)
      else growLoop t p1 f (swallow h p1 p2) (p2 + (h.mem p2).len) (g - (h.mem p2).len)
    else some (.success, takePart h p1 p2 g) := rfl

end

section
variable {t : Target} {h : Heapblk} {l r : List Block} {p n m g : Nat}

/-- the rover is not left on a block that goes: it steps back -/
theorem rover_back {l : List Nat} {x : Nat} {r : List Nat} {head rover : Nat}
    (h : rover = head ∨ rover ∈ l ++ x :: r) {rover' : Nat}
    (e : rover' = if rover = x then l.getLastD head else rover) :
    rover' = head ∨ rover' ∈ l ++ r := by
  by_cases hx : rover = x
  · rw [e, if_pos hx]
    exact (List.mem_cons.mp (getLastD_mem head l)).imp id fun hm => List.mem_append_left _ hm
  · rw [e, if_neg hx]
    refine h.imp id fun hm => ?_
    rcases List.mem_append.mp hm with hm | hm
    · exact List.mem_append_left _ hm
    · exact List.mem_append_right _ ((List.mem_cons.mp hm).resolve_left hx)

theorem rover_le {l r : List Block} {b : Block} {a e : Nat} (ht : Tiles t a (l ++ b :: r) e)
    {head rover rover' : Nat} (hh : head ≤ b.addr) (e : rover' = if rover = b.addr then (frees l).getLastD head else rover) :
    rover' ≤ rover := by
  rw [e]
  split
  · next hr =>
    rw [hr]
    rcases List.mem_cons.mp (getLastD_mem head (frees l)) with hm | hm
    · rw [hm]
      exact hh
    · exact Nat.le_of_lt (ht.frees_before hm)
  · exact Nat.le_refl _

/-- a free block behind the block is swallowed -/
theorem swallow_spec (hw : WellFormed t h (l ++ ⟨p, n, true⟩ :: ⟨p + n, m, false⟩ :: r)) :
    WellFormed t (swallow h p (p + n)) (l ++ ⟨p, n + m, true⟩ :: r) := by
  have hring := hw.ring
  rw [frees_append, frees_used, frees_free] at hring
  have hb := hw.block (b := ⟨p, n, true⟩) (by simp)
  have hb2 := hw.block (b := ⟨p + n, m, false⟩) (by simp)
  dsimp only at hb hb2
  have hpos := freelistSize_pos t
  have hlen : (h.mem p).len = n + 1 := hw.len_used (b := ⟨p, n, true⟩) (by simp) rfl
  have hlen2 : (h.mem (p + n)).len = m := hw.len_free (b := ⟨p + n, m, false⟩) (by simp) rfl
  have hprev : (h.mem (p + n)).prev = (frees l).getLastD (h.freehead t) := hring.prev_mid
  have hnext : (h.mem (p + n)).next = (frees r).headD (h.freehead t) := hring.next_mid
  obtain ⟨hapL, hapR⟩ := (apart_used rfl).mp hw.apart
  obtain ⟨-, hapR, -, -⟩ := (apart_free (l := []) rfl).mp hapR
  generalize hh : swallow h p (p + n) = x
  rw [swallow] at hh
  have f0 : x.rover = if h.rover = p + n then (frees l).getLastD (h.freehead t) else h.rover := by
    rw [← hh, ← hprev]
    by_cases hr : h.rover = p + n <;> simp [hr]
  have e1 : ∀ q, (x.mem q).len = if q = p then n + m + 1 else (h.mem q).len := by
    intro q
    rw [← hh]
    by_cases hr : h.rover = p + n <;> simp [hr, hlen2, hlen] <;> split <;> omega
  have e2 : ∀ q, (x.mem q).next
      = if q = (h.mem (p + n)).prev then (h.mem (p + n)).next else (h.mem q).next := by
    intro q
    rw [← hh]
    by_cases hr : h.rover = p + n <;> simp [hr]
  have e3 : ∀ q, (x.mem q).prev
      = if q = (h.mem (p + n)).next then (h.mem (p + n)).prev else (h.mem q).prev := by
    intro q
    rw [← hh]
    by_cases hr : h.rover = p + n <;> simp [hr]
  have f1 : x.addr = h.addr := by rw [← hh]; dsimp only; split <;> rfl
  have f2 : x.len = h.len := by rw [← hh]; dsimp only; split <;> rfl
  have f4 : x.b4rover = h.b4rover := by rw [← hh]; dsimp only; split <;> rfl
  have f5 : x.largestBlk = h.largestBlk := by rw [← hh]; dsimp only; split <;> rfl
  have f6 : x.numalloc = h.numalloc := by rw [← hh]; dsimp only; split <;> rfl
  have f7 : x.numfree = h.numfree - 1 := by rw [← hh]; dsimp only; split <;> rfl
  clear hh
  have hhead : x.freehead t = h.freehead t := by rw [Heapblk.freehead, f1, Heapblk.freehead]
  have hlaid : Laid t x (l ++ [⟨p, n + m, true⟩] ++ r) := by
    refine Laid.edit (m := [⟨p, n, true⟩, ⟨p + n, m, false⟩]) (by simpa using hw.toLaid) f1 f2 ?_ ?_ ?_
    · rintro a e ⟨rfl, h1, -, h2, rfl⟩
      dsimp only at h1 h2
      refine ⟨⟨rfl, by dsimp only; omega, by show p + (n + m) = p + n + m; omega⟩,
        by dsimp only; omega, fun q hq => ?_⟩
      dsimp only at hq
      rw [e1, if_neg (by omega)]
    · intro b hb'
      rw [List.mem_singleton.mp hb', e1, if_pos rfl]
      rfl
    · intro b hb'
      rw [List.mem_singleton.mp hb']
      show (n + m) % 2 = 0
      omega
  have hside : ∀ b ∈ l ++ ⟨p, n + m, true⟩ :: r, b.used = false →
      b ∈ l ++ ⟨p, n, true⟩ :: ⟨p + n, m, false⟩ :: r := by
    intro b hb hu
    rcases List.mem_append.mp hb with hb | hb
    · simp [hb]
    · rcases List.mem_cons.mp hb with rfl | hb
      · cases hu
      · simp [hb]
  refine ⟨by simpa using hlaid, ?_, (apart_used rfl).mpr ⟨hapL, hapR⟩, ?_, ?_, ?_, ?_, ?_⟩
  · rw [hhead, frees_append, frees_used]
    refine hring.remove ?_ ?_ ?_ ?_
    · show (x.mem _).next = _
      rw [e2, hprev, if_pos rfl, hnext]
    · show (x.mem _).prev = _
      rw [e3, hnext, if_pos rfl, hprev]
    · intro y _ hne
      show (x.mem y).next = _
      rw [e2, if_neg (by rw [hprev]; exact hne)]
    · intro y _ hne
      show (x.mem y).prev = _
      rw [e3, if_neg (by rw [hnext]; exact hne)]
  · rw [f7, hw.numfree]
    simp
  · rw [f6, hw.numalloc]
    simp
  · rw [hhead, frees_append, frees_used]
    refine rover_back ?_ f0
    have hrov := hw.rover
    rwa [frees_append, frees_used, frees_free] at hrov
  · intro b hb' hu hlt
    rw [f4]
    have ht := hw.tiles
    rw [List.append_cons] at ht
    have hback : x.rover ≤ h.rover := rover_le ht (show h.freehead t ≤ p + n by
      have := freehead_lt (t := t) (h := h)
      omega) (by simpa using f0)
    exact hw.b4rover b (hside b hb' hu) hu (by omega)
  · intro b hb' hu
    rw [f5]
    exact hw.largest b (hside b hb' hu) hu

/-- the block grows into a part of the free block behind it, whose rest takes its place on the list -/
theorem takePart_spec (hw : WellFormed t h (l ++ ⟨p, n, true⟩ :: ⟨p + n, m, false⟩ :: r))
    (hg : 0 < g) (he : g % 2 = 0) (hle : g ≤ m) (hf : t.frlSize ≤ m - g) :
    WellFormed t (takePart h p (p + n) g)
      (l ++ ⟨p, n + g, true⟩ :: ⟨p + n + g, m - g, false⟩ :: r) := by
  have hring := hw.ring
  rw [frees_append, frees_used, frees_free] at hring
  have hb := hw.block (b := ⟨p, n, true⟩) (by simp)
  have hb2 := hw.block (b := ⟨p + n, m, false⟩) (by simp)
  dsimp only at hb hb2
  have hpos := freelistSize_pos t
  have hfrl := frlSize_spec t
  have hlen : (h.mem p).len = n + 1 := hw.len_used (b := ⟨p, n, true⟩) (by simp) rfl
  have hlen2 : (h.mem (p + n)).len = m := hw.len_free (b := ⟨p + n, m, false⟩) (by simp) rfl
  have hprev : (h.mem (p + n)).prev = (frees l).getLastD (h.freehead t) := hring.prev_mid
  have hnext : (h.mem (p + n)).next = (frees r).headD (h.freehead t) := hring.next_mid
  have hlaid0 := hw.toLaid
  rw [List.append_cons] at hlaid0
  have hnot := notMem_ring hlaid0 (k := g) hg (by omega)
  rw [frees_append, frees_used, frees_nil, List.append_nil] at hnot
  have hne : p + n + g ≠ p := by omega
  have hnp : p + n + g ≠ (frees l).getLastD (h.freehead t) := by
    intro e
    have hmem := getLastD_mem (h.freehead t) (frees l)
    rw [← e] at hmem
    exact hnot (List.mem_append_left _ hmem : p + n + g ∈ (h.freehead t :: frees l) ++ frees r)
  have hnn : p + n + g ≠ (frees r).headD (h.freehead t) := by
    intro e
    have hmem := headD_mem (h.freehead t) (frees r)
    rw [← e] at hmem
    refine hnot ?_
    rcases List.mem_append.mp hmem with hmem | hmem
    · exact List.mem_cons_of_mem _ (List.mem_append_right _ hmem)
    · rw [List.mem_singleton.mp hmem]
      exact List.mem_cons_self
  obtain ⟨hapL, hapR⟩ := (apart_used rfl).mp hw.apart
  generalize hh : takePart h p (p + n) g = x
  rw [takePart] at hh
  have f0 : x.rover = if h.rover = p + n then (frees l).getLastD (h.freehead t) else h.rover := by
    rw [← hh, ← hprev]
    by_cases hr : h.rover = p + n <;> simp [hr]
  have e1 : ∀ q, (x.mem q).len
      = if q = p then n + g + 1 else if q = p + n + g then m - g else (h.mem q).len := by
    intro q
    rw [← hh]
    by_cases hr : h.rover = p + n <;> simp [hr, hlen2, hlen, Ne.symm hne] <;> split <;> omega
  have e2 : ∀ q, (x.mem q).next = if q = (frees l).getLastD (h.freehead t) then p + n + g
      else if q = p + n + g then (frees r).headD (h.freehead t) else (h.mem q).next := by
    intro q
    rw [← hh, ← hprev, ← hnext]
    by_cases hr : h.rover = p + n <;> simp [hr]
  have e3 : ∀ q, (x.mem q).prev = if q = (frees r).headD (h.freehead t) then p + n + g
      else if q = p + n + g then (frees l).getLastD (h.freehead t) else (h.mem q).prev := by
    intro q
    rw [← hh, ← hprev, ← hnext]
    by_cases hr : h.rover = p + n <;> simp [hr]
  have f1 : x.addr = h.addr := by
    rw [← hh, setLen_addr, setPrev_addr, setNext_addr, setNext_addr, setPrev_addr, setLen_addr]
    split <;> rfl
  have f2 : x.len = h.len := by
    rw [← hh, setLen_heapLen, setPrev_heapLen, setNext_heapLen, setNext_heapLen, setPrev_heapLen, setLen_heapLen]
    split <;> rfl
  have f4 : x.b4rover = h.b4rover := by
    rw [← hh, setLen_b4rover, setPrev_b4rover, setNext_b4rover, setNext_b4rover, setPrev_b4rover, setLen_b4rover]
    split <;> rfl
  have f5 : x.largestBlk = h.largestBlk := by
    rw [← hh, setLen_largestBlk, setPrev_largestBlk, setNext_largestBlk, setNext_largestBlk, setPrev_largestBlk, setLen_largestBlk]
    split <;> rfl
  have f6 : x.numalloc = h.numalloc := by
    rw [← hh, setLen_numalloc, setPrev_numalloc, setNext_numalloc, setNext_numalloc, setPrev_numalloc, setLen_numalloc]
    split <;> rfl
  have f7 : x.numfree = h.numfree := by
    rw [← hh, setLen_numfree, setPrev_numfree, setNext_numfree, setNext_numfree, setPrev_numfree, setLen_numfree]
    split <;> rfl
  clear hh
  have hhead : x.freehead t = h.freehead t := by rw [Heapblk.freehead, f1, Heapblk.freehead]
  have hlaid : Laid t x (l ++ [⟨p, n + g, true⟩, ⟨p + n + g, m - g, false⟩] ++ r) := by
    refine Laid.edit (m := [⟨p, n, true⟩, ⟨p + n, m, false⟩]) (by simpa using hw.toLaid) f1 f2 ?_ ?_ ?_
    · rintro a e ⟨rfl, h1, -, h2, rfl⟩
      dsimp only at h1 h2
      refine ⟨⟨rfl, by dsimp only; omega, by show p + n + g = p + (n + g); omega, by dsimp only; omega,
        by show p + (n + g) + (m - g) = p + n + m; omega⟩, by dsimp only; omega, fun q hq => ?_⟩
      dsimp only at hq
      rw [e1, if_neg (by omega), if_neg (by omega)]
    · intro b hb'
      rcases List.mem_cons.mp hb' with rfl | hb'
      · rw [e1, if_pos rfl]
        rfl
      · rw [List.mem_singleton.mp hb', e1, if_neg hne, if_pos rfl]
        rfl
    · intro b hb'
      rcases List.mem_cons.mp hb' with rfl | hb'
      · show (n + g) % 2 = 0
        omega
      · rw [List.mem_singleton.mp hb']
        show (m - g) % 2 = 0
        omega
  have ht := hw.tiles
  rw [List.append_cons] at ht
  have hback : x.rover ≤ h.rover := rover_le ht (show h.freehead t ≤ p + n by
    have := freehead_lt (t := t) (h := h)
    omega) (by simpa using f0)
  refine ⟨by simpa using hlaid, ?_, ?_, ?_, ?_, ?_, ?_, ?_⟩
  · rw [hhead, frees_append, frees_used, frees_free]
    refine hring.replace hnot ?_ ?_ ?_ ?_ (fun y hy hye => ?_) fun y hy hye => ?_
    · exact (e2 _).trans (if_pos rfl)
    · exact (e2 _).trans ((if_neg hnp).trans (if_pos rfl))
    · exact (e3 _).trans (if_pos rfl)
    · exact (e3 _).trans ((if_neg hnn).trans (if_pos rfl))
    · exact (e2 _).trans ((if_neg hye).trans (if_neg fun e => hnot (by rwa [← e])))
    · exact (e3 _).trans ((if_neg hye).trans (if_neg fun e => hnot (by rwa [← e])))
  · refine (apart_used rfl).mpr ⟨hapL, ?_⟩
    exact (apart_free (l := []) rfl).mpr ((apart_free (l := []) rfl).mp hapR)
  · rw [f7, hw.numfree]
    simp
  · rw [f6, hw.numalloc]
    simp
  · rw [hhead, frees_append, frees_used, frees_free]
    have hrov := hw.rover
    rw [frees_append, frees_used, frees_free] at hrov
    refine (rover_back hrov f0).imp id fun hm => ?_
    rcases List.mem_append.mp hm with hm | hm
    · exact List.mem_append_left _ hm
    · exact List.mem_append_right _ (List.mem_cons_of_mem _ hm)
  · intro b hb' hu hlt
    rw [f4]
    rcases List.mem_append.mp hb' with hb' | hb'
    · exact hw.b4rover b (by simp [hb']) hu (by omega)
    rcases List.mem_cons.mp hb' with rfl | hb'
    · cases hu
    rcases List.mem_cons.mp hb' with rfl | hb'
    · dsimp only at hlt ⊢
      have := hw.b4rover ⟨p + n, m, false⟩ (by simp) rfl (by dsimp only; omega)
      dsimp only at this
      omega
    · exact hw.b4rover b (by simp [hb']) hu (by omega)
  · intro b hb' hu
    rw [f5]
    rcases List.mem_append.mp hb' with hb' | hb'
    · exact hw.largest b (by simp [hb']) hu
    rcases List.mem_cons.mp hb' with rfl | hb'
    · cases hu
    rcases List.mem_cons.mp hb' with rfl | hb'
    · have := hw.largest ⟨p + n, m, false⟩ (by simp) rfl
      dsimp only at this ⊢
      omega
    · exact hw.largest b (by simp [hb']) hu

/-! ## the loop -/

/-- what `growLoop` may leave: the block, not smaller, and all other live blocks -/
def Grown (t : Target) (l : List Block) (p n g : Nat) (r : List Block) (res : Hm) (h' : Heapblk) : Prop :=
  ∃ n' r', WellFormed t h' (l ++ ⟨p, n', true⟩ :: r') ∧ n ≤ n' ∧ lives r' = lives r ∧
    (res = .success → n + g ≤ n')

/-- a size that is not even is larger than the area -/
theorem growLoop_spec (hw : WellFormed t h (l ++ ⟨p, n, true⟩ :: r)) (hg : 0 < g)
    (he : g % 2 = 0 ∨ t.word ≤ n + g + 1) {f : Nat} (hf : r.length < f) :
    ∃ res h', growLoop t p f h (p + n) g = some (res, h') ∧ Grown t l p n g r res h' := by
  induction r generalizing h n g f with
  | nil =>
    obtain ⟨f, rfl⟩ : ∃ k, f = k + 1 := ⟨f - 1, by rw [List.length_nil] at hf; omega⟩
    have hlast : p + n = h.last := hw.tiles.around.2.2
    have hend : h.isBlkEnd t (p + n) = true := by rw [hlast, hw.end_last]
    rw [growLoop_succ, if_pos hend]
    exact ⟨_, h, rfl, n, [], hw, le_refl n, rfl, fun e => by cases e⟩
  | cons c r ih =>
    obtain ⟨f, rfl⟩ : ∃ k, f = k + 1 := ⟨f - 1, by omega⟩
    obtain ⟨a, m, used⟩ := c
    obtain rfl : a = p + n := hw.tiles.around.2.2.1
    have hend : h.isBlkEnd t (p + n) = false := hw.not_end (b := ⟨p + n, m, used⟩) (by simp)
    have hin : h.isBlkInuse (p + n) = used := hw.inuse (b := ⟨p + n, m, used⟩) (by simp)
    rw [growLoop_succ, hend, hin, if_neg Bool.false_ne_true]
    cases used with
    | true => exact ⟨_, h, rfl, n, _, hw, le_refl n, rfl, fun e => by cases e⟩
    | false =>
      have hm : (h.mem (p + n)).len = m := hw.len_free (b := ⟨p + n, m, false⟩) (by simp) rfl
      rw [if_neg Bool.false_ne_true, hm]
      have hs := swallow_spec hw
      by_cases hsmall : m < g ∨ m - g < t.frlSize
      · rw [if_pos hsmall]
        by_cases hge : m ≥ g
        · rw [if_pos hge]
          exact ⟨_, _, rfl, n + m, r, hs, by omega, by simp, fun _ => by omega⟩
        · rw [if_neg hge, Nat.add_assoc]
          have hm2 : m % 2 = 0 := (hw.block (b := ⟨p + n, m, false⟩) (by simp)).2.2.2
          obtain ⟨res, h', hl, n', r', hwf, hn, hlive, hsucc⟩ := ih (f := f) hs (g := g - m) (by omega)
            (he.imp (fun _ => by omega) fun _ => by omega) (by rw [List.length_cons] at hf; omega)
          refine ⟨res, h', hl, n', r', hwf, by omega, by rw [hlive, lives_free], fun e => ?_⟩
          have := hsucc e
          omega
      · rw [if_neg hsmall]
        have hb := hw.block (b := ⟨p + n, m, false⟩) (by simp)
        have hfits := hw.fits
        have htag : 2 ≤ t.tagSize := by cases t <;> decide
        dsimp only at hb
        have heven : g % 2 = 0 := he.resolve_right (by omega)
        refine ⟨_, _, rfl, n + g, ⟨p + n + g, m - g, false⟩ :: r, ?_, by omega, by simp,
          fun _ => le_refl _⟩
        exact takePart_spec hw hg heven (by omega) (by omega)

/-! ## `__HeapManager_expand` -/

theorem expandSize_spec (t : Target) (req : Nat) : t.freelistSize ≤ expandSize t req ∧
    (expandSize t req % 2 = 0 ∨ expandSize t req = t.word - 1) := by
  have h1 := frlSize_spec t
  have h2 := roundUpSizeHeap_even (t := t) req
  rw [expandSize]
  split_ifs <;> omega

/-- the end of a live block becomes a live block of its own -/
theorem split_spec (hw : WellFormed t h (l ++ ⟨p, n, true⟩ :: r)) {k : Nat} (hk : t.freelistSize ≤ k)
    (he : k % 2 = 0) (hle : k ≤ n) (hf : t.freelistSize ≤ n - k) :
    WellFormed t
      (let h := h.setLen p (k + 1)
      let h := h.setLen (p + k) (n - k + 1)
      { h with numalloc := h.numalloc + 1 })
      (l ++ ⟨p, k, true⟩ :: ⟨p + k, n - k, true⟩ :: r) := by
  have hpos := freelistSize_pos t
  have hb := hw.block (b := ⟨p, n, true⟩) (by simp)
  dsimp only at hb
  obtain ⟨hapL, hapR⟩ := (apart_used rfl).mp hw.apart
  dsimp only
  generalize hh : ({ (h.setLen p (k + 1)).setLen (p + k) (n - k + 1) with
    numalloc := ((h.setLen p (k + 1)).setLen (p + k) (n - k + 1)).numalloc + 1 } : Heapblk) = x
  have e1 : ∀ q, (x.mem q).len
      = if q = p + k then n - k + 1 else if q = p then k + 1 else (h.mem q).len := by
    intro q
    rw [← hh]
    simp
  have f1 : x.addr = h.addr := by rw [← hh]; rfl
  have f2 : x.len = h.len := by rw [← hh]; rfl
  have f3 : x.rover = h.rover := by rw [← hh]; rfl
  have f4 : x.b4rover = h.b4rover := by rw [← hh]; rfl
  have f5 : x.largestBlk = h.largestBlk := by rw [← hh]; rfl
  have f6 : x.numalloc = h.numalloc + 1 := by rw [← hh]; rfl
  have f7 : x.numfree = h.numfree := by rw [← hh]; rfl
  have f8 : ∀ q, (x.mem q).next = (h.mem q).next ∧ (x.mem q).prev = (h.mem q).prev := by
    intro q
    rw [← hh]
    simp
  clear hh
  have hhead : x.freehead t = h.freehead t := by rw [Heapblk.freehead, f1, Heapblk.freehead]
  have hlaid : Laid t x (l ++ [⟨p, k, true⟩, ⟨p + k, n - k, true⟩] ++ r) := by
    refine Laid.edit (m := [⟨p, n, true⟩]) (by simpa using hw.toLaid) f1 f2 ?_ ?_ ?_
    · rintro a e ⟨rfl, -, rfl⟩
      refine ⟨⟨rfl, hk, rfl, hf, by show p + k + (n - k) = p + n; omega⟩, by dsimp only; omega,
        fun q hq => ?_⟩
      dsimp only at hq
      rw [e1, if_neg (by omega), if_neg (by omega)]
    · intro b hb'
      rcases List.mem_cons.mp hb' with rfl | hb'
      · rw [e1, if_neg (by dsimp only; omega), if_pos rfl]
        rfl
      · rw [List.mem_singleton.mp hb', e1, if_pos rfl]
        rfl
    · intro b hb'
      rcases List.mem_cons.mp hb' with rfl | hb'
      · exact he
      · rw [List.mem_singleton.mp hb']
        show (n - k) % 2 = 0
        omega
  have hfrees : frees (l ++ ⟨p, k, true⟩ :: ⟨p + k, n - k, true⟩ :: r) = frees (l ++ ⟨p, n, true⟩ :: r) := by
    simp
  have hside : ∀ b ∈ l ++ ⟨p, k, true⟩ :: ⟨p + k, n - k, true⟩ :: r, b.used = false →
      b ∈ l ++ ⟨p, n, true⟩ :: r := by
    intro b hb hu
    rcases List.mem_append.mp hb with hb | hb
    · simp [hb]
    rcases List.mem_cons.mp hb with rfl | hb
    · cases hu
    rcases List.mem_cons.mp hb with rfl | hb
    · cases hu
    · simp [hb]
  refine ⟨by simpa using hlaid, ?_, ?_, ?_, ?_, ?_, ?_, ?_⟩
  · rw [hhead, hfrees]
    exact hw.ring.congr (fun y _ => (f8 y).1) fun y _ => (f8 y).2
  · exact (apart_used rfl).mpr ⟨hapL, (apart_used (l := []) rfl).mpr ⟨List.isChain_nil, hapR⟩⟩
  · rw [f7, hw.numfree, hfrees]
  · rw [f6, hw.numalloc]
    simp
    omega
  · rw [f3, hhead, hfrees]
    exact hw.rover
  · intro b hb' hu hlt
    rw [f3] at hlt
    rw [f4]
    exact hw.b4rover b (hside b hb' hu) hu hlt
  · intro b hb' hu
    rw [f5]
    exact hw.largest b (hside b hb' hu) hu

/-- `__HeapManager_expand` of a live block: the block and the other live blocks remain, and a success
leaves room for the new size -/
theorem heapManagerExpand_spec (hw : WellFormed t h (l ++ ⟨p, n, true⟩ :: r)) (req : Nat) :
    ∃ res h' bs n', heapManagerExpand t h (blk2Cstg t p) req = some (res, h') ∧ WellFormed t h' bs ∧
      lives bs = lives l ++ ⟨p, n', true⟩ :: lives r ∧ (res ≠ .success → n ≤ n') ∧
      (res = .success → expandSize t req ≤ n') := by
  have hback : cstg2Blk t (blk2Cstg t p) = p := by rw [cstg2Blk, blk2Cstg, Nat.add_sub_cancel]
  have hsize : h.getBlkSize p = n := hw.size (b := ⟨p, n, true⟩) (by simp)
  obtain ⟨s1, s2⟩ := expandSize_spec t req
  have hfrl := frlSize_spec t
  rw [heapManagerExpand]
  dsimp only
  rw [hback, hsize]
  by_cases hgrow : expandSize t req > n
  · rw [if_pos hgrow]
    have hcount := hw.tiles.around.2.2.length_le
    have hfirst := (hw.block (b := ⟨p, n, true⟩) (by simp)).1
    have hb := hw.block (b := ⟨p, n, true⟩) (by simp)
    dsimp only at hcount hfirst hb
    have hword := word_even t
    rw [Heapblk.last] at hcount
    rw [Heapblk.firstFrl] at hfirst
    obtain ⟨res, h', hl, n', r', hwf, hn, hlive, hsucc⟩ := growLoop_spec hw (g := expandSize t req - n)
      (by omega) (s2.imp (fun _ => by omega) fun _ => by omega) (f := h.len + 1) (by omega)
    refine ⟨res, h', _, n', hl, hwf, by simp [hlive], fun _ => hn, fun e => ?_⟩
    have := hsucc e
    omega
  · rw [if_neg hgrow]
    by_cases hsplit : n - expandSize t req ≥ t.frlSize
    · rw [if_pos hsplit]
      have hb := hw.block (b := ⟨p, n, true⟩) (by simp)
      have hfits := hw.fits
      have htag : 2 ≤ t.tagSize := by cases t <;> decide
      dsimp only at hb
      have heven : expandSize t req % 2 = 0 := s2.resolve_right (by omega)
      have hs := split_spec hw s1 heven (by omega) (by omega)
      rw [List.append_cons] at hs
      obtain ⟨h', bs, hfree, hwf, hlive⟩ := memFree_spec hs
      refine ⟨.success, h', bs, expandSize t req, ?_, hwf, ?_, fun e => absurd rfl e, fun _ => le_refl _⟩
      · rw [hfree]
        rfl
      · rw [hlive]
        simp
    · rw [if_neg hsplit]
      exact ⟨.success, h, _, n, rfl, hw, by simp, fun e => absurd rfl e, fun _ => by omega⟩

end

end Clib
