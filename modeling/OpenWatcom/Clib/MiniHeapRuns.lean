import Mathlib
import OpenWatcom.Clib.MiniHeaps

/-!
# Runs of the list of mini-heaps

* `SameArea`     the operations of a mini-heap leave its place and its length alone;
* `Sound`     well-formed mini-heaps in the order of their addresses, the rovers, the cached bound;
* `mallocPass_spec`     a pass finds storage, or no listed mini-heap has room;
* `Sound.nfree`, `Sound.shrink`, `Sound.create`     the other operations keep it;
* `rover_bounds`     every run keeps it, and `_nmalloc` goes to the system for want of room only;
* `asks_other_kind`     on OS/2 the mini-heaps of the other kind may have room.
-/

namespace Clib
open Events

/-- the same stretch of memory -/
def SameArea (h' h : Heapblk) : Prop := h'.addr = h.addr ∧ h'.len = h.len

section
variable {t : Target} {h h' : Heapblk}

theorem SameArea.refl (h : Heapblk) : SameArea h h := ⟨rfl, rfl⟩

theorem SameArea.trans {h₁ h₂ h₃ : Heapblk} (h12 : SameArea h₁ h₂) (h23 : SameArea h₂ h₃) :
    SameArea h₁ h₃ := ⟨h12.1.trans h23.1, h12.2.trans h23.2⟩

/-! ## what the operations of a mini-heap leave alone -/

theorem takeBlk_area (pcur size largest : ℕ) : SameArea (takeBlk t h pcur size largest) h := by
  rw [takeBlk]
  dsimp only
  by_cases hc : t.frlSize ≤ (h.mem pcur).len - size
  · rw [if_pos hc]
    exact ⟨rfl, rfl⟩
  · rw [if_neg hc]
    exact ⟨rfl, rfl⟩

theorem search_failed_lt {size f p l m : ℕ} (hs : search t h size f p l = some (.failed m))
    (hl : l < size) : m < size := by
  induction f generalizing p l with
  | zero => cases hs
  | succ f ih =>
    rw [search] at hs
    dsimp only at hs
    by_cases hc : size ≤ (h.mem p).len
    · rw [if_pos hc] at hs
      cases hs
    · rw [if_neg hc] at hs
      have hl' : (if l < (h.mem p).len then (h.mem p).len else l) < size := by
        split <;> omega
      by_cases he : (h.mem p).next = h.freehead t
      · rw [if_pos he] at hs
        cases hs
        exact hl'
      · rw [if_neg he] at hs
        exact ih hs hl'

/-- a search that fails only lowers the largest block -/
theorem memAllocator_area {req p : ℕ} (ha : memAllocator t h req = some (p, h')) :
    SameArea h' h ∧ (p = 0 → h'.largestBlk ≤ h.largestBlk) := by
  have htag : 0 < t.tagSize := by cases t <;> decide
  have hsize : 0 < blkSize t req := by
    have := (blkSize_spec t req).1
    have := freelistSize_pos t
    omega
  rw [memAllocator] at ha
  dsimp only at ha
  by_cases hc : req ≠ 0 ∧ t.roundUpSizeHeap req ≥ req ∧ blkSize t req ≤ h.largestBlk
  · rw [if_pos hc] at ha
    split at ha
    · cases ha
    · rename_i m hm
      cases ha
      refine ⟨⟨rfl, rfl⟩, fun _ => ?_⟩
      have hlt : m < blkSize t req := by
        by_cases hb : blkSize t req ≤ h.b4rover
        · rw [if_pos hb] at hm
          exact search_failed_lt hm hsize
        · rw [if_neg hb] at hm
          exact search_failed_lt hm (by omega)
      show m ≤ h.largestBlk
      omega
    · cases ha
      refine ⟨takeBlk_area _ _ _, fun h0 => ?_⟩
      rw [blk2Cstg] at h0
      omega
  · rw [if_neg hc] at ha
    cases ha
    exact ⟨.refl h, fun _ => le_refl _⟩

theorem joinNext_area (pfree len pnext : ℕ) : SameArea (joinNext h pfree len pnext).1 h := by
  rw [joinNext]
  dsimp only
  by_cases hc : pnext = (h.setLen pfree (len + (h.mem pnext).len)).rover
  · rw [if_pos hc]
    exact ⟨rfl, rfl⟩
  · rw [if_neg hc]
    exact ⟨rfl, rfl⟩

theorem findSpot_area {pfree pnext : ℕ} (hs : findSpot t h pfree = some (h', pnext)) :
    SameArea h' h := by
  rw [findSpot] at hs
  dsimp only at hs
  by_cases hc : h.isBlkInuse (pfree + h.getBlkSize pfree) = false
  · rw [if_pos hc] at hs
    have e := congrArg Prod.fst (Option.some.inj hs)
    rw [← show _ = h' from e]
    exact joinNext_area _ _ _
  · rw [if_neg hc] at hs
    split at hs
    · cases hs
      exact ⟨rfl, rfl⟩
    · split at hs
      · cases hs
      · cases hs
        exact ⟨rfl, rfl⟩
      · obtain ⟨x, -, e⟩ := Option.map_eq_some_iff.mp hs
        cases e
        exact ⟨rfl, rfl⟩

theorem joinPrev_area (pfree pprev pnext : ℕ) : SameArea (joinPrev h pfree pprev pnext).1 h := by
  rw [joinPrev]
  dsimp only
  by_cases hc : h.nextBlk pprev = pfree
  · rw [if_pos hc]
    dsimp only
    by_cases hr : (h.setLen pprev ((h.mem pfree).len + (h.mem pprev).len)).rover = pfree
    · rw [if_pos hr]
      exact ⟨rfl, rfl⟩
    · rw [if_neg hr]
      exact ⟨rfl, rfl⟩
  · rw [if_neg hc]
    exact ⟨rfl, rfl⟩

theorem memFree_area {cstg : ℕ} (hf : memFree t h cstg = some h') : SameArea h' h := by
  rw [memFree] at hf
  by_cases hc : cstg ≠ 0 ∧ h.isBlkInuse (cstg2Blk t cstg)
  · rw [if_pos hc] at hf
    obtain ⟨⟨x, pnext⟩, hx, e⟩ := Option.map_eq_some_iff.mp hf
    obtain ⟨-, e1, e2, -⟩ := linkFree_eq x (cstg2Blk t cstg) pnext rfl
    have hj := joinPrev_area (h := x) (cstg2Blk t cstg) (x.mem pnext).prev pnext
    rw [← e]
    exact (SameArea.trans ⟨e1, e2⟩ hj).trans (findSpot_area hx)
  · rw [if_neg hc] at hf
    cases hf
    exact .refl _

end

/-! ## the invariant -/

/-- where a mini-heap begins and where its end tag is -/
def MiniHeap.span (x : MiniHeap) : ℕ × ℕ := (x.addr, x.blk.last)

/-- each mini-heap lies behind the one before it -/
def Ascends (t : Target) (list : List MiniHeap) : Prop :=
  (list.map MiniHeap.span).Pairwise fun a b => a.2 + t.tagSize ≤ b.1

structure Sound (t : Target) (s : Heaps) : Prop where
  order : Ascends t s.list
  wf : ∀ x ∈ s.list, ∃ bs, WellFormed t x.blk bs
  /-- the cached bound -/
  bound : ∀ r, s.miniHeapRover = some r → ∀ x ∈ s.list, x.addr < r →
    x.blk.largestBlk ≤ s.largestSizeB4
  rover : ∀ r, s.miniHeapRover = some r → ∃ x ∈ s.list, x.addr = r
  freeRover : ∀ r, s.miniHeapFreeRover = some r → ∃ x ∈ s.list, x.addr = r

section
variable {t : Target} {list list' : List MiniHeap} {x y : MiniHeap}

theorem span_of_area {h : Heapblk} (ha : SameArea h x.blk) :
    ({ x with blk := h } : MiniHeap).span = x.span := by
  rw [MiniHeap.span, MiniHeap.span, MiniHeap.addr, MiniHeap.addr, Heapblk.last, Heapblk.last, ha.1, ha.2]

theorem exists_of_span (h : list'.map MiniHeap.span = list.map MiniHeap.span) (hx : x ∈ list) :
    ∃ y ∈ list', y.span = x.span := by
  have hm : x.span ∈ list'.map MiniHeap.span := by
    rw [h]
    exact List.mem_map_of_mem hx
  obtain ⟨y, hy, e⟩ := List.mem_map.mp hm
  exact ⟨y, hy, e⟩

theorem addr_le_last (x : MiniHeap) : x.addr ≤ x.blk.last := Nat.le_add_right _ _

theorem Ascends.lt (h : Ascends t (x :: list)) (hy : y ∈ list) :
    x.blk.last + t.tagSize ≤ y.addr ∧ x.addr < y.addr := by
  have htag : 0 < t.tagSize := by cases t <;> decide
  have h1 : x.blk.last + t.tagSize ≤ y.addr :=
    (List.pairwise_cons.mp h).1 y.span (List.mem_map_of_mem hy)
  have := addr_le_last x
  omega

theorem Ascends.tail (h : Ascends t (x :: list)) : Ascends t list := (List.pairwise_cons.mp h).2

/-- an address belongs to one mini-heap -/
theorem Ascends.eq_of_addr (h : Ascends t list) (hx : x ∈ list) (hy : y ∈ list)
    (e : x.addr = y.addr) : x = y := by
  induction list with
  | nil => exact absurd hx List.not_mem_nil
  | cons z list ih =>
    rcases List.mem_cons.mp hx with rfl | hx
    · rcases List.mem_cons.mp hy with rfl | hy
      · rfl
      · have := (h.lt hy).2
        omega
    · rcases List.mem_cons.mp hy with hyz | hy
      · rw [hyz] at e
        have := (h.lt hx).2
        omega
      · exact ih h.tail hx hy

/-- storage belongs to one mini-heap -/
theorem Ascends.eq_of_isInHeap (h : Ascends t list) (hx : x ∈ list) (hy : y ∈ list) {m : ℕ}
    (h1 : x.isInHeap m) (h2 : y.isInHeap m) : x = y := by
  rw [MiniHeap.isInHeap, decide_eq_true_eq] at h1 h2
  induction list with
  | nil => exact absurd hx List.not_mem_nil
  | cons z list ih =>
    rcases List.mem_cons.mp hx with rfl | hx
    · rcases List.mem_cons.mp hy with rfl | hy
      · rfl
      · have := (h.lt hy).1
        rw [Heapblk.last, MiniHeap.addr] at this
        omega
    · rcases List.mem_cons.mp hy with hyz | hy
      · rw [hyz] at h2
        have := (h.lt hx).1
        rw [Heapblk.last, MiniHeap.addr] at this
        omega
      · exact ih h.tail hx hy

/-! ## a pass of `_nmalloc` -/

variable (t) in
/-- no block of the kind is free that has the rounded size -/
def NoRoom (objAny : Bool) (amt : ℕ) (x : MiniHeap) : Prop :=
  x.isKind t objAny → ∃ bs, WellFormed t x.blk bs ∧
    ∀ b ∈ bs, b.used = false → b.size < blkSize t amt

/-- what the search of the mini-heaps `from` comes to -/
structure Searched (t : Target) (objAny : Bool) (amt : ℕ) (rover : Option ℕ) (largestB4 : ℕ)
    (list : List MiniHeap) (p : Pass) : Prop where
  spans : p.list.map MiniHeap.span = list.map MiniHeap.span
  wf : ∀ x ∈ p.list, ∃ bs, WellFormed t x.blk bs
  grows : largestB4 ≤ p.largestB4
  rover : list = [] ∧ p.rover = rover ∨ ∃ x ∈ p.list, p.rover = some x.addr
  bound : ∀ r, p.rover = some r → ∀ x ∈ p.list, x.addr < r → x.blk.largestBlk ≤ p.largestB4
  failed : p.cstg = 0 → ∀ x ∈ p.list, NoRoom t objAny amt x

/-- a mini-heap that is searched in vain -/
theorem Searched.cons {objAny : Bool} {amt largestB4 : ℕ} {rover : Option ℕ} {p : Pass}
    {heap' : MiniHeap} (h : Searched t objAny amt (some x.addr) (max largestB4 x.blk.largestBlk) list p)
    (hspan : heap'.span = x.span) (hwf : ∃ bs, WellFormed t heap'.blk bs)
    (hle : heap'.blk.largestBlk ≤ x.blk.largestBlk) (hno : NoRoom t objAny amt heap') :
    Searched t objAny amt rover largestB4 (x :: list) { p with list := heap' :: p.list } := by
  have hg := h.grows
  have haddr : heap'.addr = x.addr := congrArg Prod.fst hspan
  refine ⟨?_, ?_, le_trans (le_max_left _ _) hg, Or.inr ?_, fun r hr y hy hlt => ?_,
    fun hc y hy => ?_⟩
  · rw [List.map_cons, List.map_cons, hspan, h.spans]
  · exact List.forall_mem_cons.mpr ⟨hwf, h.wf⟩
  · rcases h.rover with ⟨-, e⟩ | ⟨y, hy, e⟩
    · exact ⟨heap', List.mem_cons_self, by rw [haddr]; exact e⟩
    · exact ⟨y, List.mem_cons_of_mem _ hy, e⟩
  · rcases List.mem_cons.mp hy with rfl | hy
    · show y.blk.largestBlk ≤ p.largestB4
      omega
    · exact h.bound r hr y hy hlt
  · rcases List.mem_cons.mp hy with rfl | hy
    · exact hno
    · exact h.failed hc y hy

variable (objAny : Bool) {amt : ℕ} (h0 : amt ≠ 0) (hamt : amt ≤ t.word - t.heapblkSize)

include hamt in
theorem representable_of_le : Representable t amt ∧ amt ≤ blkSize t amt ∧ amt < t.word := by
  have hr : Representable t amt ∧ amt < t.word := by
    rw [Representable]
    cases t <;> simp [Target.word, Target.heapblkSize, Target.tagSize, Target.freelistSize,
      Target.objAnySize, Target.heapRoundSize] at hamt ⊢ <;> omega
  have h1 := roundUpSizeHeap_ge hr.1
  have h2 := (blkSize_spec t amt).2.2
  exact ⟨hr.1, by omega, hr.2⟩

include h0 hamt

theorem searchHeaps_spec (rover : Option ℕ) (largestB4 : ℕ) (ho : Ascends t list)
    (hw : ∀ x ∈ list, ∃ bs, WellFormed t x.blk bs) :
    ∃ p, searchHeaps t objAny amt rover largestB4 list = some p ∧
      Searched t objAny amt rover largestB4 list p := by
  obtain ⟨hrep, hle, hlt⟩ := representable_of_le hamt
  induction list generalizing rover largestB4 with
  | nil =>
    refine ⟨⟨0, rover, largestB4, []⟩, rfl, rfl, by simp, le_refl _, Or.inl ⟨rfl, rfl⟩, by simp, by simp⟩
  | cons heap rest ih =>
    obtain ⟨bs, hwf⟩ := hw heap List.mem_cons_self
    have hrest : ∀ x ∈ rest, ∃ bs, WellFormed t x.blk bs := fun x hx =>
      hw x (List.mem_cons_of_mem _ hx)
    obtain ⟨p, hp, hs⟩ := ih (some heap.addr) (max largestB4 heap.blk.largestBlk) ho.tail hrest
    rw [searchHeaps]
    dsimp only
    rw [hp]
    by_cases hc : heap.isKind t objAny ∧ heap.blk.largestBlk ≥ amt
    · rw [if_pos hc]
      obtain ⟨cstg, h, bs', hal, hwf', ha⟩ := memAllocator_spec hwf hlt
      obtain ⟨harea, hlarge⟩ := memAllocator_area hal
      rw [hal]
      dsimp only
      have hspan : ({ heap with blk := h } : MiniHeap).span = heap.span := span_of_area harea
      by_cases hz : cstg ≠ 0
      · -- storage is found, and this mini-heap is the rover
        rw [if_pos hz]
        refine ⟨_, rfl, ?_, ?_, le_refl _, Or.inr ⟨_, List.mem_cons_self, ?_⟩, fun r hr y hy hlt' => ?_,
          fun hcz => absurd hcz hz⟩
        · rw [List.map_cons, List.map_cons, hspan]
        · exact List.forall_mem_cons.mpr ⟨⟨bs', hwf'⟩, hrest⟩
        · exact congrArg some harea.1.symm
        · have hr' : heap.addr = r := Option.some.inj hr
          rcases List.mem_cons.mp hy with rfl | hy
          · have ha' : h.addr < r := hlt'
            have hr'' : heap.blk.addr = r := hr'
            have := harea.1
            omega
          · have := (ho.lt hy).2
            omega
      · rw [if_neg hz]
        have hz' : cstg = 0 := not_not.mp hz
        refine ⟨_, rfl, hs.cons hspan ⟨bs', hwf'⟩ (hlarge hz') fun _ => ?_⟩
        cases ha with
        | null _ hbs hnone => exact ⟨bs', hwf', by rw [hbs]; exact hnone h0 hrep⟩
        | block c k hcp _ _ =>
          have htag : 0 < t.tagSize := by cases t <;> decide
          rw [hz', blk2Cstg] at hcp
          omega
    · rw [if_neg hc]
      refine ⟨_, rfl, hs.cons rfl ⟨bs, hwf⟩ (le_refl _) fun hk => ⟨bs, hwf, fun b hb hu => ?_⟩⟩
      have h1 := hwf.largest b hb hu
      have h2 : ¬ heap.blk.largestBlk ≥ amt := fun h => hc ⟨hk, h⟩
      omega

/-- a pass leaves storage behind, or no mini-heap of the kind has room -/
theorem mallocPass_spec {s : Heaps} (hs : Sound t s) :
    ∃ c s', mallocPass t objAny amt s = some (c, s') ∧ Sound t s' ∧
      (c = 0 → ∀ x ∈ s'.list, NoRoom t objAny amt x) := by
  -- the search of a part of the list, with the mini-heaps before it bounded
  have key : ∀ (l from' : List MiniHeap) (b4 : ℕ), s.list = l ++ from' →
      (∀ y ∈ l, y.blk.largestBlk ≤ b4) → (l ≠ [] → b4 < blkSize t amt ∧ from' ≠ []) →
      ∃ p, searchHeaps t objAny amt s.miniHeapRover b4 from' = some p ∧
        Sound t { s with list := l ++ p.list, miniHeapRover := p.rover, largestSizeB4 := p.largestB4 } ∧
        (p.cstg = 0 → ∀ x ∈ l ++ p.list, NoRoom t objAny amt x) := by
    intro l from' b4 e hl hne
    have ho := hs.order
    rw [e, Ascends, List.map_append] at ho
    have hw := hs.wf
    rw [e] at hw
    obtain ⟨p, hp, hsp⟩ := searchHeaps_spec objAny h0 hamt s.miniHeapRover b4
      (List.pairwise_append.mp ho).2.1 fun x hx => hw x (List.mem_append_right _ hx)
    have hspans : (l ++ p.list).map MiniHeap.span = s.list.map MiniHeap.span := by
      rw [e, List.map_append, List.map_append, hsp.spans]
    refine ⟨p, hp, ⟨?_, ?_, fun r hr x hx hlt => ?_, fun r hr => ?_, fun r hr => ?_⟩, fun hc x hx => ?_⟩
    · rw [Ascends, hspans]
      exact hs.order
    · intro x hx
      rcases List.mem_append.mp hx with hx | hx
      · exact hw x (List.mem_append_left _ hx)
      · exact hsp.wf x hx
    · rcases List.mem_append.mp hx with hx | hx
      · exact (hl x hx).trans hsp.grows
      · exact hsp.bound r hr x hx hlt
    · rcases hsp.rover with ⟨he, e'⟩ | ⟨x, hx, e'⟩
      · -- nothing was searched, and nothing is listed
        obtain ⟨x, hx, -⟩ := hs.rover r (e'.symm.trans hr)
        rw [e, he, List.append_nil] at hx
        exact absurd he (hne (List.ne_nil_of_mem hx)).2
      · exact ⟨x, List.mem_append_right _ hx, Option.some.inj (e'.symm.trans hr)⟩
    · obtain ⟨x, hx, rfl⟩ := hs.freeRover r hr
      obtain ⟨y, hy, he⟩ := exists_of_span hspans hx
      exact ⟨y, hy, congrArg Prod.fst he⟩
    · rcases List.mem_append.mp hx with hx | hx
      · obtain ⟨bs, hwf⟩ := hw x (List.mem_append_left _ hx)
        refine fun _ => ⟨bs, hwf, fun b hb hu => ?_⟩
        have h1 := hwf.largest b hb hu
        have h2 := hl x hx
        have h3 := (hne (List.ne_nil_of_mem hx)).1
        omega
      · exact hsp.failed hc x hx
  rw [mallocPass]
  have whole := key [] s.list 0 rfl (by simp) fun h => absurd rfl h
  by_cases hc : blkSize t amt > s.largestSizeB4
  · rw [if_pos hc]
    cases hr : s.miniHeapRover with
    | none =>
      rw [hr] at whole
      obtain ⟨p, hp, h1, h2⟩ := whole
      dsimp only
      rw [hp]
      exact ⟨_, _, rfl, h1, h2⟩
    | some r =>
      obtain ⟨x, hx, hxr⟩ := hs.rover r hr
      obtain ⟨l, rest, e⟩ := List.append_of_mem hx
      have ho := hs.order
      rw [e, Ascends, List.map_append] at ho
      have hlt : ∀ y ∈ l, y.addr < r := by
        intro y hy
        have h1 : y.blk.last + t.tagSize ≤ x.addr := (List.pairwise_append.mp ho).2.2 y.span
          (List.mem_map_of_mem hy) x.span (by rw [List.map_cons]; exact List.mem_cons_self)
        have h2 := addr_le_last y
        have htag : 0 < t.tagSize := by cases t <;> decide
        omega
      have hpos : ∀ y ∈ l, decide (y.addr ≠ r) = true := fun y hy =>
        decide_eq_true (Nat.ne_of_lt (hlt y hy))
      have hneg : ¬ (fun y : MiniHeap => decide (y.addr ≠ r)) x = true := by
        rw [decide_eq_true_eq]
        exact fun h => h hxr
      have htake : s.list.takeWhile (fun y => decide (y.addr ≠ r)) = l := by
        rw [e, List.takeWhile_append_of_pos hpos]
        exact (congrArg (l ++ ·) (List.takeWhile_cons_of_neg hneg)).trans (List.append_nil l)
      have hdrop : s.list.dropWhile (fun y => decide (y.addr ≠ r)) = x :: rest := by
        rw [e, List.dropWhile_append_of_pos hpos]
        exact List.dropWhile_cons_of_neg hneg
      obtain ⟨p, hp, h1, h2⟩ := key l (x :: rest) s.largestSizeB4 e
        (fun y hy => hs.bound r hr y (by rw [e]; exact List.mem_append_left _ hy) (hlt y hy))
        fun _ => ⟨hc, List.cons_ne_nil _ _⟩
      rw [hr] at hp
      dsimp only
      rw [htake, hdrop, hp]
      exact ⟨_, _, rfl, h1, h2⟩
  · rw [if_neg hc]
    obtain ⟨p, hp, h1, h2⟩ := whole
    rw [hp]
    exact ⟨_, _, rfl, h1, h2⟩

end

/-! ## `_nfree` -/

section
variable {t : Target} {list : List MiniHeap} {x y : MiniHeap} {a : ℕ}

theorem prevHeap_spec (ho : Ascends t list) (h : prevHeap a list = some x) : x ∈ list ∧ x.addr < a := by
  fun_induction prevHeap a list with
  | case1 y z rest hz =>
    rw [← Option.some.inj h]
    exact ⟨List.mem_cons_self, hz ▸ (ho.lt List.mem_cons_self).2⟩
  | case2 y z rest hz ih =>
    obtain ⟨h1, h2⟩ := ih ho.tail h
    exact ⟨List.mem_cons_of_mem _ h1, h2⟩
  | case3 => cases h

theorem nextHeap_mem (h : nextHeap a list = some x) : x ∈ list := by
  fun_induction nextHeap a list with
  | case1 y rest hy => exact List.mem_cons_of_mem _ (List.mem_of_mem_head? h)
  | case2 y rest hy ih => exact List.mem_cons_of_mem _ (ih h)
  | case3 => cases h

theorem nearRover_some (ho : Ascends t list) {rover : Option ℕ} {m : ℕ}
    (h : nearRover list rover m = some x) : x ∈ list ∧ x.isInHeap m := by
  rw [nearRover] at h
  split at h
  · cases h
  · rename_i heap hh
    obtain ⟨r, -, hf⟩ := Option.bind_eq_some_iff.mp hh
    by_cases hc : heap.isInHeap m
    · rw [if_pos hc] at h
      rw [← Option.some.inj h]
      exact ⟨List.mem_of_find?_eq_some hf, hc⟩
    · rw [if_neg hc] at h
      rcases Option.or_eq_some_iff.mp h with h | ⟨-, h⟩
      · obtain ⟨h1, h2⟩ := Option.filter_eq_some_iff.mp h
        exact ⟨(prevHeap_spec ho h1).1, h2⟩
      · obtain ⟨h1, h2⟩ := Option.filter_eq_some_iff.mp h
        exact ⟨nextHeap_mem h1, h2⟩

/-- wherever the rovers are, the mini-heap that has the storage is found -/
theorem findHeap_eq {s : Heaps} (ho : Ascends t s.list) {m : ℕ} (hx : x ∈ s.list)
    (hm : x.isInHeap m) : findHeap s m = some x := by
  have hsome : ∀ y, findHeap s m = some y → y ∈ s.list ∧ y.isInHeap m := by
    intro y hy
    rw [findHeap] at hy
    rcases Option.or_eq_some_iff.mp hy with h | ⟨-, h⟩
    · exact nearRover_some ho h
    · rcases Option.or_eq_some_iff.mp h with h | ⟨-, h⟩
      · exact nearRover_some ho h
      · have hm' := List.find?_some (p := fun x : MiniHeap => x.isInHeap m) h
        exact ⟨List.mem_of_find?_eq_some h, hm'⟩
  cases hf : findHeap s m with
  | some y =>
    obtain ⟨h1, h2⟩ := hsome y hf
    rw [ho.eq_of_isInHeap h1 hx h2 hm]
  | none =>
    rw [findHeap, Option.or_eq_none_iff, Option.or_eq_none_iff] at hf
    exact absurd hm (List.find?_eq_none.mp hf.2.2 x hx)

theorem mem_putHeap (ho : Ascends t list) (hx : x ∈ list) {h : Heapblk} (ha : h.addr = x.addr)
    (hy : y ∈ putHeap h list) : y = { x with blk := h } ∨ y ∈ list ∧ y.addr ≠ x.addr := by
  obtain ⟨z, hz, rfl⟩ := List.mem_map.mp hy
  by_cases hc : z.addr = h.addr
  · rw [if_pos hc, ho.eq_of_addr hz hx (hc.trans ha)]
    exact Or.inl rfl
  · rw [if_neg hc]
    exact Or.inr ⟨hz, ha ▸ hc⟩

theorem span_putHeap (ho : Ascends t list) (hx : x ∈ list) {h : Heapblk} (ha : SameArea h x.blk) :
    (putHeap h list).map MiniHeap.span = list.map MiniHeap.span := by
  rw [putHeap, List.map_map]
  refine List.map_congr_left fun z hz => ?_
  rw [Function.comp_apply]
  by_cases hc : z.addr = h.addr
  · rw [if_pos hc, ho.eq_of_addr hz hx (hc.trans ha.1)]
    exact span_of_area ha
  · rw [if_neg hc]

/-- storage of a mini-heap is given back -/
theorem Sound.nfree {s : Heaps} (hs : Sound t s) (hx : x ∈ s.list) {l r : List Block} {p n : ℕ}
    (hwf : WellFormed t x.blk (l ++ ⟨p, n, true⟩ :: r)) :
    ∃ s', Clib.nfree t s (blk2Cstg t p) = some s' ∧ Sound t s' := by
  have hb := hwf.block (b := ⟨p, n, true⟩) (by simp)
  have htag : 0 < t.tagSize ∧ t.tagSize < t.freelistSize := by cases t <;> decide
  dsimp only at hb
  have hin : x.isInHeap (blk2Cstg t p) := by
    rw [MiniHeap.isInHeap, decide_eq_true_eq, blk2Cstg]
    rw [Heapblk.firstFrl, Heapblk.last] at hb
    omega
  obtain ⟨h, bs, hfree, hwf', -⟩ := memFree_spec hwf
  have harea := memFree_area hfree
  have hspans := span_putHeap hs.order hx harea
  have e : Clib.nfree t s (blk2Cstg t p) = some
      { list := putHeap h s.list
        miniHeapRover := s.miniHeapRover
        largestSizeB4 :=
          if (∃ r ∈ s.miniHeapRover, x.addr < r) ∧ s.largestSizeB4 < h.largestBlk then h.largestBlk
          else s.largestSizeB4
        miniHeapFreeRover := some x.addr } := by
    rw [Clib.nfree, if_neg (by rw [blk2Cstg]; omega), findHeap_eq hs.order hx hin]
    dsimp only
    rw [hfree]
    rfl
  refine ⟨_, e, ?_⟩
  refine ⟨?_, fun y hy => ?_, fun r' hr y hy hlt => ?_, fun r' hr => ?_, fun r' hr => ?_⟩
  · rw [Ascends, hspans]
    exact hs.order
  · rcases mem_putHeap hs.order hx harea.1 hy with rfl | ⟨hy, -⟩
    · exact ⟨bs, hwf'⟩
    · exact hs.wf y hy
  · rcases mem_putHeap hs.order hx harea.1 hy with rfl | ⟨hy, -⟩
    · -- the freed block may be the largest one before the rover
      have hlt' : x.addr < r' := by
        have h1 : h.addr < r' := hlt
        have h2 : h.addr = x.addr := harea.1
        omega
      by_cases hc : s.largestSizeB4 < h.largestBlk
      · show _ ≤ if _ then _ else _
        rw [if_pos ⟨⟨r', hr, hlt'⟩, hc⟩]
      · show _ ≤ if _ then _ else _
        rw [if_neg fun hx => hc hx.2]
        exact Nat.le_of_not_lt hc
    · have h1 := hs.bound r' hr y hy hlt
      show _ ≤ if _ then _ else _
      split <;> omega
  · obtain ⟨z, hz, rfl⟩ := hs.rover r' hr
    obtain ⟨y, hy, e⟩ := exists_of_span hspans hz
    exact ⟨y, hy, congrArg Prod.fst e⟩
  · obtain ⟨y, hy, e⟩ := exists_of_span hspans hx
    exact ⟨y, hy, (congrArg Prod.fst e).trans (Option.some.inj hr)⟩

/-! ## shrinking and growing -/

/-- a mini-heap is taken out of the list -/
theorem Sound.unlink {s : Heaps} (hs : Sound t s) (a : ℕ) : Sound t (unlinkNHeap a s) := by
  have hsub : (s.list.filter fun x => x.addr ≠ a).Sublist s.list := List.filter_sublist
  have ho : Ascends t (s.list.filter fun x => x.addr ≠ a) := hs.order.sublist (hsub.map _)
  have hkeep : ∀ r, r ≠ a → (∃ x ∈ s.list, x.addr = r) →
      ∃ x ∈ s.list.filter fun x => x.addr ≠ a, x.addr = r := by
    intro r hr hx
    obtain ⟨x, hx, rfl⟩ := hx
    exact ⟨x, List.mem_filter.mpr ⟨hx, decide_eq_true hr⟩, rfl⟩
  have hfree : ∀ r, (unlinkNHeap a s).miniHeapFreeRover = some r →
      ∃ x ∈ s.list.filter fun x => x.addr ≠ a, x.addr = r := by
    intro r hr
    change (if s.miniHeapFreeRover = some a then none else s.miniHeapFreeRover) = some r at hr
    by_cases hc : s.miniHeapFreeRover = some a
    · rw [if_pos hc] at hr
      cases hr
    · rw [if_neg hc] at hr
      exact hkeep r (fun e => hc (e ▸ hr)) (hs.freeRover r hr)
  by_cases hc : s.miniHeapRover = some a
  · cases hp : prevHeap a s.list with
    | some prev =>
      -- the rover goes back to the mini-heap before it
      obtain ⟨hpm, hpa⟩ := prevHeap_spec hs.order hp
      have e1 : (unlinkNHeap a s).miniHeapRover = some prev.addr := by
        rw [unlinkNHeap, hp, if_pos hc]
      have e2 : (unlinkNHeap a s).largestSizeB4 = s.largestSizeB4 := by
        rw [unlinkNHeap, hp, if_pos hc]
      refine ⟨ho, fun x hx => hs.wf x (hsub.subset hx), fun r hr x hx hlt => ?_, fun r hr => ?_, hfree⟩
      · rw [e1] at hr
        rw [e2]
        have := Option.some.inj hr
        exact hs.bound a hc x (hsub.subset hx) (by omega)
      · rw [e1] at hr
        exact hkeep r (by have := Option.some.inj hr; omega) ⟨prev, hpm, Option.some.inj hr⟩
    | none =>
      -- the first mini-heap goes, and nothing lies before the new first one
      have e1 : (unlinkNHeap a s).miniHeapRover
          = (s.list.filter fun x => x.addr ≠ a).head?.map MiniHeap.addr := by
        rw [unlinkNHeap, hp, if_pos hc]
      have hlist : (unlinkNHeap a s).list = s.list.filter fun x => x.addr ≠ a := rfl
      refine ⟨ho, fun x hx => hs.wf x (hsub.subset hx), fun r hr x hx hlt => ?_, fun r hr => ?_, hfree⟩
      · rw [e1] at hr
        rw [hlist] at hx
        obtain ⟨y, hy, hyr⟩ := Option.map_eq_some_iff.mp hr
        obtain ⟨l, e⟩ := List.head?_eq_some_iff.mp hy
        rw [e] at hx ho
        rcases List.mem_cons.mp hx with rfl | hx
        · omega
        · have := (ho.lt hx).2
          omega
      · rw [e1] at hr
        obtain ⟨y, hy, hyr⟩ := Option.map_eq_some_iff.mp hr
        exact ⟨y, List.mem_of_mem_head? hy, hyr⟩
  · have e1 : (unlinkNHeap a s).miniHeapRover = s.miniHeapRover := by
      rw [unlinkNHeap, if_neg hc]
    have e2 : (unlinkNHeap a s).largestSizeB4 = s.largestSizeB4 := by
      rw [unlinkNHeap, if_neg hc]
    refine ⟨ho, fun x hx => hs.wf x (hsub.subset hx), fun r hr x hx hlt => ?_, fun r hr => ?_, hfree⟩
    · rw [e1] at hr
      rw [e2]
      exact hs.bound r hr x (hsub.subset hx) hlt
    · rw [e1] at hr
      exact hkeep r (fun e => hc (e ▸ hr)) (hs.rover r hr)

theorem Sound.shrink {s : Heaps} (hs : Sound t s) (returned : ℕ → Bool) :
    Sound t (nheapshrink t returned s) := by
  have key : ∀ (todo : List MiniHeap) (s : Heaps), Sound t s → Sound t (todo.foldl (fun s heap =>
      if isUnused t heap.blk ∧ returned heap.addr then unlinkNHeap heap.addr s else s) s) := by
    intro todo
    induction todo with
    | nil => exact fun s hs => hs
    | cons heap todo ih =>
      intro s hs
      rw [List.foldl_cons]
      refine ih _ ?_
      split
      · exact hs.unlink heap.addr
      · exact hs
  exact key s.list s hs

theorem linkHeap_spec {new : MiniHeap} (ho : Ascends t list)
    (hd : ∀ z ∈ list, new.blk.last + t.tagSize ≤ z.addr ∨ z.blk.last + t.tagSize ≤ new.addr) :
    Ascends t (linkHeap new list) ∧ ∀ z, z ∈ linkHeap new list ↔ z = new ∨ z ∈ list := by
  have htag : 0 < t.tagSize := by cases t <;> decide
  have hnew := addr_le_last new
  induction list with
  | nil => exact ⟨List.pairwise_singleton _ _, fun z => List.mem_cons⟩
  | cons heap2 rest ih =>
    rw [linkHeap]
    by_cases hc : new.addr < heap2.addr
    · rw [if_pos hc]
      refine ⟨List.pairwise_cons.mpr ⟨fun p hp => ?_, ho⟩, fun z => List.mem_cons⟩
      obtain ⟨z, hz, rfl⟩ := List.mem_map.mp hp
      have hlt : new.addr < z.addr := by
        rcases List.mem_cons.mp hz with rfl | hz
        · exact hc
        · exact hc.trans (ho.lt hz).2
      have h1 := addr_le_last z
      exact (hd z hz).resolve_right (by omega)
    · rw [if_neg hc]
      obtain ⟨h1, h2⟩ := ih ho.tail fun z hz => hd z (List.mem_cons_of_mem _ hz)
      refine ⟨List.pairwise_cons.mpr ⟨fun p hp => ?_, h1⟩, fun z => ?_⟩
      · obtain ⟨z, hz, rfl⟩ := List.mem_map.mp hp
        rcases (h2 z).mp hz with rfl | hz
        · exact (hd heap2 List.mem_cons_self).resolve_left (by omega)
        · exact (ho.lt hz).1
      · rw [List.mem_cons, h2, List.mem_cons, or_left_comm]

/-- what `__AdjustAmount` makes room for -/
theorem adjustAmount_spec {amblksiz amount amt : ℕ} (h : adjustAmount t amblksiz amount = some amt) :
    t.tagSize + t.freelistSize + t.heapblkSize ≤ amt ∧ amt % 2 = 0 := by
  have heven := roundUpSizeHeap_even (t := t) amount
  have hc : (t.tagSize + t.freelistSize + t.heapblkSize) % 2 = 0 ∧
      t.tagSize + t.freelistSize + t.heapblkSize < t.word ∧ t.word % 2 = 0 := by
    cases t <;> decide
  have hlt : t.roundUpSizeHeap amount < t.word := by
    rw [Target.roundUpSizeHeap, Target.roundUpSize]
    exact (Nat.sub_le _ _).trans_lt (Nat.mod_lt _ (by cases t <;> decide))
  have hround : ∀ s, s % 2 = 0 → t.roundUpSize s (sysRound t) % 2 = 0 := by
    intro s hs
    rw [Target.roundUpSize]
    cases t with
    | i86 =>
      show (_ % 2 ^ 16 - _ % 1) % 2 = 0
      rw [Nat.mod_one, show sysRound .i86 - 1 = 0 from rfl]
      omega
    | ix86 =>
      show (_ - _ % 2 ^ 12) % 2 = 0
      omega
    | os2 =>
      show (_ - _ % 2 ^ 16) % 2 = 0
      omega
  rw [adjustAmount] at h
  dsimp only at h
  generalize t.tagSize + t.freelistSize + t.heapblkSize = c at h hc ⊢
  generalize t.roundUpSizeHeap amount = u at h hlt heven
  by_cases h1 : u < amount
  · rw [if_pos h1] at h
    cases h
  rw [if_neg h1] at h
  by_cases h2 : (u + c) % t.word < u
  · rw [if_pos h2] at h
    cases h
  rw [if_neg h2] at h
  -- the sum does not overflow
  have hsum : (u + c) % t.word = u + c := by
    by_contra hx
    have hge : t.word ≤ u + c := by
      by_contra hlt'
      exact hx (Nat.mod_eq_of_lt (by omega))
    rw [Nat.mod_eq_sub_mod hge, Nat.mod_eq_of_lt (by omega)] at h2
    omega
  rw [hsum] at h
  generalize hv : (if u + c < amblksiz then amblksiz - amblksiz % 2 else u + c) = v at h
  have hv' : u + c ≤ v ∧ v % 2 = 0 := by
    rw [← hv]
    split <;> omega
  have hr := hround v hv'.2
  by_cases h3 : t.roundUpSize v (sysRound t) < v
  · rw [if_pos h3] at h
    cases h
  rw [if_neg h3] at h
  by_cases h4 : t.roundUpSize v (sysRound t) = 0
  · rw [if_pos h4] at h
    cases h
  rw [if_neg h4] at h
  rw [← Option.some.inj h]
  omega

variable (t) in
/-- the system gives memory that is no mini-heap's -/
def Fresh (ans : Answer) (amount : ℕ) (s : Heaps) : Prop :=
  ∀ addr, ans.mem = some addr → addr + amount ≤ t.word ∧ ∀ x ∈ (nheapshrink t ans.returned s).list,
    addr + amount ≤ x.addr ∨ x.blk.last + t.tagSize ≤ addr

theorem Sound.create {s : Heaps} (hs : Sound t s) {objAny : Bool} {amount : ℕ} {ans : Answer}
    (hroom : t.tagSize + t.freelistSize + t.heapblkSize ≤ amount) (heven : amount % 2 = 0)
    (hf : Fresh t ans amount s) :
    ∃ b s', createNewNHeap t objAny amount ans s = some (b, s') ∧ Sound t s' := by
  have hsh := hs.shrink ans.returned
  rw [createNewNHeap]
  cases hm : ans.mem with
  | none => exact ⟨_, _, rfl, hsh⟩
  | some addr =>
    obtain ⟨hfit, hapart⟩ := hf addr hm
    have htag : t.tagSize % 2 = 0 := by cases t <;> decide
    have hwf : WellFormed t (sysHeap t addr amount ans.contents)
        ([] ++ ⟨(sysHeap t addr amount ans.contents).firstFrl t,
          amount - t.tagSize - t.heapblkSize, true⟩ :: []) :=
      (@start_held t ⟨addr, amount - t.tagSize, 0, 0, 0, 0, 0, ans.contents⟩ 0
        (by dsimp only; omega) (by dsimp only; omega) (by dsimp only; omega)).wf
    have hlast : (sysHeap t addr amount ans.contents).last + t.tagSize = addr + amount := by
      show addr + (amount - t.tagSize) + t.tagSize = addr + amount
      omega
    obtain ⟨ho, hmem⟩ := @linkHeap_spec t _ ⟨sysHeap t addr amount ans.contents, objAny⟩ hsh.order
      fun z hz => by
        rw [hlast]
        exact hapart z hz
    -- the new mini-heap has no free block yet
    have hlink : Sound t { nheapshrink t ans.returned s with
        list := linkHeap ⟨sysHeap t addr amount ans.contents, objAny⟩
          (nheapshrink t ans.returned s).list } := by
      refine ⟨ho, fun x hx => ?_, fun r hr x hx hlt => ?_, fun r hr => ?_, fun r hr => ?_⟩
      · rcases (hmem x).mp hx with rfl | hx
        · exact ⟨_, hwf⟩
        · exact hsh.wf x hx
      · rcases (hmem x).mp hx with rfl | hx
        · exact Nat.zero_le _
        · exact hsh.bound r hr x hx hlt
      · obtain ⟨x, hx, e⟩ := hsh.rover r hr
        exact ⟨x, (hmem x).mpr (Or.inr hx), e⟩
      · obtain ⟨x, hx, e⟩ := hsh.freeRover r hr
        exact ⟨x, (hmem x).mpr (Or.inr hx), e⟩
    obtain ⟨s', he, hs'⟩ := hlink.nfree ((hmem _).mpr (Or.inl rfl)) hwf
    refine ⟨true, s', ?_, hs'⟩
    dsimp only
    rw [he]
    rfl

theorem Sound.expand {s : Heaps} (hs : Sound t s) (objAny : Bool) {amount : ℕ} {ans : Answer}
    (hf : ∀ amt, adjustAmount t ans.amblksiz amount = some amt → Fresh t ans amt s) :
    ∃ b s', expandDGROUP t objAny amount ans s = some (b, s') ∧ Sound t s' := by
  rw [expandDGROUP]
  by_cases he : ans.enabled
  · rw [if_pos he]
    cases hadj : adjustAmount t ans.amblksiz amount with
    | none => exact ⟨_, _, rfl, hs⟩
    | some amt =>
      obtain ⟨hroom, heven⟩ := adjustAmount_spec hadj
      exact hs.create hroom heven (hf amt hadj)
  · rw [if_neg he]
    exact ⟨_, _, rfl, hs⟩

/-! ## `_nmalloc` -/

variable (t) in
/-- the memory that a pass asks for is no mini-heap's -/
def FreshBehind (objAny : Bool) (amt : ℕ) (ans : Answer) (s : Heaps) : Prop :=
  ∀ s' amount, mallocPass t objAny amt s = some (0, s') →
    adjustAmount t ans.amblksiz amt = some amount → Fresh t ans amount s'

/-- `_nmalloc` ends, and goes to the system only when no mini-heap of the kind has room -/
theorem Sound.nmalloc {s : Heaps} (hs : Sound t s) {objAny : Bool} {amt : ℕ} {ans : Answer}
    (hf : FreshBehind t objAny amt ans s) :
    ∃ a, Clib.nmalloc t objAny amt ans s = some a ∧ Sound t a.heaps ∧
      ∀ w ∈ a.asked, ∀ x ∈ w.list, NoRoom t objAny amt x := by
  rw [Clib.nmalloc]
  by_cases hc : amt = 0 ∨ amt > t.word - t.heapblkSize
  · rw [if_pos hc]
    exact ⟨_, rfl, hs, by simp⟩
  · rw [if_neg hc]
    obtain ⟨h0, hamt⟩ := not_or.mp hc
    obtain ⟨c, s₁, h1, hs₁, hno⟩ := mallocPass_spec objAny h0 (Nat.le_of_not_lt hamt) hs
    rw [h1]
    dsimp only
    by_cases hz : c ≠ 0
    · rw [if_pos hz]
      exact ⟨_, rfl, hs₁, by simp⟩
    · rw [if_neg hz]
      have hz' : c = 0 := not_not.mp hz
      have hasked : ∀ w ∈ [s₁], ∀ x ∈ w.list, NoRoom t objAny amt x := fun w hw => by
        rw [List.mem_singleton.mp hw]
        exact hno hz'
      rw [hz'] at h1
      obtain ⟨b, s₂, h2, hs₂⟩ := hs₁.expand objAny fun amount ha => hf s₁ amount h1 ha
      rw [h2]
      cases b with
      | false => exact ⟨_, rfl, hs₂, hasked⟩
      | true =>
        obtain ⟨c', s₃, h3, hs₃, hno'⟩ :=
          mallocPass_spec objAny h0 (Nat.le_of_not_lt hamt) hs₂
        dsimp only
        rw [h3]
        refine ⟨_, rfl, hs₃, ?_⟩
        dsimp only
        by_cases hz₃ : c' ≠ 0
        · rw [if_pos hz₃]
          exact hasked
        · rw [if_neg hz₃]
          intro w hw
          rcases List.mem_cons.mp hw with rfl | hw
          · exact hno hz'
          · rw [List.mem_singleton.mp hw]
            exact hno' (not_not.mp hz₃)

end

/-! ## runs -/

/-- the calls of a program; `store` writes into storage that it holds -/
inductive HeapsCall
  | malloc (objAny : Bool) (amt : ℕ) (ans : Answer)
  | free (cstg : ℕ)
  | grow (objAny : Bool) (amount : ℕ) (ans : Answer)
  | shrink (returned : ℕ → Bool)
  | store (cstg : ℕ) (val : ℕ → Freelist)

/-- no mini-heap yet -/
def noHeaps : Heaps := ⟨[], none, 0, none⟩

section
variable (t : Target)

def storeInto (cstg : ℕ) (val : ℕ → Freelist) (list : List MiniHeap) : List MiniHeap :=
  list.map fun x =>
    if x.isInHeap cstg then { x with blk := x.blk.store (cstg2Blk t cstg) val } else x

def heapsStep : HeapsCall → Heaps → Option Heaps
  | .malloc objAny amt ans, s => (nmalloc t objAny amt ans s).map Alloc.heaps
  | .free cstg, s => nfree t s cstg
  | .grow objAny amount ans, s => (expandDGROUP t objAny amount ans s).map Prod.snd
  | .shrink returned, s => some (nheapshrink t returned s)
  | .store cstg val, s => some { s with list := storeInto t cstg val s.list }

/-- the storage behind a block that is in use -/
def HoldsStorage (s : Heaps) (cstg : ℕ) : Prop :=
  ∃ x ∈ s.list, ∃ l p n r, WellFormed t x.blk (l ++ ⟨p, n, true⟩ :: r) ∧ cstg = blk2Cstg t p

/-- what is asked of a program and of the system: storage is in use that is given back or written, and
new memory is no mini-heap's -/
def HeapsProper : HeapsCall → Heaps → Prop
  | .malloc objAny amt ans, s => FreshBehind t objAny amt ans s
  | .free cstg, s => cstg = 0 ∨ HoldsStorage t s cstg
  | .grow _ amount ans, s => ∀ amt, adjustAmount t ans.amblksiz amount = some amt → Fresh t ans amt s
  | .shrink _, _ => True
  | .store cstg _, s => HoldsStorage t s cstg

end

section
variable {t : Target} {s : Heaps}

theorem Sound.store (hs : Sound t s) {cstg : ℕ} (hc : HoldsStorage t s cstg) (val : ℕ → Freelist) :
    Sound t { s with list := storeInto t cstg val s.list } := by
  obtain ⟨x, hx, l, p, n, r, hwf, rfl⟩ := hc
  have hb := hwf.block (b := ⟨p, n, true⟩) (by simp)
  have htag : 0 < t.tagSize ∧ t.tagSize < t.freelistSize := by cases t <;> decide
  dsimp only at hb
  have hin : x.isInHeap (blk2Cstg t p) := by
    rw [MiniHeap.isInHeap, decide_eq_true_eq, blk2Cstg]
    rw [Heapblk.firstFrl, Heapblk.last] at hb
    omega
  have hback : cstg2Blk t (blk2Cstg t p) = p := by rw [cstg2Blk, blk2Cstg, Nat.add_sub_cancel]
  have hspans : (storeInto t (blk2Cstg t p) val s.list).map MiniHeap.span
      = s.list.map MiniHeap.span := by
    rw [storeInto, List.map_map]
    refine List.map_congr_left fun y _ => ?_
    rw [Function.comp_apply]
    split <;> rfl
  have hlarge : ∀ y : MiniHeap, (if y.isInHeap (blk2Cstg t p) then
      { y with blk := y.blk.store (cstg2Blk t (blk2Cstg t p)) val } else y).blk.largestBlk
      = y.blk.largestBlk ∧ (if y.isInHeap (blk2Cstg t p) then
      { y with blk := y.blk.store (cstg2Blk t (blk2Cstg t p)) val } else y).addr = y.addr := by
    intro y
    split <;> exact ⟨rfl, rfl⟩
  refine ⟨?_, fun y hy => ?_, fun r' hr y hy hlt => ?_, fun r' hr => ?_, fun r' hr => ?_⟩
  · rw [Ascends, hspans]
    exact hs.order
  · obtain ⟨z, hz, rfl⟩ := List.mem_map.mp hy
    by_cases hc : z.isInHeap (blk2Cstg t p)
    · rw [if_pos hc, hs.order.eq_of_isInHeap hz hx hc hin, hback]
      exact ⟨_, store_spec hwf val⟩
    · rw [if_neg hc]
      exact hs.wf z hz
  · obtain ⟨z, hz, rfl⟩ := List.mem_map.mp hy
    obtain ⟨h1, h2⟩ := hlarge z
    rw [h2] at hlt
    rw [h1]
    exact hs.bound r' hr z hz hlt
  · obtain ⟨z, hz, rfl⟩ := hs.rover r' hr
    obtain ⟨y, hy, e⟩ := exists_of_span hspans hz
    exact ⟨y, hy, congrArg Prod.fst e⟩
  · obtain ⟨z, hz, rfl⟩ := hs.freeRover r' hr
    obtain ⟨y, hy, e⟩ := exists_of_span hspans hz
    exact ⟨y, hy, congrArg Prod.fst e⟩

/-- one call -/
theorem heapsStep_sound (c : HeapsCall) (s : Heaps) (hs : Sound t s) (hc : HeapsProper t c s) :
    ∃ s', heapsStep t c s = some s' ∧ Sound t s' := by
  cases c with
  | malloc objAny amt ans =>
    obtain ⟨a, ha, hs', -⟩ := hs.nmalloc hc
    exact ⟨a.heaps, by rw [heapsStep, ha]; rfl, hs'⟩
  | free cstg =>
    rcases hc with rfl | ⟨x, hx, l, p, n, r, hwf, rfl⟩
    · exact ⟨s, by rw [heapsStep, Clib.nfree, if_pos rfl], hs⟩
    · exact hs.nfree hx hwf
  | grow objAny amount ans =>
    obtain ⟨b, s', he, hs'⟩ := hs.expand objAny hc
    exact ⟨s', by rw [heapsStep, he]; rfl, hs'⟩
  | shrink returned => exact ⟨_, rfl, hs.shrink returned⟩
  | store cstg val => exact ⟨_, rfl, hs.store hc val⟩

theorem noHeaps_sound : Sound t noHeaps where
  order := List.Pairwise.nil
  wf := by simp [noHeaps]
  bound := by simp [noHeaps]
  rover := by simp [noHeaps]
  freeRover := by simp [noHeaps]

/-- in every run the cached bound is one for the mini-heaps before the rover, the rovers are listed, and
`_nmalloc` goes to the system only when no mini-heap of the kind has a free block of the rounded size -/
theorem rover_bounds (t : Target) (calls : List HeapsCall)
    (hp : Along (heapsStep t) (HeapsProper t) calls noHeaps) :
    ∃ s, run (heapsStep t) calls noHeaps = some s ∧
      (∀ r, s.miniHeapRover = some r → ∃ l x rest, s.list = l ++ x :: rest ∧ x.addr = r ∧
        ∀ y ∈ l, y.blk.largestBlk ≤ s.largestSizeB4) ∧
      (∀ r, s.miniHeapFreeRover = some r → ∃ x ∈ s.list, x.addr = r) ∧
      ∀ objAny amt ans, HeapsProper t (.malloc objAny amt ans) s →
        ∃ a, nmalloc t objAny amt ans s = some a ∧ ∀ w ∈ a.asked, ∀ x ∈ w.list,
          x.isKind t objAny → ∃ bs, WellFormed t x.blk bs ∧
            ∀ b ∈ bs, b.used = false → b.size < blkSize t amt := by
  obtain ⟨s, hrun, hs⟩ := run_total heapsStep_sound calls noHeaps noHeaps_sound hp
  refine ⟨s, hrun, fun r hr => ?_, hs.freeRover, fun objAny amt ans hok => ?_⟩
  · obtain ⟨x, hx, hxr⟩ := hs.rover r hr
    obtain ⟨l, rest, e⟩ := List.append_of_mem hx
    refine ⟨l, x, rest, e, hxr, fun y hy => hs.bound r hr y (by rw [e]; exact List.mem_append_left _ hy) ?_⟩
    have ho := hs.order
    rw [e, Ascends, List.map_append] at ho
    have h1 : y.blk.last + t.tagSize ≤ x.addr := (List.pairwise_append.mp ho).2.2 y.span
      (List.mem_map_of_mem hy) x.span (by rw [List.map_cons]; exact List.mem_cons_self)
    have h2 := addr_le_last y
    have htag : 0 < t.tagSize := by cases t <;> decide
    omega
  · obtain ⟨a, ha, -, hno⟩ := hs.nmalloc hok
    exact ⟨a, ha, hno⟩

/-- the system gives 64K at 0x10000 -/
def given : Answer := ⟨true, 0, fun _ => true, some 0x10000, fun _ => ⟨0, 0, 0⟩⟩

theorem given_fresh {t : Target} {amount : ℕ} (h : 0x10000 + amount ≤ t.word) :
    Fresh t given amount noHeaps := by
  intro addr ha
  rw [← Option.some.inj ha]
  exact ⟨h, by simp [nheapshrink, noHeaps]⟩

/-- a mini-heap is made for storage and given back again -/
theorem rover_bounds_page : ∃ s,
    run (heapsStep .ix86) [.grow false 100 given, .shrink fun _ => true] noHeaps = some s ∧
      ∀ r, s.miniHeapFreeRover = some r → ∃ x ∈ s.list, x.addr = r := by
  have hp : Along (heapsStep .ix86) (HeapsProper .ix86) [.grow false 100 given, .shrink fun _ => true]
      noHeaps := by
    refine ⟨fun amt ha => given_fresh ?_, fun _ _ => ⟨trivial, fun _ _ => trivial⟩⟩
    have h : adjustAmount .ix86 0 100 = some 4096 := by decide
    rw [← Option.some.inj (h.symm.trans ha)]
    decide
  obtain ⟨s, hs, -, hf, -⟩ := rover_bounds .ix86 _ hp
  exact ⟨s, hs, hf⟩

/-- OS/2: high memory is asked for while a mini-heap in low memory has a free block of 64K -/
theorem asks_other_kind :
    Along (heapsStep .os2) (HeapsProper .os2) [.grow false 100 given] noHeaps ∧
    ∃ s a w x, run (heapsStep .os2) [.grow false 100 given] noHeaps = some s ∧
      nmalloc .os2 true 100 { given with enabled := false } s = some a ∧ w ∈ a.asked ∧ x ∈ w.list ∧
      (x.blk.mem (x.blk.freehead .os2)).next ≠ x.blk.freehead .os2 ∧
      blkSize .os2 100 ≤ (x.blk.mem (x.blk.mem (x.blk.freehead .os2)).next).len := by
  constructor
  · refine ⟨fun amt ha => given_fresh ?_, fun _ _ => trivial⟩
    have h : adjustAmount .os2 0 100 = some 65536 := by decide
    rw [← Option.some.inj (h.symm.trans ha)]
    decide
  · have h : ((run (heapsStep .os2) [.grow false 100 given] noHeaps).any fun s =>
        (nmalloc .os2 true 100 { given with enabled := false } s).any fun a => a.asked.any fun w =>
          w.list.any fun x => decide ((x.blk.mem (x.blk.freehead .os2)).next ≠ x.blk.freehead .os2 ∧
            blkSize .os2 100 ≤ (x.blk.mem (x.blk.mem (x.blk.freehead .os2)).next).len)) = true := by
      decide +kernel
    rw [Option.any_eq_true] at h
    obtain ⟨s, hs, h⟩ := h
    rw [Option.any_eq_true] at h
    obtain ⟨a, ha, h⟩ := h
    obtain ⟨w, hw, h⟩ := List.any_eq_true.mp h
    obtain ⟨x, hx, h⟩ := List.any_eq_true.mp h
    exact ⟨s, a, w, x, hs, ha, hw, hx, of_decide_eq_true h⟩

end

end Clib
