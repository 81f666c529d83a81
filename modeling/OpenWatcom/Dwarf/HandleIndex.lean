import OpenWatcom.Lib.SkipLists
import OpenWatcom.Dwarf.Handles
import Mathlib

/-!
# The blocks of the handles are found

* `Linked hs height n`     every link leads to the next block of its level, and every tail is the end of one
* `linkLevel_linked`, `newBlock_indexed`     a new block is linked on all of its levels
* `getIndex_spec`     the two loops find every block
* `Indexed`, `newHandle_indexed`     what the handles keep; `getCommon_spec`
-/

namespace DwHandle
open SkipLists

/-- the first block that a link of this array can lead to -/
def Edge.start : Edge → ℕ
  | .head => 0
  | .next blk => blk + 1

/-- the array has a link for this level -/
def Edge.On (height : ℕ → ℕ) (n i : ℕ) : Edge → Prop
  | .head => True
  | .next blk => blk < n ∧ i < height blk

/-- every link leads to the next block of its level, and `blockTail` to the last link of it -/
structure Linked (hs : Handles) (height : ℕ → ℕ) (n : ℕ) : Prop where
  links : ∀ (e : Edge) (i : ℕ), e.On height n i → Follows height n i e.start (hs.link e i)
  tail : ∀ i, (hs.blockTail i).On height n i ∧ hs.link (hs.blockTail i) i = none

variable {hs : Handles} {height : ℕ → ℕ} {n : ℕ}

theorem Edge.start_le {e : Edge} {i : ℕ} (h : e.On height n i) : e.start ≤ n := by
  cases e with
  | head => exact Nat.zero_le n
  | next blk => exact h.1

/-- a level has one end -/
theorem Linked.end_unique (h : Linked hs height n) {e e' : Edge} {i : ℕ} (he : e.On height n i)
    (he' : e'.On height n i) (hend : hs.link e i = none) (hend' : hs.link e' i = none) : e = e' := by
  have hf := h.links e i he
  have hf' := h.links e' i he'
  rw [hend] at hf
  rw [hend'] at hf'
  -- the block of the later of the two would follow the other one
  have hkey : ∀ {a b : Edge}, a.On height n i → b.On height n i →
      Follows height n i a.start none → ¬ a.start < b.start := by
    intro a b _ hb hfa hlt
    cases b with
    | head => exact absurd hlt (Nat.not_lt_zero _)
    | next k =>
      have := hfa k (Nat.le_of_lt_succ hlt) hb.1
      have := hb.2
      omega
  have h1 := hkey he he' hf
  have h2 := hkey he' he hf'
  have heq : e.start = e'.start := by omega
  cases e <;> cases e' <;> simp only [Edge.start] at heq
  · rfl
  · omega
  · omega
  · rw [Nat.succ_injective heq]

theorem Linked.recount (h : Linked hs height n) (numHandles : ℕ) (forward : BitVec 32) :
    Linked { hs with numHandles := numHandles, forward := forward } height n := by
  have hlink : ∀ (e : Edge) (i : ℕ),
      ({ hs with numHandles := numHandles, forward := forward } : Handles).link e i = hs.link e i := by
    intro e i
    cases e <;> rfl
  refine ⟨fun e i he => ?_, fun i => ?_⟩
  · rw [hlink]
    exact h.links e i he
  · rw [hlink]
    exact h.tail i

/-! ## one level of a new block -/

@[simp] theorem link_setLink (hs : Handles) (e e' : Edge) (i i' : ℕ) (p : Option ℕ) :
    (hs.setLink e i p).link e' i' = if e' = e ∧ i' = i then p else hs.link e' i' := by
  cases e with
  | head =>
    cases e' with
    | head =>
      simp only [Handles.setLink, Handles.link, Function.update_apply, true_and]
    | next k =>
      simp only [Handles.setLink, Handles.link, reduceCtorEq, false_and, if_false]
  | next j =>
    cases e' with
    | head =>
      simp only [Handles.setLink, Handles.link, reduceCtorEq, false_and, if_false]
    | next k =>
      simp only [Handles.setLink, Handles.link, Edge.next.injEq]
      by_cases hk : k = j
      · rw [hk, Function.update_self]
        simp only [Function.update_apply, true_and]
      · rw [Function.update_of_ne hk, if_neg (fun h => hk h.1)]

@[simp] theorem blockTail_setLink (hs : Handles) (e : Edge) (i : ℕ) (p : Option ℕ) :
    (hs.setLink e i p).blockTail = hs.blockTail := by
  cases e <;> rfl

/-- what linking leaves alone -/
structure SameEntries (hs hs' : Handles) : Prop where
  numHandles : hs'.numHandles = hs.numHandles
  forward : hs'.forward = hs.forward
  maxHeight : hs'.maxHeight = hs.maxHeight
  blockCount : hs'.blockCount = hs.blockCount
  data : ∀ k, (hs'.blocks k).data = (hs.blocks k).data
  index : ∀ k, (hs'.blocks k).index = (hs.blocks k).index
  height : ∀ k, (hs'.blocks k).height = (hs.blocks k).height

theorem SameEntries.refl (hs : Handles) : SameEntries hs hs :=
  ⟨rfl, rfl, rfl, rfl, fun _ => rfl, fun _ => rfl, fun _ => rfl⟩

theorem SameEntries.trans {a b c : Handles} (h : SameEntries a b) (h' : SameEntries b c) :
    SameEntries a c :=
  ⟨h'.numHandles.trans h.numHandles, h'.forward.trans h.forward, h'.maxHeight.trans h.maxHeight,
    h'.blockCount.trans h.blockCount, fun k => (h'.data k).trans (h.data k),
    fun k => (h'.index k).trans (h.index k), fun k => (h'.height k).trans (h.height k)⟩

theorem setLink_sameEntries (hs : Handles) (e : Edge) (i : ℕ) (p : Option ℕ) :
    SameEntries hs (hs.setLink e i p) := by
  cases e with
  | head => exact ⟨rfl, rfl, rfl, rfl, fun _ => rfl, fun _ => rfl, fun _ => rfl⟩
  | next j =>
    have hblk : ∀ k, ((hs.setLink (.next j) i p).blocks k).data = (hs.blocks k).data ∧
        ((hs.setLink (.next j) i p).blocks k).index = (hs.blocks k).index ∧
        ((hs.setLink (.next j) i p).blocks k).height = (hs.blocks k).height := by
      intro k
      by_cases hk : k = j
      · rw [hk]
        simp only [Handles.setLink, Function.update_self, and_self]
      · simp only [Handles.setLink, Function.update_of_ne hk, and_self]
    exact ⟨rfl, rfl, rfl, rfl, fun k => (hblk k).1, fun k => (hblk k).2.1, fun k => (hblk k).2.2⟩

theorem linkLevel_sameEntries (blk : ℕ) (hs : Handles) (i : ℕ) :
    SameEntries hs (linkLevel blk hs i) := by
  have h1 := setLink_sameEntries hs (.next blk) i none
  have h2 := setLink_sameEntries (hs.setLink (.next blk) i none)
    ((hs.setLink (.next blk) i none).blockTail i) i (some blk)
  have h := h1.trans h2
  exact ⟨h.numHandles, h.forward, h.maxHeight, h.blockCount, h.data, h.index, h.height⟩

theorem link_linkLevel (blk : ℕ) (hs : Handles) (i : ℕ) (e : Edge) (i' : ℕ) :
    (linkLevel blk hs i).link e i' =
      if e = hs.blockTail i ∧ i' = i then some blk
      else if e = .next blk ∧ i' = i then none else hs.link e i' := by
  unfold linkLevel
  have hlink : ∀ (g : Handles) (t : ℕ → Edge), ({ g with blockTail := t } : Handles).link e i' =
      g.link e i' := by
    intro g t
    cases e <;> rfl
  rw [hlink, link_setLink, link_setLink, blockTail_setLink]

theorem blockTail_linkLevel (blk : ℕ) (hs : Handles) (i : ℕ) :
    (linkLevel blk hs i).blockTail = Function.update hs.blockTail i (.next blk) := by
  unfold linkLevel
  dsimp only
  rw [blockTail_setLink, blockTail_setLink]

/-- the new block, which has the levels below `m` so far, is linked on level `m` -/
theorem linkLevel_linked {m : ℕ} (h : Linked hs height (n + 1)) (hm : height n = m) :
    Linked (linkLevel n hs m) (Function.update height n (m + 1)) (n + 1) := by
  have hsame : ∀ k, k < n → Function.update height n (m + 1) k = height k :=
    fun k hk => Function.update_of_ne (by omega) _ _
  have hnew : Function.update height n (m + 1) n = m + 1 := Function.update_self _ _ _
  have hother : ∀ i, i ≠ m → ∀ k, k < n + 1 →
      (i < Function.update height n (m + 1) k ↔ i < height k) := by
    intro i hi k hk
    by_cases hkn : k = n
    · rw [hkn, hnew, hm]
      omega
    · rw [hsame k (by omega)]
  have hon : ∀ i, i ≠ m → ∀ e : Edge, e.On (Function.update height n (m + 1)) (n + 1) i →
      e.On height (n + 1) i := by
    intro i hi e he
    cases e with
    | head => exact he
    | next k => exact ⟨he.1, (hother i hi k he.1).mp he.2⟩
  have hup : ∀ i, ∀ e : Edge, e.On height (n + 1) i →
      e.On (Function.update height n (m + 1)) (n + 1) i := by
    intro i e he
    cases e with
    | head => exact he
    | next k =>
      refine ⟨he.1, ?_⟩
      by_cases hkn : k = n
      · rw [hkn, hnew]
        have := he.2
        rw [hkn, hm] at this
        omega
      · rw [hsame k (by have := he.1; omega)]
        exact he.2
  obtain ⟨htailOn, htailEnd⟩ := h.tail m
  have htail : hs.blockTail m ≠ .next n := by
    intro heq
    rw [heq] at htailOn
    have := htailOn.2
    omega
  refine ⟨fun e i he => ?_, fun i => ?_⟩
  · rw [link_linkLevel]
    by_cases hi : i = m
    · rw [hi] at he ⊢
      by_cases het : e = hs.blockTail m
      · -- the end of the level leads to the new block
        rw [if_pos ⟨het, rfl⟩, het]
        have hf := h.links _ m htailOn
        rw [htailEnd] at hf
        refine hf.raise_none hsame (by rw [hnew]; omega) ?_
        cases hcase : hs.blockTail m with
        | head => exact Nat.zero_le n
        | next k =>
          rw [hcase] at htailOn htail
          have h1 := htailOn.1
          have h2 : k ≠ n := fun hkn => htail (by rw [hkn])
          simp only [Edge.start]
          omega
      · rw [if_neg (fun hc => het hc.1)]
        by_cases hen : e = .next n
        · rw [if_pos ⟨hen, rfl⟩, hen]
          intro k h1 h2
          simp only [Edge.start] at h1
          omega
        · rw [if_neg (fun hc => hen hc.1)]
          have hold : e.On height (n + 1) m := by
            cases e with
            | head => exact he
            | next k =>
              have hkn : k ≠ n := fun hkn => hen (by rw [hkn])
              have h2 := he.2
              rw [hsame k (by have := he.1; omega)] at h2
              exact ⟨he.1, h2⟩
          have hf := h.links e m hold
          cases hlink : hs.link e m with
          | none => exact absurd (h.end_unique hold htailOn hlink htailEnd) het
          | some j =>
            rw [hlink] at hf
            exact hf.raise_some (by omega) hsame
    · rw [if_neg (fun hc => hi hc.2), if_neg (fun hc => hi hc.2)]
      exact (h.links e i (hon i hi e he)).congr (hother i hi)
  · rw [blockTail_linkLevel, link_linkLevel]
    by_cases hi : i = m
    · rw [hi, Function.update_self]
      refine ⟨⟨Nat.lt_succ_self n, by rw [hnew]; omega⟩, ?_⟩
      rw [if_neg (fun hc => htail hc.1.symm), if_pos ⟨rfl, rfl⟩]
    · rw [Function.update_of_ne hi]
      refine ⟨hup i _ (h.tail i).1, ?_⟩
      rw [if_neg (fun hc => hi hc.2), if_neg (fun hc => hi hc.2)]
      exact (h.tail i).2

/-! ## a new block -/

/-- what the handles keep -/
structure Indexed (hs : Handles) : Prop where
  linked : Linked hs (fun k => (hs.blocks k).height) hs.blockCount
  count : hs.blockCount = (hs.numHandles + blockSize - 1) / blockSize
  index : ∀ k, k < hs.blockCount → (hs.blocks k).index = k
  height : ∀ k, k < hs.blockCount → 0 < (hs.blocks k).height ∧ (hs.blocks k).height ≤ hs.maxHeight
  top : 0 < hs.maxHeight → ∃ k, k < hs.blockCount ∧ (hs.blocks k).height = hs.maxHeight
  few : hs.numHandles ≤ blockSize * 2 ^ 16
  fresh : ∀ n, hs.numHandles ≤ n → n / blockSize < hs.blockCount →
    hs.entry (n / blockSize, n % blockSize) = ⟨0, 0⟩

theorem indexed_init : Indexed Handles.init where
  linked := by
    refine ⟨fun e i he => ?_, fun i => ⟨trivial, rfl⟩⟩
    cases e with
    | head => exact fun m _ h => absurd h (Nat.not_lt_zero m)
    | next k => exact absurd he.1 (Nat.not_lt_zero k)
  count := rfl
  index := fun k h => absurd h (Nat.not_lt_zero k)
  height := fun k h => absurd h (Nat.not_lt_zero k)
  top := fun h => absurd h (Nat.lt_irrefl 0)
  few := Nat.zero_le _
  fresh := fun n _ h => absurd h (Nat.not_lt_zero _)

theorem blockHeight_pos (tosses : List Bool) (h : ℕ) (hpos : 0 < h) : 0 < blockHeight tosses h := by
  induction tosses generalizing h with
  | nil => exact hpos
  | cons b tosses ih =>
    cases b with
    | false => exact hpos
    | true =>
      unfold blockHeight
      by_cases hlt : h < maxHandleHeight
      · rw [if_pos hlt]
        exact ih (h + 1) (Nat.succ_pos h)
      · rw [if_neg hlt]
        exact hpos

/-- all levels of the new block are linked, from the lowest one on -/
theorem linkLevels (h : Linked hs height (n + 1)) (hn : height n = 0) (m : ℕ) :
    Linked ((List.range m).foldl (linkLevel n) hs) (Function.update height n m) (n + 1) ∧
      SameEntries hs ((List.range m).foldl (linkLevel n) hs) := by
  induction m with
  | zero =>
    refine ⟨?_, SameEntries.refl hs⟩
    have hsame : Function.update height n 0 = height := by
      rw [← hn, Function.update_eq_self]
    rw [hsame]
    exact h
  | succ m ih =>
    rw [List.range_succ, List.foldl_append]
    have hstep := linkLevel_linked ih.1 (Function.update_self n m height)
    rw [Function.update_idem] at hstep
    exact ⟨hstep, ih.2.trans (linkLevel_sameEntries n _ m)⟩

/-- what a new block leaves alone, and its own entries -/
structure Grown (hs hs' : Handles) : Prop where
  numHandles : hs'.numHandles = hs.numHandles
  forward : hs'.forward = hs.forward
  data : ∀ k, k ≠ hs.blockCount → (hs'.blocks k).data = (hs.blocks k).data
  fresh : (hs'.blocks hs.blockCount).data = fun _ => ⟨0, 0⟩

theorem newBlock_indexed (h : Indexed hs) (hfull : hs.numHandles % blockSize = 0) (tosses : List Bool) :
    Linked (newBlock hs tosses) (fun k => ((newBlock hs tosses).blocks k).height)
        (newBlock hs tosses).blockCount ∧
      (newBlock hs tosses).blockCount = hs.numHandles / blockSize + 1 ∧
      (∀ k, k < (newBlock hs tosses).blockCount → ((newBlock hs tosses).blocks k).index = k) ∧
      (∀ k, k < (newBlock hs tosses).blockCount → 0 < ((newBlock hs tosses).blocks k).height ∧
        ((newBlock hs tosses).blocks k).height ≤ (newBlock hs tosses).maxHeight) ∧
      (∃ k, k < (newBlock hs tosses).blockCount ∧
        ((newBlock hs tosses).blocks k).height = (newBlock hs tosses).maxHeight) ∧
      Grown hs (newBlock hs tosses) := by
  have hcount : hs.blockCount = hs.numHandles / blockSize := by
    rw [h.count]
    unfold blockSize at *
    omega
  have hpos := blockHeight_pos tosses 1 Nat.one_pos
  unfold newBlock
  generalize blockHeight tosses 1 = top at hpos
  dsimp only
  generalize hg : ({ hs with
    maxHeight := if hs.maxHeight < top then top else hs.maxHeight
    blockCount := hs.blockCount + 1
    blocks := Function.update hs.blocks hs.blockCount
      ⟨fun _ => ⟨0, 0⟩, hs.numHandles / blockSize, top, fun _ => none⟩ } : Handles) = g
  have hgold : ∀ k, k ≠ hs.blockCount → g.blocks k = hs.blocks k := by
    intro k hk
    rw [← hg]
    exact Function.update_of_ne hk _ _
  have hgnew : g.blocks hs.blockCount =
      ⟨fun _ => ⟨0, 0⟩, hs.numHandles / blockSize, top, fun _ => none⟩ := by
    rw [← hg]
    exact Function.update_self _ _ _
  have hgc : g.blockCount = hs.blockCount + 1 := by rw [← hg]
  have hgm : g.maxHeight = if hs.maxHeight < top then top else hs.maxHeight := by rw [← hg]
  -- the new block is there without a level yet
  have hbase : Linked g (Function.update (fun k => (hs.blocks k).height) hs.blockCount 0)
      (hs.blockCount + 1) := by
    have hon : ∀ (e : Edge) (i : ℕ), e.On (Function.update (fun k => (hs.blocks k).height)
        hs.blockCount 0) (hs.blockCount + 1) i → e.On (fun k => (hs.blocks k).height) hs.blockCount i ∧
        g.link e i = hs.link e i := by
      intro e i he
      cases e with
      | head => exact ⟨trivial, by rw [← hg]; rfl⟩
      | next k =>
        have hk : k ≠ hs.blockCount := by
          intro heq
          have := he.2
          rw [heq, Function.update_self] at this
          omega
        have h2 := he.2
        rw [Function.update_of_ne hk] at h2
        have h1 := he.1
        refine ⟨⟨by omega, h2⟩, ?_⟩
        show (g.blocks k).next i = (hs.blocks k).next i
        rw [hgold k hk]
    refine ⟨fun e i he => ?_, fun i => ?_⟩
    · obtain ⟨hold, hlink⟩ := hon e i he
      rw [hlink]
      refine Follows.grow ((h.linked.links e i hold).congr fun k hk => ?_) ?_
      · rw [Function.update_of_ne (by omega)]
      · rw [Function.update_self]
        exact Nat.zero_le i
    · obtain ⟨hold, hend⟩ := h.linked.tail i
      have htail : g.blockTail i = hs.blockTail i := by rw [← hg]
      rw [htail]
      have hup : (hs.blockTail i).On (Function.update (fun k => (hs.blocks k).height) hs.blockCount 0)
          (hs.blockCount + 1) i := by
        cases hcase : hs.blockTail i with
        | head => trivial
        | next k =>
          rw [hcase] at hold
          have := hold.1
          refine ⟨by omega, ?_⟩
          rw [Function.update_of_ne (by omega)]
          exact hold.2
      exact ⟨hup, by rw [(hon _ i hup).2, hend]⟩
  obtain ⟨hlinked, hsame⟩ := linkLevels hbase (Function.update_self _ _ _) top
  generalize (List.range top).foldl (linkLevel hs.blockCount) g = g' at hlinked hsame
  have hnewHeight : (g'.blocks hs.blockCount).height = top := by rw [hsame.height, hgnew]
  have holdHeight : ∀ k, k ≠ hs.blockCount → (g'.blocks k).height = (hs.blocks k).height := by
    intro k hk
    rw [hsame.height, hgold k hk]
  have hcount' : g'.blockCount = hs.blockCount + 1 := by rw [hsame.blockCount, hgc]
  have hmax : g'.maxHeight = if hs.maxHeight < top then top else hs.maxHeight := by
    rw [hsame.maxHeight, hgm]
  refine ⟨?_, by rw [hcount', hcount], fun k hk => ?_, fun k hk => ?_, ?_, ?_⟩
  · rw [hcount']
    convert hlinked using 1
    funext k
    by_cases hk : k = hs.blockCount
    · rw [hk, hnewHeight, Function.update_self]
    · rw [holdHeight k hk, Function.update_of_ne hk, Function.update_of_ne hk]
  · rw [hsame.index]
    by_cases hkn : k = hs.blockCount
    · rw [hkn, hgnew, hcount]
    · rw [hgold k hkn]
      exact h.index k (by omega)
  · by_cases hkn : k = hs.blockCount
    · rw [hkn, hnewHeight, hmax]
      refine ⟨hpos, ?_⟩
      by_cases hlt : hs.maxHeight < top
      · rw [if_pos hlt]
      · rw [if_neg hlt]
        omega
    · obtain ⟨h1, h2⟩ := h.height k (by omega)
      rw [holdHeight k hkn, hmax]
      refine ⟨h1, ?_⟩
      by_cases hlt : hs.maxHeight < top
      · rw [if_pos hlt]
        omega
      · rw [if_neg hlt]
        exact h2
  · rw [hmax, hcount']
    by_cases hlt : hs.maxHeight < top
    · exact ⟨hs.blockCount, Nat.lt_succ_self _, by rw [hnewHeight, if_pos hlt]⟩
    · rw [if_neg hlt]
      obtain ⟨k, hk, hkh⟩ := h.top (by omega)
      exact ⟨k, by omega, by rw [holdHeight k (by omega), hkh]⟩
  · refine ⟨by rw [hsame.numHandles, ← hg], by rw [hsame.forward, ← hg], fun k hk => ?_, ?_⟩
    · rw [hsame.data, hgold k hk]
    · rw [hsame.data, hgnew]

theorem newHandle_indexed (h : Indexed hs) {tosses : List Bool} {hdl : ℕ} {hs' : Handles}
    (hnew : newHandle hs tosses = some (hdl, hs')) :
    hdl = hs.numHandles + firstHandle ∧ Indexed hs' ∧ hs'.numHandles = hs.numHandles + 1 ∧
      hs.numHandles < blockSize * 2 ^ 16 ∧
      (∀ n, n < hs.numHandles → hs'.entry (n / blockSize, n % blockSize) =
        hs.entry (n / blockSize, n % blockSize)) ∧
      hs'.entry (hs.numHandles / blockSize, hs.numHandles % blockSize) = ⟨0, 0⟩ := by
  have hfew := h.few
  unfold newHandle at hnew
  dsimp only at hnew
  by_cases habort : hs.numHandles % blockSize = 0 ∧ blockSize * 2 ^ 16 ≤ hs.numHandles
  · rw [if_pos habort] at hnew
    exact absurd hnew (by simp)
  · rw [if_neg habort, Option.some_inj, Prod.mk.injEq] at hnew
    obtain ⟨hhdl, hhs⟩ := hnew
    have hcount := h.count
    by_cases hfull : hs.numHandles % blockSize = 0
    · rw [if_pos hfull] at hhs
      obtain ⟨hlinked, hcount', hindex, hheight, htop, hgrown⟩ := newBlock_indexed h hfull tosses
      generalize newBlock hs tosses = g at hhs hlinked hcount' hindex hheight htop hgrown
      have hbc : hs.blockCount = hs.numHandles / blockSize := by
        rw [hcount]
        unfold blockSize at *
        omega
      have hnum := hgrown.numHandles
      have hentry : ∀ c, hs'.entry c = g.entry c := fun c => by rw [← hhs]; rfl
      have hblank : ∀ n, n / blockSize = hs.blockCount →
          hs'.entry (n / blockSize, n % blockSize) = ⟨0, 0⟩ := by
        intro n hn
        rw [hentry]
        show (g.blocks (n / blockSize)).data (n % blockSize) = ⟨0, 0⟩
        rw [hn, hgrown.fresh]
      refine ⟨hhdl.symm, ?_, ?_, ?_, fun n hn => ?_, hblank _ hbc.symm⟩
      · rw [← hhs]
        refine ⟨hlinked.recount _ _, ?_, hindex, hheight, fun _ => htop, ?_, fun n hn hnb => ?_⟩
        · show g.blockCount = (g.numHandles + 1 + blockSize - 1) / blockSize
          rw [hcount', hnum]
          unfold blockSize
          omega
        · show g.numHandles + 1 ≤ _
          rw [hnum]
          unfold blockSize at *
          omega
        · have hn' : hs.numHandles + 1 ≤ n := by rw [← hnum]; exact hn
          have hnb' : n / blockSize < hs.numHandles / blockSize + 1 := by rw [← hcount']; exact hnb
          have hb := hblank n (by rw [hbc]; unfold blockSize at *; omega)
          rw [hentry] at hb
          exact hb
      · rw [← hhs, ← hnum]
      · unfold blockSize at *
        omega
      · rw [hentry]
        show (g.blocks (n / blockSize)).data _ = (hs.blocks (n / blockSize)).data _
        rw [hgrown.data _ (by rw [hbc]; unfold blockSize at *; omega)]
    · rw [if_neg hfull] at hhs
      have hentry : ∀ c, hs'.entry c = hs.entry c := fun c => by rw [← hhs]; rfl
      have hlt : hs.numHandles / blockSize < hs.blockCount := by
        rw [hcount]
        unfold blockSize at *
        omega
      refine ⟨hhdl.symm, ?_, by rw [← hhs], ?_, fun n _ => hentry _, ?_⟩
      · rw [← hhs]
        refine ⟨h.linked.recount _ _, ?_, h.index, h.height, h.top, ?_, fun n hn hnb => ?_⟩
        · show hs.blockCount = (hs.numHandles + 1 + blockSize - 1) / blockSize
          rw [hcount]
          unfold blockSize at *
          omega
        · show hs.numHandles + 1 ≤ _
          unfold blockSize at *
          omega
        · exact h.fresh n (by have : hs.numHandles + 1 ≤ n := hn; omega) hnb
      · unfold blockSize at *
        omega
      · rw [hentry]
        exact h.fresh _ (le_refl _) hlt

/-! ## the search -/

theorem Edge.on_lower {e : Edge} {i : ℕ} (h : e.On height n (i + 1)) : e.On height n i := by
  cases e with
  | head => trivial
  | next k => exact ⟨h.1, lt_trans (Nat.lt_succ_self i) h.2⟩

/-- the loops find the block: a round goes a level down, or on to a block before the one to be found -/
theorem getIndexLoop_spec (h : Indexed hs) {index : ℕ} (hindex : index < hs.blockCount) :
    ∀ (rounds : ℕ) (e : Edge) (i : ℕ), i + (hs.blockCount - e.start) < rounds →
      e.On (fun k => (hs.blocks k).height) hs.blockCount i → e.start ≤ index →
      (∃ j, hs.link e i = some j) → getIndexLoop hs index rounds e i = some index := by
  intro rounds
  induction rounds with
  | zero => intro e i hr; omega
  | succ rounds ih =>
    intro e i hr hon hstart hsome
    obtain ⟨blk, hblk⟩ := hsome
    have hf := h.linked.links e i hon
    rw [hblk] at hf
    obtain ⟨hsb, hbn, hib, hbetween⟩ := hf
    unfold getIndexLoop
    rw [hblk]
    dsimp only
    rw [h.index blk hbn]
    by_cases heq : blk = index
    · rw [if_pos heq, heq]
    · rw [if_neg heq]
      have honb : (Edge.next blk).On (fun k => (hs.blocks k).height) hs.blockCount i := ⟨hbn, hib⟩
      by_cases hdown : index < blk ∨ (hs.blocks blk).next i = none
      · rw [if_pos hdown]
        cases i with
        | zero =>
          -- the lowest level has all of the blocks
          have hlow := (h.linked.links e 0 hon)
          rw [hblk] at hlow
          have hstart' := hlow.lowest fun k hk => (h.height k hk).1
          have hf' := h.linked.links (.next blk) 0 honb
          rcases hdown with hlt | hnone
          · omega
          · have hnone' : hs.link (.next blk) 0 = none := hnone
            rw [hnone'] at hf'
            have hlow' : (hs.blocks index).height ≤ 0 :=
              hf' index (by simp only [Edge.start]; omega) hindex
            have := (h.height index hindex).1
            omega
        | succ i =>
          have hf' := h.linked.links e (i + 1) hon
          rw [hblk] at hf'
          exact ih e i (by omega) (Edge.on_lower hon) hstart
            (hf'.lower (h.linked.links e i (Edge.on_lower hon)))
      · rw [if_neg hdown]
        rw [not_or] at hdown
        refine ih (.next blk) i ?_ honb ?_ (Option.ne_none_iff_exists'.mp hdown.2)
        · simp only [Edge.start]
          omega
        · simp only [Edge.start]
          omega

theorem getIndex_spec (h : Indexed hs) {index : ℕ} (hindex : index < hs.blockCount) :
    getIndex hs index = some index := by
  have hmax : 0 < hs.maxHeight := lt_of_lt_of_le (h.height index hindex).1 (h.height index hindex).2
  obtain ⟨k, hk, hkh⟩ := h.top hmax
  unfold getIndex
  cases htop : hs.maxHeight with
  | zero => omega
  | succ top =>
    refine getIndexLoop_spec h hindex _ .head top (by simp only [Edge.start]; omega) trivial
      (Nat.zero_le _) ?_
    exact (h.linked.links .head top trivial).isSome (Nat.zero_le k) hk (by omega)

/-- a handle that was given out -/
def Issued (hs : Handles) (hdl : ℕ) : Prop :=
  firstHandle ≤ hdl ∧ hdl < hs.numHandles + firstHandle

/-- the place of the entry of a handle -/
def placeOf (hdl : ℕ) : ℕ × ℕ := ((hdl - firstHandle) / blockSize, (hdl - firstHandle) % blockSize)

theorem placeOf_injective {hdl hdl' : ℕ} (h : firstHandle ≤ hdl) (h' : firstHandle ≤ hdl')
    (heq : placeOf hdl = placeOf hdl') : hdl = hdl' := by
  unfold placeOf at heq
  rw [Prod.mk.injEq] at heq
  have h1 := Nat.div_add_mod (hdl - firstHandle) blockSize
  have h2 := Nat.div_add_mod (hdl' - firstHandle) blockSize
  rw [heq.1, heq.2] at h1
  omega

/-- `DW_GetCommon` finds the entry of every handle that was given out -/
theorem getCommon_spec (h : Indexed hs) {hdl : ℕ} (hi : Issued hs hdl) :
    getCommon hs hdl = some (placeOf hdl) := by
  have hfew := h.few
  obtain ⟨h1, h2⟩ := hi
  have helm : elmNumber hdl = hdl - firstHandle := by
    unfold elmNumber
    have hmask : handleMask = 2 ^ 28 - 1 := rfl
    rw [hmask, Nat.and_two_pow_sub_one_eq_mod, Nat.mod_eq_of_lt]
    unfold firstHandle blockSize at *
    omega
  have hblk : (hdl - firstHandle) / blockSize < hs.blockCount := by
    rw [h.count]
    unfold firstHandle blockSize at *
    omega
  unfold getCommon
  rw [helm, getIndex_spec h hblk]
  rfl

/-! ## an entry is written -/

theorem setEntry_entry (hs : Handles) (c c' : ℕ × ℕ) (e : HandleCommon) :
    (hs.setEntry c e).entry c' = if c' = c then e else hs.entry c' := by
  obtain ⟨b, k⟩ := c
  obtain ⟨b', k'⟩ := c'
  unfold Handles.setEntry Handles.entry
  dsimp only
  by_cases hb : b' = b
  · rw [hb, Function.update_self]
    dsimp only
    by_cases hk : k' = k
    · rw [hk, Function.update_self, if_pos rfl]
    · rw [Function.update_of_ne hk, if_neg (fun h => hk (Prod.mk.inj h).2)]
  · rw [Function.update_of_ne hb, if_neg (fun h => hb (Prod.mk.inj h).1)]

theorem setEntry_indexed (h : Indexed hs) {hdl : ℕ} (hi : Issued hs hdl) (e : HandleCommon)
    (forward : BitVec 32) : Indexed { hs.setEntry (placeOf hdl) e with forward := forward } := by
  have hblk : ∀ k, ((hs.setEntry (placeOf hdl) e).blocks k).index = (hs.blocks k).index ∧
      ((hs.setEntry (placeOf hdl) e).blocks k).height = (hs.blocks k).height ∧
      ((hs.setEntry (placeOf hdl) e).blocks k).next = (hs.blocks k).next := by
    intro k
    unfold Handles.setEntry
    dsimp only
    by_cases hk : k = (placeOf hdl).1
    · rw [hk, Function.update_self]
      exact ⟨rfl, rfl, rfl⟩
    · rw [Function.update_of_ne hk]
      exact ⟨rfl, rfl, rfl⟩
  have hheight : (fun k => ((hs.setEntry (placeOf hdl) e).blocks k).height) =
      fun k => (hs.blocks k).height := by
    funext k
    exact (hblk k).2.1
  have hlink : ∀ (a : Edge) (i : ℕ),
      ({ hs.setEntry (placeOf hdl) e with forward := forward } : Handles).link a i = hs.link a i := by
    intro a i
    cases a with
    | head => rfl
    | next k =>
      show ((hs.setEntry (placeOf hdl) e).blocks k).next i = (hs.blocks k).next i
      rw [(hblk k).2.2]
  refine ⟨?_, h.count, fun k hk => ?_, fun k hk => ?_, fun hm => ?_, h.few, fun n hn hnb => ?_⟩
  · refine ⟨fun a i ha => ?_, fun i => ?_⟩
    · rw [hlink]
      rw [hheight] at ha ⊢
      exact h.linked.links a i ha
    · rw [hlink, hheight]
      exact h.linked.tail i
  · rw [(hblk k).1]
    exact h.index k hk
  · rw [(hblk k).2.1]
    exact h.height k hk
  · obtain ⟨k, hk, hkh⟩ := h.top hm
    exact ⟨k, hk, by rw [(hblk k).2.1]; exact hkh⟩
  · show (hs.setEntry (placeOf hdl) e).entry _ = _
    rw [setEntry_entry, if_neg, h.fresh n hn hnb]
    intro heq
    have hplace : placeOf (n + firstHandle) = placeOf hdl := by
      rw [← heq]
      unfold placeOf
      rw [Nat.add_sub_cancel]
    have := placeOf_injective (Nat.le_add_left _ _) hi.1 hplace
    have := hi.2
    have : hs.numHandles ≤ n := hn
    omega

end DwHandle
