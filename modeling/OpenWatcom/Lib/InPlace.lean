import OpenWatcom.Lib.Bytes

/-!
# Reordering in place along an index table

A table `tab` of the positions `0 .. n - 1` says which cell has to come to each position.  The cells
are moved along the cycles of the table, with one cell set aside, and the table is overwritten with
the positions that are done.

* `Moves`     cells that can be read, copied from another position, and written
* `Moves.reorder`     the loop over the positions
* `Moves.reorder_cell`     at the end every position has the cell that the table named
-/

namespace InPlace
open Bytes

/-- read the cell at a position, copy a cell to a position from another, write one back -/
structure Moves (S V : Type) where
  cell : S → ℕ → V
  move : S → ℕ → ℕ → S
  put : S → ℕ → V → S

/-- moves at positions below `n` change one cell -/
structure Moves.Lawful {S V : Type} (m : Moves S V) (n : ℕ) (Valid : S → Prop) : Prop where
  validMove : ∀ s a b, Valid s → a < n → b < n → Valid (m.move s a b)
  validPut : ∀ s a v, Valid s → a < n → Valid (m.put s a v)
  cellMove : ∀ s a b i, Valid s → a < n → b < n →
    m.cell (m.move s a b) i = if i = a then m.cell s b else m.cell s i
  cellPut : ∀ s s' a b i, Valid s → Valid s' → a < n → b < n →
    m.cell (m.put s a (m.cell s' b)) i = if i = a then m.cell s' b else m.cell s i

namespace Moves
variable {S V : Type} (m : Moves S V)

/-- the rest of the cycle of `ix`, of which `ix1` is to be filled -/
def follow (ix : ℕ) (save : V) : ℕ → ℕ → List ℕ → S → List ℕ × S
  | 0, _, tab, s => (tab, s)
  | fuel + 1, ix1, tab, s =>
    let ixNext := byteAt tab ix1
    if ixNext ≠ ix then follow ix save fuel ixNext (tab.set ix1 ix1) (m.move s ix1 ixNext)
    else (tab.set ix1 ix1, m.put s ix1 save)

/-- one position: nothing is done where the table has the position itself -/
def visit (n : ℕ) (w : List ℕ × S) (ix : ℕ) : List ℕ × S :=
  if ix ≠ byteAt w.1 ix then m.follow ix (m.cell w.2 ix) n ix w.1 w.2 else w

/-- the cells in the order of the table -/
def reorder (n : ℕ) (tab : List ℕ) (s : S) : List ℕ × S := (List.range n).foldl (m.visit n) (tab, s)

end Moves

/-! ## the table -/

/-- the table names every position below `n` once -/
structure Names (p : ℕ → ℕ) (n : ℕ) : Prop where
  below : ∀ i < n, p i < n
  inj : ∀ i < n, ∀ j < n, p i = p j → i = j

theorem names_of_perm {tab : List ℕ} {n : ℕ} (h : tab.Perm (List.range n)) : Names (byteAt tab) n := by
  have hlen : tab.length = n := by rw [h.length_eq, List.length_range]
  have hnd : tab.Nodup := h.nodup_iff.mpr List.nodup_range
  constructor
  · intro i hi
    rw [byteAt_eq_getElem _ _ (hlen.symm ▸ hi)]
    exact List.mem_range.mp (h.mem_iff.mp (List.getElem_mem _))
  · intro i hi j hj he
    rw [byteAt_eq_getElem _ _ (hlen.symm ▸ hi), byteAt_eq_getElem _ _ (hlen.symm ▸ hj)] at he
    exact (List.Nodup.getElem_inj_iff hnd).mp he

/-! ## what the loops keep -/

section
variable {S V : Type} (m : Moves S V) (n : ℕ) (Valid : S → Prop) (p : ℕ → ℕ) (c : ℕ → V)

/-- the positions of `D` have their cells, and no others were touched -/
structure Done (D : Finset ℕ) (tab : List ℕ) (s : S) : Prop where
  length : tab.length = n
  valid : Valid s
  marked : ∀ i ∈ D, byteAt tab i = i
  named : ∀ i < n, i ∉ D → byteAt tab i = p i
  moved : ∀ i ∈ D, m.cell s i = c (p i)
  left : ∀ i < n, i ∉ D → m.cell s i = c i

variable {m n Valid p c}
variable (hm : m.Lawful n Valid) (hp : Names p n)

/-- one more position is done -/
theorem Done.insert {D : Finset ℕ} {tab : List ℕ} {s s' : S} (h : Done m n Valid p c D tab s) {x : ℕ}
    (hx : x < n) (hv : Valid s') (hs : ∀ i, m.cell s' i = if i = x then c (p x) else m.cell s i) :
    Done m n Valid p c (insert x D) (tab.set x x) s' where
  length := by rw [List.length_set, h.length]
  valid := hv
  marked i hi := by
    by_cases hix : i = x
    · rw [hix, byteAt_set_self _ _ _ (h.length.symm ▸ hx)]
    · rw [byteAt_set_ne _ _ _ _ hix]
      exact h.marked i (Finset.mem_of_mem_insert_of_ne hi hix)
  named i hi hiD := by
    obtain ⟨hix, hiD⟩ := not_or.mp fun h => hiD (Finset.mem_insert.mpr h)
    rw [byteAt_set_ne _ _ _ _ hix]
    exact h.named i hi hiD
  moved i hi := by
    rw [hs]
    by_cases hix : i = x
    · rw [if_pos hix, hix]
    · rw [if_neg hix]
      exact h.moved i (Finset.mem_of_mem_insert_of_ne hi hix)
  left i hi hiD := by
    obtain ⟨hix, hiD⟩ := not_or.mp fun h => hiD (Finset.mem_insert.mpr h)
    rw [hs, if_neg hix]
    exact h.left i hi hiD

/-- whole cycles are done -/
def Closed (n : ℕ) (p : ℕ → ℕ) (D : Finset ℕ) : Prop := ∀ i < n, i ∈ D ↔ p i ∈ D

/-- within a cycle: `D` was whole, and `W` leads from `ix` to `ix1` -/
structure OnCycle (n : ℕ) (p : ℕ → ℕ) (D W : Finset ℕ) (ix ix1 : ℕ) : Prop where
  closed : Closed n p D
  start : ix < n ∧ ix ∉ D
  here : ix1 < n ∧ ix1 ∉ D ∪ W
  subset : D ∪ W ⊆ Finset.range n
  origin : ix = ix1 ∨ ix ∈ W
  onward : ∀ i ∈ W, p i = ix1 ∨ p i ∈ W
  back : ∀ i, i = ix1 ∨ i ∈ W → i = ix ∨ ∃ j ∈ W, p j = i

include hp in
/-- the next position of a cycle is a new one -/
theorem OnCycle.next {D W : Finset ℕ} {ix ix1 : ℕ} (h : OnCycle n p D W ix ix1) (hne : p ix1 ≠ ix) :
    OnCycle n p D (insert ix1 W) ix (p ix1) := by
  obtain ⟨h1, h2⟩ := h.here
  have hW : ∀ j ∈ W, j < n := fun j hj => Finset.mem_range.mp (h.subset (Finset.mem_union_right D hj))
  have hback : p ix1 = ix1 ∨ p ix1 ∈ W → False := by
    intro hc
    rcases h.back _ hc with he | ⟨j, hj, he⟩
    · exact hne he
    · have hji := hp.inj j (hW j hj) ix1 h1 he
      exact h2 (Finset.mem_union_right D (hji ▸ hj))
  refine ⟨h.closed, h.start, ⟨hp.below ix1 h1, ?_⟩, ?_, Or.inr (Finset.mem_insert.mpr h.origin), ?_, ?_⟩
  · intro hmem
    rcases Finset.mem_union.mp hmem with hD | hW'
    · exact h2 (Finset.mem_union_left W ((h.closed ix1 h1).mpr hD))
    · exact hback (Finset.mem_insert.mp hW')
  · intro i hi
    rcases Finset.mem_union.mp hi with hD | hW'
    · exact h.subset (Finset.mem_union_left W hD)
    · rcases Finset.mem_insert.mp hW' with rfl | hi
      · exact Finset.mem_range.mpr h1
      · exact h.subset (Finset.mem_union_right D hi)
  · intro i hi
    rcases Finset.mem_insert.mp hi with rfl | hi
    · exact Or.inl rfl
    · right
      rcases h.onward i hi with he | hi
      · exact Finset.mem_insert.mpr (Or.inl he)
      · exact Finset.mem_insert_of_mem hi
  · intro i hi
    rcases hi with rfl | hi
    · exact Or.inr ⟨ix1, Finset.mem_insert_self _ _, rfl⟩
    · rcases h.back i (Finset.mem_insert.mp hi) with he | ⟨j, hj, he⟩
      · exact Or.inl he
      · exact Or.inr ⟨j, Finset.mem_insert_of_mem hj, he⟩

include hp in
/-- a cycle that has come back to its start is whole -/
theorem OnCycle.close {D W : Finset ℕ} {ix ix1 : ℕ} (h : OnCycle n p D W ix ix1) (he : p ix1 = ix) :
    Closed n p (insert ix1 (D ∪ W)) := by
  obtain ⟨h1, h2⟩ := h.here
  have hW : ∀ j ∈ W, j < n := fun j hj => Finset.mem_range.mp (h.subset (Finset.mem_union_right D hj))
  intro i hi
  simp only [Finset.mem_insert, Finset.mem_union]
  constructor
  · rintro (rfl | hD | hiW)
    · rw [he]
      exact h.origin.imp id Or.inr
    · exact Or.inr (Or.inl ((h.closed i hi).mp hD))
    · exact (h.onward i hiW).imp id Or.inr
  · intro hpi
    by_cases hD : p i ∈ D
    · exact Or.inr (Or.inl ((h.closed i hi).mpr hD))
    · have hback : p i = ix1 ∨ p i ∈ W := hpi.imp id fun h => h.resolve_left hD
      rcases h.back _ hback with hs | ⟨j, hj, hs⟩
      · exact Or.inl (hp.inj i hi ix1 h1 (hs.trans he.symm))
      · have hji := hp.inj j (hW j hj) i hi hs
        exact Or.inr (Or.inr (hji ▸ hj))

variable (hput : ∀ s a b i, Valid s → a < n → b < n →
  m.cell (m.put s a (c b)) i = if i = a then c b else m.cell s i)

include hm hp hput in
/-- the rest of a cycle is done before the fuel is out -/
theorem follow_done {D : Finset ℕ} {ix : ℕ} (fuel : ℕ) : ∀ {W : Finset ℕ} {ix1 : ℕ} {tab : List ℕ} {s : S},
    OnCycle n p D W ix ix1 → Done m n Valid p c (D ∪ W) tab s → n ≤ fuel + W.card →
    ∃ D' ⊆ Finset.range n, D ⊆ D' ∧ ix ∈ D' ∧ Closed n p D' ∧
      Done m n Valid p c D' (m.follow ix (c ix) fuel ix1 tab s).1 (m.follow ix (c ix) fuel ix1 tab s).2 := by
  induction fuel with
  | zero =>
    intro W ix1 tab s h hd hfuel
    -- `W` has less than `n` positions, since `ix1` is none of them
    have hW : insert ix1 W ⊆ Finset.range n := by
      intro i hi
      rcases Finset.mem_insert.mp hi with rfl | hi
      · exact Finset.mem_range.mpr h.here.1
      · exact h.subset (Finset.mem_union_right D hi)
    have hcard := Finset.card_le_card hW
    rw [Finset.card_range, Finset.card_insert_of_notMem fun hi => h.here.2 (Finset.mem_union_right D hi)]
      at hcard
    omega
  | succ fuel ih =>
    intro W ix1 tab s h hd hfuel
    obtain ⟨h1, h2⟩ := h.here
    have hnext : byteAt tab ix1 = p ix1 := hd.named ix1 h1 h2
    have hW : ix1 ∉ W := fun hi => h2 (Finset.mem_union_right D hi)
    rw [Moves.follow, hnext]
    by_cases hne : p ix1 ≠ ix
    · rw [if_pos hne]
      have hn := h.next hp hne
      have hleft : m.cell s (p ix1) = c (p ix1) := by
        refine hd.left _ hn.here.1 fun hi => hn.here.2 ?_
        rw [Finset.union_insert]
        exact Finset.mem_insert_of_mem hi
      refine ih hn ?_ (by rw [Finset.card_insert_of_notMem hW]; omega)
      rw [Finset.union_insert]
      refine hd.insert h1 (hm.validMove s _ _ hd.valid h1 hn.here.1) fun i => ?_
      rw [hm.cellMove s ix1 (p ix1) i hd.valid h1 hn.here.1, hleft]
    · rw [if_neg hne]
      have he : p ix1 = ix := not_not.mp hne
      refine ⟨insert ix1 (D ∪ W), ?_, ?_, ?_, h.close hp he, ?_⟩
      · exact Finset.insert_subset (Finset.mem_range.mpr h1) h.subset
      · exact fun i hi => Finset.mem_insert_of_mem (Finset.mem_union_left W hi)
      · rcases h.origin with ho | ho
        · exact Finset.mem_insert.mpr (Or.inl ho)
        · exact Finset.mem_insert_of_mem (Finset.mem_union_right D ho)
      · refine hd.insert h1 (hm.validPut s _ _ hd.valid h1) fun i => ?_
        rw [hput s ix1 ix i hd.valid h1 h.start.1, he]

include hm hp hput in
/-- the positions before `ix` are done, and `ix` is after its turn -/
theorem visit_done {D : Finset ℕ} {ix : ℕ} {w : List ℕ × S} (hix : ix < n) (hc : Closed n p D)
    (hsub : D ⊆ Finset.range n) (hd : Done m n Valid p c D w.1 w.2) :
    ∃ D' ⊆ Finset.range n, D ⊆ D' ∧ ix ∈ D' ∧ Closed n p D' ∧
      Done m n Valid p c D' (m.visit n w ix).1 (m.visit n w ix).2 := by
  rw [Moves.visit]
  by_cases hD : ix ∈ D
  · rw [if_neg (not_not.mpr (hd.marked ix hD).symm)]
    exact ⟨D, hsub, Finset.Subset.refl D, hD, hc, hd⟩
  · by_cases hne : ix ≠ byteAt w.1 ix
    · rw [if_pos hne, hd.left ix hix hD]
      have hstart : OnCycle n p D ∅ ix ix := by
        refine ⟨hc, ⟨hix, hD⟩, ⟨hix, ?_⟩, ?_, Or.inl rfl, ?_, ?_⟩
        · rw [Finset.union_empty]
          exact hD
        · rw [Finset.union_empty]
          exact hsub
        · exact fun i hi => absurd hi (Finset.notMem_empty i)
        · rintro i (hi | hi)
          · exact Or.inl hi
          · exact absurd hi (Finset.notMem_empty i)
      exact follow_done hm hp hput n hstart (by rw [Finset.union_empty]; exact hd) (Nat.le_add_right _ _)
    · rw [if_neg hne]
      -- a position that has its own cell is done as it is
      have he : p ix = ix := by rw [← hd.named ix hix hD, ← not_not.mp hne]
      refine ⟨insert ix D, Finset.insert_subset (Finset.mem_range.mpr hix) hsub, Finset.subset_insert _ _,
        Finset.mem_insert_self _ _, ?_, hd.length, hd.valid, ?_,
        fun i hi hiD => hd.named i hi fun h => hiD (Finset.mem_insert_of_mem h), ?_,
        fun i hi hiD => hd.left i hi fun h => hiD (Finset.mem_insert_of_mem h)⟩
      · intro i hi
        simp only [Finset.mem_insert]
        have hpi : p i = ix ↔ i = ix := ⟨fun h => hp.inj i hi ix hix (h.trans he.symm), fun h => h ▸ he⟩
        rw [hpi, ← hc i hi]
      · intro i hi
        rcases Finset.mem_insert.mp hi with rfl | hi
        · exact (not_not.mp hne).symm
        · exact hd.marked i hi
      · intro i hi
        rcases Finset.mem_insert.mp hi with rfl | hi
        · rw [hd.left i hix hD, he]
        · exact hd.moved i hi

end

section
variable {S V : Type} {m : Moves S V} {n : ℕ} {Valid : S → Prop}

/-- at the end every position has the cell that the table named -/
theorem reorder_cell (hm : m.Lawful n Valid) {tab : List ℕ} (ht : tab.Perm (List.range n)) {s : S}
    (hs : Valid s) :
    Valid (m.reorder n tab s).2 ∧ ∀ i < n, m.cell (m.reorder n tab s).2 i = m.cell s (byteAt tab i) := by
  have hp := names_of_perm ht
  have hput : ∀ s' a b i, Valid s' → a < n → b < n →
      m.cell (m.put s' a (m.cell s b)) i = if i = a then m.cell s b else m.cell s' i :=
    fun s' a b i hv ha hb => hm.cellPut s' s a b i hv hs ha hb
  have hlen : tab.length = n := by rw [ht.length_eq, List.length_range]
  have key : ∀ k ≤ n, ∃ D : Finset ℕ, (∀ i < k, i ∈ D) ∧ D ⊆ Finset.range n ∧ Closed n (byteAt tab) D ∧
      Done m n Valid (byteAt tab) (m.cell s) D ((List.range k).foldl (m.visit n) (tab, s)).1
        ((List.range k).foldl (m.visit n) (tab, s)).2 := by
    intro k
    induction k with
    | zero =>
      intro _
      refine ⟨∅, fun i hi => absurd hi (Nat.not_lt_zero i), Finset.empty_subset _, fun i _ => ?_, hlen, hs,
        fun i hi => absurd hi (Finset.notMem_empty i), fun _ _ _ => rfl,
        fun i hi => absurd hi (Finset.notMem_empty i), fun _ _ _ => rfl⟩
      exact ⟨fun h => absurd h (Finset.notMem_empty _), fun h => absurd h (Finset.notMem_empty _)⟩
    | succ k ih =>
      intro hk
      obtain ⟨D, hbefore, hsub, hc, hd⟩ := ih (Nat.le_of_succ_le hk)
      obtain ⟨D', hsub', hDD, hkD, hc', hd'⟩ := visit_done hm hp hput hk hc hsub hd
      rw [List.range_succ, List.foldl_append, List.foldl_cons, List.foldl_nil]
      refine ⟨D', fun i hi => ?_, hsub', hc', hd'⟩
      rcases Nat.lt_succ_iff_lt_or_eq.mp hi with hlt | rfl
      · exact hDD (hbefore i hlt)
      · exact hkD
  obtain ⟨D, hall, -, -, hd⟩ := key n (le_refl n)
  exact ⟨hd.valid, fun i hi => hd.moved i (hall i hi)⟩

end
end InPlace
