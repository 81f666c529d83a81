import OpenWatcom.Wpack.LongestMatch

/-!
# One tree for each first byte: `encode.c`

* `Forest`     the links are search trees, and a node is registered only in the tree of its first byte
* `insertNode_forest`, `deleteNode_forest`     the two operations keep this
* `Forest.text_changed`     so does a change of bytes that no string of a node reaches
* `Holds`     the same by the set of the nodes
-/

namespace Wpack

open BinaryTree SearchTrees LinkedTrees

/-- the place of `rson` where a tree begins -/
def root (c : UInt8) : ℕ := strbufSize + 1 + c.toNat

structure Forest (text : ℕ → UInt8) (k : Links ℕ) (trees : UInt8 → BinaryTree ℕ) : Prop where
  hangs : ∀ c, Hangs nilNode k (trees c) (k.rson (root c)) (root c)
  ordered : ∀ c, Ordered (stringAt text) (trees c)
  place : ∀ c, ∀ p ∈ inorder (trees c), p < strbufSize ∧ text p = c
  registered : ∀ p < strbufSize, k.dad p ≠ nilNode → p ∈ inorder (trees (text p))

section
variable {text : ℕ → UInt8} {k : Links ℕ} {trees : UInt8 → BinaryTree ℕ} {p r : ℕ}

theorem root_ne {c d : UInt8} (h : c ≠ d) : root c ≠ root d := by
  intro e
  exact h (UInt8.toNat_inj.mp (Nat.add_left_cancel e))

theorem ne_root (c : UInt8) (h : p < strbufSize) : p ≠ root c := by
  rw [root]
  omega

theorem Forest.root_notMem (h : Forest text k trees) (c d : UInt8) : root d ∉ inorder (trees c) :=
  fun hm => ne_root d (h.place c _ hm).1 rfl

theorem Forest.hung (h : Forest text k trees) (c : UInt8) : Hung nilNode k (trees c) (root c) true :=
  ⟨h.hangs c, (h.ordered c).nodup, h.root_notMem c c, fun e => absurd e (by decide), fun e => by
    rw [root, nilNode] at e
    omega⟩

theorem Forest.length_le (h : Forest text k trees) (c : UInt8) : (inorder (trees c)).length ≤ strbufSize := by
  have hsub : inorder (trees c) ⊆ List.range strbufSize := fun p hp => List.mem_range.mpr (h.place c p hp).1
  have hle := ((h.ordered c).nodup.subperm hsub).length_le
  rwa [List.length_range] at hle

theorem Forest.apart (h : Forest text k trees) {c d : UInt8} (hc : p ∈ inorder (trees c))
    (hd : p ∈ inorder (trees d)) : c = d :=
  (h.place c p hc).2.symm.trans (h.place d p hd).2

theorem dad_ne {t : BinaryTree ℕ} {top g : ℕ} (h : Hangs nilNode k t top g) (hg : g ≠ nilNode) :
    ∀ y ∈ inorder t, k.dad y ≠ nilNode := by
  induction t generalizing top g with
  | nil => exact fun y hy => absurd hy List.not_mem_nil
  | node p l r ihl ihr =>
    obtain ⟨-, hp, hd, hl, hr⟩ := h
    intro y hy
    rcases mem_node.mp hy with rfl | hy | hy
    · rw [hd]
      exact hg
    · exact ihl hl hp y hy
    · exact ihr hr hp y hy

/-- only in one tree, and below its root, links have changed -/
theorem Forest.step (h : Forest text k trees) {k' : Links ℕ} {s : List ℕ} {c : UInt8}
    (hf : Frame nilNode k k' s (root c) true) (hs : ∀ y ∈ s, y < strbufSize ∧ text y = c) {t : BinaryTree ℕ}
    (hh : Hangs nilNode k' t (k'.rson (root c)) (root c)) (ho : Ordered (stringAt text) t)
    (ht : ∀ y ∈ inorder t, y ∈ s) (hold : ∀ y ∈ inorder (trees c), y ∈ s)
    (hgone : ∀ y ∈ s, y ∉ inorder t → k'.dad y = nilNode) :
    Forest text k' (Function.update trees c t) := by
  refine ⟨fun d => ?_, fun d => ?_, fun d => ?_, fun p hp hd => ?_⟩
  · by_cases hdc : d = c
    · rw [hdc, Function.update_self]
      exact hh
    · have hroot : root d ∉ s := fun hm => ne_root d (hs _ hm).1 rfl
      rw [Function.update_of_ne hdc, hf.rson _ hroot fun e => absurd e (root_ne hdc)]
      refine hf.hangs (h.hangs d) (fun y hy hy' => ?_) (h.root_notMem d c)
      exact hdc ((h.place d y hy).2.symm.trans (hs y hy').2)
  · by_cases hdc : d = c
    · rw [hdc, Function.update_self]
      exact ho
    · rw [Function.update_of_ne hdc]
      exact h.ordered d
  · by_cases hdc : d = c
    · rw [hdc, Function.update_self]
      exact fun y hy => hs y (ht y hy)
    · rw [Function.update_of_ne hdc]
      exact h.place d
  · by_cases hps : p ∈ s
    · rw [(hs p hps).2, Function.update_self]
      by_contra hm
      exact hd (hgone p hps hm)
    · have hreg := h.registered p hp (by
        rw [← hf.dad p hps (Nat.ne_of_lt hp)]
        exact hd)
      by_cases hpc : text p = c
      · rw [hpc] at hreg
        exact absurd (hold p hreg) hps
      · rwa [Function.update_of_ne hpc]

/-- the links of a node that is in no tree may be anything -/
theorem Forest.unused (h : Forest text k trees) {k' : Links ℕ} (hr : r < strbufSize) (hreg : k.dad r = nilNode)
    (hl : ∀ y, y ≠ r → k'.lson y = k.lson y) (hrs : ∀ y, y ≠ r → k'.rson y = k.rson y) (hd : k'.dad = k.dad) :
    Forest text k' trees := by
  have hroot : ∀ c, root c ≠ r := fun c e => ne_root c hr e.symm
  have hne : ∀ c, r ∉ inorder (trees c) := fun c hm =>
    dad_ne (h.hangs c) (h.hung c).ne r hm hreg
  refine ⟨fun c => ?_, h.ordered, h.place, by rw [hd]; exact h.registered⟩
  rw [hrs _ (hroot c)]
  refine (h.hangs c).congr fun y hy => ?_
  have hyr : y ≠ r := fun e => hne c (e ▸ hy)
  exact ⟨hl y hyr, hrs y hyr, by rw [hd]⟩

/-- a string goes into the tree of its first byte, and the longest match is found -/
theorem insertNode_forest {n : Nodes} (h : Forest text n.toLinks trees) (hr : r < strbufSize)
    (hreg : n.dad r = nilNode) :
    ∃ n', insertNode text r n = some n' ∧
      Forest text n'.toLinks (Function.update trees (text r) (put (stringAt text) r (trees (text r)))) ∧
      Real text r {y | ∃ c, y ∈ inorder (trees c)} n' ∧ ∀ c, ∀ y ∈ inorder (trees c), ∀ k ≤ laheadSize,
        Agree k (stringAt text r) (stringAt text y) → k ≤ max n'.matchLength threshold := by
  have hrn : r ≠ nilNode := Nat.ne_of_lt hr
  have hrr : r ≠ root (text r) := ne_root _ hr
  have h0 : Forest text ((n.setChild r false nilNode).setChild r true nilNode) trees := by
    refine h.unused hr hreg (fun y hy => ?_) (fun y hy => ?_) ?_
    · rw [setChild_lson fun _ => rfl, setChild_lson fun e => absurd e hy]
    · rw [setChild_rson fun e => absurd e hy, setChild_rson fun _ => rfl]
    · rw [setChild_dad, setChild_dad]
  have hrm : ∀ c, r ∉ inorder (trees c) := fun c hm => dad_ne (h.hangs c) (h.hung c).ne r hm hreg
  have hlen := h.length_le (text r)
  obtain ⟨n', hn', hins⟩ := insertLoop_spec {y | ∃ c, y ∈ inorder (trees c)} hrn (strbufSize + 1) (root (text r)) 1
    { n with toLinks := (n.setChild r false nilNode).setChild r true nilNode, matchLength := 0 }
    (h0.hung (text r)) (hrm _) hrr ((setChild_lson (fun _ => rfl) _).trans (setChild_self r nilNode false))
    (setChild_self r nilNode true) (Nat.lt_succ_of_le hlen) (h0.ordered _)
    (fun y hy => ⟨(h.place _ y hy).2, text r, hy⟩) (Or.inl rfl) (show 0 < laheadSize by decide)
  have hput := fun y => mem_put (x := r) (y := y) (h.ordered (text r))
  refine ⟨n', hn', ?_, hins.real, fun c y hy k hk ha => ?_⟩
  · refine h0.step hins.frame (fun y hy => ?_) hins.hangs ((h.ordered _).put r) (fun y hy => ?_) (fun y hy => ?_)
      fun y hy hy' => ?_
    · rcases List.mem_cons.mp hy with rfl | hy
      · exact ⟨hr, rfl⟩
      · exact h.place _ y hy
    · rcases (hput y).mp hy with rfl | ⟨hy, -⟩
      · exact List.mem_cons_self
      · exact List.mem_cons_of_mem r hy
    · exact List.mem_cons_of_mem r hy
    · rcases List.mem_cons.mp hy with rfl | hy
      · exact absurd ((hput _).mpr (Or.inl rfl)) hy'
      · exact hins.gone y hy hy'
  · by_cases hc : c = text r
    · exact hins.longest y (hc ▸ hy) k hk ha
    · refine le_max_of_le_right ?_
      by_contra hlt
      refine hc ?_
      rw [← (h.place c y hy).2]
      exact ((agree_iff hk).mp ha 0 (by omega)).symm

/-- a node goes out of its tree; nothing is done where it is in none -/
theorem deleteNode_forest (h : Forest text k trees) (hp : p < strbufSize) :
    ∃ k', deleteNode p k = some k' ∧ k'.dad p = nilNode ∧ Forest text k' fun c => erase p (trees c) := by
  by_cases hreg : k.dad p = nilNode
  · have hno : ∀ c, erase p (trees c) = trees c := fun c => erase_of_notMem fun hm =>
      dad_ne (h.hangs c) (h.hung c).ne p hm hreg
    refine ⟨k, ?_, hreg, ?_⟩
    · rw [deleteNode, if_pos hreg]
    · simp only [hno]
      exact h
  · have hin := h.registered p hp hreg
    obtain ⟨k', hk', hdone, hh, hf⟩ := (h.hung (text p)).erased (deleteNode p k)
      (fun k' => k'.dad p = nilNode) (n := strbufSize) (fun l r g b hj hn => deleteNode_join hj hn) hin (h.length_le _)
    have hmem := fun y => mem_erase (x := p) (y := y) (h.ordered (text p)).nodup
    have hstep := h.step hf (h.place _) hh ((h.ordered _).erase p) (fun y hy => ((hmem y).mp hy).1)
      (fun y hy => hy) fun y hy hy' => by
        rw [hmem] at hy'
        rw [not_not.mp fun hne => hy' ⟨hy, hne⟩]
        exact hdone
    have he : Function.update trees (text p) (erase p (trees (text p))) = fun c => erase p (trees c) := by
      funext c
      by_cases hc : c = text p
      · rw [hc, Function.update_self]
      · rw [Function.update_of_ne hc, erase_of_notMem fun hm => hc (h.apart hm hin)]
    exact ⟨k', hk', hdone, he ▸ hstep⟩

/-- bytes change that no string of a node reaches -/
theorem Forest.text_changed (h : Forest text k trees) {text' : ℕ → UInt8}
    (ht : ∀ c, ∀ p ∈ inorder (trees c), ∀ i < laheadSize, text' (p + i) = text (p + i)) : Forest text' k trees := by
  have hstring : ∀ c, ∀ p ∈ inorder (trees c), stringAt text' p = stringAt text p := by
    intro c p hp
    funext i
    exact congrArg UInt8.toNat (ht c p hp i.val i.isLt)
  have hfirst : ∀ c, ∀ p ∈ inorder (trees c), text' p = text p := fun c p hp => ht c p hp 0 (by decide)
  refine ⟨h.hangs, fun c => ?_, fun c p hp => ?_, fun p hp hd => ?_⟩
  · refine List.Pairwise.imp_of_mem (fun {x y} hx hy hlt => ?_) (h.ordered c)
    rw [hstring c x hx, hstring c y hy]
    exact hlt
  · rw [hfirst c p hp]
    exact h.place c p hp
  · have hreg := h.registered p hp hd
    rwa [hfirst _ p hreg]

/-- `InitTree` leaves no tree -/
theorem initTree_forest (text : ℕ → UInt8) (n : Nodes) : Forest text (initTree n).toLinks fun _ => nil := by
  refine ⟨fun c => ?_, fun _ => ordered_nil, fun _ p hp => absurd hp List.not_mem_nil, fun p hp hd => ?_⟩
  · have hc := c.toNat_lt
    exact if_pos ⟨by rw [root]; omega, by rw [root]; omega⟩
  · exact absurd (if_pos hp) hd

/-! ## the set of the nodes -/

/-- the links are the trees of the nodes `ns` -/
def Holds (text : ℕ → UInt8) (k : Links ℕ) (ns : Set ℕ) : Prop :=
  ∃ trees, Forest text k trees ∧ ns = {y | ∃ c, y ∈ inorder (trees c)}

variable {ns : Set ℕ}

theorem Holds.lt (h : Holds text k ns) {y : ℕ} (hy : y ∈ ns) : y < strbufSize := by
  obtain ⟨trees, hf, rfl⟩ := h
  obtain ⟨c, hc⟩ := hy
  exact (hf.place c y hc).1

theorem Holds.unregistered (h : Holds text k ns) (hr : r < strbufSize) (hns : r ∉ ns) : k.dad r = nilNode := by
  obtain ⟨trees, hf, rfl⟩ := h
  by_contra hd
  exact hns ⟨text r, hf.registered r hr hd⟩

theorem initTree_holds (text : ℕ → UInt8) (n : Nodes) : Holds text (initTree n).toLinks ∅ := by
  refine ⟨fun _ => nil, initTree_forest text n, ?_⟩
  ext y
  exact ⟨fun h => absurd h (Set.notMem_empty y), fun ⟨_, hc⟩ => absurd hc List.not_mem_nil⟩

/-- a new string takes the place of an equal one -/
theorem insertNode_holds {n : Nodes} (h : Holds text n.toLinks ns) (hr : r < strbufSize) (hns : r ∉ ns) :
    ∃ n', insertNode text r n = some n' ∧
      Holds text n'.toLinks {y | y = r ∨ (y ∈ ns ∧ stringAt text y ≠ stringAt text r)} ∧
      Real text r ns n' ∧ ∀ y ∈ ns, ∀ k ≤ laheadSize, Agree k (stringAt text r) (stringAt text y) →
        k ≤ max n'.matchLength threshold := by
  have hreg := h.unregistered hr hns
  obtain ⟨trees, hf, rfl⟩ := h
  obtain ⟨n', hn', hf', hreal, hlong⟩ := insertNode_forest hf hr hreg
  refine ⟨n', hn', ⟨_, hf', ?_⟩, hreal, fun y hy => ?_⟩
  · have hput := fun y => mem_put (x := r) (y := y) (hf.ordered (text r))
    have hfirst : ∀ y, stringAt text y = stringAt text r → text y = text r := fun y e =>
      UInt8.toNat_inj.mp (congrFun e ⟨0, by decide⟩)
    ext y
    constructor
    · rintro (rfl | ⟨⟨c, hc⟩, hne⟩)
      · refine ⟨text y, ?_⟩
        rw [Function.update_self]
        exact (hput y).mpr (Or.inl rfl)
      · refine ⟨c, ?_⟩
        by_cases hcr : c = text r
        · subst hcr
          rw [Function.update_self]
          exact (hput y).mpr (Or.inr ⟨hc, hne⟩)
        · rwa [Function.update_of_ne hcr]
    · rintro ⟨c, hc⟩
      by_cases hcr : c = text r
      · subst hcr
        rw [Function.update_self] at hc
        exact ((hput y).mp hc).imp_right fun hy => ⟨⟨text r, hy.1⟩, hy.2⟩
      · rw [Function.update_of_ne hcr] at hc
        refine Or.inr ⟨⟨c, hc⟩, fun e => hcr ?_⟩
        rw [← (hf.place c y hc).2]
        exact hfirst y e
  · obtain ⟨c, hc⟩ := hy
    exact hlong c y hc

theorem deleteNode_holds (h : Holds text k ns) (hp : p < strbufSize) :
    ∃ k', deleteNode p k = some k' ∧ Holds text k' {y | y ∈ ns ∧ y ≠ p} := by
  obtain ⟨trees, hf, rfl⟩ := h
  obtain ⟨k', hk', -, hf'⟩ := deleteNode_forest hf hp
  refine ⟨k', hk', _, hf', ?_⟩
  ext y
  have hmem := fun c => mem_erase (x := p) (y := y) (hf.ordered c).nodup
  simp only [Set.mem_ofPred_eq, hmem]
  exact ⟨fun ⟨⟨c, hc⟩, hne⟩ => ⟨c, hc, hne⟩, fun ⟨c, hc, hne⟩ => ⟨⟨c, hc⟩, hne⟩⟩

theorem Holds.text_changed (h : Holds text k ns) {text' : ℕ → UInt8}
    (ht : ∀ p ∈ ns, ∀ i < laheadSize, text' (p + i) = text (p + i)) : Holds text' k ns := by
  obtain ⟨trees, hf, rfl⟩ := h
  exact ⟨trees, hf.text_changed fun c p hp => ht p ⟨c, hp⟩, rfl⟩

end

end Wpack
