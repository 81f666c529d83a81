import OpenWatcom.Lib.SearchTrees

/-!
# Binary trees in arrays of links

A node has links to its two sons and to its dad; `none` stands where there is no node.

* `Hangs none k t top g`     the links `k` from `top` on are the tree `t`, and `g` is its dad
* `Hung none k t g b`     the tree hangs at `g`, on the right where `b` holds
* `Frame none k k' s g b`     from `k` to `k'` only links of the nodes `s` and one of `g` change
* `setChild`, `setDad`, `relink`     one link changes; the link that leads to a node is found by its dad
* `Hung.left_changed`, `Hung.right_changed`     a change below a node is a change of its tree
* `Hung.erased`     where a step joins the trees below a node, it takes the node out
-/

namespace LinkedTrees

open BinaryTree SearchTrees

@[ext]
structure Links (ν : Type*) where
  lson : ν → ν
  rson : ν → ν
  dad : ν → ν

section
variable {ν : Type*} {none : ν}

/-- the link of `g` to its son on the right or on the left -/
def Links.child (k : Links ν) (g : ν) (b : Bool) : ν := if b then k.rson g else k.lson g

def Hangs (none : ν) (k : Links ν) : BinaryTree ν → ν → ν → Prop
  | nil, top, _ => top = none
  | node p l r, top, g =>
    top = p ∧ p ≠ none ∧ k.dad p = g ∧ Hangs none k l (k.lson p) p ∧ Hangs none k r (k.rson p) p

structure Hung (none : ν) (k : Links ν) (t : BinaryTree ν) (g : ν) (b : Bool) : Prop where
  hangs : Hangs none k t (k.child g b) g
  nodup : (inorder t).Nodup
  above : g ∉ inorder t
  other : b = false → k.rson g ∉ inorder t
  ne : g ≠ none

structure Frame (none : ν) (k k' : Links ν) (s : List ν) (g : ν) (b : Bool) : Prop where
  lson : ∀ y, y ∉ s → (y = g → b = true) → k'.lson y = k.lson y
  rson : ∀ y, y ∉ s → (y = g → b = false) → k'.rson y = k.rson y
  dad : ∀ y, y ∉ s → y ≠ none → k'.dad y = k.dad y

variable {k k' : Links ν} {t l r : BinaryTree ν} {top g p : ν} {b : Bool}

theorem Hangs.none_notMem (h : Hangs none k t top g) : none ∉ inorder t := by
  induction t generalizing top g with
  | nil => exact List.not_mem_nil
  | node p l r ihl ihr =>
    obtain ⟨-, hp, -, hl, hr⟩ := h
    intro hm
    rcases mem_node.mp hm with e | hm | hm
    · exact hp e.symm
    · exact ihl hl hm
    · exact ihr hr hm

theorem Hangs.top_mem (h : Hangs none k t top g) : top = none ∨ top ∈ inorder t := by
  cases t with
  | nil => exact Or.inl h
  | node p l r => exact Or.inr (mem_node.mpr (Or.inl h.1))

theorem Hangs.eq_nil (h : Hangs none k t none g) : t = nil := by
  cases t with
  | nil => rfl
  | node p l r => exact absurd h.1.symm h.2.1

theorem Hangs.congr (h : Hangs none k t top g)
    (hk : ∀ y ∈ inorder t, k'.lson y = k.lson y ∧ k'.rson y = k.rson y ∧ k'.dad y = k.dad y) :
    Hangs none k' t top g := by
  induction t generalizing top g with
  | nil => exact h
  | node p l r ihl ihr =>
    obtain ⟨htop, hp, hg, hl, hr⟩ := h
    obtain ⟨el, er, ed⟩ := hk p (mem_node.mpr (Or.inl rfl))
    refine ⟨htop, hp, ed.trans hg, ?_, ?_⟩
    · rw [el]
      exact ihl hl fun y hy => hk y (mem_node.mpr (Or.inr (Or.inl hy)))
    · rw [er]
      exact ihr hr fun y hy => hk y (mem_node.mpr (Or.inr (Or.inr hy)))

/-- a tree gets another dad -/
theorem Hangs.moved (h : Hangs none k t top g) (hnd : (inorder t).Nodup) {x : ν}
    (hson : ∀ y ∈ inorder t, k'.lson y = k.lson y ∧ k'.rson y = k.rson y)
    (hdad : ∀ y ∈ inorder t, y ≠ top → k'.dad y = k.dad y) (htop : top ∈ inorder t → k'.dad top = x) :
    Hangs none k' t top x := by
  cases t with
  | nil => exact h
  | node p l r =>
    obtain ⟨rfl, hp, -, hl, hr⟩ := h
    obtain ⟨-, -, hpl, hpr, -⟩ := nodup_node hnd
    have hm : top ∈ inorder (node top l r) := mem_node.mpr (Or.inl rfl)
    refine ⟨rfl, hp, htop hm, ?_, ?_⟩
    · rw [(hson top hm).1]
      refine hl.congr fun y hy => ?_
      have hy' : y ∈ inorder (node top l r) := mem_node.mpr (Or.inr (Or.inl hy))
      exact ⟨(hson y hy').1, (hson y hy').2, hdad y hy' fun e => hpl (e ▸ hy)⟩
    · rw [(hson top hm).2]
      refine hr.congr fun y hy => ?_
      have hy' : y ∈ inorder (node top l r) := mem_node.mpr (Or.inr (Or.inr hy))
      exact ⟨(hson y hy').1, (hson y hy').2, hdad y hy' fun e => hpr (e ▸ hy)⟩

/-! ## the trees below a node -/

theorem Hung.top_eq (h : Hung none k (node p l r) g b) : k.child g b = p := h.hangs.1

theorem Hung.ne_none (h : Hung none k (node p l r) g b) : p ≠ none := h.hangs.2.1

theorem Hung.dad_eq (h : Hung none k (node p l r) g b) : k.dad p = g := h.hangs.2.2.1

theorem Hung.ne_dad (h : Hung none k (node p l r) g b) : p ≠ g :=
  fun e => h.above (mem_node.mpr (Or.inl e.symm))

theorem Hung.left (h : Hung none k (node p l r) g b) : Hung none k l p false := by
  obtain ⟨hl, -, hpl, -, hd⟩ := nodup_node h.nodup
  refine ⟨h.hangs.2.2.2.1, hl, hpl, fun _ hm => ?_, h.ne_none⟩
  rcases h.hangs.2.2.2.2.top_mem with e | hm'
  · exact h.hangs.2.2.2.1.none_notMem (e ▸ hm)
  · exact hd _ hm hm'

theorem Hung.right (h : Hung none k (node p l r) g b) : Hung none k r p true := by
  obtain ⟨-, hr, -, hpr, -⟩ := nodup_node h.nodup
  exact ⟨h.hangs.2.2.2.2, hr, hpr, fun e => absurd e (by decide), h.ne_none⟩

theorem Frame.up {s s' : List ν} (h : Frame none k k' s p b) (hs : ∀ y ∈ s, y ∈ s') (hp : p ∈ s') (g : ν)
    (b' : Bool) : Frame none k k' s' g b' :=
  ⟨fun y hy _ => h.lson y (fun hm => hy (hs y hm)) fun e => absurd (e ▸ hp) hy,
    fun y hy _ => h.rson y (fun hm => hy (hs y hm)) fun e => absurd (e ▸ hp) hy,
    fun y hy hne => h.dad y (fun hm => hy (hs y hm)) hne⟩

theorem Frame.mono {s s' : List ν} (h : Frame none k k' s g b) (hs : ∀ y ∈ s, y ∈ s') :
    Frame none k k' s' g b :=
  ⟨fun y hy => h.lson y fun hm => hy (hs y hm), fun y hy => h.rson y fun hm => hy (hs y hm),
    fun y hy => h.dad y fun hm => hy (hs y hm)⟩

theorem Frame.trans {k'' : Links ν} {s : List ν} (h : Frame none k k' s g b) (h' : Frame none k' k'' s g b) :
    Frame none k k'' s g b :=
  ⟨fun y hy hg => (h'.lson y hy hg).trans (h.lson y hy hg), fun y hy hg => (h'.rson y hy hg).trans (h.rson y hy hg),
    fun y hy hne => (h'.dad y hy hne).trans (h.dad y hy hne)⟩

/-- a tree whose nodes are not among those that change -/
theorem Frame.hangs {s : List ν} (hf : Frame none k k' s g b) (h : Hangs none k t top p)
    (hs : ∀ y ∈ inorder t, y ∉ s) (hg : g ∉ inorder t) : Hangs none k' t top p :=
  h.congr fun y hy =>
    have hne : y ≠ g := fun e => hg (e ▸ hy)
    ⟨hf.lson y (hs y hy) fun e => absurd e hne, hf.rson y (hs y hy) fun e => absurd e hne,
      hf.dad y (hs y hy) fun e => h.none_notMem (e ▸ hy)⟩

theorem Frame.child {s : List ν} (hf : Frame none k k' s p b) {c : Bool} (hg : g ∉ s) (hne : g ≠ p) :
    k'.child g c = k.child g c := by
  cases c
  · exact hf.lson g hg fun e => absurd e hne
  · exact hf.rson g hg fun e => absurd e hne

/-- what changes below a node on its left -/
theorem Hung.left_changed (h : Hung none k (node p l r) g b) {s : List ν} (hf : Frame none k k' s p false)
    (hg : g ∉ s) (hp : p ∉ s) (hr : ∀ y ∈ inorder r, y ∉ s) {l' : BinaryTree ν}
    (hl' : Hangs none k' l' (k'.child p false) p) : Hangs none k' (node p l' r) (k'.child g b) g := by
  have hne := h.ne_dad
  refine ⟨?_, h.ne_none, ?_, hl', ?_⟩
  · rw [hf.child hg hne.symm, h.top_eq]
  · rw [hf.dad p hp h.ne_none, h.dad_eq]
  · rw [hf.rson p hp fun _ => rfl]
    exact hf.hangs h.right.hangs hr h.right.above

theorem Hung.right_changed (h : Hung none k (node p l r) g b) {s : List ν} (hf : Frame none k k' s p true)
    (hg : g ∉ s) (hp : p ∉ s) (hl : ∀ y ∈ inorder l, y ∉ s) {r' : BinaryTree ν}
    (hr' : Hangs none k' r' (k'.child p true) p) : Hangs none k' (node p l r') (k'.child g b) g := by
  have hne := h.ne_dad
  refine ⟨?_, h.ne_none, ?_, ?_, hr'⟩
  · rw [hf.child hg hne.symm, h.top_eq]
  · rw [hf.dad p hp h.ne_none, h.dad_eq]
  · rw [hf.lson p hp fun _ => rfl]
    exact hf.hangs h.left.hangs hl h.left.above

end

/-! ## the link to a node -/

section
variable {ν : Type*} [DecidableEq ν] {none : ν} {k : Links ν}

def Links.setChild (k : Links ν) (g : ν) (b : Bool) (x : ν) : Links ν :=
  if b then { k with rson := Function.update k.rson g x } else { k with lson := Function.update k.lson g x }

def Links.setDad (k : Links ν) (p g : ν) : Links ν := { k with dad := Function.update k.dad p g }

@[simp]
theorem setDad_lson (p g : ν) : (k.setDad p g).lson = k.lson := rfl

@[simp]
theorem setDad_rson (p g : ν) : (k.setDad p g).rson = k.rson := rfl

@[simp]
theorem setDad_child (p g y : ν) (b : Bool) : (k.setDad p g).child y b = k.child y b := rfl

theorem setDad_self (p g : ν) : (k.setDad p g).dad p = g := by
  show Function.update k.dad p g p = g
  rw [Function.update_self]

theorem setDad_of_ne {p y : ν} (h : y ≠ p) (g : ν) : (k.setDad p g).dad y = k.dad y := by
  show Function.update k.dad p g y = k.dad y
  rw [Function.update_of_ne h]

@[simp]
theorem setChild_dad (g x : ν) (b : Bool) : (k.setChild g b x).dad = k.dad := by
  cases b <;> rfl

theorem setChild_self (g x : ν) (b : Bool) : (k.setChild g b x).child g b = x := by
  cases b with
  | false => exact Function.update_self g x k.lson
  | true => exact Function.update_self g x k.rson

theorem setChild_lson {g y : ν} {b : Bool} (hy : y = g → b = true) (x : ν) :
    (k.setChild g b x).lson y = k.lson y := by
  cases b with
  | false => exact Function.update_of_ne (fun e => absurd (hy e) (by decide)) x k.lson
  | true => rfl

theorem setChild_rson {g y : ν} {b : Bool} (hy : y = g → b = false) (x : ν) :
    (k.setChild g b x).rson y = k.rson y := by
  cases b with
  | false => rfl
  | true => exact Function.update_of_ne (fun e => absurd (hy e) (by decide)) x k.rson

/-- the link that leads from its dad to `p` leads to `q` -/
def relink (p q : ν) (k : Links ν) : Links ν :=
  if k.rson (k.dad p) = p then k.setChild (k.dad p) true q else k.setChild (k.dad p) false q

/-- a link on the left is found because the one on the right does not lead there -/
theorem relink_eq {p g : ν} {b : Bool} (hdad : k.dad p = g) (hchild : k.child g b = p)
    (hother : b = false → k.rson g ≠ p) (q : ν) : relink p q k = k.setChild g b q := by
  rw [relink, hdad]
  cases b with
  | false => rw [if_neg (hother rfl)]
  | true => rw [if_pos (show k.rson g = p from hchild)]

/-! ## a node goes out -/

/-- where a step joins the trees below `x` in its place, it takes `x` out of the tree that it is in -/
theorem Hung.erased (step : Option (Links ν)) (done : Links ν → Prop) {x : ν} {n : ℕ}
    (hjoin : ∀ l r g b, Hung none k (node x l r) g b → (inorder (node x l r)).length ≤ n →
      ∃ k', step = some k' ∧ done k' ∧ Hangs none k' (join l r) (k'.child g b) g ∧
        Frame none k k' (inorder (node x l r)) g b)
    {t : BinaryTree ν} {g : ν} {b : Bool} (h : Hung none k t g b) (hx : x ∈ inorder t)
    (hn : (inorder t).length ≤ n) :
    ∃ k', step = some k' ∧ done k' ∧ Hangs none k' (erase x t) (k'.child g b) g ∧
      Frame none k k' (inorder t) g b := by
  induction t generalizing g b with
  | nil => exact absurd hx List.not_mem_nil
  | node p l r ihl ihr =>
    obtain ⟨-, -, hpl, hpr, hd⟩ := nodup_node h.nodup
    by_cases hp : p = x
    · rw [erase, if_pos hp]
      exact hp ▸ hjoin l r g b (hp ▸ h) (hp ▸ hn)
    · have hsub : ∀ y ∈ inorder l, y ∈ inorder (node p l r) := fun y hy => mem_node.mpr (Or.inr (Or.inl hy))
      have hsub' : ∀ y ∈ inorder r, y ∈ inorder (node p l r) := fun y hy => mem_node.mpr (Or.inr (Or.inr hy))
      have hself : p ∈ inorder (node p l r) := mem_node.mpr (Or.inl rfl)
      rw [inorder_node, List.length_append, List.length_cons] at hn
      rw [erase, if_neg hp]
      rcases mem_node.mp hx with e | hx | hx
      · exact absurd e.symm hp
      · obtain ⟨k', hk', hdone, hh, hf⟩ := ihl h.left hx (by omega)
        rw [erase_of_notMem (hd x hx)]
        exact ⟨k', hk', hdone, h.left_changed hf (fun hm => h.above (hsub g hm)) hpl (fun y hy hy' => hd y hy' hy) hh,
          hf.up hsub hself g b⟩
      · obtain ⟨k', hk', hdone, hh, hf⟩ := ihr h.right hx (by omega)
        rw [erase_of_notMem fun hm => hd x hm hx]
        exact ⟨k', hk', hdone, h.right_changed hf (fun hm => h.above (hsub' g hm)) hpr (fun y hy hy' => hd y hy hy') hh,
          hf.up hsub' hself g b⟩

end

end LinkedTrees
