import Mathlib

/-!
# Search trees whose nodes are places with a key

* `inorder`     the nodes of a tree from left to right
* `put key x`     `x` goes into the tree; a node with the same key gives its place to it
* `join`, `erase`     a node goes out: the last one on its left takes its place
* `inorder_put`, `inorder_erase`     what is in the tree then
* `agree_left`, `agree_right`     in the order of strings, what lies behind a string has no longer start in
  common with one before it
-/

namespace SearchTrees

open BinaryTree

variable {ν κ : Type*}

/-! ## the nodes in their order -/

def inorder : BinaryTree ν → List ν
  | nil => []
  | node p l r => inorder l ++ p :: inorder r

@[simp]
theorem inorder_nil : inorder (nil : BinaryTree ν) = [] := rfl

@[simp]
theorem inorder_node (p : ν) (l r : BinaryTree ν) : inorder (node p l r) = inorder l ++ p :: inorder r := rfl

theorem mem_node {x p : ν} {l r : BinaryTree ν} :
    x ∈ inorder (node p l r) ↔ x = p ∨ x ∈ inorder l ∨ x ∈ inorder r := by
  rw [inorder_node, List.mem_append, List.mem_cons]
  exact or_left_comm

theorem nodup_node {p : ν} {l r : BinaryTree ν} (h : (inorder (node p l r)).Nodup) :
    (inorder l).Nodup ∧ (inorder r).Nodup ∧ p ∉ inorder l ∧ p ∉ inorder r ∧
      ∀ x ∈ inorder l, x ∉ inorder r := by
  rw [inorder_node, List.nodup_append, List.nodup_cons] at h
  obtain ⟨hl, ⟨hpr, hr⟩, hd⟩ := h
  refine ⟨hl, hr, fun hp => hd p hp p List.mem_cons_self rfl, hpr, fun x hx hx' => ?_⟩
  exact hd x hx x (List.mem_cons_of_mem p hx') rfl

/-! ## a node goes in -/

section
variable [LinearOrder κ] (key : ν → κ)

/-- from left to right the keys grow -/
def Ordered (t : BinaryTree ν) : Prop := (inorder t).Pairwise fun x y => key x < key y

def put (x : ν) : BinaryTree ν → BinaryTree ν
  | nil => node x nil nil
  | node p l r =>
    if key x < key p then node p (put x l) r
    else if key p < key x then node p l (put x r)
    else node x l r

variable {key}

theorem put_of_lt {x p : ν} {l r : BinaryTree ν} (h : key x < key p) :
    put key x (node p l r) = node p (put key x l) r := by
  rw [put, if_pos h]

theorem put_of_gt {x p : ν} {l r : BinaryTree ν} (h : key p < key x) :
    put key x (node p l r) = node p l (put key x r) := by
  rw [put, if_neg h.not_gt, if_pos h]

theorem put_of_eq {x p : ν} {l r : BinaryTree ν} (h : key x = key p) : put key x (node p l r) = node x l r := by
  rw [put, if_neg h.not_lt, if_neg h.not_gt]

theorem ordered_nil : Ordered key nil := List.Pairwise.nil

theorem ordered_node {p : ν} {l r : BinaryTree ν} : Ordered key (node p l r) ↔
    Ordered key l ∧ Ordered key r ∧ (∀ x ∈ inorder l, key x < key p) ∧ (∀ x ∈ inorder r, key p < key x) := by
  rw [Ordered, inorder_node, List.pairwise_append, List.pairwise_cons]
  constructor
  · rintro ⟨hl, ⟨hpr, hr⟩, hd⟩
    exact ⟨hl, hr, fun x hx => hd x hx p List.mem_cons_self, hpr⟩
  · rintro ⟨hl, hr, hlp, hpr⟩
    refine ⟨hl, ⟨hpr, hr⟩, fun x hx y hy => ?_⟩
    rcases List.mem_cons.mp hy with rfl | hy
    · exact hlp x hx
    · exact lt_trans (hlp x hx) (hpr y hy)

theorem Ordered.nodup {t : BinaryTree ν} (h : Ordered key t) : (inorder t).Nodup :=
  h.imp fun hlt e => absurd (congrArg key e) (ne_of_lt hlt)

/-- two nodes of an ordered tree have different keys -/
theorem Ordered.key_inj {t : BinaryTree ν} (h : Ordered key t) {x y : ν} (hx : x ∈ inorder t)
    (hy : y ∈ inorder t) (he : key x = key y) : x = y := by
  have hnd : ((inorder t).map key).Nodup :=
    (List.pairwise_map.mpr h).imp fun hlt e => absurd e (ne_of_lt hlt)
  exact List.inj_on_of_nodup_map hnd hx hy he

/-- the new node stands between the smaller ones and the larger ones -/
theorem inorder_put (x : ν) {t : BinaryTree ν} (h : Ordered key t) : inorder (put key x t) =
    (inorder t).filter (fun y => key y < key x) ++ x :: (inorder t).filter fun y => key x < key y := by
  induction t with
  | nil => rfl
  | node p l r ihl ihr =>
    obtain ⟨hl, hr, hlp, hpr⟩ := ordered_node.mp h
    rw [put, inorder_node, List.filter_append, List.filter_append, List.filter_cons, List.filter_cons]
    rcases lt_trichotomy (key x) (key p) with hlt | heq | hgt
    · have hsmall : (inorder r).filter (fun y => key y < key x) = [] :=
        List.filter_eq_nil_iff.mpr fun y hy => by simpa using (lt_trans hlt (hpr y hy)).le
      have hlarge : (inorder r).filter (fun y => key x < key y) = inorder r :=
        List.filter_eq_self.mpr fun y hy => by simpa using lt_trans hlt (hpr y hy)
      rw [if_pos hlt, inorder_node, ihl hl, if_neg (by simpa using hlt.le), if_pos (by simpa using hlt), hsmall,
        hlarge]
      simp only [List.append_assoc, List.append_nil, List.cons_append]
    · have hsmall : (inorder r).filter (fun y => key y < key x) = [] :=
        List.filter_eq_nil_iff.mpr fun y hy => by simpa [heq] using (hpr y hy).le
      have hlarge : (inorder r).filter (fun y => key x < key y) = inorder r :=
        List.filter_eq_self.mpr fun y hy => by simpa [heq] using hpr y hy
      have hsmall' : (inorder l).filter (fun y => key y < key x) = inorder l :=
        List.filter_eq_self.mpr fun y hy => by simpa [heq] using hlp y hy
      have hlarge' : (inorder l).filter (fun y => key x < key y) = [] :=
        List.filter_eq_nil_iff.mpr fun y hy => by simpa [heq] using (hlp y hy).le
      rw [if_neg heq.not_lt, if_neg heq.not_gt, inorder_node, if_neg (by simp [heq]), if_neg (by simp [heq]), hsmall,
        hlarge, hsmall', hlarge']
      simp only [List.append_nil, List.nil_append]
    · have hsmall : (inorder l).filter (fun y => key y < key x) = inorder l :=
        List.filter_eq_self.mpr fun y hy => by simpa using lt_trans (hlp y hy) hgt
      have hlarge : (inorder l).filter (fun y => key x < key y) = [] :=
        List.filter_eq_nil_iff.mpr fun y hy => by simpa using (lt_trans (hlp y hy) hgt).le
      rw [if_neg hgt.not_gt, if_pos hgt, inorder_node, ihr hr, if_pos (by simpa using hgt),
        if_neg (by simpa using hgt.le), hsmall, hlarge]
      simp only [List.append_assoc, List.nil_append, List.cons_append]

theorem mem_put {x y : ν} {t : BinaryTree ν} (h : Ordered key t) :
    y ∈ inorder (put key x t) ↔ y = x ∨ (y ∈ inorder t ∧ key y ≠ key x) := by
  rw [inorder_put x h, List.mem_append, List.mem_cons, List.mem_filter, List.mem_filter, decide_eq_true_iff,
    decide_eq_true_iff, ne_iff_lt_or_gt, and_or_left]
  exact or_left_comm

theorem Ordered.put {t : BinaryTree ν} (h : Ordered key t) (x : ν) : Ordered key (put key x t) := by
  rw [Ordered, inorder_put x h, List.pairwise_append, List.pairwise_cons]
  refine ⟨List.Pairwise.filter _ h, ⟨fun y hy => ?_, List.Pairwise.filter _ h⟩, fun y hy z hz => ?_⟩
  · exact of_decide_eq_true (List.mem_filter.mp hy).2
  · have hy := of_decide_eq_true (List.mem_filter.mp hy).2
    rcases List.mem_cons.mp hz with rfl | hz
    · exact hy
    · exact lt_trans hy (of_decide_eq_true (List.mem_filter.mp hz).2)

end

/-! ## a node goes out -/

/-- the last node of `node p l r`, and the tree without it -/
def popLast (p : ν) (l : BinaryTree ν) : BinaryTree ν → ν × BinaryTree ν
  | nil => (p, l)
  | node q l' r' => ((popLast q l' r').1, node p l (popLast q l' r').2)

theorem inorder_popLast (p : ν) (l r : BinaryTree ν) :
    inorder (node p l r) = inorder (popLast p l r).2 ++ [(popLast p l r).1] := by
  induction r generalizing p l with
  | nil => rfl
  | node q l' r' _ ih =>
    rw [popLast, inorder_node, ih q l', inorder_node, List.append_assoc, List.cons_append]

/-- the trees on both sides of a node as one tree -/
def join : BinaryTree ν → BinaryTree ν → BinaryTree ν
  | l, nil => l
  | nil, r => r
  | node p a b, r => node (popLast p a b).1 (popLast p a b).2 r

theorem inorder_join (l r : BinaryTree ν) : inorder (join l r) = inorder l ++ inorder r := by
  cases r with
  | nil =>
    rw [inorder_nil, List.append_nil]
    cases l <;> rfl
  | node q c d =>
    cases l with
    | nil => rfl
    | node p a b =>
      show inorder (node (popLast p a b).1 (popLast p a b).2 (node q c d)) = _
      rw [inorder_node, inorder_popLast p a b, List.append_assoc]
      rfl

section
variable [DecidableEq ν]

def erase (x : ν) : BinaryTree ν → BinaryTree ν
  | nil => nil
  | node p l r => if p = x then join l r else node p (erase x l) (erase x r)

theorem erase_of_notMem {x : ν} {t : BinaryTree ν} (h : x ∉ inorder t) : erase x t = t := by
  induction t with
  | nil => rfl
  | node p l r ihl ihr =>
    have hp : p ≠ x := fun e => h (mem_node.mpr (Or.inl e.symm))
    rw [erase, if_neg hp, ihl fun hx => h (mem_node.mpr (Or.inr (Or.inl hx))),
      ihr fun hx => h (mem_node.mpr (Or.inr (Or.inr hx)))]

theorem inorder_erase (x : ν) {t : BinaryTree ν} (h : (inorder t).Nodup) :
    inorder (erase x t) = (inorder t).filter fun y => y ≠ x := by
  induction t with
  | nil => rfl
  | node p l r ihl ihr =>
    obtain ⟨hl, hr, hpl, hpr, -⟩ := nodup_node h
    rw [erase, inorder_node, List.filter_append, List.filter_cons]
    by_cases hp : p = x
    · have hkeep : ∀ {s : BinaryTree ν}, p ∉ inorder s → (inorder s).filter (fun y => y ≠ x) = inorder s :=
        fun {s} hs => List.filter_eq_self.mpr fun y hy => decide_eq_true fun e => hs (by rw [hp, ← e]; exact hy)
      rw [if_pos hp, if_neg (by simp [hp]), inorder_join, hkeep hpl, hkeep hpr]
    · rw [if_neg hp, if_pos (by simp [hp]), inorder_node, ihl hl, ihr hr]

theorem mem_erase {x y : ν} {t : BinaryTree ν} (h : (inorder t).Nodup) :
    y ∈ inorder (erase x t) ↔ y ∈ inorder t ∧ y ≠ x := by
  rw [inorder_erase x h, List.mem_filter, decide_eq_true_iff]

theorem Ordered.erase [LinearOrder κ] {key : ν → κ} {t : BinaryTree ν} (h : Ordered key t) (x : ν) :
    Ordered key (erase x t) := by
  rw [Ordered, inorder_erase x h.nodup]
  exact List.Pairwise.filter _ h

end

/-! ## strings -/

section
variable {n : ℕ} {σ : Type*} [LinearOrder σ]

/-- two strings have their first `k` places in common -/
def Agree (k : ℕ) (f g : Lex (Fin n → σ)) : Prop := ∀ j : Fin n, j.val < k → ofLex f j = ofLex g j

variable {k : ℕ} {f g h : Lex (Fin n → σ)}

omit [LinearOrder σ] in
theorem Agree.symm (ha : Agree k f g) : Agree k g f := fun j hj => (ha j hj).symm

/-- between two strings with a start in common all have it -/
theorem agree_left (hfg : f < g) (hgh : g < h) (ha : Agree k f h) : Agree k f g := by
  obtain ⟨i, hi, hlt⟩ : ∃ i, (∀ j < i, ofLex f j = ofLex g j) ∧ ofLex f i < ofLex g i := hfg
  obtain ⟨i', hi', hlt'⟩ : ∃ i, (∀ j < i, ofLex g j = ofLex h j) ∧ ofLex g i < ofLex h i := hgh
  intro j hj
  by_contra hne
  have hij : i ≤ j := by
    by_contra hij
    exact hne (hi j (not_le.mp hij))
  have hfh : ofLex f i = ofLex h i := ha i (lt_of_le_of_lt hij hj)
  rcases lt_trichotomy i i' with hlt1 | heq | hgt
  · exact absurd (hfh.trans (hi' i hlt1).symm) (ne_of_lt hlt)
  · rw [heq] at hlt hfh
    exact absurd hfh (ne_of_lt (lt_trans hlt hlt'))
  · have hfh' : ofLex f i' = ofLex h i' := ha i' (lt_trans (lt_of_lt_of_le hgt hij) hj)
    exact absurd ((hi i' hgt).symm.trans hfh') (ne_of_lt hlt')

theorem agree_right (hfg : f < g) (hgh : g < h) (ha : Agree k f h) : Agree k h g := by
  have hl := agree_left hfg hgh ha
  intro j hj
  rw [← hl j hj, ha j hj]

end

end SearchTrees
