import OpenWatcom.Wpack.StringTree

/-!
# The match of a string: `InsertNode` of `encode.c`

* `Real`     the match that is kept is one with a node of the tree
* `Inserted`     what `InsertNode` leaves behind
* `insertLoop_spec`     the loop ends, the string is in the tree, and no node of it has a longer match
-/

namespace Wpack

open BinaryTree SearchTrees LinkedTrees

section
variable {k : Links ℕ} {x p q g : ℕ} {b : Bool} {t l r : BinaryTree ℕ}

/-- the sons get another dad first, and then the link to the node is changed -/
theorem replaceNode_eq (hqx : q ≠ x) (hl : k.lson q ≠ x) (hr : k.rson q ≠ x) (hl' : k.lson q ≠ q)
    (hr' : k.rson q ≠ q) : replaceNode x q k = unlink q x (adopt true q x (adopt false q x k)) := by
  have hk : ((((k.setDad x (k.dad q)).setChild x false (k.lson q)).setChild x true (k.rson q)).setDad
      (k.lson q) x).setDad (k.rson q) x =
      (adopt true q x (adopt false q x k)).setDad x ((adopt true q x (adopt false q x k)).dad q) := by
    have hc : (adopt false q x k).child q true = k.rson q := adopt_rson hqx fun _ => rfl
    have hd : (adopt true q x (adopt false q x k)).dad q = k.dad q := by
      rw [adopt_dad hqx (by rw [hc]; exact hr'.symm), adopt_dad hqx hl'.symm]
    rw [hd, adopt_eq hqx, hc, adopt_eq hqx]
    ext y
    · rfl
    · rfl
    · show Function.update (Function.update (Function.update k.dad x (k.dad q)) (k.lson q) x) (k.rson q) x y =
        Function.update (Function.update (Function.update k.dad (k.lson q) x) (k.rson q) x) x (k.dad q) y
      rw [Function.update_comm hl.symm, Function.update_comm hr.symm]
  have hlson : (((k.setDad x (k.dad q)).setChild x false (k.lson q)).setChild x true (k.rson q)).lson q =
      k.lson q := by
    rw [setChild_lson fun _ => rfl, setChild_lson fun e => absurd e hqx, setDad_lson]
  have hrson : (((k.setDad x (k.dad q)).setChild x false (k.lson q)).setChild x true (k.rson q)).rson q =
      k.rson q := by
    rw [setChild_rson fun e => absurd e hqx, setChild_rson fun _ => rfl, setDad_rson]
  have hrson0 : ((k.setDad x (k.dad q)).setChild x false (k.lson q)).rson q = k.rson q :=
    setChild_rson (fun _ => rfl) _
  rw [unlink, ← hk, replaceNode]
  rw [setDad_lson, hrson0, hlson, setDad_rson, hrson]

theorem replaceNode_spec (h : Hung nilNode k (node q l r) g b) (hx : x ∉ inorder (node q l r)) (hxg : x ≠ g)
    (hxn : x ≠ nilNode) :
    Hangs nilNode (replaceNode x q k) (node x l r) ((replaceNode x q k).child g b) g ∧
      (replaceNode x q k).dad q = nilNode ∧
      Frame nilNode k (replaceNode x q k) (x :: inorder (node q l r)) g b := by
  obtain ⟨hndl, hndr, hql, hqr, hdisj⟩ := nodup_node h.nodup
  have hxl : x ∉ inorder l := fun hm => hx (mem_node.mpr (Or.inr (Or.inl hm)))
  have hxr : x ∉ inorder r := fun hm => hx (mem_node.mpr (Or.inr (Or.inr hm)))
  have hqx : q ≠ x := fun e => hx (mem_node.mpr (Or.inl e.symm))
  have hln : ∀ y, y ≠ nilNode → y ∉ inorder l → k.lson q ≠ y := fun y hy hm e =>
    h.left.hangs.top_mem.elim (fun hn => hy (e.symm.trans hn)) fun hl => hm (e ▸ hl)
  have hrn : ∀ y, y ≠ nilNode → y ∉ inorder r → k.rson q ≠ y := fun y hy hm e =>
    h.right.hangs.top_mem.elim (fun hn => hy (e.symm.trans hn)) fun hr => hm (e ▸ hr)
  have hc : (adopt false q x k).child q true = k.rson q := adopt_rson hqx fun _ => rfl
  have hrl : ∀ y ∈ inorder l, k.rson q ≠ y := fun y hy =>
    hrn y (fun e => h.left.hangs.none_notMem (e ▸ hy)) (hdisj y hy)
  have hlr : ∀ y ∈ inorder r, k.lson q ≠ y := fun y hy =>
    hln y (fun e => h.right.hangs.none_notMem (e ▸ hy)) fun hy' => hdisj y hy' hy
  rw [replaceNode_eq hqx (hln x hxn hxl) (hrn x hxn hxr) (hln q h.ne_none hql) (hrn q h.ne_none hqr)]
  have hl2 : Hangs nilNode (adopt true q x (adopt false q x k)) l (k.lson q) x :=
    adopt_other hqx (adopt_moved hqx h.left.hangs hndl hxl) hxl (by rw [hc]; exact fun hm => hrl _ hm rfl)
  have hr2 : Hangs nilNode (adopt true q x (adopt false q x k)) r (k.rson q) x := by
    have hr1 : Hangs nilNode (adopt false q x k) r (k.rson q) q :=
      adopt_other hqx h.right.hangs hxr fun hm => hlr _ hm rfl
    have hmoved := adopt_moved (b := true) hqx (by rw [hc]; exact hr1) hndr hxr
    rwa [hc] at hmoved
  have htop : (adopt true q x (adopt false q x k)).rson x = k.rson q :=
    (adopt_child (b := true) hqx).trans hc
  have hbot : (adopt true q x (adopt false q x k)).lson x = k.lson q :=
    (adopt_lson hqx fun _ => rfl).trans (adopt_child (b := false) hqx)
  have hself : x ∈ x :: (inorder l ++ inorder r) := List.mem_cons_self
  have hinner : ∀ y ∈ inorder l ++ inorder r, y ∈ x :: (inorder l ++ inorder r) := fun y hy =>
    List.mem_cons_of_mem x hy
  have hf : Frame nilNode k (adopt true q x (adopt false q x k)) (x :: (inorder l ++ inorder r)) x true := by
    refine (adopt_frame hqx hself ?_ x true).trans (adopt_frame hqx hself ?_ x true)
    · exact h.left.hangs.top_mem.imp_right fun hm => hinner _ (List.mem_append_left _ hm)
    · rw [hc]
      exact h.right.hangs.top_mem.imp_right fun hm => hinner _ (List.mem_append_right _ hm)
  have hq : q ∉ x :: (inorder l ++ inorder r) := fun hm => (List.mem_cons.mp hm).elim hqx fun hm =>
    (List.mem_append.mp hm).elim hql hqr
  have hg : g ∉ x :: (inorder l ++ inorder r) := fun hm => (List.mem_cons.mp hm).elim (fun e => hxg e.symm) fun hm =>
    h.above (mem_node.mpr (Or.inr (List.mem_append.mp hm)))
  have hnew : inorder (node x l r) = inorder l ++ x :: inorder r := rfl
  obtain ⟨hh, hd, hf'⟩ := unlink_spec (t := node x l r) ((hf.dad q hq h.ne_none).trans h.dad_eq)
    ((hf.child hg hxg.symm).trans h.top_eq) (fun hb e => h.other hb (mem_node.mpr (Or.inl (by
      rw [hf.rson g hg fun e => absurd e hxg.symm] at e
      exact e)))) ⟨rfl, hxn, rfl, by rw [hbot]; exact hl2, by rw [htop]; exact hr2⟩ (by
      rw [hnew, List.nodup_append, List.nodup_cons]
      refine ⟨hndl, ⟨hxr, hndr⟩, fun y hy z hz e => ?_⟩
      rcases List.mem_cons.mp hz with rfl | hz
      · exact hxl (e ▸ hy)
      · exact hdisj y hy (e ▸ hz))
    (fun hm => (mem_node.mp hm).elim hqx fun hm => hm.elim hql hqr) h.ne_none
    fun hm => (mem_node.mp hm).elim (fun e => hxg e.symm) fun hm => h.above (mem_node.mpr (Or.inr hm))
  refine ⟨hh, hd, (hf.up (fun y hy => ?_) List.mem_cons_self g b).trans (hf' _
    (List.mem_cons_of_mem x (mem_node.mpr (Or.inl rfl))) fun y hy => ?_)⟩
  · rcases List.mem_cons.mp hy with rfl | hy
    · exact List.mem_cons_self
    · exact List.mem_cons_of_mem x (mem_node.mpr (Or.inr (List.mem_append.mp hy)))
  · rcases mem_node.mp hy with rfl | hy
    · exact List.mem_cons_self
    · exact List.mem_cons_of_mem x (mem_node.mpr (Or.inr hy))

end

/-! ## the match that is kept -/

section
variable {text : ℕ → UInt8} {r q i : ℕ} {ys : Set ℕ} {n : Nodes}

/-- there is no match, or it is one with a node -/
def Real (text : ℕ → UInt8) (r : ℕ) (ys : Set ℕ) (n : Nodes) : Prop :=
  n.matchLength = 0 ∨ threshold < n.matchLength ∧ n.matchLength ≤ laheadSize ∧ ∃ y ∈ ys,
    n.matchPosition = distance r y ∧ Agree n.matchLength (stringAt text r) (stringAt text y)

theorem nearer_spec (ha : Agree i (stringAt text r) (stringAt text q)) (hq : q ∈ ys) (h : Real text r ys n)
    (hi : threshold < i) :
    (nearer r q i n).toLinks = n.toLinks ∧ (nearer r q i n).matchLength = n.matchLength ∧
      Real text r ys (nearer r q i n) := by
  rw [nearer]
  by_cases he : i = n.matchLength
  · rw [if_pos he]
    by_cases hd : distance r q < n.matchPosition
    · rw [if_pos hd]
      refine ⟨rfl, rfl, Or.inr ?_⟩
      obtain h0 | ⟨h1, h2, -⟩ := h
      · omega
      · exact ⟨h1, h2, q, hq, rfl, he ▸ ha⟩
    · rw [if_neg hd]
      exact ⟨rfl, rfl, h⟩
  · rw [if_neg he]
    exact ⟨rfl, rfl, h⟩

theorem keepMatch_spec (hi : i ≤ laheadSize) (ha : Agree i (stringAt text r) (stringAt text q)) (hq : q ∈ ys)
    (h : Real text r ys n) (hlt : n.matchLength < laheadSize) :
    (keepMatch r q i n).1.toLinks = n.toLinks ∧ Real text r ys (keepMatch r q i n).1 ∧
      n.matchLength ≤ (keepMatch r q i n).1.matchLength ∧ i ≤ max (keepMatch r q i n).1.matchLength threshold ∧
      ((keepMatch r q i n).2 = true → i = laheadSize ∧ (keepMatch r q i n).1.matchLength = laheadSize) ∧
      ((keepMatch r q i n).2 = false → i < laheadSize ∧ (keepMatch r q i n).1.matchLength < laheadSize) := by
  rw [keepMatch]
  by_cases ht : threshold < i
  · rw [if_pos ht]
    by_cases hl : n.matchLength < i
    · have hreal : Real text r ys { n with matchPosition := distance r q, matchLength := i } :=
        Or.inr ⟨ht, hi, q, hq, rfl, ha⟩
      rw [if_pos hl]
      dsimp only
      by_cases hf : laheadSize ≤ i
      · rw [if_pos hf]
        exact ⟨rfl, hreal, hl.le, le_max_left _ _, fun _ => ⟨le_antisymm hi hf, le_antisymm hi hf⟩,
          fun e => absurd e.symm Bool.false_ne_true⟩
      · obtain ⟨h1, h2, h3⟩ := nearer_spec ha hq hreal ht
        rw [if_neg hf, h2]
        exact ⟨h1, h3, hl.le, le_max_left _ _, fun e => absurd e Bool.false_ne_true, fun _ => ⟨not_le.mp hf, not_le.mp hf⟩⟩
    · obtain ⟨h1, h2, h3⟩ := nearer_spec ha hq h ht
      have hle := not_lt.mp hl
      rw [if_neg hl, h2]
      exact ⟨h1, h3, le_refl _, le_max_of_le_left hle, fun e => absurd e Bool.false_ne_true,
        fun _ => ⟨lt_of_le_of_lt hle hlt, hlt⟩⟩
  · rw [if_neg ht]
    have hle := not_lt.mp ht
    exact ⟨rfl, h, le_refl _, le_max_of_le_right hle, fun e => absurd e Bool.false_ne_true,
      fun _ => ⟨lt_of_le_of_lt hle (by decide), hlt⟩⟩

/-! ## the loop -/

/-- what the loop leaves of a tree `t` at `p`: the string `r` is in it, a node that is not in it any more is
not registered, and no node of it has more in common with `r` than the match -/
structure Inserted (text : ℕ → UInt8) (r : ℕ) (ys : Set ℕ) (t : BinaryTree ℕ) (p : ℕ) (b : Bool) (n n' : Nodes) :
    Prop where
  hangs : Hangs nilNode n'.toLinks (put (stringAt text) r t) (n'.child p b) p
  frame : Frame nilNode n.toLinks n'.toLinks (r :: inorder t) p b
  gone : ∀ y ∈ inorder t, y ∉ inorder (put (stringAt text) r t) → n'.dad y = nilNode
  real : Real text r ys n'
  grows : n.matchLength ≤ n'.matchLength
  longest : ∀ y ∈ inorder t, ∀ k ≤ laheadSize, Agree k (stringAt text r) (stringAt text y) →
    k ≤ max n'.matchLength threshold

variable {l r' : BinaryTree ℕ} {p : ℕ} {b : Bool} {n1 n' : Nodes}

/-- from the side of `t` that the string goes into, `s` below `q`, to the whole of it -/
theorem Inserted.up {s t : BinaryTree ℕ} {c : Bool} (hi : Inserted text r ys s q c n1 n')
    (hk : n1.toLinks = n.toLinks) (hml : n.matchLength ≤ n1.matchLength)
    (hh : Hangs nilNode n'.toLinks (put (stringAt text) r t) (n'.child p b) p) (hq : q ∈ inorder t)
    (hsub : ∀ y ∈ inorder s, y ∈ inorder t)
    (hput : ∀ y ∈ inorder t, y ∉ inorder (put (stringAt text) r t) →
      y ∈ inorder s ∧ y ∉ inorder (put (stringAt text) r s))
    (hother : ∀ y ∈ inorder t, y ∉ inorder s → ∀ k ≤ laheadSize, Agree k (stringAt text r) (stringAt text y) →
      k ≤ max n1.matchLength threshold) :
    Inserted text r ys t p b n n' := by
  have hf : Frame nilNode n.toLinks n'.toLinks (r :: inorder s) q c := hk ▸ hi.frame
  have hsub' : ∀ y ∈ r :: inorder s, y ∈ r :: inorder t := fun y hy =>
    (List.mem_cons.mp hy).elim (fun e => e ▸ List.mem_cons_self) fun hy => List.mem_cons_of_mem r (hsub y hy)
  refine ⟨hh, hf.up hsub' (List.mem_cons_of_mem r hq) p b, fun y hy hy' => ?_, hi.real, le_trans hml hi.grows,
    fun y hy k hk ha => ?_⟩
  · obtain ⟨hs, hs'⟩ := hput y hy hy'
    exact hi.gone y hs hs'
  · by_cases hs : y ∈ inorder s
    · exact hi.longest y hs k hk ha
    · exact le_trans (hother y hy hs k hk ha) (max_le_max_right _ hi.grows)

theorem Inserted.left (hi : Inserted text r ys l q false n1 n') (hk : n1.toLinks = n.toLinks)
    (hml : n.matchLength ≤ n1.matchLength) (h : Hung nilNode n.toLinks (node q l r') p b)
    (ho : Ordered (stringAt text) (node q l r')) (hr : r ∉ inorder (node q l r')) (hrp : r ≠ p)
    (hlt : stringAt text r < stringAt text q)
    (hq : ∀ k ≤ laheadSize, Agree k (stringAt text r) (stringAt text q) → k ≤ max n1.matchLength threshold) :
    Inserted text r ys (node q l r') p b n n' := by
  obtain ⟨-, -, hql, -, hd⟩ := nodup_node h.nodup
  obtain ⟨-, -, -, hright⟩ := ordered_node.mp ho
  have hf : Frame nilNode n.toLinks n'.toLinks (r :: inorder l) q false := hk ▸ hi.frame
  have hput : put (stringAt text) r (node q l r') = node q (put (stringAt text) r l) r' := put_of_lt hlt
  refine hi.up hk hml ?_ (mem_node.mpr (Or.inl rfl)) (fun y hy => mem_node.mpr (Or.inr (Or.inl hy)))
    (fun y hy hy' => ?_) fun y hy hs k hk ha => ?_
  · rw [hput]
    refine h.left_changed hf (fun hm => ?_) (fun hm => ?_) (fun y hy hm => ?_) hi.hangs
    · rcases List.mem_cons.mp hm with e | hm
      · exact hrp e.symm
      · exact h.above (mem_node.mpr (Or.inr (Or.inl hm)))
    · rcases List.mem_cons.mp hm with e | hm
      · exact hr (mem_node.mpr (Or.inl e.symm))
      · exact hql hm
    · rcases List.mem_cons.mp hm with rfl | hm
      · exact hr (mem_node.mpr (Or.inr (Or.inr hy)))
      · exact hd y hm hy
  · rw [hput, mem_node, not_or, not_or] at hy'
    rcases mem_node.mp hy with e | hy | hy
    · exact absurd e hy'.1
    · exact ⟨hy, hy'.2.1⟩
    · exact absurd hy hy'.2.2
  · rcases mem_node.mp hy with rfl | hy | hy
    · exact hq k hk ha
    · exact absurd hy hs
    · exact hq k hk (agree_left hlt (hright y hy) ha)

theorem Inserted.right (hi : Inserted text r ys r' q true n1 n') (hk : n1.toLinks = n.toLinks)
    (hml : n.matchLength ≤ n1.matchLength) (h : Hung nilNode n.toLinks (node q l r') p b)
    (ho : Ordered (stringAt text) (node q l r')) (hr : r ∉ inorder (node q l r')) (hrp : r ≠ p)
    (hlt : stringAt text q < stringAt text r)
    (hq : ∀ k ≤ laheadSize, Agree k (stringAt text r) (stringAt text q) → k ≤ max n1.matchLength threshold) :
    Inserted text r ys (node q l r') p b n n' := by
  obtain ⟨-, -, -, hqr, hd⟩ := nodup_node h.nodup
  obtain ⟨-, -, hleft, -⟩ := ordered_node.mp ho
  have hf : Frame nilNode n.toLinks n'.toLinks (r :: inorder r') q true := hk ▸ hi.frame
  have hput : put (stringAt text) r (node q l r') = node q l (put (stringAt text) r r') := put_of_gt hlt
  refine hi.up hk hml ?_ (mem_node.mpr (Or.inl rfl)) (fun y hy => mem_node.mpr (Or.inr (Or.inr hy)))
    (fun y hy hy' => ?_) fun y hy hs k hk ha => ?_
  · rw [hput]
    refine h.right_changed hf (fun hm => ?_) (fun hm => ?_) (fun y hy hm => ?_) hi.hangs
    · rcases List.mem_cons.mp hm with e | hm
      · exact hrp e.symm
      · exact h.above (mem_node.mpr (Or.inr (Or.inr hm)))
    · rcases List.mem_cons.mp hm with e | hm
      · exact hr (mem_node.mpr (Or.inl e.symm))
      · exact hqr hm
    · rcases List.mem_cons.mp hm with rfl | hm
      · exact hr (mem_node.mpr (Or.inr (Or.inl hy)))
      · exact hd y hy hm
  · rw [hput, mem_node, not_or, not_or] at hy'
    rcases mem_node.mp hy with e | hy | hy
    · exact absurd e hy'.1
    · exact absurd hy hy'.2.1
    · exact ⟨hy, hy'.2.2⟩
  · rcases mem_node.mp hy with rfl | hy | hy
    · exact hq k hk ha
    · exact hq k hk (agree_right (hleft y hy) hlt ha.symm)
    · exact absurd hy hs

/-- a place without a node -/
theorem attach_spec {k : Links ℕ} (b : Bool) (hrp : r ≠ p) (hrn : r ≠ nilNode)
    (hl : k.lson r = nilNode) (hr : k.rson r = nilNode) :
    Hangs nilNode ((k.setChild p b r).setDad r p) (node r nil nil) (((k.setChild p b r).setDad r p).child p b) p ∧
      Frame nilNode k ((k.setChild p b r).setDad r p) [r] p b := by
  refine ⟨⟨?_, hrn, setDad_self r p, ?_, ?_⟩, fun y _ hy => setChild_lson hy r, fun y _ hy => setChild_rson hy r,
    fun y hy _ => ?_⟩
  · rw [setDad_child, setChild_self]
  · exact (setChild_lson (fun e => absurd e hrp) r).trans hl
  · exact (setChild_rson (fun e => absurd e hrp) r).trans hr
  · rw [setDad_of_ne fun e => hy (List.mem_singleton.mpr e), setChild_dad]

theorem insertLoop_spec (ys : Set ℕ) (hrn : r ≠ nilNode) {t : BinaryTree ℕ} : ∀ (fuel p : ℕ) (cmp : ℤ) (n : Nodes),
    Hung nilNode n.toLinks t p (decide (0 ≤ cmp)) → r ∉ inorder t → r ≠ p → n.lson r = nilNode →
    n.rson r = nilNode → (inorder t).length < fuel → Ordered (stringAt text) t →
    (∀ y ∈ inorder t, text y = text r ∧ y ∈ ys) → Real text r ys n → n.matchLength < laheadSize →
    ∃ n', insertLoop text r fuel p cmp n = some n' ∧ Inserted text r ys t p (decide (0 ≤ cmp)) n n' := by
  induction t with
  | nil =>
    intro fuel p cmp n h _ hrp hl hr hfuel _ _ hreal _
    obtain ⟨fuel, rfl⟩ := Nat.exists_eq_succ_of_ne_zero (Nat.ne_of_gt hfuel)
    obtain ⟨hh, hf⟩ := attach_spec (decide (0 ≤ cmp)) hrp hrn hl hr
    refine ⟨{ n with toLinks := (n.setChild p (0 ≤ cmp) r).setDad r p }, ?_, hh, hf,
      fun y hy => absurd hy List.not_mem_nil, hreal, le_refl _, fun y hy => absurd hy List.not_mem_nil⟩
    rw [insertLoop]
    exact if_neg (not_not.mpr h.hangs)
  | node q l r' ihl ihr =>
    intro fuel p cmp n h hr hrp hl hr' hfuel ho hin hreal hlt
    obtain ⟨fuel, rfl⟩ := Nat.exists_eq_succ_of_ne_zero (Nat.ne_of_gt (Nat.zero_lt_of_lt hfuel))
    rw [inorder_node, List.length_append, List.length_cons] at hfuel
    obtain ⟨hol, hor, -, -⟩ := ordered_node.mp ho
    obtain ⟨hfirst, hqy⟩ := hin q (mem_node.mpr (Or.inl rfl))
    have hone : Agree 1 (stringAt text r) (stringAt text q) := (agree_iff (by decide)).mpr fun j hj => by
      rw [Nat.lt_one_iff.mp hj]
      exact hfirst.symm
    obtain ⟨hi, ha, hmost, hcmp⟩ := compareLoop_spec (by decide) hone
    obtain ⟨hlinks, hreal', hml, hkeep, hfound, hgoon⟩ := keepMatch_spec hi ha hqy hreal hlt
    have hq : ∀ k ≤ laheadSize, Agree k (stringAt text r) (stringAt text q) →
        k ≤ max (keepMatch r q (compareLoop text r q 1).1 n).1.matchLength threshold := fun k hk hak =>
      le_trans (hmost k hk hak) hkeep
    rw [insertLoop, h.top_eq]
    dsimp only
    rw [if_pos h.ne_none]
    have hlr : (keepMatch r q (compareLoop text r q 1).1 n).1.lson r = nilNode := by rw [hlinks]; exact hl
    have hrr : (keepMatch r q (compareLoop text r q 1).1 n).1.rson r = nilNode := by rw [hlinks]; exact hr'
    have hrq : r ≠ q := fun e => hr (mem_node.mpr (Or.inl e))
    cases hk : (keepMatch r q (compareLoop text r q 1).1 n).2 with
    | true =>
      obtain ⟨hi60, hml60⟩ := hfound hk
      have hs : stringAt text r = stringAt text q := by
        rw [hi60] at ha
        exact agree_all ha
      obtain ⟨hh, hd, hf⟩ := replaceNode_spec (k := (keepMatch r q (compareLoop text r q 1).1 n).1.toLinks)
        (by rw [hlinks]; exact h) hr hrp hrn
      rw [if_pos rfl]
      refine ⟨_, rfl, ?_, by rw [← hlinks]; exact hf, fun y hy hy' => ?_, hreal', hml, fun y _ k hk _ => ?_⟩
      · rw [put_of_eq hs]
        exact hh
      · rw [put_of_eq hs] at hy'
        rcases mem_node.mp hy with rfl | hy
        · exact hd
        · exact absurd (mem_node.mpr (Or.inr hy)) hy'
      · exact le_max_of_le_left (le_trans hk hml60.ge)
    | false =>
      obtain ⟨hi60, hml60⟩ := hgoon hk
      rw [if_neg Bool.false_ne_true]
      rcases hcmp hi60 with ⟨hpos, hgt⟩ | ⟨hneg, hls⟩
      · have hb : decide (0 ≤ (compareLoop text r q 1).2) = true := decide_eq_true hpos
        obtain ⟨n', hn', hins⟩ := ihr fuel q (compareLoop text r q 1).2 _
          (by rw [hb, hlinks]; exact h.right) (fun hm => hr (mem_node.mpr (Or.inr (Or.inr hm)))) hrq hlr hrr
          (by omega) hor (fun y hy => hin y (mem_node.mpr (Or.inr (Or.inr hy)))) hreal' hml60
        rw [hb] at hins
        exact ⟨n', hn', hins.right hlinks hml h ho hr hrp hgt hq⟩
      · have hb : decide (0 ≤ (compareLoop text r q 1).2) = false := decide_eq_false hneg
        obtain ⟨n', hn', hins⟩ := ihl fuel q (compareLoop text r q 1).2 _
          (by rw [hb, hlinks]; exact h.left) (fun hm => hr (mem_node.mpr (Or.inr (Or.inl hm)))) hrq hlr hrr
          (by omega) hol (fun y hy => hin y (mem_node.mpr (Or.inr (Or.inl hy)))) hreal' hml60
        rw [hb] at hins
        exact ⟨n', hn', hins.left hlinks hml h ho hr hrp hls hq⟩

end

end Wpack
