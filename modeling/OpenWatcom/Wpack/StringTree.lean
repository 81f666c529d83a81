import OpenWatcom.Lib.LinkedTrees

/-!
# The trees of strings: `encode.c`

* `initTree`, `insertNode`, `deleteNode`     `InitTree`, `InsertNode`, `DeleteNode`
* `stringAt`     the string of a node: the `LAHEAD_SIZE` bytes of `text_buf` from there on
* `compareLoop_spec`     the inner loop finds the first place where two strings differ
* `deleteNode_spec`     the node is out of its tree, and nothing else changes
-/

namespace Wpack

open BinaryTree SearchTrees LinkedTrees

def strbufSize : ℕ := 4096
def laheadSize : ℕ := 60
def threshold : ℕ := 2

/-- `NIL` -/
def nilNode : ℕ := strbufSize

/-- `lson`, `rson`, `dad`, `match_position`, `match_length` -/
structure Nodes extends Links ℕ where
  matchPosition : UInt32
  matchLength : ℕ

def initTree (n : Nodes) : Nodes :=
  { n with
    rson := fun i => if strbufSize + 1 ≤ i ∧ i ≤ strbufSize + 256 then nilNode else n.rson i
    dad := fun i => if i < strbufSize then nilNode else n.dad i }

/-! ## a string goes in -/

/-- the loop that compares, and `cmp` -/
def compareLoop (text : ℕ → UInt8) (r p i : ℕ) : ℕ × ℤ :=
  if i < laheadSize then
    if text (r + i) ≠ text (p + i) then (i, (text (r + i)).toNat - (text (p + i)).toNat)
    else compareLoop text r p (i + 1)
  else (i, 0)
termination_by laheadSize - i

/-- `((r - p) & (STRBUF_SIZE - 1)) - 1` -/
def distance (r p : ℕ) : UInt32 := ((UInt32.ofNat r - UInt32.ofNat p) &&& 4095) - 1

/-- of two matches of one length the nearer one -/
def nearer (r p i : ℕ) (n : Nodes) : Nodes :=
  if i = n.matchLength then
    if distance r p < n.matchPosition then { n with matchPosition := distance r p } else n
  else n

/-- what is kept of a match, and if the loop ends there -/
def keepMatch (r p i : ℕ) (n : Nodes) : Nodes × Bool :=
  if threshold < i then
    if n.matchLength < i then
      let n := { n with matchPosition := distance r p, matchLength := i }
      if laheadSize ≤ i then (n, true) else (nearer r p i n, false)
    else (nearer r p i n, false)
  else (n, false)

/-- behind the loop: `r` stands in for `p` -/
def replaceNode (r p : ℕ) (k : Links ℕ) : Links ℕ :=
  let k := k.setDad r (k.dad p)
  let k := k.setChild r false (k.lson p)
  let k := k.setChild r true (k.rson p)
  let k := k.setDad (k.lson p) r
  let k := k.setDad (k.rson p) r
  let k := relink p r k
  k.setDad p nilNode

def insertLoop (text : ℕ → UInt8) (r : ℕ) : ℕ → ℕ → ℤ → Nodes → Option Nodes
  | 0, _, _, _ => none
  | fuel + 1, p, cmp, n =>
    let q := n.child p (0 ≤ cmp)
    if q ≠ nilNode then
      let result := compareLoop text r q 1
      let kept := keepMatch r q result.1 n
      if kept.2 then some { kept.1 with toLinks := replaceNode r q kept.1.toLinks }
      else insertLoop text r fuel q result.2 kept.1
    else some { n with toLinks := (n.setChild p (0 ≤ cmp) r).setDad r p }

/-- no more turns than there are nodes -/
def insertNode (text : ℕ → UInt8) (r : ℕ) (n : Nodes) : Option Nodes :=
  insertLoop text r (strbufSize + 1) (strbufSize + 1 + (text r).toNat) 1
    { n with toLinks := (n.setChild r false nilNode).setChild r true nilNode, matchLength := 0 }

/-! ## a node goes out -/

/-- the loop down the links on the right -/
def rightmost (k : Links ℕ) : ℕ → ℕ → Option ℕ
  | 0, _ => none
  | fuel + 1, q => if k.rson (k.rson q) ≠ nilNode then rightmost k fuel (k.rson q) else some (k.rson q)

/-- what is below `q` on the left takes its place -/
def spliceOut (q : ℕ) (k : Links ℕ) : Links ℕ :=
  let k := k.setChild (k.dad q) true (k.lson q)
  k.setDad (k.lson q) (k.dad q)

/-- what is below `p` on one side goes below `q` -/
def adopt (b : Bool) (p q : ℕ) (k : Links ℕ) : Links ℕ :=
  let k := k.setChild q b (k.child p b)
  k.setDad (k.child p b) q

/-- the last lines: `q` takes the place of `p` -/
def unlink (p q : ℕ) (k : Links ℕ) : Links ℕ :=
  let k := k.setDad q (k.dad p)
  let k := relink p q k
  k.setDad p nilNode

def deleteNode (p : ℕ) (k : Links ℕ) : Option (Links ℕ) :=
  if k.dad p = nilNode then some k
  else if k.rson p = nilNode then some (unlink p (k.lson p) k)
  else if k.lson p = nilNode then some (unlink p (k.rson p) k)
  else if k.rson (k.lson p) ≠ nilNode then
    (rightmost k strbufSize (k.lson p)).map fun q =>
      unlink p q (adopt true p q (adopt false p q (spliceOut q k)))
  else some (unlink p (k.lson p) (adopt true p (k.lson p) k))

/-! ## strings -/

/-- the string of a node -/
def stringAt (text : ℕ → UInt8) (p : ℕ) : Lex (Fin laheadSize → ℕ) := toLex fun i => (text (p + i)).toNat

section
variable {text : ℕ → UInt8} {r p : ℕ}

theorem agree_iff {k : ℕ} (hk : k ≤ laheadSize) :
    Agree k (stringAt text r) (stringAt text p) ↔ ∀ j < k, text (r + j) = text (p + j) :=
  ⟨fun h j hj => UInt8.toNat_inj.mp (h ⟨j, lt_of_lt_of_le hj hk⟩ hj),
    fun h j hj => congrArg UInt8.toNat (h j.val hj)⟩

theorem agree_all (h : Agree laheadSize (stringAt text r) (stringAt text p)) :
    stringAt text r = stringAt text p := by
  funext j
  exact h j j.isLt

/-- strings that differ at `i` first are ordered as their bytes there -/
theorem string_lt {i : ℕ} (hi : i < laheadSize) (ha : Agree i (stringAt text r) (stringAt text p))
    (hlt : (text (r + i)).toNat < (text (p + i)).toNat) : stringAt text r < stringAt text p :=
  ⟨⟨i, hi⟩, fun j hj => ha j hj, hlt⟩

theorem compareLoop_spec {i : ℕ} (hi : i ≤ laheadSize) (ha : Agree i (stringAt text r) (stringAt text p)) :
    (compareLoop text r p i).1 ≤ laheadSize ∧
    Agree (compareLoop text r p i).1 (stringAt text r) (stringAt text p) ∧
    (∀ k ≤ laheadSize, Agree k (stringAt text r) (stringAt text p) → k ≤ (compareLoop text r p i).1) ∧
    ((compareLoop text r p i).1 < laheadSize →
      (0 ≤ (compareLoop text r p i).2 ∧ stringAt text p < stringAt text r) ∨
      (¬ 0 ≤ (compareLoop text r p i).2 ∧ stringAt text r < stringAt text p)) := by
  fun_induction compareLoop text r p i with
  | case1 i hlt hne =>
    refine ⟨hi, ha, fun k hk hak => ?_, fun _ => ?_⟩
    · by_contra hki
      exact hne ((agree_iff hk).mp hak i (not_le.mp hki))
    · have hne' : (text (r + i)).toNat ≠ (text (p + i)).toNat := fun e => hne (UInt8.toNat_inj.mp e)
      dsimp only
      rcases Nat.lt_or_gt_of_ne hne' with h | h
      · exact Or.inr ⟨by omega, string_lt hlt ha h⟩
      · exact Or.inl ⟨by omega, string_lt hlt ha.symm h⟩
  | case2 i hlt heq ih =>
    refine ih hlt ((agree_iff hlt).mpr fun j hj => ?_)
    rcases Nat.lt_succ_iff_lt_or_eq.mp hj with hj | rfl
    · exact (agree_iff hi).mp ha j hj
    · exact not_not.mp heq
  | case3 i hge =>
    have he : i = laheadSize := le_antisymm hi (not_lt.mp hge)
    exact ⟨hi, ha, fun k hk _ => he ▸ hk, fun h => absurd h hge⟩

end

/-! ## what a change of the links leaves -/

section
variable {k : Links ℕ} {p q g : ℕ} {b : Bool} {t l r : BinaryTree ℕ}

/-- the tree from `q` on takes the place of the one from `p` on -/
theorem unlink_spec (hdad : k.dad p = g) (hchild : k.child g b = p) (hother : b = false → k.rson g ≠ p)
    {g' : ℕ} (ht : Hangs nilNode k t q g') (hnd : (inorder t).Nodup) (hp : p ∉ inorder t)
    (hpn : p ≠ nilNode) (hg : g ∉ inorder t) :
    Hangs nilNode (unlink p q k) t ((unlink p q k).child g b) g ∧ (unlink p q k).dad p = nilNode ∧
      ∀ s : List ℕ, p ∈ s → (∀ y ∈ inorder t, y ∈ s) → Frame nilNode k (unlink p q k) s g b := by
  have hqp : p ≠ q := by
    rintro rfl
    rcases ht.top_mem with e | hm
    · exact hpn e
    · exact hp hm
  have hrelink : relink p q (k.setDad q (k.dad p)) = (k.setDad q (k.dad p)).setChild g b q := by
    refine relink_eq (k := k.setDad q (k.dad p)) ?_ hchild hother q
    rw [setDad_of_ne hqp, hdad]
  have hlson : ∀ y, (y = g → b = true) → (unlink p q k).lson y = k.lson y := by
    intro y hy
    rw [unlink, hrelink, setDad_lson, setChild_lson hy, setDad_lson]
  have hrson : ∀ y, (y = g → b = false) → (unlink p q k).rson y = k.rson y := by
    intro y hy
    rw [unlink, hrelink, setDad_rson, setChild_rson hy, setDad_rson]
  have hdads : ∀ y, y ≠ p → y ≠ q → (unlink p q k).dad y = k.dad y := by
    intro y hyp hyq
    rw [unlink, hrelink, setDad_of_ne hyp, setChild_dad, setDad_of_ne hyq]
  have htop : (unlink p q k).child g b = q := by
    rw [unlink, hrelink, setDad_child, setChild_self]
  refine ⟨?_, ?_, fun s hps hs => ⟨fun y _ => hlson y, fun y _ => hrson y, fun y hy hne => ?_⟩⟩
  · rw [htop]
    refine ht.moved hnd (fun y hy => ?_) (fun y hy hne => ?_) fun hm => ?_
    · have hyg : y ≠ g := fun e => hg (e ▸ hy)
      exact ⟨hlson y fun e => absurd e hyg, hrson y fun e => absurd e hyg⟩
    · exact hdads y (fun e => hp (e ▸ hy)) hne
    · rw [unlink, hrelink, setDad_of_ne hqp.symm, setChild_dad, setDad_self, hdad]
  · rw [unlink, setDad_self]
  · refine hdads y (fun e => hy (e ▸ hps)) fun e => ?_
    rcases ht.top_mem with hq | hm
    · exact hne (e.trans hq)
    · exact hy (hs y (e ▸ hm))

section
variable {s : BinaryTree ℕ} (hpq : p ≠ q)
include hpq

theorem adopt_eq : adopt b p q k = (k.setChild q b (k.child p b)).setDad (k.child p b) q := by
  have h : (k.setChild q b (k.child p b)).child p b = k.child p b := by
    cases b with
    | false => exact setChild_lson (fun e => absurd e hpq) _
    | true => exact setChild_rson (fun e => absurd e hpq) _
  rw [adopt, h]

theorem adopt_child : (adopt b p q k).child q b = k.child p b := by
  rw [adopt_eq hpq, setDad_child, setChild_self]

theorem adopt_lson {y : ℕ} (hy : y = q → b = true) : (adopt b p q k).lson y = k.lson y := by
  rw [adopt_eq hpq, setDad_lson, setChild_lson hy]

theorem adopt_rson {y : ℕ} (hy : y = q → b = false) : (adopt b p q k).rson y = k.rson y := by
  rw [adopt_eq hpq, setDad_rson, setChild_rson hy]

theorem adopt_dad {y : ℕ} (hy : y ≠ k.child p b) : (adopt b p q k).dad y = k.dad y := by
  rw [adopt_eq hpq, setDad_of_ne hy, setChild_dad]

theorem adopt_moved (h : Hangs nilNode k s (k.child p b) p) (hnd : (inorder s).Nodup) (hq : q ∉ inorder s) :
    Hangs nilNode (adopt b p q k) s (k.child p b) q := by
  refine h.moved hnd (fun y hy => ?_) (fun y _ hne => adopt_dad hpq hne) fun _ => ?_
  · have hyq : y ≠ q := fun e => hq (e ▸ hy)
    exact ⟨adopt_lson hpq fun e => absurd e hyq, adopt_rson hpq fun e => absurd e hyq⟩
  · rw [adopt_eq hpq, setDad_self]

theorem adopt_other {top g' : ℕ} (h : Hangs nilNode k s top g') (hq : q ∉ inorder s)
    (hc : k.child p b ∉ inorder s) : Hangs nilNode (adopt b p q k) s top g' :=
  h.congr fun y hy =>
    have hyq : y ≠ q := fun e => hq (e ▸ hy)
    ⟨adopt_lson hpq fun e => absurd e hyq, adopt_rson hpq fun e => absurd e hyq,
      adopt_dad hpq fun e => hc (e ▸ hy)⟩

theorem adopt_frame {ys : List ℕ} (hq : q ∈ ys) (hc : k.child p b = nilNode ∨ k.child p b ∈ ys) (g : ℕ) (b' : Bool) :
    Frame nilNode k (adopt b p q k) ys g b' :=
  ⟨fun _ hy _ => adopt_lson hpq fun e => absurd (e ▸ hq) hy, fun _ hy _ => adopt_rson hpq fun e => absurd (e ▸ hq) hy,
    fun _ hy hne => adopt_dad hpq fun e => hc.elim (fun hn => hne (e.trans hn)) fun hm => hy (e ▸ hm)⟩

end

/-- below a node all changes on its right -/
theorem right_side {k' : Links ℕ} {r' : BinaryTree ℕ} (h : Hung nilNode k (node q l r) g b)
    (hf : Frame nilNode k k' (inorder r) q true) (hr : Hangs nilNode k' r' (k'.child q true) q) :
    Hangs nilNode k' (node q l r') q g := by
  obtain ⟨-, -, -, -, hd⟩ := nodup_node h.nodup
  have hg : g ∉ inorder r := fun hm => h.above (mem_node.mpr (Or.inr (Or.inr hm)))
  have hc := h.right_changed hf hg h.right.above hd hr
  rwa [hf.child hg h.ne_dad.symm, h.top_eq] at hc

/-- what is below `q` on the left takes its place, on the right of its dad -/
theorem spliceOut_spec {c : BinaryTree ℕ} (h : Hung nilNode k (node q c nil) g true) :
    Frame nilNode k (spliceOut q k) (inorder (node q c nil)) g true ∧
      Hangs nilNode (spliceOut q k) c ((spliceOut q k).child g true) g := by
  have hdad := h.dad_eq
  have hgc : g ∉ inorder c := fun hm => h.above (mem_node.mpr (Or.inr (Or.inl hm)))
  have hlson : ∀ y, (spliceOut q k).lson y = k.lson y := by
    intro y
    rw [spliceOut, setDad_lson, setChild_lson fun _ => rfl]
  have hrson : ∀ y, y ≠ g → (spliceOut q k).rson y = k.rson y := by
    intro y hy
    rw [spliceOut, setDad_rson, hdad, setChild_rson fun e => absurd e hy]
  have hl : (k.setChild g true (k.lson q)).lson q = k.lson q := setChild_lson (fun _ => rfl) _
  have hdads : ∀ y, y ≠ k.lson q → (spliceOut q k).dad y = k.dad y := by
    intro y hy
    rw [spliceOut, hdad, hl, setDad_of_ne hy, setChild_dad]
  have htop : (spliceOut q k).child g true = k.lson q := by
    rw [spliceOut, hdad, setDad_child, setChild_self]
  refine ⟨⟨fun y _ _ => hlson y, fun y _ hy => hrson y fun e => absurd (hy e) (by decide), fun y hy hne => ?_⟩, ?_⟩
  · refine hdads y fun e => ?_
    rcases h.left.hangs.top_mem with hn | hm
    · exact hne (e.trans hn)
    · exact hy (mem_node.mpr (Or.inr (Or.inl (e ▸ hm))))
  · rw [htop]
    refine h.left.hangs.moved h.left.nodup (fun y hy => ⟨hlson y, hrson y fun e => hgc (e ▸ hy)⟩)
      (fun y _ hne => hdads y hne) fun _ => ?_
    show (spliceOut q k).dad (k.lson q) = g
    rw [spliceOut, hdad, hl, setDad_self, setChild_dad, hdad]

/-- the last node of a tree is found down its right side, and what is below it takes its place -/
theorem rightmost_spec {a c d : BinaryTree ℕ} {q' fuel : ℕ} (h : Hung nilNode k (node q a (node q' c d)) g b)
    (hfuel : (inorder (node q' c d)).length ≤ fuel) :
    ∃ m, rightmost k fuel q = some m ∧ (popLast q a (node q' c d)).1 = m ∧ m ∈ inorder (node q' c d) ∧
      Hangs nilNode (spliceOut m k) (popLast q a (node q' c d)).2 q g ∧
      Frame nilNode k (spliceOut m k) (inorder (node q' c d)) q true := by
  induction d generalizing q a q' c g b fuel with
  | nil =>
    obtain ⟨fuel, rfl⟩ := Nat.exists_eq_succ_of_ne_zero (show fuel ≠ 0 by
      rintro rfl
      exact absurd (List.length_eq_zero_iff.mp (Nat.le_zero.mp hfuel)) (by simp))
    have hrson : k.rson q = q' := h.right.top_eq
    have hnil : k.rson q' = nilNode := h.right.right.hangs
    obtain ⟨hf, hh⟩ := spliceOut_spec h.right
    refine ⟨q', ?_, rfl, mem_node.mpr (Or.inl rfl), right_side h hf hh, hf⟩
    rw [rightmost, hrson, if_neg (not_not.mpr hnil)]
  | node q2 c2 d2 _ ih =>
    obtain ⟨fuel, rfl⟩ := Nat.exists_eq_succ_of_ne_zero (show fuel ≠ 0 by
      rintro rfl
      exact absurd (List.length_eq_zero_iff.mp (Nat.le_zero.mp hfuel)) (by simp))
    have hrson : k.rson q = q' := h.right.top_eq
    have hne : k.rson q' ≠ nilNode := by
      rw [show k.rson q' = q2 from h.right.right.top_eq]
      exact h.right.right.ne_none
    have hlen : (inorder (node q2 c2 d2)).length ≤ fuel := by
      rw [inorder_node, List.length_append, List.length_cons] at hfuel
      omega
    obtain ⟨m, hm, hlast, hmem, hh, hf⟩ := ih h.right hlen
    have hsub : ∀ y ∈ inorder (node q2 c2 d2), y ∈ inorder (node q' c (node q2 c2 d2)) := fun y hy =>
      mem_node.mpr (Or.inr (Or.inr hy))
    have hup : Frame nilNode k (spliceOut m k) (inorder (node q' c (node q2 c2 d2))) q true :=
      hf.up hsub (mem_node.mpr (Or.inl rfl)) q true
    refine ⟨m, ?_, hlast, hsub m hmem, right_side h hup ?_, hup⟩
    · rw [rightmost, hrson, if_pos hne, hm]
    · rw [hf.child (fun hq => h.right.above (hsub q hq)) h.right.ne_dad.symm, h.right.top_eq]
      exact hh

/-- a tree on both sides of `p` that has been made one takes the place of `p` -/
theorem unlink_join {k' : Links ℕ} (h : Hung nilNode k (node p l r) g b)
    (hf : Frame nilNode k k' (inorder l ++ inorder r) q true) (hq : q ∈ inorder l) (m : ℕ) {o : ℕ}
    (hh : Hangs nilNode k' (join l r) m o) :
    (unlink p m k').dad p = nilNode ∧ Hangs nilNode (unlink p m k') (join l r) ((unlink p m k').child g b) g ∧
      Frame nilNode k (unlink p m k') (inorder (node p l r)) g b := by
  obtain ⟨hndl, hndr, hpl, hpr, hdisj⟩ := nodup_node h.nodup
  have hin : inorder (join l r) = inorder l ++ inorder r := inorder_join l r
  have hp : p ∉ inorder l ++ inorder r := fun hm => (List.mem_append.mp hm).elim hpl hpr
  have hg : g ∉ inorder l ++ inorder r := fun hm => h.above
    (mem_node.mpr (Or.inr (List.mem_append.mp hm)))
  have hgq : g ≠ q := fun e => hg (List.mem_append_left _ (e ▸ hq))
  have hother : b = false → k'.rson g ≠ p := by
    intro hb e
    rw [hf.rson g hg fun e => absurd e hgq] at e
    exact h.other hb (mem_node.mpr (Or.inl e))
  have hsub : ∀ y ∈ inorder l ++ inorder r, y ∈ inorder (node p l r) := fun y hy =>
    mem_node.mpr (Or.inr (List.mem_append.mp hy))
  have hself : p ∈ inorder (node p l r) := mem_node.mpr (Or.inl rfl)
  obtain ⟨hh', hd, hf'⟩ := unlink_spec ((hf.dad p hp h.ne_none).trans h.dad_eq) ((hf.child hg hgq).trans h.top_eq)
    hother hh (by
      rw [hin, List.nodup_append]
      exact ⟨hndl, hndr, fun x hx y hy e => hdisj x hx (e ▸ hy)⟩) (by rwa [hin]) h.ne_none (by rwa [hin])
  refine ⟨hd, hh', (hf.up hsub (hsub q (List.mem_append_left _ hq)) g b).trans (hf' _ hself fun y hy => ?_)⟩
  exact hsub y (hin ▸ hy)

/-- the last node on the left of `p`, which stands deep there, takes its place -/
theorem join_deep {a e c d : BinaryTree ℕ} {q' m : ℕ} (h : Hung nilNode k (node p (node q a e) (node q' c d)) g b)
    (hm : m ∈ inorder (node q a e)) (hlast : (popLast q a e).1 = m)
    (hh : Hangs nilNode (spliceOut m k) (popLast q a e).2 q p)
    (hf : Frame nilNode k (spliceOut m k) (inorder (node q a e)) q true) :
    (unlink p m (adopt true p m (adopt false p m (spliceOut m k)))).dad p = nilNode ∧
      Hangs nilNode (unlink p m (adopt true p m (adopt false p m (spliceOut m k)))) (join (node q a e) (node q' c d))
        ((unlink p m (adopt true p m (adopt false p m (spliceOut m k)))).child g b) g ∧
      Frame nilNode k (unlink p m (adopt true p m (adopt false p m (spliceOut m k))))
        (inorder (node p (node q a e) (node q' c d))) g b := by
  obtain ⟨hndl, hndr, hpl, hpr, hdisj⟩ := nodup_node h.nodup
  have hq : q ∈ inorder (node q a e) := mem_node.mpr (Or.inl rfl)
  have hq' : q' ∈ inorder (node q' c d) := mem_node.mpr (Or.inl rfl)
  have hpq : p ≠ q := fun e => hpl (e ▸ hq)
  have hpm : p ≠ m := fun e => hpl (e ▸ hm)
  have hin := inorder_popLast q a e
  rw [hlast] at hin
  have hsub : ∀ y ∈ inorder (popLast q a e).2, y ∈ inorder (node q a e) := fun y hy => by
    rw [hin]
    exact List.mem_append_left _ hy
  obtain ⟨hndl', -, hml'⟩ := List.nodup_append.mp (hin ▸ hndl)
  have hm' : m ∉ inorder (popLast q a e).2 := fun hy => hml' m hy m (List.mem_singleton.mpr rfl) rfl
  have hleft : (spliceOut m k).child p false = q := (hf.child hpl hpq).trans h.left.top_eq
  have hright : (spliceOut m k).child p true = q' := (hf.child hpl hpq).trans h.right.top_eq
  have hright' : (adopt false p m (spliceOut m k)).child p true = q' :=
    (adopt_rson hpm fun _ => rfl).trans hright
  have hl1 : Hangs nilNode (adopt false p m (spliceOut m k)) (popLast q a e).2 q m := by
    have := adopt_moved (b := false) hpm (by rw [hleft]; exact hh) hndl' hm'
    rwa [hleft] at this
  have hr1 : Hangs nilNode (adopt false p m (spliceOut m k)) (node q' c d) q' p := by
    have hr0 : Hangs nilNode k (node q' c d) q' p := ⟨rfl, h.right.hangs.2⟩
    refine adopt_other hpm (hf.hangs hr0 (fun y hy hy' => hdisj y hy' hy) (hdisj q hq)) (hdisj m hm) ?_
    rw [hleft]
    exact hdisj q hq
  refine unlink_join h ((hf.mono fun y hy => List.mem_append_left _ hy).trans ((adopt_frame hpm
    (List.mem_append_left _ hm) (Or.inr ?_) q true).trans (adopt_frame hpm (List.mem_append_left _ hm) (Or.inr ?_)
    q true))) hq m (o := (adopt true p m (adopt false p m (spliceOut m k))).dad m) ?_
  · rw [hleft]
    exact List.mem_append_left _ hq
  · rw [hright']
    exact List.mem_append_right _ hq'
  · have hj : join (node q a e) (node q' c d) = node m (popLast q a e).2 (node q' c d) := by
      rw [← hlast]
      rfl
    rw [hj]
    refine ⟨rfl, fun e => h.left.hangs.none_notMem (e ▸ hm), rfl, ?_, ?_⟩
    · have htop : (adopt false p m (spliceOut m k)).lson m = (spliceOut m k).child p false :=
        adopt_child (b := false) hpm
      rw [adopt_lson hpm fun _ => rfl, htop, hleft]
      refine adopt_other hpm hl1 hm' ?_
      rw [hright']
      exact fun hy => hdisj q' (hsub q' hy) hq'
    · have htop : (adopt true p m (adopt false p m (spliceOut m k))).rson m =
          (adopt false p m (spliceOut m k)).child p true := adopt_child (b := true) hpm
      rw [htop]
      exact adopt_moved hpm (by rw [hright']; exact hr1) hndr (hdisj m hm)

/-- the trees below the node are joined in its place -/
theorem deleteNode_join (h : Hung nilNode k (node p l r) g b) (hn : (inorder (node p l r)).length ≤ strbufSize) :
    ∃ k', deleteNode p k = some k' ∧ k'.dad p = nilNode ∧ Hangs nilNode k' (join l r) (k'.child g b) g ∧
      Frame nilNode k k' (inorder (node p l r)) g b := by
  obtain ⟨hndl, hndr, hpl, hpr, hdisj⟩ := nodup_node h.nodup
  have hreg : k.dad p ≠ nilNode := by
    rw [h.dad_eq]
    exact h.ne
  have hgl : g ∉ inorder l := fun hm => h.above (mem_node.mpr (Or.inr (Or.inl hm)))
  have hgr : g ∉ inorder r := fun hm => h.above (mem_node.mpr (Or.inr (Or.inr hm)))
  have hother : b = false → k.rson g ≠ p := fun hb e => h.other hb (mem_node.mpr (Or.inl e))
  have hself : p ∈ inorder (node p l r) := mem_node.mpr (Or.inl rfl)
  rw [deleteNode, if_neg hreg]
  cases r with
  | nil =>
    have hr : k.rson p = nilNode := h.right.hangs
    obtain ⟨hh, hd, hf⟩ := unlink_spec h.dad_eq h.top_eq hother h.left.hangs hndl hpl h.ne_none hgl
    have hj : join l nil = l := by cases l <;> rfl
    rw [if_pos hr, hj]
    exact ⟨_, rfl, hd, hh, hf _ hself fun y hy => mem_node.mpr (Or.inr (Or.inl hy))⟩
  | node q' c d =>
    have hrq : k.rson p = q' := h.right.top_eq
    rw [if_neg (by rw [hrq]; exact h.right.ne_none)]
    cases l with
    | nil =>
      have hl : k.lson p = nilNode := h.left.hangs
      obtain ⟨hh, hd, hf⟩ := unlink_spec h.dad_eq h.top_eq hother h.right.hangs hndr hpr h.ne_none hgr
      rw [if_pos hl]
      exact ⟨_, rfl, hd, hh, hf _ hself fun y hy => mem_node.mpr (Or.inr (Or.inr hy))⟩
    | node q a e =>
      have hlq : k.lson p = q := h.left.top_eq
      have hq : q ∈ inorder (node q a e) := mem_node.mpr (Or.inl rfl)
      have hq' : q' ∈ inorder (node q' c d) := mem_node.mpr (Or.inl rfl)
      have hpq : p ≠ q := fun e => hpl (e ▸ hq)
      rw [hlq, if_neg h.left.ne_none]
      cases e with
      | nil =>
        have hqr : k.rson q = nilNode := h.left.right.hangs
        have hqq : q ∉ inorder (node q' c d) := hdisj q hq
        rw [if_neg (not_not.mpr hqr)]
        refine ⟨_, rfl, unlink_join h (adopt_frame hpq (List.mem_append_left _ hq)
          (Or.inr (List.mem_append_right _ (hrq ▸ hq'))) q true) hq q (o := p) ?_⟩
        have hne : q ≠ k.child p true := fun e => hqq (e ▸ hrq ▸ hq')
        refine ⟨rfl, h.left.ne_none, (adopt_dad hpq hne).trans h.left.dad_eq, ?_, ?_⟩
        · rw [adopt_lson hpq fun _ => rfl]
          refine adopt_other hpq h.left.left.hangs h.left.left.above fun hm => ?_
          exact hdisj _ (mem_node.mpr (Or.inr (Or.inl hm))) (hrq ▸ hq')
        · have htop : (adopt true p q k).rson q = k.child p true := adopt_child (b := true) hpq
          have hmoved := adopt_moved hpq h.right.hangs hndr hqq
          rwa [← htop] at hmoved
      | node q2 c2 d2 =>
        have hqr : k.rson q = q2 := h.left.right.top_eq
        have hlen : (inorder (node q2 c2 d2)).length ≤ strbufSize := by
          simp only [inorder_node, List.length_append, List.length_cons] at hn ⊢
          omega
        obtain ⟨m, hm, hlast, hmem, hh, hf⟩ := rightmost_spec h.left hlen
        rw [if_pos (by rw [hqr]; exact h.left.right.ne_none), hm, Option.map_some]
        have hml : m ∈ inorder (node q a (node q2 c2 d2)) := mem_node.mpr (Or.inr (Or.inr hmem))
        exact ⟨_, rfl, join_deep h hml hlast hh (hf.mono fun y hy => mem_node.mpr (Or.inr (Or.inr hy)))⟩

end

end Wpack
