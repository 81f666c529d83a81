import OpenWatcom.Lib.Chains

/-!
# Lists that share nodes

Nodes have one link each, and the null link is 0.  A `Part` is what a pointer is taken for: a whole list,
or a number of nodes of one.

* `Within`, `Reaches`, `Endless`     the nodes on the way from a pointer
* `Tangled`     a list without an end, or a list that has a node in common with another part
* `Tangled.relinked`     parts whose nodes are linked to one list stay tangled with the others
* `Tangled.detached`     the same where they are linked twice
-/

namespace Links
open Chains

/-- `v` is one of the first `k` nodes from `p` -/
def Within (next : ℕ → ℕ) : ℕ → ℕ → ℕ → Prop
  | 0, _, _ => False
  | k + 1, p, v => p ≠ 0 ∧ (v = p ∨ Within next k (next p) v)

def Reaches (next : ℕ → ℕ) (p v : ℕ) : Prop := ∃ k, Within next k p v

/-- the links lead from `p` to `k` nodes and one more -/
def Goes (next : ℕ → ℕ) : ℕ → ℕ → Prop
  | 0, p => p ≠ 0
  | k + 1, p => p ≠ 0 ∧ Goes next k (next p)

def Endless (next : ℕ → ℕ) (p : ℕ) : Prop := ∀ k, Goes next k p

section
variable {next next' : ℕ → ℕ} {k m p u v : ℕ}

theorem Within.mono (h : Within next k p v) (hk : k ≤ m) : Within next m p v := by
  induction k generalizing m p with
  | zero => exact h.elim
  | succ k ih =>
    obtain ⟨m, rfl⟩ := Nat.exists_eq_succ_of_ne_zero (Nat.ne_of_gt (Nat.lt_of_lt_of_le (Nat.succ_pos k) hk))
    exact ⟨h.1, h.2.imp id fun hr => ih hr (Nat.le_of_succ_le_succ hk)⟩

theorem Within.reaches (h : Within next k p v) : Reaches next p v := ⟨k, h⟩

theorem Reaches.self (hp : p ≠ 0) : Reaches next p p := ⟨1, hp, Or.inl rfl⟩

theorem Reaches.step (hp : p ≠ 0) (h : Reaches next (next p) v) : Reaches next p v := by
  obtain ⟨k, hk⟩ := h
  exact ⟨k + 1, hp, Or.inr hk⟩

theorem Reaches.ne_zero (h : Reaches next p v) : v ≠ 0 := by
  obtain ⟨k, hk⟩ := h
  induction k generalizing p with
  | zero => exact hk.elim
  | succ k ih =>
    rcases hk.2 with rfl | hr
    · exact hk.1
    · exact ih hr

theorem Reaches.trans (h : Reaches next p u) (h' : Reaches next u v) : Reaches next p v := by
  obtain ⟨k, hk⟩ := h
  induction k generalizing p with
  | zero => exact hk.elim
  | succ k ih =>
    rcases hk.2 with rfl | hr
    · exact h'
    · exact (ih hr).step hk.1

theorem Reaches.here_or_behind (h : Reaches next p v) : v = p ∨ Reaches next (next p) v := by
  obtain ⟨k, hk⟩ := h
  cases k with
  | zero => exact hk.elim
  | succ k => exact hk.2.imp id fun hr => ⟨k, hr⟩

theorem Goes.reaches (h : Reaches next p v) (k : ℕ) (hp : Endless next p) : Goes next k v := by
  obtain ⟨m, hm⟩ := h
  induction m generalizing p with
  | zero => exact hm.elim
  | succ m ih =>
    rcases hm.2 with rfl | hr
    · exact hp k
    · exact ih (fun j => (hp (j + 1)).2) hr

theorem Endless.of_reaches (h : Reaches next p v) (hv : Endless next v) : Endless next p := by
  obtain ⟨m, hm⟩ := h
  induction m generalizing p with
  | zero => exact hm.elim
  | succ m ih =>
    rcases hm.2 with rfl | hr
    · exact hv
    · intro k
      cases k with
      | zero => exact hm.1
      | succ k => exact ⟨hm.1, ih hr k⟩

/-- a node that comes back to itself -/
theorem endless_of_loop (hp : p ≠ 0) (h : Reaches next (next p) p) : Endless next p := by
  have key : ∀ k q, Reaches next q p → Goes next k q := by
    intro k
    induction k with
    | zero =>
      rintro q ⟨m, hm⟩
      cases m with
      | zero => exact hm.elim
      | succ m => exact hm.1
    | succ k ih =>
      intro q hq
      have hq0 : q ≠ 0 := by
        obtain ⟨m, hm⟩ := hq
        cases m with
        | zero => exact hm.elim
        | succ m => exact hm.1
      refine ⟨hq0, ih _ ?_⟩
      rcases hq.here_or_behind with rfl | hr
      · exact h
      · exact hr
  exact fun k => key k p (Reaches.self hp)

/-! ## links that change -/

variable {X : ℕ → Prop} (hn : ∀ u, ¬ X u → next' u = next u)
include hn

/-- the way to a node is kept up to the first node whose link changed -/
theorem Within.change (h : Within next k p v) : Within next' k p v ∨ ∃ u, X u ∧ Within next' k p u := by
  induction k generalizing p with
  | zero => exact h.elim
  | succ k ih =>
    obtain ⟨hp, rfl | hr⟩ := h
    · exact Or.inl ⟨hp, Or.inl rfl⟩
    · by_cases hx : X p
      · exact Or.inr ⟨p, hx, hp, Or.inl rfl⟩
      · have he := hn p hx
        rcases ih hr with hr' | ⟨u, hu, hr'⟩
        · exact Or.inl ⟨hp, Or.inr (by rw [he]; exact hr')⟩
        · exact Or.inr ⟨u, hu, hp, Or.inr (by rw [he]; exact hr')⟩

theorem Reaches.change (h : Reaches next p v) : Reaches next' p v ∨ ∃ u, X u ∧ Reaches next' p u := by
  obtain ⟨k, hk⟩ := h
  rcases hk.change hn with hr | ⟨u, hu, hr⟩
  · exact Or.inl ⟨k, hr⟩
  · exact Or.inr ⟨u, hu, k, hr⟩

/-- where the nodes with changed links lead to no others, a way to another node is kept -/
theorem Within.keep (hX : ∀ u, X u → next u = 0 ∨ X (next u)) (h : Within next k p v) (hv : ¬ X v) :
    Within next' k p v := by
  have hout : ∀ k p, X p → ¬ Within next k p v := by
    intro k
    induction k with
    | zero => exact fun _ _ h => h
    | succ k ih =>
      rintro p hp ⟨h0, rfl | hr⟩
      · exact hv hp
      · rcases hX p hp with hz | hz
        · rw [hz] at hr
          cases k with
          | zero => exact hr
          | succ k => exact hr.1 rfl
        · exact ih _ hz hr
  induction k generalizing p with
  | zero => exact h
  | succ k ih =>
    have hp : ¬ X p := fun hx => hout _ _ hx h
    refine ⟨h.1, h.2.imp id fun hr => ?_⟩
    rw [hn p hp]
    exact ih hr

theorem Endless.change (h : Endless next p) : Endless next' p ∨ ∃ u, X u ∧ Reaches next' p u := by
  by_cases hx : ∃ u, X u ∧ Reaches next' p u
  · exact Or.inr hx
  · left
    have key : ∀ k q, (∀ u, X u → ¬ Reaches next' q u) → Goes next k q → Goes next' k q := by
      intro k
      induction k with
      | zero => exact fun _ _ h => h
      | succ k ih =>
        intro q hq hg
        have hqx : ¬ X q := fun hx => hq q hx (Reaches.self hg.1)
        have he := hn q hqx
        refine ⟨hg.1, ih _ (fun u hu hr => hq u hu (hr.step hg.1)) ?_⟩
        rw [he]
        exact hg.2
    exact fun k => key k p (fun u hu hr => hx ⟨u, hu, hr⟩) (h k)

end

/-! ## chains -/

section
variable {next : ℕ → ℕ} {p v : ℕ} {l : List ℕ}

theorem Chained.reaches (h : Chained next p l) (hv : v ∈ l) : Reaches next p v := by
  induction l generalizing p with
  | nil => exact absurd hv List.not_mem_nil
  | cons x l ih =>
    obtain ⟨rfl, h0, hl⟩ := h
    rcases List.mem_cons.mp hv with rfl | hv
    · exact Reaches.self h0
    · exact (ih hl hv).step h0

theorem Chained.mem_of_reaches (h : Chained next p l) (hv : Reaches next p v) : v ∈ l := by
  induction l generalizing p with
  | nil =>
    obtain ⟨k, hk⟩ := hv
    cases k with
    | zero => exact hk.elim
    | succ k => exact absurd h hk.1
  | cons x l ih =>
    obtain ⟨rfl, h0, hl⟩ := h
    rcases hv.here_or_behind with rfl | hr
    · exact List.mem_cons_self
    · exact List.mem_cons_of_mem _ (ih hl hr)

theorem Chained.not_endless (h : Chained next p l) : ¬ Endless next p := by
  intro he
  induction l generalizing p with
  | nil => exact (he 0) h
  | cons x l ih =>
    obtain ⟨rfl, -, hl⟩ := h
    exact ih hl fun k => (he (k + 1)).2

/-- a list that ends has its nodes once -/
theorem Chained.nodup (h : Chained next p l) : l.Nodup := by
  induction l generalizing p with
  | nil => exact List.nodup_nil
  | cons x l ih =>
    obtain ⟨rfl, h0, hl⟩ := h
    refine List.nodup_cons.mpr ⟨fun hm => ?_, ih hl⟩
    have hc : Chains.Chained next p (p :: l) := ⟨rfl, h0, hl⟩
    exact Chained.not_endless hc (endless_of_loop h0 (Chained.reaches hl hm))

theorem exists_chained (h : ¬ Endless next p) : ∃ l, Chained next p l := by
  obtain ⟨k, hk⟩ := not_forall.mp h
  clear h
  induction k generalizing p with
  | zero => exact ⟨[], not_not.mp hk⟩
  | succ k ih =>
    by_cases hp : p = 0
    · exact ⟨[], hp⟩
    · obtain ⟨l, hl⟩ := ih fun hg => hk ⟨hp, hg⟩
      exact ⟨p :: l, rfl, hp, hl⟩

end

/-- from `p` the links lead through `l` to `r` -/
def Leads (next : ℕ → ℕ) : ℕ → List ℕ → ℕ → Prop
  | p, [], r => p = r
  | p, x :: l, r => p = x ∧ x ≠ 0 ∧ Leads next (next x) l r

section
variable {next next' : ℕ → ℕ} {p r : ℕ} {l m : List ℕ}

theorem leads_zero : Leads next p l 0 ↔ Chains.Chained next p l := by
  induction l generalizing p with
  | nil => exact Iff.rfl
  | cons x l ih => exact and_congr_right fun _ => and_congr_right fun _ => ih

theorem leads_append : Leads next p (l ++ m) r ↔ ∃ d, Leads next p l d ∧ Leads next d m r := by
  induction l generalizing p with
  | nil => exact ⟨fun h => ⟨p, rfl, h⟩, fun ⟨d, hd, h⟩ => hd ▸ h⟩
  | cons x l ih =>
    constructor
    · rintro ⟨hp, hx, hl⟩
      obtain ⟨d, hd, hm⟩ := ih.mp hl
      exact ⟨d, ⟨hp, hx, hd⟩, hm⟩
    · rintro ⟨d, ⟨hp, hx, hd⟩, hm⟩
      exact ⟨hp, hx, ih.mpr ⟨d, hd, hm⟩⟩

theorem Leads.congr (h : Leads next p l r) (hn : ∀ x ∈ l, next' x = next x) : Leads next' p l r := by
  induction l generalizing p with
  | nil => exact h
  | cons x l ih =>
    obtain ⟨hp, hx, hl⟩ := h
    refine ⟨hp, hx, ?_⟩
    rw [hn x List.mem_cons_self]
    exact ih hl fun y hy => hn y (List.mem_cons_of_mem x hy)

theorem Leads.start (h : Leads next p l r) (hl : l ≠ []) : p ≠ 0 := by
  obtain ⟨x, l, rfl⟩ := List.exists_cons_of_ne_nil hl
  rw [h.1]
  exact h.2.1

theorem chained_ne_zero (h : Chains.Chained next p l) {x : ℕ} (hx : x ∈ l) : x ≠ 0 :=
  (Chained.reaches h hx).ne_zero

end

/-! ## parts -/

/-- a list from `start`, or the first nodes of one -/
structure Part where
  start : ℕ
  count : Option ℕ

def Part.list (p : ℕ) : Part := ⟨p, none⟩

def Part.first (p m : ℕ) : Part := ⟨p, some m⟩

/-- `v` is a node of the part -/
def Part.Has (next : ℕ → ℕ) (a : Part) (v : ℕ) : Prop :=
  match a.count with
  | none => Reaches next a.start v
  | some m => Within next m a.start v

def Part.IsList (a : Part) : Prop := a.count = none

/-- two parts, one of which is a list, have a node in common -/
def Meets (next : ℕ → ℕ) (a b : Part) : Prop := (a.IsList ∨ b.IsList) ∧ ∃ v, a.Has next v ∧ b.Has next v

/-- a list among the parts has no end, or has a node of another part -/
def Tangled (next : ℕ → ℕ) (parts : List Part) : Prop :=
  (∃ a ∈ parts, a.IsList ∧ Endless next a.start) ∨ ¬ parts.Pairwise fun a b => ¬ Meets next a b

section
variable {next next' : ℕ → ℕ} {R : ℕ} {ctx : List Part} {X : ℕ → Prop}

theorem Part.Has.change (hn : ∀ u, ¬ X u → next' u = next u) {a : Part} {v : ℕ} (h : a.Has next v) :
    a.Has next' v ∨ ∃ u, X u ∧ a.Has next' u := by
  unfold Part.Has at *
  cases hc : a.count with
  | none =>
    rw [hc] at h
    exact Reaches.change hn h
  | some m =>
    rw [hc] at h
    exact Within.change hn h

theorem Part.Has.keep (hn : ∀ u, ¬ X u → next' u = next u) (hX : ∀ u, X u → next u = 0 ∨ X (next u))
    {a : Part} {v : ℕ} (h : a.Has next v) (hv : ¬ X v) : a.Has next' v := by
  unfold Part.Has at *
  cases hc : a.count with
  | none =>
    rw [hc] at h
    obtain ⟨k, hk⟩ := h
    exact ⟨k, hk.keep hn hX hv⟩
  | some m =>
    rw [hc] at h
    exact Within.keep hn hX h hv

theorem Tangled.perm {parts parts' : List Part} (h : Tangled next parts) (hp : parts.Perm parts') :
    Tangled next parts' := by
  have hs : ∀ {a b : Part}, ¬ Meets next a b → ¬ Meets next b a :=
    fun hab hba => hab ⟨hba.1.symm, hba.2.imp fun v hv => hv.symm⟩
  rcases h with ⟨a, ha, hl⟩ | hm
  · exact Or.inl ⟨a, hp.mem_iff.mp ha, hl⟩
  · exact Or.inr fun hc => hm (hp.symm.pairwise hc hs)

theorem tangled_of_meets {b : Part} (hb : b ∈ ctx) (h : Meets next (Part.list R) b) :
    Tangled next (Part.list R :: ctx) := Or.inr fun hp => (List.pairwise_cons.mp hp).1 b hb h

/-- parts that end and have no nodes in common: when their nodes are all linked to the list `R`, it is
tangled with what they were tangled with -/
theorem Tangled.relinked {olds : List Part} (hn : ∀ u, ¬ X u → next' u = next u)
    (hX : ∀ a ∈ olds, ∀ v, a.Has next v → X v) (hR : ∀ u, X u → Reaches next' R u)
    (hend : ∀ a ∈ olds, a.IsList → ¬ Endless next a.start)
    (hapart : olds.Pairwise fun a b => ¬ Meets next a b) (h : Tangled next (olds ++ ctx)) :
    Tangled next' (Part.list R :: ctx) := by
  have hhit : ∀ b ∈ ctx, ∀ u, X u → b.Has next' u → Tangled next' (Part.list R :: ctx) :=
    fun b hb u hu hbu => tangled_of_meets hb ⟨Or.inl rfl, u, hR u hu, hbu⟩
  by_contra hno
  have hmiss : ∀ b ∈ ctx, ∀ v, b.Has next v → ¬ X v ∧ b.Has next' v := by
    intro b hb v hv
    rcases hv.change hn with hv' | ⟨u, hu, hu'⟩
    · exact ⟨fun hx => hno (hhit b hb v hx hv'), hv'⟩
    · exact absurd (hhit b hb u hu hu') hno
  rcases h with ⟨a, ha, hl, he⟩ | hm
  · rcases List.mem_append.mp ha with ha | ha
    · exact hend a ha hl he
    · rcases he.change hn with he' | ⟨u, hu, hr⟩
      · exact hno (Or.inl ⟨a, List.mem_cons_of_mem _ ha, hl, he'⟩)
      · refine hno (hhit a ha u hu ?_)
        unfold Part.Has
        rw [show a.count = none from hl]
        exact hr
  · refine hm (List.pairwise_append.mpr ⟨hapart, ?_, fun a ha b hb hab => ?_⟩)
    · -- parts that are left alone meet where they met
      have hctx : ctx.Pairwise fun a b => ¬ Meets next' a b := by
        by_contra hc
        exact hno (Or.inr fun hp => hc (List.pairwise_cons.mp hp).2)
      refine hctx.imp_of_mem fun {a b} ha hb hab => ?_
      rintro ⟨hl, v, hav, hbv⟩
      exact hab ⟨hl, v, (hmiss a ha v hav).2, (hmiss b hb v hbv).2⟩
    · obtain ⟨-, v, hav, hbv⟩ := hab
      exact (hmiss b hb v hbv).1 (hX a ha v hav)

/-- the first nodes of a list that has no end, when they are linked once more and lead to `z` -/
theorem Tangled.detached {c m z : ℕ} (hn : ∀ u, ¬ X u → next' u = next u)
    (hclosed : ∀ u, X u → next u = 0 ∨ X (next u)) (hX : ∀ v, Within next m c v → X v)
    (hz : ∀ u, X u → Reaches next' u z) (hR : Reaches next' R z) (h : Tangled next (Part.first c m :: ctx)) :
    Tangled next' (Part.list R :: ctx) := by
  have hhit : ∀ b ∈ ctx, b.IsList → ∀ u, X u → b.Has next' u → Tangled next' (Part.list R :: ctx) := by
    intro b hb hl u hu hbu
    refine tangled_of_meets hb ⟨Or.inl rfl, z, hR, ?_⟩
    unfold Part.Has at *
    rw [show b.count = none from hl] at *
    exact hbu.trans (hz u hu)
  by_contra hno
  have hmiss : ∀ b ∈ ctx, b.IsList → ∀ v, b.Has next v → ¬ X v := by
    intro b hb hl v hv hx
    rcases hv.change hn with hv' | ⟨u, hu, hu'⟩
    · exact hno (hhit b hb hl v hx hv')
    · exact hno (hhit b hb hl u hu hu')
  rcases h with ⟨a, ha, hl, he⟩ | hm
  · rcases List.mem_cons.mp ha with rfl | ha
    · exact Option.some_ne_none m hl
    · rcases he.change hn with he' | ⟨u, hu, hr⟩
      · exact hno (Or.inl ⟨a, List.mem_cons_of_mem _ ha, hl, he'⟩)
      · refine hno (hhit a ha hl u hu ?_)
        unfold Part.Has
        rw [show a.count = none from hl]
        exact hr
  · refine hm (List.pairwise_cons.mpr ⟨fun b hb hab => ?_, ?_⟩)
    · obtain ⟨hl, v, hav, hbv⟩ := hab
      exact hmiss b hb (hl.resolve_left (Option.some_ne_none m)) v hbv (hX v hav)
    · have hctx : ctx.Pairwise fun a b => ¬ Meets next' a b := by
        by_contra hc
        exact hno (Or.inr fun hp => hc (List.pairwise_cons.mp hp).2)
      refine hctx.imp_of_mem fun {a b} ha hb hab => ?_
      rintro ⟨hl, v, hav, hbv⟩
      have hv : ¬ X v := by
        rcases hl with hl | hl
        · exact hmiss a ha hl v hav
        · exact hmiss b hb hl v hbv
      exact hab ⟨hl, v, hav.keep hn hclosed hv, hbv.keep hn hclosed hv⟩

end
end Links
