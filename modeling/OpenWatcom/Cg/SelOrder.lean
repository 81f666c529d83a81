import Mathlib.Tactic.NormNum
import OpenWatcom.Cg.BldSel
import OpenWatcom.Lib.Intervals

/-!
# Case ranges in order

* `key_succ`, `key_pred`, `key_sub`   64-bit arithmetic under the order of `SelCompare`;
* `InOrder`, `Valid`     the ranges ascend; a range is not inverted under the order;
* `Merges`               what `MergeListEntries` keeps.
-/

namespace Cg
open Intervals

/-! ## keys -/

theorem key_true (x : BitVec 64) : key true x = x.toInt := rfl

theorem key_false (x : BitVec 64) : key false x = x.toNat := rfl

theorem toInt_cases (x : BitVec 64) :
    (x.toNat < 2 ^ 63 ∧ x.toInt = x.toNat) ∨
      (2 ^ 63 ≤ x.toNat ∧ x.toInt = (x.toNat : Int) - 2 ^ 64) := by
  rw [BitVec.toInt_eq_toNat_cond]
  split
  · left
    omega
  · right
    exact ⟨by omega, by norm_num⟩

section
variable {s : Bool} {x y : BitVec 64}

theorem key_inj : key s x = key s y ↔ x = y := by
  cases s with
  | true => exact ⟨fun h => BitVec.eq_of_toInt_eq h, fun h => h ▸ rfl⟩
  | false =>
    refine ⟨fun h => BitVec.eq_of_toNat_eq ?_, fun h => h ▸ rfl⟩
    rw [key_false, key_false] at h
    omega

theorem key_succ (h : key s x < key s y) : key s (x + 1) = key s x + 1 := by
  have hx := toInt_cases x
  have hy := toInt_cases y
  have h1 := toInt_cases (x + 1)
  have hxl := x.isLt
  have hyl := y.isLt
  have e : (x + 1).toNat = (x.toNat + 1) % 2 ^ 64 := BitVec.toNat_add x 1
  cases s with
  | true =>
    rw [key_true] at h ⊢
    rw [key_true] at h ⊢
    omega
  | false =>
    rw [key_false] at h ⊢
    rw [key_false] at h ⊢
    omega

theorem key_pred (h : key s y < key s x) : key s (x - 1) = key s x - 1 := by
  have hx := toInt_cases x
  have hy := toInt_cases y
  have h1 := toInt_cases (x - 1)
  have hxl := x.isLt
  have hyl := y.isLt
  have e : (x - 1).toNat = (2 ^ 64 - 1 + x.toNat) % 2 ^ 64 := BitVec.toNat_sub x 1
  cases s with
  | true =>
    rw [key_true] at h ⊢
    rw [key_true] at h ⊢
    omega
  | false =>
    rw [key_false] at h ⊢
    rw [key_false] at h ⊢
    omega

theorem key_sub (h : key s x ≤ key s y) : ((y - x).toNat : Int) = key s y - key s x := by
  have hx := toInt_cases x
  have hy := toInt_cases y
  have hxl := x.isLt
  have hyl := y.isLt
  have e : (y - x).toNat = (2 ^ 64 - x.toNat + y.toNat) % 2 ^ 64 := BitVec.toNat_sub y x
  cases s with
  | true =>
    rw [key_true, key_true] at h ⊢
    omega
  | false =>
    rw [key_false, key_false] at h ⊢
    omega

end

/-! ## ranges -/

section
variable {L : Type} (s : Bool)

def Case.lo (e : Case L) : Int := key s e.low
def Case.hi (e : Case L) : Int := key s e.high

/-- the range is not inverted under the order -/
def Case.Valid (e : Case L) : Prop := e.lo s ≤ e.hi s

/-- the range contains the value under the order -/
def Case.Has (e : Case L) (v : BitVec 64) : Prop := Covers (Case.lo s) (Case.hi s) e (key s v)

/-- the ranges ascend -/
def InOrder (es : List (Case L)) : Prop := Ascending (Case.lo s) (Case.hi s) es

/-- the label of the range that contains the value -/
def Leads (other : L) (es : List (Case L)) (v : BitVec 64) (l : L) : Prop :=
  Reaches (Case.lo s) (Case.hi s) Case.label other es (key s v) l

end

section
variable {L : Type} {s : Bool} {es : List (Case L)}

theorem InOrder.cons {a : Case L} (h : InOrder s (a :: es)) :
    (∀ b ∈ es, key s a.low < key s b.low ∧ key s a.high < key s b.low) ∧ InOrder s es :=
  List.pairwise_cons.mp h

/-! ## merging -/

/-- two ranges that are merged into `m` -/
theorem merge_has {a b m : Case L} (hab : key s a.low < key s b.low ∧ key s a.high < key s b.low)
    (hnext : a.high + 1 = b.low) (hlow : m.low = a.low) (hhigh : m.high = b.high)
    (v : BitVec 64) :
    (m.Has s v → a.Has s v ∨ b.Has s v) ∧ (b.Has s v → m.Has s v) ∧
      (b.Valid s → a.Has s v → m.Has s v) := by
  have hk := key_succ hab.2
  rw [hnext] at hk
  simp only [Case.Has, Covers, Case.lo, Case.hi, Case.Valid, hlow, hhigh]
  refine ⟨?_, ?_, ?_⟩
  · intro h
    by_cases h1 : key s v ≤ key s a.high
    · exact Or.inl ⟨h.1, h1⟩
    · exact Or.inr ⟨by omega, h.2⟩
  · intro h
    omega
  · intro h1 h2
    omega

variable [DecidableEq L]

/-- what `MergeListEntries` makes of the ranges `es` -/
structure Merges (s : Bool) (es out : List (Case L)) : Prop where
  inOrder : InOrder s out
  sound : ∀ e ∈ out, ∀ v, e.Has s v → ∃ e' ∈ es, e'.Has s v ∧ e'.label = e.label
  complete : ∀ e' ∈ es, ∀ v, e'.Has s v →
    (∃ e ∈ out, e.Has s v ∧ e.label = e'.label) ∨ ∃ i ∈ es, ¬ i.Valid s ∧ i.label = e'.label
  valid : (∀ e ∈ es, e.Valid s) → ∀ e ∈ out, e.Valid s

theorem mergeInto_low (a : Case L) (es : List (Case L)) (h : InOrder s (a :: es)) :
    ∀ e ∈ mergeInto a es, key s a.low ≤ key s e.low := by
  induction es generalizing a with
  | nil =>
    intro e he
    rw [List.mem_singleton.mp he]
  | cons b es ih =>
    obtain ⟨h1, h2⟩ := h.cons
    obtain ⟨h3, h4⟩ := h2.cons
    have hab := h1 b List.mem_cons_self
    rw [mergeInto]
    split
    · exact ih { a with high := b.high, count := a.count + b.count }
        (List.pairwise_cons.mpr ⟨fun c hc => ⟨(h1 c (List.mem_cons_of_mem _ hc)).1, (h3 c hc).2⟩, h4⟩)
    · intro e he
      rcases List.mem_cons.mp he with rfl | he
      · exact Int.le_refl _
      · have := ih b h2 e he
        omega

theorem mergeInto_merges (a : Case L) (es : List (Case L)) (h : InOrder s (a :: es)) :
    Merges s (a :: es) (mergeInto a es) := by
  induction es generalizing a with
  | nil =>
    exact ⟨List.pairwise_singleton _ _, fun e he v hv => ⟨e, he, hv, rfl⟩,
      fun e he v hv => Or.inl ⟨e, he, hv, rfl⟩, fun hv => hv⟩
  | cons b es ih =>
    obtain ⟨h1, h2⟩ := h.cons
    obtain ⟨h3, h4⟩ := h2.cons
    have hab := h1 b List.mem_cons_self
    rw [mergeInto]
    split
    · next hmerge =>
      -- `b` is merged into `a`, and the result goes on merging
      obtain ⟨hnext, hlabel⟩ := hmerge
      have ih := ih { a with high := b.high, count := a.count + b.count }
        (List.pairwise_cons.mpr ⟨fun c hc => ⟨(h1 c (List.mem_cons_of_mem _ hc)).1, (h3 c hc).2⟩, h4⟩)
      have hhas := merge_has (m := { a with high := b.high, count := a.count + b.count })
        hab hnext rfl rfl
      have hinvalid : (∃ i ∈ { a with high := b.high, count := a.count + b.count } :: es,
          ¬ i.Valid s ∧ i.label = a.label) → ∃ i ∈ a :: b :: es, ¬ i.Valid s ∧ i.label = a.label := by
        rintro ⟨i, hi, hv, hl⟩
        rcases List.mem_cons.mp hi with rfl | hi
        · refine ⟨b, by simp, fun hb => hv ?_, hlabel.symm⟩
          simp only [Case.Valid, Case.lo, Case.hi] at hb ⊢
          omega
        · exact ⟨i, by simp [hi], hv, hl⟩
      refine ⟨ih.inOrder, ?_, ?_, ?_⟩
      · intro e he v hv
        obtain ⟨e', he', hv', hl⟩ := ih.sound e he v hv
        rcases List.mem_cons.mp he' with rfl | he'
        · rcases (hhas v).1 hv' with hv' | hv'
          · exact ⟨a, by simp, hv', hl⟩
          · exact ⟨b, by simp, hv', hlabel.symm.trans hl⟩
        · exact ⟨e', by simp [he'], hv', hl⟩
      · intro e' he' v hv
        rcases List.mem_cons.mp he' with rfl | he'
        · by_cases hb : b.Valid s
          · exact (ih.complete _ List.mem_cons_self v ((hhas v).2.2 hb hv)).imp id hinvalid
          · exact Or.inr ⟨b, by simp, hb, hlabel.symm⟩
        rcases List.mem_cons.mp he' with rfl | he'
        · rw [← hlabel]
          exact (ih.complete _ List.mem_cons_self v ((hhas v).2.1 hv)).imp id hinvalid
        · refine (ih.complete e' (List.mem_cons_of_mem _ he') v hv).imp id ?_
          rintro ⟨i, hi, hvi, hl⟩
          rcases List.mem_cons.mp hi with rfl | hi
          · obtain ⟨j, hj, hvj, hlj⟩ := hinvalid ⟨_, List.mem_cons_self, hvi, rfl⟩
            exact ⟨j, hj, hvj, hlj.trans hl⟩
          · exact ⟨i, by simp [hi], hvi, hl⟩
      · intro hvalid
        refine ih.valid fun e he => ?_
        rcases List.mem_cons.mp he with rfl | he
        · have hb := hvalid b (by simp)
          simp only [Case.Valid, Case.lo, Case.hi] at hb ⊢
          omega
        · exact hvalid e (by simp [he])
    · have ih := ih b h2
      refine ⟨List.pairwise_cons.mpr ⟨fun e he => ?_, ih.inOrder⟩, ?_, ?_, ?_⟩
      · have hlow := mergeInto_low b es h2 e he
        simp only [Case.lo, Case.hi]
        omega
      · intro e he v hv
        rcases List.mem_cons.mp he with rfl | he
        · exact ⟨e, by simp, hv, rfl⟩
        · obtain ⟨e', he', hv', hl⟩ := ih.sound e he v hv
          exact ⟨e', List.mem_cons_of_mem _ he', hv', hl⟩
      · intro e' he' v hv
        rcases List.mem_cons.mp he' with rfl | he'
        · exact Or.inl ⟨e', by simp, hv, rfl⟩
        · refine (ih.complete e' he' v hv).imp ?_ ?_
          · rintro ⟨e, he, hve, hl⟩
            exact ⟨e, List.mem_cons_of_mem _ he, hve, hl⟩
          · rintro ⟨i, hi, hvi, hl⟩
            exact ⟨i, List.mem_cons_of_mem _ hi, hvi, hl⟩
      · intro hvalid e he
        rcases List.mem_cons.mp he with rfl | he
        · exact hvalid e (by simp)
        · exact ih.valid (fun e he => hvalid e (List.mem_cons_of_mem _ he)) e he

theorem mergeListEntries_merges (es : List (Case L)) (h : InOrder s es) :
    Merges s es (mergeListEntries es) := by
  cases es with
  | nil => exact ⟨h, fun e he => absurd he List.not_mem_nil, fun e he => absurd he List.not_mem_nil,
      fun hv => hv⟩
  | cons a es => exact mergeInto_merges a es h

/-- the first lower bound and the last upper bound stay -/
theorem mergeInto_ends (a : Case L) (es : List (Case L)) :
    (mergeInto a es).head?.map (·.low) = some a.low ∧
      (mergeInto a es).getLast?.map (·.high) = ((a :: es).getLast?).map (·.high) := by
  induction es generalizing a with
  | nil => exact ⟨rfl, rfl⟩
  | cons b es ih =>
    rw [mergeInto]
    split
    · obtain ⟨h1, h2⟩ := ih { a with high := b.high, count := a.count + b.count }
      refine ⟨h1, h2.trans ?_⟩
      cases es with
      | nil => rfl
      | cons c es => rw [List.getLast?_cons_cons, List.getLast?_cons_cons, List.getLast?_cons_cons]
    · obtain ⟨h1, h2⟩ := ih b
      refine ⟨rfl, ?_⟩
      rw [List.getLast?_cons_cons, ← h2]
      cases hm : mergeInto b es with
      | nil => rw [hm] at h1; exact absurd h1 (by simp)
      | cons c m => rw [List.getLast?_cons_cons]

end

end Cg
