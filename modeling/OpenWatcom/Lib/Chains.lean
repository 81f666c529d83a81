import Mathlib

/-!
# Chains of links that share a memory

* `Chained next p l`     from `p` the links `next` lead through `l`, and then to the null link 0
* `Family next head lists`     a family of chains no two of which have a link in common
* `Family.pop`, `Family.push`     the first link of a chain is taken out; a link that is in no chain is put
  in front of one
-/

namespace Chains

/-- from `p` the links lead through `l` to the null link -/
def Chained (next : ℕ → ℕ) : ℕ → List ℕ → Prop
  | p, [] => p = 0
  | p, x :: l => p = x ∧ x ≠ 0 ∧ Chained next (next x) l

variable {next : ℕ → ℕ}

theorem Chained.congr {next' : ℕ → ℕ} {l : List ℕ} {p : ℕ} (h : Chained next p l)
    (hn : ∀ x ∈ l, next' x = next x) : Chained next' p l := by
  induction l generalizing p with
  | nil => exact h
  | cons x l ih =>
    obtain ⟨hp, hx, hl⟩ := h
    refine ⟨hp, hx, ?_⟩
    rw [hn x List.mem_cons_self]
    exact ih hl fun y hy => hn y (List.mem_cons_of_mem x hy)

theorem Chained.eq_nil {l : List ℕ} (h : Chained next 0 l) : l = [] := by
  cases l with
  | nil => rfl
  | cons x l => exact absurd h.1.symm h.2.1

theorem Chained.eq_cons {l : List ℕ} {p : ℕ} (h : Chained next p l) (hp : p ≠ 0) :
    ∃ l', l = p :: l' ∧ Chained next (next p) l' := by
  cases l with
  | nil => exact absurd h hp
  | cons x l =>
    obtain ⟨rfl, -, hl⟩ := h
    exact ⟨l, rfl, hl⟩

variable {ι : Type*} [DecidableEq ι]

/-- the chains `lists i`, each from its `head i`, without a common link -/
structure Family (next : ℕ → ℕ) (head : ι → ℕ) (lists : ι → List ℕ) : Prop where
  chained : ∀ i, Chained next (head i) (lists i)
  nodup : ∀ i, (lists i).Nodup
  apart : ∀ i j x, x ∈ lists i → x ∈ lists j → i = j

variable {head : ι → ℕ} {lists : ι → List ℕ}

/-- the first link of a chain is taken out, and is in no chain then -/
theorem Family.pop (h : Family next head lists) {i : ι} {x : ℕ} {l : List ℕ} (hi : lists i = x :: l) :
    head i = x ∧ x ≠ 0 ∧ (∀ j, x ∉ Function.update lists i l j) ∧
      Family next (Function.update head i (next x)) (Function.update lists i l) := by
  have hch := h.chained i
  rw [hi] at hch
  obtain ⟨hhead, hx, hl⟩ := hch
  have hnd := h.nodup i
  rw [hi, List.nodup_cons] at hnd
  have hsub : ∀ j y, y ∈ Function.update lists i l j → y ∈ lists j := by
    intro j y hy
    by_cases hj : j = i
    · rw [hj, Function.update_self] at hy
      rw [hj, hi]
      exact List.mem_cons_of_mem x hy
    · rwa [Function.update_of_ne hj] at hy
  refine ⟨hhead, hx, fun j hxj => ?_, fun j => ?_, fun j => ?_, fun j k y hj hk => ?_⟩
  · have hji : j = i := h.apart j i x (hsub j x hxj) (by rw [hi]; exact List.mem_cons_self)
    rw [hji, Function.update_self] at hxj
    exact hnd.1 hxj
  · by_cases hj : j = i
    · rw [hj, Function.update_self, Function.update_self]
      exact hl
    · rw [Function.update_of_ne hj, Function.update_of_ne hj]
      exact h.chained j
  · by_cases hj : j = i
    · rw [hj, Function.update_self]
      exact hnd.2
    · rw [Function.update_of_ne hj]
      exact h.nodup j
  · exact h.apart j k y (hsub j y hj) (hsub k y hk)

/-- a link that is in no chain is put in front of one -/
theorem Family.push (h : Family next head lists) (i : ι) {x : ℕ} (hx : x ≠ 0)
    (hnew : ∀ j, x ∉ lists j) :
    Family (Function.update next x (head i)) (Function.update head i x)
      (Function.update lists i (x :: lists i)) := by
  have hkeep : ∀ j, ∀ y ∈ lists j, Function.update next x (head i) y = next y := by
    intro j y hy
    have hne : y ≠ x := by
      rintro rfl
      exact hnew j hy
    exact Function.update_of_ne hne _ _
  have hold : ∀ j y, y ≠ x → y ∈ Function.update lists i (x :: lists i) j → y ∈ lists j := by
    intro j y hne hy
    by_cases hj : j = i
    · rw [hj, Function.update_self] at hy
      rw [hj]
      exact (List.mem_cons.mp hy).resolve_left hne
    · rwa [Function.update_of_ne hj] at hy
  have hself : ∀ j, x ∈ Function.update lists i (x :: lists i) j → j = i := by
    intro j hj
    by_contra hne
    rw [Function.update_of_ne hne] at hj
    exact hnew j hj
  refine ⟨fun j => ?_, fun j => ?_, fun j k y hj hk => ?_⟩
  · by_cases hj : j = i
    · rw [hj, Function.update_self, Function.update_self]
      refine ⟨rfl, hx, ?_⟩
      rw [Function.update_self]
      exact (h.chained i).congr (hkeep i)
    · rw [Function.update_of_ne hj, Function.update_of_ne hj]
      exact (h.chained j).congr (hkeep j)
  · by_cases hj : j = i
    · rw [hj, Function.update_self]
      exact List.nodup_cons.mpr ⟨hnew i, h.nodup i⟩
    · rw [Function.update_of_ne hj]
      exact h.nodup j
  · by_cases hy : y = x
    · rw [hy] at hj hk
      rw [hself j hj, hself k hk]
    · exact h.apart j k y (hold j y hy hj) (hold k y hy hk)

end Chains
