import Mathlib

/-!
# Things filed under a key

`Filed chain key`: the chain of `k` holds exactly the things whose key is `k`, each once.  A thing
without a key is on no chain.

* `Filed.add`, `Filed.erase`    one thing comes and one goes;
* `Filed.clear`, `Filed.eraseAll`   all things of one key go, or all things of a list;
* `Filed.count`                 how often a thing is on a chain.
-/

namespace Buckets

section
variable {κ ι : Type} [DecidableEq κ] [DecidableEq ι]

/-- the chain of a key holds the things of that key, each once -/
def Filed (chain : κ → List ι) (key : ι → Option κ) : Prop :=
  ∀ k, (chain k).Nodup ∧ ∀ x, x ∈ chain k ↔ key x = some k

variable {chain : κ → List ι} {key : ι → Option κ}

omit [DecidableEq κ] [DecidableEq ι] in
theorem filed_nil : Filed (fun _ : κ => ([] : List ι)) fun _ => none :=
  fun _ => ⟨List.nodup_nil, fun _ => by simp⟩

omit [DecidableEq κ] [DecidableEq ι] in
theorem Filed.mem (h : Filed chain key) {k : κ} {x : ι} : x ∈ chain k ↔ key x = some k := (h k).2 x

theorem Filed.count (h : Filed chain key) {k : κ} {x : ι} (hx : key x = some k) (j : κ) :
    (chain j).count x = if j = k then 1 else 0 := by
  split
  · next e =>
    rw [e]
    exact List.count_eq_one_of_mem (h k).1 (h.mem.mpr hx)
  · next e =>
    refine List.count_eq_zero_of_not_mem fun hm => e ?_
    have hj := h.mem.mp hm
    rw [hx] at hj
    exact (Option.some.inj hj).symm

/-- a thing without a key is put on a chain -/
theorem Filed.add (h : Filed chain key) {x : ι} (hx : key x = none) (k : κ) :
    Filed (Function.update chain k (x :: chain k)) (Function.update key x (some k)) := by
  intro j
  by_cases hj : j = k
  · subst hj
    have hn : x ∉ chain j := fun hm => by
      rw [h.mem, hx] at hm
      exact absurd hm (by simp)
    rw [Function.update_self]
    refine ⟨List.nodup_cons.mpr ⟨hn, (h j).1⟩, fun y => ?_⟩
    by_cases hy : y = x
    · subst hy
      simp
    · rw [Function.update_of_ne hy, List.mem_cons, h.mem]
      exact ⟨fun h => h.resolve_left hy, Or.inr⟩
  · rw [Function.update_of_ne hj]
    refine ⟨(h j).1, fun y => ?_⟩
    by_cases hy : y = x
    · subst hy
      rw [Function.update_self, h.mem, hx]
      simp [Ne.symm hj]
    · rw [Function.update_of_ne hy, h.mem]

/-- a thing is taken off its chain -/
theorem Filed.erase (h : Filed chain key) {x : ι} {k : κ} (hx : key x = some k) :
    Filed (Function.update chain k ((chain k).erase x)) (Function.update key x none) := by
  intro j
  by_cases hj : j = k
  · subst hj
    rw [Function.update_self]
    refine ⟨(h j).1.erase x, fun y => ?_⟩
    rw [(h j).1.mem_erase_iff, h.mem]
    by_cases hy : y = x
    · subst hy
      simp
    · rw [Function.update_of_ne hy]
      exact ⟨fun h => h.2, fun h => ⟨hy, h⟩⟩
  · rw [Function.update_of_ne hj]
    refine ⟨(h j).1, fun y => ?_⟩
    by_cases hy : y = x
    · subst hy
      rw [Function.update_self, h.mem, hx]
      simp [Ne.symm hj]
    · rw [Function.update_of_ne hy, h.mem]

omit [DecidableEq ι] in
/-- all things of one key go -/
theorem Filed.clear (h : Filed chain key) (k : κ) :
    Filed (Function.update chain k []) fun x => if key x = some k then none else key x := by
  intro j
  by_cases hj : j = k
  · subst hj
    rw [Function.update_self]
    refine ⟨List.nodup_nil, fun y => ?_⟩
    dsimp only
    split
    · simp
    · next hy => simp [hy]
  · rw [Function.update_of_ne hj]
    refine ⟨(h j).1, fun y => ?_⟩
    rw [h.mem]
    dsimp only
    split
    · next hy => simp [hy, Ne.symm hj]
    · rfl

/-- the things of a list are taken off their chains, one after the other -/
theorem Filed.eraseAll (h : Filed chain key) (bucket : ι → κ) {xs : List ι} (hn : xs.Nodup)
    (hx : ∀ x ∈ xs, key x = some (bucket x)) :
    Filed (xs.foldl (fun c x => Function.update c (bucket x) ((c (bucket x)).erase x)) chain)
      fun x => if x ∈ xs then none else key x := by
  induction xs generalizing chain key with
  | nil => simpa using h
  | cons x xs ih =>
    have hnx := List.nodup_cons.mp hn
    have h1 := ih (h.erase (hx x List.mem_cons_self)) hnx.2 fun y hy => by
      have hne : y ≠ x := fun e => hnx.1 (e ▸ hy)
      rw [Function.update_of_ne hne]
      exact hx y (List.mem_cons_of_mem x hy)
    have e : (fun y => if y ∈ x :: xs then none else key y)
        = fun y => if y ∈ xs then none else Function.update key x none y := by
      funext y
      by_cases hy : y = x
      · subst hy
        simp
      · simp [hy]
    rw [List.foldl_cons, e]
    exact h1

end

end Buckets
