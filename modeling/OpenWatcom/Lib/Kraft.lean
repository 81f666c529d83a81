import Mathlib

/-!
# Dividing in two, and Kraft's equality

* `Divided`     the lengths that the items get when a list is divided in two again and again
* `weight`     the sum of the powers of one half
* `Divided.weight_eq`     a part of length `d` weighs as much as one item of this length
* `Room`     the lengths below a part stay within a bound, where a division leaves at most half on
  one side, or all but the last item
-/

namespace Kraft

/-- the lengths of the items of a part whose own length is `d`, from left to right -/
inductive Divided : ℕ → List ℕ → Prop
  | single (d : ℕ) : Divided d [d]
  | parts {d : ℕ} {l r : List ℕ} : Divided (d + 1) l → Divided (d + 1) r → Divided d (l ++ r)

def weight (l : List ℕ) : ℚ := (l.map fun n => (1 / 2 : ℚ) ^ n).sum

theorem weight_append (l r : List ℕ) : weight (l ++ r) = weight l + weight r := by
  rw [weight, List.map_append, List.sum_append]
  rfl

theorem Divided.weight_eq {d : ℕ} {l : List ℕ} (h : Divided d l) : weight l = (1 / 2) ^ d := by
  induction h with
  | single d => rw [weight, List.map_singleton, List.sum_singleton]
  | parts hl hr ihl ihr =>
    rw [weight_append, ihl, ihr, pow_succ]
    ring

theorem Divided.le {d : ℕ} {l : List ℕ} (h : Divided d l) : ∀ n ∈ l, d ≤ n := by
  induction h with
  | single d =>
    intro n hn
    rw [List.mem_singleton.mp hn]
  | parts hl hr ihl ihr =>
    intro n hn
    obtain hn | hn := List.mem_append.mp hn
    · exact Nat.le_of_succ_le (ihl n hn)
    · exact Nat.le_of_succ_le (ihr n hn)

theorem Divided.lt {d : ℕ} {l : List ℕ} (h : Divided d l) (h2 : 2 ≤ l.length) : ∀ n ∈ l, d < n := by
  cases h with
  | single => exact absurd h2 (Nat.not_succ_le_self 1)
  | parts hl hr =>
    intro n hn
    obtain hn | hn := List.mem_append.mp hn
    · exact hl.le n hn
    · exact hr.le n hn

/-! ## how long the lengths get -/

/-- below a part of length `d` and total `t`, whose last item counts `c`, no length is above
`top`: the total halves within two divisions -/
def Room (top d t c : ℕ) : Prop :=
  ∃ k, (t ≤ 2 ^ k ∧ d + 2 * k ≤ top) ∨ (t < 2 ^ k + c ∧ d + 2 * k + 1 ≤ top)

section
variable {top d t c : ℕ}

theorem Room.lt (h : Room top d t c) (ht : 2 ≤ t) : d < top := by
  obtain ⟨k, ⟨h1, h2⟩ | ⟨-, h2⟩⟩ := h
  · cases k with
    | zero => exact absurd (h1.trans (Nat.le_of_eq (pow_zero 2))) (by omega)
    | succ k => omega
  · omega

/-- the left part: all but its last item make less than half -/
theorem Room.left (h : Room top d t c) {p c' : ℕ} (hp : p < t / 2) (hl : p + c' + c ≤ t) :
    Room top (d + 1) (p + c') c' := by
  obtain ⟨k, ⟨h1, h2⟩ | ⟨h1, h2⟩⟩ := h
  · cases k with
    | zero => exact absurd (h1.trans (Nat.le_of_eq (pow_zero 2))) (by omega)
    | succ k =>
      rw [pow_succ] at h1
      exact ⟨k, Or.inr ⟨by omega, by omega⟩⟩
  · exact ⟨k, Or.inl ⟨by omega, by omega⟩⟩

/-- the right part: what is left of at least half, with an item before the last -/
theorem Room.right (h : Room top d t c) (hc : 0 < c) {p : ℕ} (hp : t / 2 ≤ p) (hr : p + c < t) :
    Room top (d + 1) (t - p) c := by
  obtain ⟨k, ⟨h1, h2⟩ | ⟨h1, h2⟩⟩ := h
  · cases k with
    | zero => exact absurd (h1.trans (Nat.le_of_eq (pow_zero 2))) (by omega)
    | succ k =>
      rw [pow_succ] at h1
      exact ⟨k, Or.inl ⟨by omega, by omega⟩⟩
  · exact ⟨k, Or.inl ⟨by omega, by omega⟩⟩

end

end Kraft
