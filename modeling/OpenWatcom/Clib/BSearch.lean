import OpenWatcom.Lib.Bytes

/-!
# `bsearch` of the C library

Pointers into the array are positions; `compar` has the key applied.

* `bsearch`     the search
* `bsearch_spec`     in an array that the key splits, an element that compares equal is found if there is one
-/

namespace Clib
open Bytes

section
variable {α : Type} [Inhabited α] (compar : α → ℤ) (base : List α)

/-- the loop; it ends before the fuel does -/
def bsearchLoop : ℕ → ℕ → ℕ → Option ℕ
  | 0, _, _ => none
  | fuel + 1, low, high =>
    if low < high then
      let mid := low + (high - low) / 2
      let cond := compar (byteAt base mid)
      if cond = 0 then some mid
      else if cond < 0 then bsearchLoop fuel low mid
      else bsearchLoop fuel (mid + 1) high
    else if low = high then
      if compar (byteAt base low) ≠ 0 then none else some low
    else none

def bsearch (nmemb : ℕ) : Option ℕ :=
  if nmemb = 0 then none else bsearchLoop compar base nmemb 0 (nmemb - 1)

/-- the key comes before an end of the array and after a start of it -/
structure Splits (n : ℕ) : Prop where
  before : ∀ i j, i < j → j < n → compar (byteAt base i) < 0 → compar (byteAt base j) < 0
  after : ∀ i j, i < j → j < n → 0 < compar (byteAt base j) → 0 < compar (byteAt base i)

/-- what a search answers -/
def Answers (n : ℕ) : Option ℕ → Prop
  | some i => i < n ∧ compar (byteAt base i) = 0
  | none => ∀ i < n, compar (byteAt base i) ≠ 0

variable {compar base}

theorem bsearchLoop_spec {n : ℕ} (h : Splits compar base n) (fuel : ℕ) : ∀ {low high : ℕ},
    low ≤ high → high < n → high - low < fuel →
    (∀ i < n, compar (byteAt base i) = 0 → low ≤ i ∧ i ≤ high) →
    Answers compar base n (bsearchLoop compar base fuel low high) := by
  induction fuel with
  | zero => exact fun _ _ hf => absurd hf (Nat.not_lt_zero _)
  | succ fuel ih =>
    intro low high hle hn hf hin
    rw [bsearchLoop]
    by_cases hlt : low < high
    · rw [if_pos hlt]
      dsimp only
      have hmid : low + (high - low) / 2 < high := by omega
      generalize hm : low + (high - low) / 2 = mid at hmid
      by_cases h0 : compar (byteAt base mid) = 0
      · rw [if_pos h0]
        exact ⟨by omega, h0⟩
      · rw [if_neg h0]
        by_cases hneg : compar (byteAt base mid) < 0
        · rw [if_pos hneg]
          refine ih (by omega) (by omega) (by omega) fun i hi he => ⟨(hin i hi he).1, ?_⟩
          by_contra hgt
          have := h.before mid i (Nat.lt_of_not_le hgt) hi hneg
          omega
        · rw [if_neg hneg]
          refine ih hmid hn (by omega) fun i hi he => ⟨?_, (hin i hi he).2⟩
          by_contra hgt
          have hne : i ≠ mid := fun e => h0 (e ▸ he)
          have := h.after i mid (by omega) (by omega) (by omega)
          omega
    · have heq : low = high := by omega
      rw [if_neg hlt, if_pos heq]
      by_cases h0 : compar (byteAt base low) ≠ 0
      · rw [if_pos h0]
        intro i hi he
        have hb := hin i hi he
        have hil : i = low := by omega
        exact h0 (hil ▸ he)
      · rw [if_neg h0]
        exact ⟨by omega, not_not.mp h0⟩

theorem bsearch_spec {n : ℕ} (h : Splits compar base n) : Answers compar base n (bsearch compar base n) := by
  rw [bsearch]
  by_cases h0 : n = 0
  · rw [if_pos h0]
    intro i hi
    omega
  · rw [if_neg h0]
    exact bsearchLoop_spec h n (Nat.zero_le _) (by omega) (by omega) fun i hi _ => ⟨Nat.zero_le i, by omega⟩

end
end Clib
