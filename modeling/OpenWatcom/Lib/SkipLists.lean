import Mathlib

/-!
# Skip lists: nodes of different heights that are linked on every level

The nodes are numbered as they were appended, and node `k` takes part in the levels below `height k`.

* `Follows height n i from j`     on level `i`, `j` is the first of the nodes `from ≤ k < n`
* `Follows.grow`, `Follows.raise_some`, `Follows.raise_none`     a node without a level is appended, and gets one
  level more: the links that were there stay, and the end of the level leads to it
* `Follows.lower`     where a level goes on, every level below it does
-/

namespace SkipLists

/-- on level `i` the link from before node `from` leads to this node, or nowhere -/
def Follows (height : ℕ → ℕ) (n i start : ℕ) : Option ℕ → Prop
  | some j => start ≤ j ∧ j < n ∧ i < height j ∧ ∀ m, start ≤ m → m < j → height m ≤ i
  | none => ∀ m, start ≤ m → m < n → height m ≤ i

variable {height height' : ℕ → ℕ} {n i start : ℕ}

theorem Follows.congr {j : Option ℕ} (h : Follows height n i start j)
    (hsame : ∀ k, k < n → (i < height' k ↔ i < height k)) : Follows height' n i start j := by
  cases j with
  | some j =>
    obtain ⟨hsj, hjn, hij, hbetween⟩ := h
    refine ⟨hsj, hjn, (hsame j hjn).mpr hij, fun m h1 h2 => ?_⟩
    have := hbetween m h1 h2
    have := hsame m (by omega)
    omega
  | none =>
    intro m h1 h2
    have := h m h1 h2
    have := hsame m h2
    omega

/-- one node more, which does not reach up to the level -/
theorem Follows.grow {j : Option ℕ} (h : Follows height n i start j) (hlow : height n ≤ i) :
    Follows height (n + 1) i start j := by
  cases j with
  | some j => exact ⟨h.1, Nat.lt_succ_of_lt h.2.1, h.2.2⟩
  | none =>
    intro m h1 h2
    by_cases hm : m = n
    · rw [hm]
      exact hlow
    · exact h m h1 (by omega)

/-- the last node gets higher: a link that leads on stays -/
theorem Follows.raise_some {j : ℕ} (h : Follows height (n + 1) i start (some j))
    (hlow : height n ≤ i) (hsame : ∀ k, k < n → height' k = height k) :
    Follows height' (n + 1) i start (some j) := by
  obtain ⟨hsj, hjn, hij, hbetween⟩ := h
  have hne : j ≠ n := by
    rintro rfl
    omega
  refine ⟨hsj, hjn, by rw [hsame j (by omega)]; exact hij, fun m h1 h2 => ?_⟩
  rw [hsame m (by omega)]
  exact hbetween m h1 h2

/-- the last node gets higher: the end of the level leads to it -/
theorem Follows.raise_none (h : Follows height (n + 1) i start none)
    (hsame : ∀ k, k < n → height' k = height k) (hhigh : i < height' n) (hstart : start ≤ n) :
    Follows height' (n + 1) i start (some n) := by
  refine ⟨hstart, Nat.lt_succ_self n, hhigh, fun m h1 h2 => ?_⟩
  rw [hsame m h2]
  exact h m h1 (by omega)

/-- a link leads on, as there is a node of the level -/
theorem Follows.isSome {j : Option ℕ} {k : ℕ} (h : Follows height n i start j) (hk : start ≤ k)
    (hkn : k < n) (hik : i < height k) : ∃ j', j = some j' := by
  cases j with
  | some j' => exact ⟨j', rfl⟩
  | none =>
    have := h k hk hkn
    omega

/-- where a level goes on, the level below it does -/
theorem Follows.lower {j : ℕ} {j' : Option ℕ} (h : Follows height n (i + 1) start (some j))
    (h' : Follows height n i start j') : ∃ k, j' = some k :=
  h'.isSome h.1 h.2.1 (by have := h.2.2.1; omega)

/-- the lowest level leaves no node out -/
theorem Follows.lowest {j : ℕ} (h : Follows height n 0 start (some j))
    (hpos : ∀ k, k < n → 0 < height k) : j = start := by
  obtain ⟨hsj, hjn, -, hbetween⟩ := h
  by_contra hne
  have h1 := hbetween start (le_refl _) (by omega)
  have h2 := hpos start (by omega)
  omega

end SkipLists
