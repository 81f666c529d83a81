import Mathlib

/-!
# Positions coded by their distances

A reader that knows a position and the distances from one position to the next recovers all of
them.  When the code of a distance loses something (`f d ≤ d`), the positions it recovers are
`positions f a ds`; the true ones are `positions id a ds`.

* `positions_eq`     nothing is lost when no distance is;
* `sum_positions_le`, `sum_positions_lt`   a distance cut short moves every position after it
  towards the front, so that the sum of the positions falls.
-/

namespace Deltas

/-- the positions after `a`, each recovered from the one before and a coded distance -/
def positions (f : Nat → Nat) (a : Nat) : List Nat → List Nat
  | [] => []
  | d :: ds => (a + f d) :: positions f (a + f d) ds

theorem positions_cons (f : Nat → Nat) (a d : Nat) (ds : List Nat) :
    positions f a (d :: ds) = (a + f d) :: positions f (a + f d) ds := rfl

section
variable {f : Nat → Nat}

theorem positions_eq {ds : List Nat} (h : ∀ d ∈ ds, f d = d) (a : Nat) :
    positions f a ds = positions id a ds := by
  induction ds generalizing a with
  | nil => rfl
  | cons d ds ih =>
    have hd : f d = d := h d List.mem_cons_self
    rw [positions_cons, positions_cons, hd, ih fun x hx => h x (List.mem_cons_of_mem d hx)]
    rfl

variable (hf : ∀ d, f d ≤ d)
include hf

theorem sum_positions_le (ds : List Nat) {a b : Nat} (hab : a ≤ b) :
    (positions f a ds).sum ≤ (positions id b ds).sum := by
  induction ds generalizing a b with
  | nil => exact Nat.le_refl _
  | cons d ds ih =>
    have h1 : a + f d ≤ b + id d := Nat.add_le_add hab (hf d)
    rw [positions_cons, positions_cons, List.sum_cons, List.sum_cons]
    exact Nat.add_le_add h1 (ih h1)

theorem sum_positions_lt {ds : List Nat} (h : ∃ d ∈ ds, f d ≠ d) {a b : Nat} (hab : a ≤ b) :
    (positions f a ds).sum < (positions id b ds).sum := by
  induction ds generalizing a b with
  | nil => simp at h
  | cons d ds ih =>
    have h1 : a + f d ≤ b + id d := Nat.add_le_add hab (hf d)
    rw [positions_cons, positions_cons, List.sum_cons, List.sum_cons]
    by_cases hd : f d = d
    · obtain ⟨x, hx, hne⟩ := h
      have hxs : x ∈ ds := by
        rcases List.mem_cons.mp hx with rfl | hx
        · exact absurd hd hne
        · exact hx
      exact Nat.add_lt_add_of_le_of_lt h1 (ih ⟨x, hxs, hne⟩ h1)
    · have h2 : a + f d < b + id d :=
        Nat.add_lt_add_of_le_of_lt hab (lt_of_le_of_ne (hf d) hd)
      exact Nat.add_lt_add_of_lt_of_le h2 (sum_positions_le hf ds h1)

end

end Deltas
