import Mathlib

/-!
# Packing runs into one image

Runs, each with a key and a size, are packed one behind the other in the order in which they come.

* `start runs k`     where the first run of key `k` lies;
* `sizeOf runs k`    the size of all runs of key `k`;
* `InOneBlock`       from its first run on, only runs of key `k` come;
* `total_eq_start_add`   the image ends at the start of `k` plus what follows;
* `inOneBlock_iff`   the runs of key `k` end at `start + sizeOf` exactly when they form one block.
-/

namespace Packing

section
variable {κ : Type}

/-- the size of the image -/
def total (runs : List (κ × Nat)) : Nat := (runs.map Prod.snd).sum

@[simp] theorem total_nil : total ([] : List (κ × Nat)) = 0 := rfl

@[simp] theorem total_cons (x : κ × Nat) (runs : List (κ × Nat)) :
    total (x :: runs) = x.2 + total runs := by
  rw [total, List.map_cons, List.sum_cons, total]

@[simp] theorem total_append (a b : List (κ × Nat)) : total (a ++ b) = total a + total b := by
  rw [total, List.map_append, List.sum_append, total, total]

variable [DecidableEq κ]

/-- where the first run of key `k` lies (the end of the image, if there is none) -/
def start (runs : List (κ × Nat)) (k : κ) : Nat := total (runs.takeWhile fun x => x.1 ≠ k)

/-- the size of the runs of key `k` -/
def sizeOf (runs : List (κ × Nat)) (k : κ) : Nat := total (runs.filter fun x => x.1 = k)

/-- from the first run of key `k` on, there are only runs of key `k` -/
def InOneBlock (runs : List (κ × Nat)) (k : κ) : Prop :=
  ∀ x ∈ runs.dropWhile fun x => x.1 ≠ k, x.1 = k

instance (runs : List (κ × Nat)) (k : κ) : Decidable (InOneBlock runs k) :=
  inferInstanceAs (Decidable (∀ _ ∈ _, _))

theorem total_eq_start_add (runs : List (κ × Nat)) (k : κ) :
    total runs = start runs k + total (runs.dropWhile fun x => x.1 ≠ k) := by
  rw [start, ← total_append, List.takeWhile_append_dropWhile]

/-- runs behind do not move the start of a key that is there -/
theorem start_append_of_mem (a b : List (κ × Nat)) (k : κ) (h : k ∈ a.map Prod.fst) :
    start (a ++ b) k = start a k := by
  obtain ⟨x, hx, rfl⟩ := List.mem_map.mp h
  rw [start, start, List.takeWhile_append, if_neg]
  intro hl
  have hall := List.takeWhile_prefix (fun y : κ × Nat => decide (y.1 ≠ x.1)) (l := a)
  have hx' : x ∈ a.takeWhile fun y => y.1 ≠ x.1 := by
    rw [hall.eq_of_length hl]
    exact hx
  exact absurd (List.mem_takeWhile_imp hx') (by simp)

theorem start_append_of_notMem (a b : List (κ × Nat)) (k : κ) (h : k ∉ a.map Prod.fst) :
    start (a ++ b) k = total a + start b k := by
  have ha : ∀ x ∈ a, decide (x.1 ≠ k) = true := by
    intro x hx
    rw [decide_eq_true_eq]
    rintro rfl
    exact h (List.mem_map_of_mem hx)
  rw [start, List.takeWhile_append_of_pos ha, total_append, start]

/-- nor does a run of the key itself -/
theorem start_append_self (a b : List (κ × Nat)) (k : κ) (n : Nat) :
    start (a ++ (k, n) :: b) k = start a k := by
  by_cases h : k ∈ a.map Prod.fst
  · exact start_append_of_mem a _ k h
  · have e := start_append_of_notMem a [] k h
    rw [List.append_nil] at e
    rw [start_append_of_notMem a _ k h, e, start, start, List.takeWhile_cons_of_neg (by simp)]
    rfl

theorem sizeOf_append (a b : List (κ × Nat)) (k : κ) :
    sizeOf (a ++ b) k = sizeOf a k + sizeOf b k := by
  rw [sizeOf, List.filter_append, total_append, sizeOf, sizeOf]

@[simp] theorem sizeOf_singleton (j : κ) (n : Nat) (k : κ) :
    sizeOf [(j, n)] k = if j = k then n else 0 := by
  rw [sizeOf, List.filter_cons]
  by_cases h : j = k <;> simp [h]

theorem total_filter_le (runs : List (κ × Nat)) (k : κ) : sizeOf runs k ≤ total runs := by
  induction runs with
  | nil => exact Nat.le_refl _
  | cons x runs ih =>
    rw [sizeOf] at ih ⊢
    rw [List.filter_cons, total_cons]
    split
    · rw [total_cons]
      omega
    · omega

/-- what lies before the first run of key `k` is not counted for it -/
theorem sizeOf_dropWhile (runs : List (κ × Nat)) (k : κ) :
    sizeOf (runs.dropWhile fun x => x.1 ≠ k) k = sizeOf runs k := by
  induction runs with
  | nil => rfl
  | cons x runs ih =>
    rw [List.dropWhile_cons]
    by_cases h : x.1 = k
    · rw [if_neg (by simpa using h)]
    · rw [if_pos (by simpa using h), ih, sizeOf, sizeOf, List.filter_cons, if_neg (by simpa using h)]

/-- runs that all have key `k` are those with a size of `k` equal to their total -/
theorem total_eq_sizeOf_iff (runs : List (κ × Nat)) (hpos : ∀ x ∈ runs, 0 < x.2) (k : κ) :
    total runs = sizeOf runs k ↔ ∀ x ∈ runs, x.1 = k := by
  induction runs with
  | nil => simp [sizeOf]
  | cons x runs ih =>
    have ih := ih fun y hy => hpos y (List.mem_cons_of_mem _ hy)
    have hx := hpos x List.mem_cons_self
    rw [List.forall_mem_cons, total_cons, sizeOf, List.filter_cons]
    by_cases h : x.1 = k
    · rw [if_pos (by simpa using h), total_cons, Nat.add_left_cancel_iff]
      exact ⟨fun e => ⟨h, ih.mp e⟩, fun e => ih.mpr e.2⟩
    · rw [if_neg (by simpa using h)]
      have hle := total_filter_le runs k
      rw [sizeOf] at hle
      exact ⟨fun e => absurd e (by omega), fun e => absurd e.1 h⟩

/-- the image ends at the start of `k` plus the size of its runs exactly when these form one
block at its end -/
theorem inOneBlock_iff (runs : List (κ × Nat)) (hpos : ∀ x ∈ runs, 0 < x.2) (k : κ) :
    total runs = start runs k + sizeOf runs k ↔ InOneBlock runs k := by
  rw [total_eq_start_add runs k, ← sizeOf_dropWhile runs k, Nat.add_left_cancel_iff]
  exact total_eq_sizeOf_iff _ (fun x hx => hpos x ((List.dropWhile_suffix _).mem hx)) k

end
end Packing
