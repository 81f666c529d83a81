import Mathlib.Data.List.Range
import Mathlib.Logic.Function.Basic

/-!
# Circular buffers

Cells that are written at `tail` and read at `head`, both of which go round. When the two are equal
the buffer is empty, so that one cell always stays free.

* `Buffer.dist`, `Buffer.contents`   how many cells lie between the two places, and what they hold;
* `dist_next_tail`, `dist_next_head`   the distance behind a step of either place;
* `contents_push`, `contents_pop`   a write at the tail, and a read at the head.
-/

namespace CircularBuffer
variable {α : Type*}

structure Buffer (α : Type*) where
  cells : Nat → α
  size : Nat
  head : Nat
  tail : Nat

/-- the place behind `p` -/
def next (size p : Nat) : Nat := if p + 1 = size then 0 else p + 1

/-- the place `i` cells behind `p` -/
def slot (size p i : Nat) : Nat := if p + i < size then p + i else p + i - size

namespace Buffer

/-- the two places are cells of the buffer -/
structure Inside (b : Buffer α) : Prop where
  head : b.head < b.size
  tail : b.tail < b.size

/-- the number of cells from the head to the tail -/
def dist (b : Buffer α) : Nat :=
  if b.head ≤ b.tail then b.tail - b.head else b.size - b.head + b.tail

/-- what the cells from the head to the tail hold -/
def contents (b : Buffer α) : List α :=
  (List.range b.dist).map fun i => b.cells (slot b.size b.head i)

/-- there is room behind the tail -/
def Room (b : Buffer α) : Prop := next b.size b.tail ≠ b.head

def push (b : Buffer α) (x : α) : Buffer α :=
  { b with cells := Function.update b.cells b.tail x, tail := next b.size b.tail }

def pop (b : Buffer α) : Buffer α := { b with head := next b.size b.head }

end Buffer

section
variable {size p i : Nat}

theorem next_lt (h : p < size) : next size p < size := by
  unfold next
  split_ifs <;> omega

theorem slot_zero (h : p < size) : slot size p 0 = p := by
  rw [slot, Nat.add_zero, if_pos h]

theorem slot_next (hi : i < size) : slot size (next size p) i = slot size p (i + 1) := by
  unfold slot next
  split_ifs <;> omega

end

variable {b : Buffer α}

theorem dist_lt (h : b.Inside) : b.dist < b.size := by
  have h1 := h.head
  have h2 := h.tail
  unfold Buffer.dist
  split_ifs <;> omega

theorem contents_length (b : Buffer α) : b.contents.length = b.dist := by
  rw [Buffer.contents, List.length_map, List.length_range]

theorem dist_eq_zero (h : b.Inside) : b.dist = 0 ↔ b.head = b.tail := by
  have h1 := h.head
  unfold Buffer.dist
  split_ifs <;> omega

theorem contents_empty (h : b.head = b.tail) : b.contents = [] := by
  rw [Buffer.contents, Buffer.dist, if_pos h.le, h, Nat.sub_self]
  rfl

theorem inside_push (h : b.Inside) (x : α) : (b.push x).Inside := ⟨h.head, next_lt h.tail⟩

theorem inside_pop (h : b.Inside) : b.pop.Inside := ⟨next_lt h.head, h.tail⟩

theorem dist_push (h : b.Inside) (hr : b.Room) (x : α) : (b.push x).dist = b.dist + 1 := by
  have h1 := h.head
  have h2 := h.tail
  have hr' : next b.size b.tail ≠ b.head := hr
  show (if b.head ≤ next b.size b.tail then next b.size b.tail - b.head
    else b.size - b.head + next b.size b.tail) = b.dist + 1
  unfold Buffer.dist
  unfold next at hr' ⊢
  split_ifs at hr' ⊢ <;> omega

theorem dist_pop (h : b.Inside) (hne : b.head ≠ b.tail) : b.pop.dist + 1 = b.dist := by
  have h1 := h.head
  have h2 := h.tail
  show (if next b.size b.head ≤ b.tail then b.tail - next b.size b.head
    else b.size - next b.size b.head + b.tail) + 1 = b.dist
  unfold Buffer.dist next
  split_ifs <;> omega

/-- the cells of the contents are not the cell at the tail -/
theorem slot_ne_tail {i : Nat} (h : b.Inside) (hi : i < b.dist) :
    slot b.size b.head i ≠ b.tail := by
  have h1 := h.head
  have h2 := h.tail
  unfold Buffer.dist at hi
  unfold slot
  split_ifs at hi ⊢ <;> omega

theorem slot_dist (h : b.Inside) : slot b.size b.head b.dist = b.tail := by
  have h1 := h.head
  have h2 := h.tail
  unfold Buffer.dist slot
  split_ifs <;> omega

theorem contents_push (h : b.Inside) (hr : b.Room) (x : α) :
    (b.push x).contents = b.contents ++ [x] := by
  have hlast : Function.update b.cells b.tail x (slot b.size b.head b.dist) = x := by
    rw [slot_dist h, Function.update_self]
  rw [Buffer.contents, dist_push h hr, List.range_succ, List.map_append, List.map_singleton]
  congr 1
  · refine List.map_congr_left fun i hi => ?_
    exact Function.update_of_ne (slot_ne_tail h (List.mem_range.mp hi)) x b.cells
  · exact congrArg (fun y => [y]) hlast

theorem contents_pop (h : b.Inside) (hne : b.head ≠ b.tail) :
    b.contents = b.cells b.head :: b.pop.contents := by
  rw [Buffer.contents, ← dist_pop h hne, List.range_succ_eq_map, List.map_cons, slot_zero h.head,
    List.map_map, Buffer.contents]
  congr 1
  refine List.map_congr_left fun i hi => ?_
  have hi' : i < b.size := (List.mem_range.mp hi).trans (dist_lt (inside_pop h))
  exact congrArg b.cells (slot_next hi').symm

end CircularBuffer
