import OpenWatcom.Lib.Bytes
import OpenWatcom.Lib.Stride

/-!
# Buffers made of pieces

A buffer that is a concatenation of pieces (records, instructions, table entries).

* `StartsAt pieces k x`   the piece `x` starts at position `k`; `starts` lists them;
* `StartsAt.slice`, `StartsAt.byteAt`   its bytes in the buffer;
* `StartsAt.inside`   no piece starts inside another one;
* `stops_pieces`   a loop that steps over each piece it stands on stops at the starts of all.
-/

namespace Pieces
open Bytes Stride

section
variable {α : Type}

/-- the piece `x` starts at position `k` of the buffer -/
def StartsAt (pieces : List (List α)) (k : Nat) (x : List α) : Prop :=
  ∃ pre post, pieces = pre ++ x :: post ∧ pre.flatten.length = k

theorem startsAt_cons (y : List α) (pieces : List (List α)) (k : Nat) (x : List α) :
    StartsAt (y :: pieces) k x ↔
      (k = 0 ∧ x = y) ∨ ∃ k', StartsAt pieces k' x ∧ k = y.length + k' := by
  constructor
  · rintro ⟨pre, post, h, rfl⟩
    cases pre with
    | nil =>
      rw [List.nil_append, List.cons.injEq] at h
      exact Or.inl ⟨rfl, h.1.symm⟩
    | cons z pre =>
      rw [List.cons_append, List.cons.injEq] at h
      refine Or.inr ⟨_, ⟨pre, post, h.2, rfl⟩, ?_⟩
      rw [List.flatten_cons, List.length_append, h.1]
  · rintro (⟨rfl, rfl⟩ | ⟨k', ⟨pre, post, rfl, rfl⟩, rfl⟩)
    · exact ⟨[], pieces, rfl, rfl⟩
    · exact ⟨y :: pre, post, rfl, by rw [List.flatten_cons, List.length_append]⟩

/-- the pieces, each with the position where it starts -/
def starts : List (List α) → List (Nat × List α)
  | [] => []
  | x :: pieces => (0, x) :: (starts pieces).map fun y => (x.length + y.1, y.2)

theorem mem_starts (pieces : List (List α)) (k : Nat) (x : List α) :
    (k, x) ∈ starts pieces ↔ StartsAt pieces k x := by
  induction pieces generalizing k with
  | nil =>
    constructor
    · intro h
      exact absurd h List.not_mem_nil
    · rintro ⟨pre, post, h, _⟩
      exact absurd h (by simp)
  | cons y pieces ih =>
    rw [starts, List.mem_cons, startsAt_cons, Prod.mk.injEq, List.mem_map]
    refine or_congr_right ⟨?_, ?_⟩
    · rintro ⟨⟨k', x'⟩, h, e⟩
      rw [Prod.mk.injEq] at e
      obtain ⟨rfl, rfl⟩ := e
      exact ⟨k', (ih k').mp h, rfl⟩
    · rintro ⟨k', h, rfl⟩
      exact ⟨(k', x), (ih k').mpr h, rfl⟩

instance [DecidableEq α] (pieces : List (List α)) (k : Nat) (x : List α) :
    Decidable (StartsAt pieces k x) := decidable_of_iff _ (mem_starts pieces k x)

theorem StartsAt.mem {pieces : List (List α)} {k : Nat} {x : List α} (h : StartsAt pieces k x) :
    x ∈ pieces := by
  obtain ⟨pre, post, rfl, _⟩ := h
  simp

theorem StartsAt.le {pieces : List (List α)} {k : Nat} {x : List α} (h : StartsAt pieces k x) :
    k + x.length ≤ pieces.flatten.length := by
  obtain ⟨pre, post, rfl, rfl⟩ := h
  rw [List.flatten_append, List.flatten_cons, List.length_append, List.length_append]
  omega

/-- no piece starts inside another one -/
theorem StartsAt.inside {pieces : List (List α)} (hne : ∀ x ∈ pieces, x ≠ []) {s k : Nat}
    {x y : List α} (hx : StartsAt pieces s x) (hy : StartsAt pieces k y) (h1 : s ≤ k)
    (h2 : k < s + x.length) : k = s ∧ y = x := by
  induction pieces generalizing s k with
  | nil => exact absurd hx.mem List.not_mem_nil
  | cons z pieces ih =>
    have hz := List.length_pos_iff.mpr (hne z List.mem_cons_self)
    have hne' : ∀ x ∈ pieces, x ≠ [] := fun x hx => hne x (List.mem_cons_of_mem _ hx)
    rcases (startsAt_cons z pieces s x).mp hx with ⟨rfl, rfl⟩ | ⟨s', hs', rfl⟩
    · rcases (startsAt_cons x pieces k y).mp hy with ⟨rfl, rfl⟩ | ⟨k', _, rfl⟩
      · exact ⟨rfl, rfl⟩
      · omega
    · rcases (startsAt_cons z pieces k y).mp hy with ⟨rfl, rfl⟩ | ⟨k', hk', rfl⟩
      · omega
      · obtain ⟨h3, h4⟩ := ih hne' hs' hk' (by omega) (by omega)
        exact ⟨by omega, h4⟩

/-- the piece behind one that is not the last -/
theorem startsAt_next (pre post : List (List α)) (x : List α) :
    (post = [] ∧ pre.flatten.length + x.length = (pre ++ x :: post).flatten.length) ∨
      ∃ y rest, post = y :: rest ∧
        StartsAt (pre ++ x :: post) (pre.flatten.length + x.length) y := by
  cases post with
  | nil => left; simp
  | cons y rest => exact Or.inr ⟨y, rest, rfl, pre ++ [x], rest, by simp, by simp⟩

/-- a loop that steps over each piece it stands on stops at the starts of all of them; `b` may
be any bound between the last start and the end -/
theorem stops_pieces {next : Nat → Nat} (hf : Forward next) (pieces : List (List α)) (p b : Nat)
    (hnext : ∀ k x, StartsAt pieces k x → next (p + k) = p + k + x.length ∧ p + k < b)
    (hb : b ≤ p + pieces.flatten.length) :
    stops next b p = (starts pieces).map fun x => p + x.1 := by
  induction pieces generalizing p with
  | nil =>
    rw [stops_of_le (by simpa using hb)]
    rfl
  | cons x pieces ih =>
    obtain ⟨h1, h2⟩ := hnext 0 x ((startsAt_cons x pieces 0 x).mpr (Or.inl ⟨rfl, rfl⟩))
    rw [Nat.add_zero] at h1 h2
    rw [List.flatten_cons, List.length_append] at hb
    rw [stops_of_lt hf h2, h1, ih (p + x.length) ?_ (by omega), starts, List.map_cons,
      List.map_map, Nat.add_zero]
    · congr 1
      apply List.map_congr_left
      intro y _
      rw [Function.comp_apply, Nat.add_assoc]
    · intro k y hy
      have h3 := hnext (x.length + k) y ((startsAt_cons x pieces _ y).mpr (Or.inr ⟨k, hy, rfl⟩))
      rwa [← Nat.add_assoc] at h3

end

section
variable {α : Type} [Inhabited α]

theorem StartsAt.slice {pieces : List (List α)} {k : Nat} {x : List α}
    (h : StartsAt pieces k x) : slice pieces.flatten k x.length = x := by
  obtain ⟨pre, post, rfl, rfl⟩ := h
  rw [List.flatten_append, List.flatten_cons, slice_append]

/-- the bytes of a piece in the buffer -/
theorem StartsAt.byteAt {pieces : List (List α)} {k : Nat} {x : List α}
    (h : StartsAt pieces k x) (j : Nat) (hj : j < x.length) :
    Bytes.byteAt pieces.flatten (k + j) = Bytes.byteAt x j := by
  obtain ⟨pre, post, rfl, rfl⟩ := h
  rw [List.flatten_append, List.flatten_cons, byteAt_append_right, byteAt_append_left _ _ _ hj]

end
end Pieces
