import Mathlib

/-!
# What lies on every walk from a root

* `Walk E r b l`     `l` are the nodes of a walk from `r` to `b`
* `OnAll E r x b`     `x` lies on every walk from `r` to `b`
* `OnAll.step`, `onAll_of_step`     this is the greatest property that holds of the root for itself only, and
  of another node when it is `x` or when it holds of all nodes before it
* `walk_reverse`     the walks of the reversed edges
-/

namespace Dominators

variable {V : Type*}

/-- the nodes of a walk from `r` to a node -/
inductive Walk (E : V → V → Prop) (r : V) : V → List V → Prop
  | start : Walk E r r [r]
  | step {a b : V} {l : List V} : Walk E r a l → E a b → Walk E r b (l ++ [b])

/-- `x` lies on every walk from `r` to `b` -/
def OnAll (E : V → V → Prop) (r x b : V) : Prop := ∀ l, Walk E r b l → x ∈ l

variable {E : V → V → Prop} {r x b : V}

theorem OnAll.root (h : OnAll E r x r) : x = r := by
  simpa using h [r] Walk.start

theorem OnAll.step (h : OnAll E r x b) : x = b ∨ ∀ a, E a b → OnAll E r x a := by
  by_cases hx : x = b
  · exact Or.inl hx
  · refine Or.inr fun a hab l hl => ?_
    rcases List.mem_append.mp (h _ (hl.step hab)) with hmem | hmem
    · exact hmem
    · exact absurd (List.mem_singleton.mp hmem) hx

/-- a property of nodes that goes back along the edges holds of no node that `x` can be avoided on the
way to -/
theorem onAll_of_step {P : V → Prop} (hroot : P r → x = r)
    (hstep : ∀ a b, E a b → b ≠ r → P b → x = b ∨ P a) (hb : P b) : OnAll E r x b := by
  intro l hl
  induction hl with
  | start => rw [hroot hb]; exact List.mem_singleton_self r
  | @step a c l _ hac ih =>
    by_cases hcr : c = r
    · rw [hcr] at hb
      rw [hroot hb, hcr]
      exact List.mem_append_right _ (List.mem_singleton_self r)
    · rcases hstep a c hac hcr hb with rfl | ha
      · exact List.mem_append_right _ (List.mem_singleton_self x)
      · exact List.mem_append_left _ (ih ha)

theorem Walk.cons {a c : V} {l : List V} (hab : E a b) (h : Walk E b c l) : Walk E a c (a :: l) := by
  induction h with
  | start => exact Walk.start.step hab
  | step _ hcd ih => exact ih.step hcd

theorem Walk.reverse {c : V} {l : List V} (h : Walk E b c l) :
    Walk (fun x y => E y x) c b l.reverse := by
  induction h with
  | start => exact Walk.start
  | @step a d l _ had ih =>
    rw [List.reverse_append, List.reverse_singleton, List.singleton_append]
    exact ih.cons had

/-- a walk backwards is a walk of the reversed edges -/
theorem walk_reverse {c : V} {l : List V} :
    Walk (fun x y => E y x) c b l ↔ Walk E b c l.reverse := by
  refine ⟨fun h => h.reverse, fun h => ?_⟩
  have := h.reverse
  rwa [List.reverse_reverse] at this

theorem onAll_reverse : OnAll (fun x y => E y x) r x b ↔ ∀ l, Walk E b r l → x ∈ l := by
  refine ⟨fun h l hl => ?_, fun h l hl => ?_⟩
  · have := h l.reverse hl.reverse
    rwa [List.mem_reverse] at this
  · have := h l.reverse (walk_reverse.mp hl)
    rwa [List.mem_reverse] at this

end Dominators
