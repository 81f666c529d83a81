import Mathlib

/-!
# Sorting with a comparison function

* `Orders`, `Comparison`     comparison functions
* `QSort`     what `qsort` promises: a permutation, in the order of a comparison that orders
* `QSort.insertion`     one that keeps it
* `drop_countP`     in a sorted list what comes first is a prefix
-/

/-- a comparison function that orders totally -/
structure Orders {α : Type} (cmp : α → α → ℤ) : Prop where
  total : ∀ a b, cmp a b ≤ 0 ∨ cmp b a ≤ 0
  trans : ∀ a b c, cmp a b ≤ 0 → cmp b c ≤ 0 → cmp a c ≤ 0

/-- a comparison function whose sign turns with its arguments -/
structure Comparison {α : Type} (cmp : α → α → ℤ) : Prop extends Orders cmp where
  turns : ∀ a b, 0 < cmp a b ↔ cmp b a < 0

/-- a sort; nothing is said of elements that compare equal -/
structure QSort (α : Type) where
  sort : (α → α → ℤ) → List α → List α
  perm : ∀ cmp l, (sort cmp l).Perm l
  sorted : ∀ cmp l, Orders cmp → (sort cmp l).Pairwise fun a b => cmp a b ≤ 0

namespace QSort
variable {α : Type}

def insertion : QSort α where
  sort cmp l := l.insertionSort fun a b => cmp a b ≤ 0
  perm _ l := List.perm_insertionSort _ l
  sorted cmp l h := by
    have : Std.Total fun a b : α => cmp a b ≤ 0 := ⟨h.total⟩
    have : IsTrans α fun a b => cmp a b ≤ 0 := ⟨h.trans⟩
    exact List.pairwise_insertionSort _ l

/-- where `p` comes first, the elements with `p` are a prefix -/
theorem drop_countP {l : List α} {p : α → Bool} (h : l.Pairwise fun a b => p b → p a) :
    l.drop (l.countP p) = l.filter fun a => !p a := by
  induction l with
  | nil => rfl
  | cons a l ih =>
    obtain ⟨ha, hl⟩ := List.pairwise_cons.mp h
    by_cases hp : p a
    · rw [List.countP_cons_of_pos hp, List.drop_succ_cons, ih hl,
        List.filter_cons_of_neg (by rw [hp]; exact Bool.false_ne_true)]
    · have hn : ∀ b ∈ a :: l, ¬ p b := by
        intro b hb hpb
        rcases List.mem_cons.mp hb with rfl | hb
        · exact hp hpb
        · exact hp (ha b hb hpb)
      rw [List.countP_eq_zero.mpr hn, List.drop_zero, List.filter_eq_self.mpr]
      intro b hb
      rw [Bool.not_eq_true']
      exact Bool.eq_false_of_not_eq_true (hn b hb)

end QSort
