import Mathlib

/-!
# Loops that stride over a buffer

A scanning loop looks at position `0`, then at `next 0`, then at `next (next 0)`, and so on up
to a bound.  `Visits next k` says that it looks at `k`, `stops next b k` lists the positions it
looks at from `k` up to `b`.

* `Visits.next_le`   nothing is looked at strictly inside a stride;
* `stops_split`   the stops up to `b` are the stops up to a visited `a`, then those from `a`;
* `mem_stops`   membership;
* `pos`, `pos_next`   where the output of a stop begins when every stop emits `out k`;
* `pos_eq_add`   that position is the input position plus the surplus of the stops before;
* `getElem?_emit`   what stands there.
-/

namespace Stride

/-- every stride goes forward -/
def Forward (next : Nat → Nat) : Prop := ∀ k, k < next k

/-- the loop looks at position `k` -/
def Visits (next : Nat → Nat) (k : Nat) : Prop := ∃ i, i ≤ k ∧ next^[i] 0 = k

instance (next : Nat → Nat) (k : Nat) : Decidable (Visits next k) :=
  inferInstanceAs (Decidable (∃ i, i ≤ k ∧ next^[i] 0 = k))

section
variable {next : Nat → Nat} (hf : Forward next)
include hf

theorem iterate_lt (i : Nat) : next^[i] 0 < next^[i + 1] 0 := by
  rw [Function.iterate_succ_apply']
  exact hf _

theorem iterate_mono : StrictMono fun i => next^[i] 0 := strictMono_nat_of_lt_succ (iterate_lt hf)

theorem visits_iterate (i : Nat) : Visits next (next^[i] 0) := ⟨i, (iterate_mono hf).le_apply, rfl⟩

omit hf in
theorem Visits.zero : Visits next 0 := ⟨0, Nat.le_refl _, rfl⟩

theorem Visits.step {k : Nat} (h : Visits next k) : Visits next (next k) := by
  obtain ⟨i, _, rfl⟩ := h
  rw [← Function.iterate_succ_apply' next i]
  exact visits_iterate hf (i + 1)

/-- induction along the positions a loop looks at -/
theorem Visits.rec' {P : Nat → Prop} (h0 : P 0) (hs : ∀ k, Visits next k → P k → P (next k))
    {k : Nat} (h : Visits next k) : P k := by
  obtain ⟨i, _, rfl⟩ := h
  induction i with
  | zero => exact h0
  | succ i ih =>
    rw [Function.iterate_succ_apply']
    exact hs _ (visits_iterate hf i) (ih (iterate_mono hf).le_apply)

theorem Visits.next_le {a b : Nat} (ha : Visits next a) (hb : Visits next b) (h : a < b) :
    next a ≤ b := by
  obtain ⟨i, _, rfl⟩ := ha
  obtain ⟨j, _, rfl⟩ := hb
  have hij : i < j := (iterate_mono hf).lt_iff_lt.mp h
  rw [← Function.iterate_succ_apply' next i]
  exact (iterate_mono hf).monotone hij

/-- nothing is looked at strictly inside a stride -/
theorem Visits.not_between {a k : Nat} (ha : Visits next a) (h1 : a < k) (h2 : k < next a) :
    ¬ Visits next k := fun hk => Nat.not_lt.mpr (ha.next_le hf hk h1) h2

end

/-- a loop whose strides never pass `n` comes to `n` -/
theorem visits_bound {next : Nat → Nat} (hf : Forward next) {n : Nat}
    (hn : ∀ k, k < n → next k ≤ n) : Visits next n := by
  have key : ∀ m k, n - k = m → k ≤ n → Visits next k → Visits next n := by
    intro m
    induction m using Nat.strong_induction_on with
    | _ m ih =>
      intro k hm hk hv
      rcases Nat.lt_or_eq_of_le hk with h | h
      · have h1 := hf k
        exact ih (n - next k) (by omega) (next k) rfl (hn k h) (hv.step hf)
      · exact h ▸ hv
  exact key n 0 rfl (Nat.zero_le _) Visits.zero

/-! ## the list of stops -/

/-- the stops from `k` below `b`, at most `fuel` of them -/
def stopsFuel (next : Nat → Nat) (b : Nat) : Nat → Nat → List Nat
  | 0, _ => []
  | f + 1, k => if k < b then k :: stopsFuel next b f (next k) else []

/-- the stops from `k` below `b` -/
def stops (next : Nat → Nat) (b k : Nat) : List Nat := stopsFuel next b (b - k) k

section
variable {next : Nat → Nat}

theorem stops_of_le {b k : Nat} (h : b ≤ k) : stops next b k = [] := by
  have e : b - k = 0 := by omega
  rw [stops, e, stopsFuel]

variable (hf : Forward next)
include hf

/-- more fuel than the distance to the bound changes nothing -/
theorem stopsFuel_irrel (b f g k : Nat) (h1 : b - k ≤ f) (h2 : b - k ≤ g) :
    stopsFuel next b f k = stopsFuel next b g k := by
  induction f generalizing g k with
  | zero =>
    cases g with
    | zero => rfl
    | succ g => rw [stopsFuel, stopsFuel, if_neg (by omega)]
  | succ f ih =>
    have hn := hf k
    cases g with
    | zero => rw [stopsFuel, stopsFuel, if_neg (by omega)]
    | succ g =>
      rw [stopsFuel, stopsFuel, ih g (next k) (by omega) (by omega)]

theorem stopsFuel_eq (b f k : Nat) (h : b - k ≤ f) : stopsFuel next b f k = stops next b k :=
  stopsFuel_irrel hf b f (b - k) k h (Nat.le_refl _)

theorem stops_of_lt {b k : Nat} (h : k < b) : stops next b k = k :: stops next b (next k) := by
  have hn := hf k
  obtain ⟨m, hm⟩ : ∃ m, b - k = m + 1 := ⟨b - k - 1, by omega⟩
  rw [stops, hm, stopsFuel, if_pos h, stopsFuel_eq hf b m (next k) (by omega)]

theorem stops_next {b k : Nat} (h : next k ≤ b) :
    stops next b k = k :: stops next b (next k) :=
  stops_of_lt hf (Nat.lt_of_lt_of_le (hf k) h)

/-- the stops up to `b` are the stops up to a visited `a`, then those from `a` -/
theorem stops_split {a b : Nat} (ha : Visits next a) (h : a ≤ b) :
    stops next b 0 = stops next a 0 ++ stops next b a := by
  have key : ∀ c, a ≤ c → stops next c 0 = stops next a 0 ++ stops next c a := by
    refine ha.rec' hf (P := fun a => ∀ c, a ≤ c → stops next c 0 = stops next a 0 ++ stops next c a)
      ?_ ?_
    · intro c _
      rw [stops_of_le (Nat.le_refl 0), List.nil_append]
    · intro k _ ih c hc
      have hn := hf k
      have e : stops next (next k) k = [k] := by
        rw [stops_next hf (Nat.le_refl _), stops_of_le (Nat.le_refl _)]
      rw [ih c (by omega), ih (next k) (by omega), e, stops_next hf hc, List.append_assoc,
        List.singleton_append]
  exact key b h

theorem stops_snoc {k : Nat} (hk : Visits next k) :
    stops next (next k) 0 = stops next k 0 ++ [k] := by
  rw [stops_split hf hk (hf k).le, stops_next hf (Nat.le_refl _), stops_of_le (Nat.le_refl _)]

/-- the stops from `a` up to `c` are those up to a visited `b`, then those from `b` -/
theorem stops_append {a b c : Nat} (ha : Visits next a) (hb : Visits next b) (h1 : a ≤ b)
    (h2 : b ≤ c) : stops next c a = stops next b a ++ stops next c b := by
  have e1 := stops_split hf ha (h1.trans h2)
  have e2 := stops_split hf hb h2
  rw [stops_split hf ha h1, e1, List.append_assoc] at e2
  exact List.append_cancel_left e2

theorem mem_stops {a b k : Nat} (ha : Visits next a) :
    k ∈ stops next b a ↔ Visits next k ∧ a ≤ k ∧ k < b := by
  induction hm : b - a using Nat.strong_induction_on generalizing a with
  | _ m ih =>
    have hn := hf a
    by_cases h : a < b
    · rw [stops_of_lt hf h, List.mem_cons, ih (b - next a) (by omega) (ha.step hf) rfl]
      constructor
      · rintro (rfl | ⟨h1, h2, h3⟩)
        · exact ⟨ha, Nat.le_refl _, h⟩
        · exact ⟨h1, by omega, h3⟩
      · rintro ⟨h1, h2, h3⟩
        rcases Nat.lt_or_eq_of_le h2 with h2 | h2
        · exact Or.inr ⟨h1, ha.next_le hf h1 h2, h3⟩
        · exact Or.inl h2.symm
    · rw [stops_of_le (by omega)]
      constructor
      · intro hk; exact absurd hk (List.not_mem_nil)
      · rintro ⟨_, h2, h3⟩; omega

theorem mem_stops_zero {b k : Nat} : k ∈ stops next b 0 ↔ Visits next k ∧ k < b := by
  rw [mem_stops hf Visits.zero]
  simp

end

/-! ## emitting at every stop -/

section
variable {α : Type} (next : Nat → Nat) (out : Nat → List α)

/-- what a loop that appends `out k` at every stop `k` has emitted when it comes to `b` -/
def emit (b : Nat) : List α := (stops next b 0).flatMap out

/-- where the output of stop `b` begins -/
def pos (b : Nat) : Nat := (emit next out b).length

/-- surplus of the output of one stop over the input it consumes -/
def surplus (k : Nat) : Nat := (out k).length - (next k - k)

/-- elements added by the stops before `b` -/
def inserted (b : Nat) : Nat := ((stops next b 0).map (surplus next out)).sum

/-- no stop emits less than it consumes -/
def Grows : Prop := ∀ k, next k - k ≤ (out k).length

end

section
variable {α : Type} {next : Nat → Nat} {out : Nat → List α} (hf : Forward next)
include hf

theorem emit_next {k : Nat} (hk : Visits next k) :
    emit next out (next k) = emit next out k ++ out k := by
  rw [emit, stops_snoc hf hk, List.flatMap_append, List.flatMap_singleton, emit]

theorem emit_split {a b : Nat} (ha : Visits next a) (h : a ≤ b) :
    emit next out b = emit next out a ++ (stops next b a).flatMap out := by
  rw [emit, stops_split hf ha h, List.flatMap_append, emit]

theorem pos_next {k : Nat} (hk : Visits next k) :
    pos next out (next k) = pos next out k + (out k).length := by
  rw [pos, emit_next hf hk, List.length_append, pos]

omit hf in
@[simp] theorem pos_zero : pos next out 0 = 0 := by
  rw [pos, emit, stops_of_le (Nat.le_refl 0)]
  rfl

theorem pos_mono {a b : Nat} (ha : Visits next a) (h : a ≤ b) :
    pos next out a ≤ pos next out b := by
  rw [pos, pos, emit_split hf ha h, List.length_append]
  omega

theorem inserted_next {k : Nat} (hk : Visits next k) :
    inserted next out (next k) = inserted next out k + surplus next out k := by
  rw [inserted, stops_snoc hf hk, List.map_append, List.sum_append, inserted]
  simp

theorem inserted_mono {a b : Nat} (ha : Visits next a) (h : a ≤ b) :
    inserted next out a ≤ inserted next out b := by
  rw [inserted, inserted, stops_split hf ha h, List.map_append, List.sum_append]
  omega

variable (hg : Grows next out)
include hg

/-- an input position moves by what was inserted before it -/
theorem pos_eq_add {k : Nat} (hk : Visits next k) :
    pos next out k = k + inserted next out k := by
  refine hk.rec' hf (P := fun k => pos next out k = k + inserted next out k) ?_ ?_
  · rw [pos_zero, inserted, stops_of_le (Nat.le_refl 0)]
    rfl
  · intro k hk ih
    have h1 := hf k
    have h2 := hg k
    have e : (out k).length = (next k - k) + surplus next out k := by
      rw [surplus]; omega
    rw [pos_next hf hk, inserted_next hf hk, ih, e]
    omega

/-- positions never come closer together -/
theorem pos_sub {a b : Nat} (ha : Visits next a) (hb : Visits next b) (h : a ≤ b) :
    pos next out a + (b - a) ≤ pos next out b := by
  have : inserted next out a ≤ inserted next out b := inserted_mono hf ha h
  rw [pos_eq_add hf hg ha, pos_eq_add hf hg hb]
  omega

theorem pos_lt {a b : Nat} (ha : Visits next a) (hb : Visits next b) (h : a < b) :
    pos next out a < pos next out b := by
  have := pos_sub hf hg ha hb h.le
  omega

end

section
variable {α : Type} {next : Nat → Nat} {out : Nat → List α} (hf : Forward next)
include hf

/-- the output of stop `k` stands at `pos k` -/
theorem getElem?_emit {k b i : Nat} (hk : Visits next k) (hb : k < b) (hi : i < (out k).length) :
    (emit next out b)[pos next out k + i]? = (out k)[i]? := by
  rw [emit_split hf hk hb.le, stops_of_lt hf hb, List.flatMap_cons, pos,
    List.getElem?_append_right (Nat.le_add_right _ _), Nat.add_sub_cancel_left,
    List.getElem?_append_left hi]

end
end Stride
