import Mathlib

/-!
# Passes over a list until none of them changes anything

* `pass step l`     a step for each element, and whether one of them has changed the state
* `untilSame step l`     `do { change = false; for( .. ) .. } while( change );`, with a count of the passes
* `untilSame_spec`     where every change makes a number smaller, the loop ends in a state that no step
  changes
-/

namespace Rounds

variable {β σ : Type*} (step : β → σ → σ × Bool)

/-- a step for each element, and whether one of them has changed the state -/
def pass : List β → σ → σ × Bool
  | [], s => (s, false)
  | b :: l, s =>
    let r := step b s
    let r' := pass l r.1
    (r'.1, r.2 || r'.2)

/-- passes until nothing is changed -/
def untilSame (l : List β) : ℕ → σ → Option σ
  | 0, _ => none
  | rounds + 1, s =>
    let r := pass step l s
    if r.2 then untilSame l rounds r.1 else some r.1

variable {step} {Inv : σ → Prop} {μ : σ → ℕ}

/-- what one pass does: it keeps the invariant, and makes the number smaller or changes nothing -/
theorem pass_spec {l : List β} (hinv : ∀ b ∈ l, ∀ s, Inv s → Inv (step b s).1)
    (hsame : ∀ b ∈ l, ∀ s, Inv s → (step b s).2 = false → (step b s).1 = s)
    (hless : ∀ b ∈ l, ∀ s, Inv s → (step b s).2 = true → μ (step b s).1 < μ s) {s : σ} (hs : Inv s) :
    Inv (pass step l s).1 ∧ μ (pass step l s).1 ≤ μ s ∧
      ((pass step l s).2 = true → μ (pass step l s).1 < μ s) ∧
      ((pass step l s).2 = false → (pass step l s).1 = s ∧ ∀ b ∈ l, (step b s).1 = s) := by
  induction l generalizing s with
  | nil => exact ⟨hs, le_refl _, fun h => absurd h (by simp [pass]), fun _ => ⟨rfl, by simp⟩⟩
  | cons b l ih =>
    have hb := List.mem_cons_self (a := b) (l := l)
    obtain ⟨hinv', hle', hlt', hsame'⟩ := ih (fun c hc => hinv c (List.mem_cons_of_mem b hc))
      (fun c hc => hsame c (List.mem_cons_of_mem b hc))
      (fun c hc => hless c (List.mem_cons_of_mem b hc)) (hinv b hb s hs)
    have hle : μ (step b s).1 ≤ μ s := by
      cases hc : (step b s).2 with
      | true => exact le_of_lt (hless b hb s hs hc)
      | false => rw [hsame b hb s hs hc]
    refine ⟨hinv', le_trans hle' hle, fun hc => ?_, fun hc => ?_⟩
    · have hc' : ((step b s).2 || (pass step l (step b s).1).2) = true := hc
      rw [Bool.or_eq_true] at hc'
      rcases hc' with hc' | hc'
      · exact lt_of_le_of_lt hle' (hless b hb s hs hc')
      · exact lt_of_lt_of_le (hlt' hc') hle
    · have hc' : ((step b s).2 || (pass step l (step b s).1).2) = false := hc
      rw [Bool.or_eq_false_iff] at hc'
      have hstep := hsame b hb s hs hc'.1
      obtain ⟨h1, h2⟩ := hsame' hc'.2
      rw [hstep] at h1 h2
      refine ⟨by show (pass step l (step b s).1).1 = s; rw [hstep, h1], fun c hcm => ?_⟩
      rcases List.mem_cons.mp hcm with rfl | hcm
      · exact hstep
      · exact h2 c hcm

/-- the loop ends, in a state that no step changes -/
theorem untilSame_spec (step : β → σ → σ × Bool) (Inv : σ → Prop) (μ : σ → ℕ) (l : List β)
    (hinv : ∀ b ∈ l, ∀ s, Inv s → Inv (step b s).1)
    (hsame : ∀ b ∈ l, ∀ s, Inv s → (step b s).2 = false → (step b s).1 = s)
    (hless : ∀ b ∈ l, ∀ s, Inv s → (step b s).2 = true → μ (step b s).1 < μ s) :
    ∀ (rounds : ℕ) {s : σ}, Inv s → μ s < rounds →
      ∃ s', untilSame step l rounds s = some s' ∧ Inv s' ∧ ∀ b ∈ l, (step b s').1 = s' := by
  intro rounds
  induction rounds with
  | zero => intro s _ h; exact absurd h (Nat.not_lt_zero _)
  | succ rounds ih =>
    intro s hs hμ
    obtain ⟨hinv', -, hlt, hsame'⟩ := pass_spec hinv hsame hless hs
    unfold untilSame
    dsimp only
    by_cases hc : (pass step l s).2 = true
    · rw [if_pos hc]
      exact ih hinv' (lt_of_lt_of_le (hlt hc) (Nat.le_of_lt_succ hμ))
    · rw [if_neg hc]
      obtain ⟨h1, h2⟩ := hsame' (by simpa using hc)
      exact ⟨_, rfl, hinv', by rw [h1]; exact h2⟩

end Rounds
