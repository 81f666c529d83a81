import Mathlib.Data.List.DropRight
import Mathlib.Tactic.Ring
import Mathlib.Tactic.Linarith
import Mathlib.Tactic.Positivity

/-!
# Numerals of a base

* `val`        the number that a list of digits stands for, the most significant digit first;
* `val_append`, `val_lt`, `val_ge`   numerals put together, and their bounds;
* `low`        the number of digits given by their places, `low_reverse` the digits of a list;
* `zeros_strip_right`, `zeros_strip_left`   a numeral without its outer zeros.
-/

namespace Numerals

/-- the number with the digits `l` -/
def val (b : Int) : List Int → Int
  | [] => 0
  | d :: l => d * b ^ l.length + val b l

/-- all of `l` are digits of the base -/
def Digits (b : Int) (l : List Int) : Prop := ∀ d ∈ l, 0 ≤ d ∧ d < b

instance (b : Int) (l : List Int) : Decidable (Digits b l) :=
  inferInstanceAs (Decidable (∀ d ∈ l, 0 ≤ d ∧ d < b))

variable {b : Int}

@[simp] theorem val_nil : val b [] = 0 := rfl

theorem val_cons (d : Int) (l : List Int) : val b (d :: l) = d * b ^ l.length + val b l := rfl

theorem digits_nil : Digits b [] := fun _ h => absurd h List.not_mem_nil

theorem digits_cons {d : Int} {l : List Int} :
    Digits b (d :: l) ↔ (0 ≤ d ∧ d < b) ∧ Digits b l := List.forall_mem_cons

theorem digits_append {l m : List Int} : Digits b (l ++ m) ↔ Digits b l ∧ Digits b m :=
  List.forall_mem_append

theorem Digits.sublist {l m : List Int} (h : Digits b m) (hs : l.Sublist m) : Digits b l :=
  fun d hd => h d (hs.subset hd)

theorem digits_zeros (hb : 0 < b) (n : Nat) : Digits b (List.replicate n 0) := by
  intro d hd
  rw [List.eq_of_mem_replicate hd]
  exact ⟨le_refl 0, hb⟩

theorem val_append (l m : List Int) : val b (l ++ m) = val b l * b ^ m.length + val b m := by
  induction l with
  | nil => simp
  | cons d l ih =>
    rw [List.cons_append, val_cons, val_cons, ih, List.length_append, pow_add]
    ring

@[simp] theorem val_zeros (n : Nat) : val b (List.replicate n 0) = 0 := by
  induction n with
  | zero => rfl
  | succ n ih => rw [List.replicate_succ, val_cons, ih, zero_mul, zero_add]

theorem val_nonneg (hb : 0 ≤ b) {l : List Int} (h : Digits b l) : 0 ≤ val b l := by
  induction l with
  | nil => exact le_refl 0
  | cons d l ih =>
    obtain ⟨hd, hl⟩ := digits_cons.mp h
    rw [val_cons]
    exact add_nonneg (mul_nonneg hd.1 (pow_nonneg hb _)) (ih hl)

theorem val_lt (hb : 0 < b) {l : List Int} (h : Digits b l) : val b l < b ^ l.length := by
  induction l with
  | nil =>
    show (0 : Int) < b ^ 0
    rw [pow_zero]
    exact Int.one_pos
  | cons d l ih =>
    obtain ⟨hd, hl⟩ := digits_cons.mp h
    have hp : 0 < b ^ l.length := pow_pos hb _
    rw [val_cons, List.length_cons, pow_succ]
    have h1 : (d + 1) * b ^ l.length ≤ b * b ^ l.length :=
      mul_le_mul_of_nonneg_right (by omega) hp.le
    have h2 := ih hl
    linarith

/-- a numeral with a digit in front -/
theorem val_ge (hb : 0 < b) {d : Int} {l : List Int} (h : Digits b (d :: l)) (hd : d ≠ 0) :
    b ^ l.length ≤ val b (d :: l) := by
  obtain ⟨h0, hl⟩ := digits_cons.mp h
  have hp : 0 < b ^ l.length := pow_pos hb _
  have h1 : 1 * b ^ l.length ≤ d * b ^ l.length :=
    mul_le_mul_of_nonneg_right (by omega) hp.le
  have h2 := val_nonneg hb.le hl
  rw [val_cons]
  linarith

/-- a numeral that does not end in 0 is not 0 -/
theorem val_pos (hb : 0 < b) {l : List Int} (h : Digits b l) (hne : l ≠ [])
    (hl : l.getLast? ≠ some 0) : 0 < val b l := by
  obtain ⟨m, d, rfl⟩ := List.eq_nil_or_concat l |>.resolve_left hne
  rw [List.concat_eq_append] at h hl ⊢
  obtain ⟨hm, hd⟩ := digits_append.mp h
  have hd0 : d ≠ 0 := by
    intro e
    exact hl (by rw [List.getLast?_concat, e])
  have hdd := hd d List.mem_cons_self
  have hv := mul_nonneg (val_nonneg hb.le hm) (pow_nonneg hb.le [d].length)
  rw [val_append]
  show 0 < val b m * b ^ [d].length + (d * b ^ 0 + 0)
  rw [pow_zero, mul_one, add_zero]
  omega

/-! ## digits by their places -/

/-- the number of the digits `g 0`, …, `g (n - 1)`, the least significant one first -/
def low (b : Int) (g : Nat → Int) : Nat → Int
  | 0 => 0
  | n + 1 => low b g n + g n * b ^ n

theorem low_congr {g h : Nat → Int} {n : Nat} (e : ∀ k, k < n → g k = h k) :
    low b g n = low b h n := by
  induction n with
  | zero => rfl
  | succ n ih =>
    rw [low, low, ih fun k hk => e k (by omega), e n (by omega)]

theorem low_add (g h : Nat → Int) (n : Nat) :
    low b (fun k => g k + h k) n = low b g n + low b h n := by
  induction n with
  | zero => rfl
  | succ n ih =>
    rw [low, low, low, ih]
    ring

theorem low_sub (g h : Nat → Int) (n : Nat) :
    low b (fun k => g k - h k) n = low b g n - low b h n := by
  induction n with
  | zero => rfl
  | succ n ih =>
    rw [low, low, low, ih]
    ring

/-- the first place apart -/
theorem low_succ_left (g : Nat → Int) (n : Nat) :
    low b g (n + 1) = g 0 + b * low b (fun k => g (k + 1)) n := by
  induction n with
  | zero => simp [low]
  | succ n ih =>
    rw [low, ih, low, pow_succ]
    ring

/-- digits moved up by `s` places -/
theorem low_shift (g : Nat → Int) (s n : Nat) :
    low b (fun k => if k < s then 0 else g (k - s)) (s + n) = b ^ s * low b g n := by
  induction s with
  | zero => simp
  | succ s ih =>
    rw [Nat.succ_add, low_succ_left, if_pos (Nat.succ_pos s), zero_add, pow_succ, mul_comm (b ^ s) b,
      mul_assoc, ← ih]
    congr 1
    refine low_congr fun k _ => ?_
    by_cases h : k < s
    · rw [if_pos h, if_pos (by omega)]
    · rw [if_neg h, if_neg (by omega)]
      congr 1
      omega

theorem low_getD (l : List Int) {n : Nat} (h : l.length ≤ n) :
    low b (fun k => l.getD k 0) n = val b l.reverse := by
  induction l generalizing n with
  | nil =>
    have e : low b (fun _ => 0) n = 0 := by
      induction n with
      | zero => rfl
      | succ n ih => rw [low, ih (Nat.zero_le _), zero_mul, add_zero]
    exact (low_congr fun k _ => by simp).trans e
  | cons d l ih =>
    obtain ⟨n, rfl⟩ : ∃ m, n = m + 1 := ⟨n - 1, by simp at h; omega⟩
    have hl : l.length ≤ n := by simpa using h
    rw [low_succ_left, List.reverse_cons, val_append]
    have e := ih hl
    show d + b * low b (fun k => l.getD k 0) n = _
    rw [e]
    simp [val_cons]
    ring

/-- the digits of a numeral by their places -/
theorem low_reverse (l : List Int) {n : Nat} (h : l.length ≤ n) :
    low b (fun k => l.reverse.getD k 0) n = val b l := by
  rw [low_getD _ (by simpa using h), List.reverse_reverse]

/-! ## outer zeros -/

theorem zeros_strip_left (l : List Int) :
    l = List.replicate (l.length - (l.dropWhile (· = 0)).length) 0 ++ l.dropWhile (· = 0) := by
  induction l with
  | nil => rfl
  | cons d l ih =>
    by_cases h : d = 0
    · have hle : (l.dropWhile (· = 0)).length ≤ l.length := (List.dropWhile_sublist _).length_le
      rw [List.dropWhile_cons_of_pos (by simpa using h), List.length_cons,
        Nat.succ_sub hle, List.replicate_succ, List.cons_append, ← ih, h]
    · rw [List.dropWhile_cons_of_neg (by simpa using h), Nat.sub_self]
      rfl

theorem zeros_strip_right (l : List Int) :
    l = l.rdropWhile (· = 0) ++ List.replicate (l.length - (l.rdropWhile (· = 0)).length) 0 := by
  have h := congrArg List.reverse (zeros_strip_left l.reverse)
  rw [List.reverse_reverse, List.reverse_append, List.reverse_replicate, List.length_reverse] at h
  rw [List.rdropWhile, List.length_reverse]
  exact h

theorem val_strip_left (l : List Int) : val b (l.dropWhile (· = 0)) = val b l := by
  have h := congrArg (val b) (zeros_strip_left l)
  rw [val_append, val_zeros, zero_mul, zero_add] at h
  exact h.symm

theorem val_strip_right (l : List Int) : val b l
    = val b (l.rdropWhile (· = 0)) * b ^ (l.length - (l.rdropWhile (· = 0)).length) := by
  have h := congrArg (val b) (zeros_strip_right l)
  rw [val_append, val_zeros, List.length_replicate, add_zero] at h
  exact h

theorem head_strip_left (l : List Int) : (l.dropWhile (· = 0)).head? ≠ some 0 := by
  intro h
  cases e : l.dropWhile (· = 0) with
  | nil =>
    rw [e] at h
    cases h
  | cons d m =>
    have hn := List.head_dropWhile_not (p := fun x : Int => decide (x = 0)) (by rw [e]; simp)
    rw [e] at h
    simp [e] at hn
    exact hn (Option.some.inj h)

theorem last_strip_right (l : List Int) : (l.rdropWhile (· = 0)).getLast? ≠ some 0 := by
  rw [List.rdropWhile, List.getLast?_reverse]
  exact head_strip_left l.reverse

/-- zeros in front do not touch the end -/
theorem last_strip_left {l : List Int} (h : l.getLast? ≠ some 0) :
    (l.dropWhile (· = 0)).getLast? = l.getLast? := by
  induction l with
  | nil => rfl
  | cons d l ih =>
    by_cases hd : d = 0
    · rw [List.dropWhile_cons_of_pos (by simpa using hd)]
      cases l with
      | nil => exact absurd (by rw [hd]; rfl) h
      | cons e l =>
        rw [List.getLast?_cons_cons] at h ⊢
        exact ih h
    · rw [List.dropWhile_cons_of_neg (by simpa using hd)]

end Numerals
