import Mathlib

/-!
# Sequences that are rearranged in a window

* `Shuffled l r s t`     `t` is `s` with the elements at `l ≤ k < r` in another order; `Shuffled.trans`,
  `Shuffled.widen`, `shuffled_swap`
* `Shuffled.inside`     what holds of every element of the window holds after the shuffle
* `SortedIn comp l r s`     no element of the window is before one that stands left of it;
  `sortedIn_join` puts two windows together around an element
* `not_before_trans`     "not before" is transitive in a strict weak order
-/

namespace Windows

variable {α : Type*}

/-! ## the elements of a window in another order -/

/-- `t` is `s` with the elements at the positions `l ≤ k < r` in another order -/
structure Shuffled (l r : ℕ) (s t : List α) : Prop where
  perm : t.Perm s
  outside : ∀ k, k < l ∨ r ≤ k → t[k]? = s[k]?

theorem Shuffled.refl (l r : ℕ) (s : List α) : Shuffled l r s s := ⟨List.Perm.refl s, fun _ _ => rfl⟩

theorem Shuffled.length_eq {l r : ℕ} {s t : List α} (h : Shuffled l r s t) : t.length = s.length :=
  h.perm.length_eq

theorem Shuffled.trans {l r : ℕ} {s t u : List α} (h : Shuffled l r s t) (h' : Shuffled l r t u) :
    Shuffled l r s u :=
  ⟨h'.perm.trans h.perm, fun k hk => (h'.outside k hk).trans (h.outside k hk)⟩

theorem Shuffled.widen {l r l' r' : ℕ} {s t : List α} (h : Shuffled l r s t) (hl : l' ≤ l)
    (hr : r ≤ r') : Shuffled l' r' s t :=
  ⟨h.perm, fun k hk => h.outside k (by omega)⟩

theorem getElem?_swapped {s : List α} {i j : ℕ} {x y : α} (hi : s[i]? = some x) (hj : s[j]? = some y)
    (k : ℕ) : ((s.set i y).set j x)[k]? = if k = j then some x else if k = i then some y else s[k]? := by
  have hil : i < s.length := (List.getElem?_eq_some_iff.mp hi).1
  have hjl : j < s.length := (List.getElem?_eq_some_iff.mp hj).1
  rw [List.getElem?_set, List.getElem?_set, List.length_set]
  by_cases hkj : k = j
  · rw [if_pos hkj.symm, if_pos hjl, if_pos hkj]
  · rw [if_neg (Ne.symm hkj), if_neg hkj]
    by_cases hki : k = i
    · rw [if_pos hki.symm, if_pos hil, if_pos hki]
    · rw [if_neg (Ne.symm hki), if_neg hki]

theorem shuffled_swap {l r i j : ℕ} {s : List α} {x y : α} (hi : s[i]? = some x) (hj : s[j]? = some y)
    (hli : l ≤ i) (hir : i < r) (hlj : l ≤ j) (hjr : j < r) :
    Shuffled l r s ((s.set i y).set j x) := by
  obtain ⟨hil, hx⟩ := List.getElem?_eq_some_iff.mp hi
  obtain ⟨hjl, hy⟩ := List.getElem?_eq_some_iff.mp hj
  refine ⟨?_, fun k hk => ?_⟩
  · rw [← hx, ← hy]
    exact List.set_set_perm hil hjl
  · rw [getElem?_swapped hi hj, if_neg (by omega), if_neg (by omega)]

theorem Shuffled.take_eq {l r : ℕ} {s t : List α} (h : Shuffled l r s t) : t.take l = s.take l := by
  apply List.ext_getElem?
  intro k
  rw [List.getElem?_take, List.getElem?_take]
  by_cases hk : k < l
  · rw [if_pos hk, if_pos hk, h.outside k (Or.inl hk)]
  · rw [if_neg hk, if_neg hk]

theorem Shuffled.drop_eq {l r : ℕ} {s t : List α} (h : Shuffled l r s t) : t.drop r = s.drop r := by
  apply List.ext_getElem?
  intro k
  rw [List.getElem?_drop, List.getElem?_drop, h.outside (r + k) (Or.inr (by omega))]

/-- the elements of the window are the same ones, in another order -/
theorem Shuffled.window {l r : ℕ} {s t : List α} (h : Shuffled l r s t) (hlr : l ≤ r) :
    ((t.drop l).take (r - l)).Perm ((s.drop l).take (r - l)) := by
  have hsplit : ∀ u : List α, u = u.take l ++ ((u.drop l).take (r - l) ++ u.drop r) := by
    intro u
    have hd : u.drop r = (u.drop l).drop (r - l) := by
      rw [List.drop_drop, Nat.add_sub_cancel' hlr]
    rw [hd, List.take_append_drop, List.take_append_drop]
  have hp := h.perm
  rw [hsplit t, hsplit s, h.take_eq, h.drop_eq, List.perm_append_left_iff,
    List.perm_append_right_iff] at hp
  exact hp

theorem mem_window {l r k : ℕ} {s : List α} {x : α} (hl : l ≤ k) (hr : k < r) (hx : s[k]? = some x) :
    x ∈ (s.drop l).take (r - l) := by
  have hk : ((s.drop l).take (r - l))[k - l]? = some x := by
    rw [List.getElem?_take, if_pos (by omega), List.getElem?_drop, Nat.add_sub_cancel' hl, hx]
  exact List.mem_of_getElem? hk

theorem of_mem_window {l r : ℕ} {s : List α} {x : α} (hx : x ∈ (s.drop l).take (r - l)) :
    ∃ k, l ≤ k ∧ k < r ∧ s[k]? = some x := by
  obtain ⟨k, hk⟩ := List.mem_iff_getElem?.mp hx
  rw [List.getElem?_take] at hk
  by_cases hkr : k < r - l
  · rw [if_pos hkr, List.getElem?_drop] at hk
    exact ⟨l + k, by omega, by omega, hk⟩
  · rw [if_neg hkr] at hk
    exact absurd hk (by simp)

/-- what holds of every element of the window holds of every one after the shuffle -/
theorem Shuffled.inside {l r : ℕ} {s t : List α} {P : α → Prop} (h : Shuffled l r s t)
    (hP : ∀ k x, l ≤ k → k < r → s[k]? = some x → P x) :
    ∀ k x, l ≤ k → k < r → t[k]? = some x → P x := by
  intro k x hl hr hx
  have hmem := (h.window (by omega)).mem_iff.mp (mem_window hl hr hx)
  obtain ⟨m, hlm, hmr, hm⟩ := of_mem_window hmem
  exact hP m x hlm hmr hm

/-! ## strict weak orders -/

/-- `comp` is a strict weak order -/
abbrev StrictWeak (comp : α → α → Bool) : Prop := IsStrictWeakOrder α (fun a b => comp a b = true)

section
variable {comp : α → α → Bool}

theorem not_before_self (h : StrictWeak comp) (a : α) : comp a a = false := by
  have := h.irrefl a
  simpa using this

theorem not_before_of_before (h : StrictWeak comp) {a b : α} (hab : comp a b = true) :
    comp b a = false := by
  by_contra hba
  have haa := h.trans a b a hab (by simpa using hba)
  rw [not_before_self h a] at haa
  exact absurd haa (by simp)

/-- "not before" is transitive: this is what a strict weak order adds to a strict order -/
theorem not_before_trans (h : StrictWeak comp) {a b c : α} (hba : comp b a = false)
    (hcb : comp c b = false) : comp c a = false := by
  by_contra hca
  have hca : comp c a = true := by simpa using hca
  have hab : comp a b = false := by
    by_contra hab
    have := h.trans c a b hca (by simpa using hab)
    rw [hcb] at this
    exact absurd this (by simp)
  have hbc : comp b c = false := by
    by_contra hbc
    have := h.trans b c a (by simpa using hbc) hca
    rw [hba] at this
    exact absurd this (by simp)
  have := h.incomp_trans c b a ⟨by simp [hcb], by simp [hbc]⟩ ⟨by simp [hba], by simp [hab]⟩
  exact this.1 hca

end

/-! ## sorted windows -/

section
variable (comp : α → α → Bool)

/-- no element of the window stands behind one that it is before -/
def SortedIn (l r : ℕ) (s : List α) : Prop :=
  ∀ i j x y, l ≤ i → i < j → j < r → s[i]? = some x → s[j]? = some y → comp y x = false

/-- no element of the window is behind `p` -/
def UpTo (l r : ℕ) (s : List α) (p : α) : Prop :=
  ∀ k x, l ≤ k → k < r → s[k]? = some x → comp p x = false

/-- no element of the window is before `p` -/
def From (l r : ℕ) (s : List α) (p : α) : Prop :=
  ∀ k x, l ≤ k → k < r → s[k]? = some x → comp x p = false

variable {comp}

theorem sortedIn_of_le {l r : ℕ} (s : List α) (h : r ≤ l + 1) : SortedIn comp l r s := by
  intro i j x y hl hij hr
  omega

theorem SortedIn.congr {l r : ℕ} {s t : List α} (h : SortedIn comp l r s)
    (hst : ∀ k, l ≤ k → k < r → t[k]? = s[k]?) : SortedIn comp l r t := by
  intro i j x y hl hij hr hx hy
  rw [hst i hl (by omega)] at hx
  rw [hst j (by omega) hr] at hy
  exact h i j x y hl hij hr hx hy

theorem UpTo.shuffled {l r : ℕ} {s t : List α} {p : α} (h : UpTo comp l r s p)
    (hst : Shuffled l r s t) : UpTo comp l r t p :=
  hst.inside h

theorem From.shuffled {l r : ℕ} {s t : List α} {p : α} (h : From comp l r s p)
    (hst : Shuffled l r s t) : From comp l r t p :=
  hst.inside h

theorem UpTo.congr {l r : ℕ} {s t : List α} {p : α} (h : UpTo comp l r s p)
    (hst : ∀ k, l ≤ k → k < r → t[k]? = s[k]?) : UpTo comp l r t p := by
  intro k x hl hr hx
  rw [hst k hl hr] at hx
  exact h k x hl hr hx

theorem From.congr {l r : ℕ} {s t : List α} {p : α} (h : From comp l r s p)
    (hst : ∀ k, l ≤ k → k < r → t[k]? = s[k]?) : From comp l r t p := by
  intro k x hl hr hx
  rw [hst k hl hr] at hx
  exact h k x hl hr hx

/-- two sorted windows with an element between them that neither of them passes -/
theorem sortedIn_join (hc : StrictWeak comp) {l m r : ℕ} {s : List α} {p : α} (hm : s[m]? = some p)
    (hlo : SortedIn comp l m s) (hhi : SortedIn comp (m + 1) r s) (hup : UpTo comp l m s p)
    (hfrom : From comp (m + 1) r s p) : SortedIn comp l r s := by
  intro i j x y hl hij hr hx hy
  rcases lt_trichotomy j m with hjm | hjm | hjm
  · exact hlo i j x y hl hij hjm hx hy
  · rw [hjm, hm] at hy
    rw [← Option.some_injective _ hy]
    exact hup i x hl (by omega) hx
  · have hyp : comp y p = false := hfrom j y (by omega) hr hy
    rcases lt_trichotomy i m with him | him | him
    · exact not_before_trans hc (hup i x hl him hx) hyp
    · rw [him, hm] at hx
      rw [← Option.some_injective _ hx]
      exact hyp
    · exact hhi i j x y (by omega) hij hr hx hy

end

end Windows
