import OpenWatcom.Lib.Kraft

/-!
# Codes that are counted up, the longest first

* `space w len l`     the part of the words of `w` bits that symbols of these lengths take
* `space_dvd`     where all of the words are taken, each code begins at a multiple of what it takes
* `space_run`     symbols of one length stand evenly behind one another
* `space_divided`     the lengths of a list that is divided in two again and again take all of them
-/

namespace CanonicalCodes

variable {α : Type*} {w : ℕ} {len : α → ℕ}

def space (w : ℕ) (len : α → ℕ) (l : List α) : ℕ := (l.map fun c => 2 ^ (w - len c)).sum

theorem space_nil : space w len [] = 0 := rfl

theorem space_cons (c : α) (l : List α) : space w len (c :: l) = 2 ^ (w - len c) + space w len l := by
  rw [space, List.map_cons, List.sum_cons]
  rfl

theorem space_append (l r : List α) : space w len (l ++ r) = space w len l + space w len r := by
  rw [space, List.map_append, List.sum_append]
  rfl

theorem space_single (c : α) : space w len [c] = 2 ^ (w - len c) := by
  rw [space_cons, space_nil, Nat.add_zero]

theorem space_perm {l r : List α} (h : l.Perm r) : space w len l = space w len r := (h.map _).sum_eq

/-- shorter codes take multiples -/
theorem dvd_space {n : ℕ} {l : List α} (h : ∀ c ∈ l, len c ≤ n) : 2 ^ (w - n) ∣ space w len l := by
  refine List.dvd_sum fun x hx => ?_
  obtain ⟨c, hc, rfl⟩ := List.mem_map.mp hx
  exact pow_dvd_pow 2 (Nat.sub_le_sub_left (h c hc) w)

theorem space_dvd {l r : List α} {c : α} (hr : ∀ d ∈ r, len d ≤ len c) (hw : space w len (l ++ c :: r) = 2 ^ w) :
    2 ^ (w - len c) ∣ space w len l := by
  rw [space_append] at hw
  have h1 : 2 ^ (w - len c) ∣ space w len (c :: r) := dvd_space fun d hd =>
    (List.mem_cons.mp hd).elim (fun e => e ▸ le_refl _) (hr d)
  have h2 : 2 ^ (w - len c) ∣ space w len l + space w len (c :: r) := hw ▸ pow_dvd_pow 2 (Nat.sub_le w _)
  exact (Nat.dvd_add_left h1).mp h2

theorem space_run {n : ℕ} {l : List α} (h : ∀ c ∈ l, len c = n) : space w len l = l.length * 2 ^ (w - n) := by
  induction l with
  | nil => rw [space_nil, List.length_nil, Nat.zero_mul]
  | cons c l ih =>
    rw [space_cons, h c List.mem_cons_self, ih fun d hd => h d (List.mem_cons_of_mem c hd), List.length_cons,
      Nat.succ_mul, Nat.add_comm]

theorem divided_ne_nil {d : ℕ} {l : List ℕ} (h : Kraft.Divided d l) : l ≠ [] := by
  induction h with
  | single d => exact List.cons_ne_nil d []
  | parts hl hr ihl ihr => exact fun e => ihl (List.append_eq_nil_iff.mp e).1

theorem space_divided {d : ℕ} {l : List ℕ} (h : Kraft.Divided d l) (hw : ∀ n ∈ l, n ≤ w) :
    space w (fun n => n) l = 2 ^ (w - d) := by
  induction h with
  | single d => exact space_single d
  | @parts d l r hl hr ihl ihr =>
    have hd : d + 1 ≤ w := by
      obtain ⟨n, hn⟩ := List.exists_mem_of_ne_nil l (divided_ne_nil hl)
      exact le_trans (hl.le n hn) (hw n (List.mem_append_left _ hn))
    rw [space_append, ihl fun n hn => hw n (List.mem_append_left _ hn),
      ihr fun n hn => hw n (List.mem_append_right _ hn), ← Nat.two_mul, ← pow_succ',
      show w - (d + 1) + 1 = w - d by omega]

end CanonicalCodes
