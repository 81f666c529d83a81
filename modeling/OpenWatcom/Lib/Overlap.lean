import OpenWatcom.Lib.Bytes

/-!
# Rows laid over one another in a vector

* `insertRow`      a row goes where the vector already has it, or over the end of the vector;
* `insertSparse`   a row with holes: entries of the row may fill holes of the vector;
* `insertRow_spec`, `insertSparse_spec`   the row is at its place, and what was in the vector stays;
* `insertAll_entry`   after many rows every entry of each is still at its place.
-/

namespace Overlap

/-! ## searching -/

/-- the first number below `n` for which `p` holds -/
def firstUp (n : Nat) (p : Nat → Bool) : Option Nat := (List.range n).find? p

/-- the first number from `n` down to 1 -/
def firstDown (n : Nat) (p : Nat → Bool) : Option Nat :=
  ((List.range n).reverse.map (· + 1)).find? p

theorem firstUp_some {n : Nat} {p : Nat → Bool} {i : Nat} (h : firstUp n p = some i) :
    i < n ∧ p i = true :=
  ⟨List.mem_range.mp (List.mem_of_find?_eq_some h), List.find?_some h⟩

theorem firstDown_some {n : Nat} {p : Nat → Bool} {i : Nat} (h : firstDown n p = some i) :
    0 < i ∧ i ≤ n ∧ p i = true := by
  have hm := List.mem_of_find?_eq_some h
  obtain ⟨j, hj, rfl⟩ := List.mem_map.mp hm
  have hj2 := List.mem_range.mp (List.mem_reverse.mp hj)
  exact ⟨by omega, by omega, List.find?_some h⟩

/-! ## full rows -/

section
variable {α : Type} [DecidableEq α]

def insertRow (bv v : List α) : List α × Nat :=
  if bv = [] then (v, 0)
  else
    match firstUp (bv.length - v.length + 1) fun i => (bv.drop i).take v.length = v with
    | some i => (bv, i)
    | none =>
      match firstDown v.length fun i => bv.drop (bv.length - i) = v.take i with
      | some i => (bv ++ v.drop i, bv.length - i)
      | none => (bv ++ v, bv.length)

/-- the row `v` stands in `bv` at position `b` -/
def At (bv : List α) (b : Nat) (v : List α) : Prop := ∃ l r, bv = l ++ (v ++ r) ∧ l.length = b

omit [DecidableEq α] in
theorem At.append {bv : List α} {b : Nat} {v : List α} (h : At bv b v) (w : List α) : At (bv ++ w) b v := by
  obtain ⟨l, r, rfl, hl⟩ := h
  exact ⟨l, r ++ w, by simp only [List.append_assoc], hl⟩

theorem insertRow_spec (bv v : List α) (hv : bv = [] ∨ v.length ≤ bv.length) :
    bv <+: (insertRow bv v).1 ∧ At (insertRow bv v).1 (insertRow bv v).2 v := by
  rw [insertRow]
  by_cases hb : bv = []
  · rw [if_pos hb, hb]
    exact ⟨List.nil_prefix, [], [], by simp, rfl⟩
  rw [if_neg hb]
  have hlen : v.length ≤ bv.length := hv.resolve_left hb
  cases hu : firstUp (bv.length - v.length + 1) fun i => (bv.drop i).take v.length = v with
  | some i =>
    obtain ⟨hi, he⟩ := firstUp_some hu
    have he : (bv.drop i).take v.length = v := of_decide_eq_true he
    refine ⟨List.prefix_refl bv, bv.take i, (bv.drop i).drop v.length, ?_, ?_⟩
    · rw [show v ++ (bv.drop i).drop v.length = bv.drop i by
        nth_rewrite 1 [← he]
        exact List.take_append_drop _ _, List.take_append_drop]
    · rw [List.length_take]
      show min i bv.length = i
      omega
  | none =>
    cases hd : firstDown v.length fun i => bv.drop (bv.length - i) = v.take i with
    | some i =>
      obtain ⟨-, hi, he⟩ := firstDown_some hd
      have he : bv.drop (bv.length - i) = v.take i := of_decide_eq_true he
      refine ⟨List.prefix_append _ _, bv.take (bv.length - i), [], ?_, ?_⟩
      · show bv ++ v.drop i = bv.take (bv.length - i) ++ (v ++ [])
        have e : v = bv.drop (bv.length - i) ++ v.drop i := by rw [he, List.take_append_drop]
        nth_rewrite 2 [e]
        rw [List.append_nil, ← List.append_assoc, List.take_append_drop]
      · rw [List.length_take]
        show min (bv.length - i) bv.length = bv.length - i
        omega
    | none => exact ⟨List.prefix_append _ _, bv, [], by rw [List.append_nil], rfl⟩

/-! ## rows with holes -/

variable (hole : α)

/-- the entries of a row below `n` fit into the vector at `b`: there is a hole or the same entry -/
def fits (bv : List α) (b : Nat) (ca : List (α × Nat)) (n : Nat) : Bool :=
  (ca.takeWhile fun c => c.2 < n).all fun c => bv.getD (b + c.2) hole = hole ∨ bv.getD (b + c.2) hole = c.1

def store (bv : List α) (b : Nat) (ca : List (α × Nat)) : List α :=
  ca.foldl (fun bv c => bv.set (b + c.2) c.1) bv

/-- `ca` are the entries of a row of length `n` that are no holes, by their positions -/
def insertSparse (bv : List α) (ca : List (α × Nat)) (n : Nat) : List α × Nat :=
  match ca with
  | [] => (bv, 0)
  | first :: _ =>
    let inside := if n ≤ bv.length then
        firstUp (bv.length - n + 1) fun i =>
          (bv.getD (i + first.2) hole = hole ∨ bv.getD (i + first.2) hole = first.1) ∧ fits hole bv i ca n
      else none
    match inside with
    | some i => (store bv i ca, i)
    | none =>
      match firstDown (min n bv.length) fun i => fits hole bv (bv.length - i) ca i with
      | some i => (store (bv ++ List.replicate (n - i) hole) (bv.length - i) ca, bv.length - i)
      | none => (store (bv ++ List.replicate n hole) bv.length ca, bv.length)

/-- the positions of the entries of a row of length `n` ascend, and no entry is a hole -/
structure Entries (ca : List (α × Nat)) (n : Nat) : Prop where
  sorted : ca.Pairwise fun c d => c.2 < d.2
  below : ∀ c ∈ ca, c.2 < n
  full : ∀ c ∈ ca, c.1 ≠ hole

omit [DecidableEq α] in
theorem store_length (bv : List α) (b : Nat) (ca : List (α × Nat)) :
    (store bv b ca).length = bv.length := by
  induction ca generalizing bv with
  | nil => rfl
  | cons c ca ih => exact (ih _).trans List.length_set

omit [DecidableEq α] in
/-- a store outside of the positions of its entries -/
theorem store_other (bv : List α) (b : Nat) (ca : List (α × Nat)) {i : Nat}
    (h : ∀ c ∈ ca, i ≠ b + c.2) : (store bv b ca).getD i hole = bv.getD i hole := by
  induction ca generalizing bv with
  | nil => rfl
  | cons c ca ih =>
    have e : (store bv b (c :: ca)).getD i hole = (bv.set (b + c.2) c.1).getD i hole :=
      ih _ fun d hd => h d (List.mem_cons_of_mem c hd)
    rw [e, List.getD_eq_getElem?_getD, List.getElem?_set_ne (h c List.mem_cons_self).symm,
      List.getD_eq_getElem?_getD]

omit [DecidableEq α] in
theorem store_entry {bv : List α} {b : Nat} {ca : List (α × Nat)}
    (hs : ca.Pairwise fun c d => c.2 < d.2) (hb : ∀ c ∈ ca, b + c.2 < bv.length) {c : α × Nat}
    (hc : c ∈ ca) : (store bv b ca).getD (b + c.2) hole = c.1 := by
  induction ca generalizing bv with
  | nil => exact absurd hc List.not_mem_nil
  | cons d ca ih =>
    obtain ⟨hd, hs⟩ := List.pairwise_cons.mp hs
    show (store (bv.set (b + d.2) d.1) b ca).getD (b + c.2) hole = c.1
    rcases List.mem_cons.mp hc with rfl | hc
    · rw [store_other hole _ _ _ fun e he => by have := hd e he; omega, List.getD_eq_getElem?_getD,
        List.getElem?_set_self (hb c List.mem_cons_self), Option.getD_some]
    · exact ih hs (fun e he => by
        rw [List.length_set]
        exact hb e (List.mem_cons_of_mem d he)) hc

/-- what `fits` says about an entry -/
theorem fits_entry {bv : List α} {b : Nat} {ca : List (α × Nat)} {n : Nat}
    (hs : ca.Pairwise fun c d => c.2 < d.2) (h : fits hole bv b ca n = true) {c : α × Nat}
    (hc : c ∈ ca) (hn : c.2 < n) : bv.getD (b + c.2) hole = hole ∨ bv.getD (b + c.2) hole = c.1 := by
  have hm : c ∈ ca.takeWhile fun c => c.2 < n := by
    clear h
    induction ca with
    | nil => exact hc
    | cons d ca ih =>
      obtain ⟨hd, hs⟩ := List.pairwise_cons.mp hs
      rcases List.mem_cons.mp hc with rfl | hc
      · rw [List.takeWhile_cons, if_pos (decide_eq_true hn)]
        exact List.mem_cons_self
      · have hdn : d.2 < n := lt_trans (hd c hc) hn
        rw [List.takeWhile_cons, if_pos (decide_eq_true hdn)]
        exact List.mem_cons_of_mem d (ih hs hc)
  exact of_decide_eq_true (List.all_eq_true.mp h c hm)

/-- a row that fits can be stored: entries that are no holes stay -/
theorem store_keeps {bv : List α} {b : Nat} {ca : List (α × Nat)} {i : Nat}
    (hs : ca.Pairwise fun c d => c.2 < d.2) (hb : ∀ c ∈ ca, b + c.2 < bv.length)
    (h : ∀ c ∈ ca, bv.getD (b + c.2) hole = hole ∨ bv.getD (b + c.2) hole = c.1)
    (hi : bv.getD i hole ≠ hole) : (store bv b ca).getD i hole = bv.getD i hole := by
  by_cases hc : ∃ c ∈ ca, i = b + c.2
  · obtain ⟨c, hc, rfl⟩ := hc
    rw [store_entry hole hs hb hc]
    exact ((h c hc).resolve_left hi).symm
  · exact store_other hole _ _ _ fun c hc' e => hc ⟨c, hc', e⟩

omit [DecidableEq α] in
theorem getD_replicate (bv : List α) (k i : Nat) :
    (bv ++ List.replicate k hole).getD i hole = bv.getD i hole := by
  rw [List.getD_eq_getElem?_getD, List.getD_eq_getElem?_getD]
  rcases lt_or_ge i bv.length with h | h
  · rw [List.getElem?_append_left h]
  · rw [List.getElem?_append_right h, List.getElem?_eq_none h, List.getElem?_replicate]
    split_ifs <;> rfl

theorem insertSparse_spec (bv : List α) {ca : List (α × Nat)} {n : Nat} (h : Entries hole ca n) :
    (∀ i, bv.getD i hole ≠ hole → (insertSparse hole bv ca n).1.getD i hole = bv.getD i hole) ∧
      ∀ c ∈ ca, (insertSparse hole bv ca n).1.getD ((insertSparse hole bv ca n).2 + c.2) hole = c.1 := by
  -- the last two cases: the row reaches over the end
  have hover : ∀ k ≤ n, k ≤ bv.length → (∀ c ∈ ca, c.2 < k →
      bv.getD (bv.length - k + c.2) hole = hole ∨ bv.getD (bv.length - k + c.2) hole = c.1) →
      (∀ i, bv.getD i hole ≠ hole → (store (bv ++ List.replicate (n - k) hole) (bv.length - k) ca).getD i
        hole = bv.getD i hole) ∧
      ∀ c ∈ ca, (store (bv ++ List.replicate (n - k) hole) (bv.length - k) ca).getD
        (bv.length - k + c.2) hole = c.1 := by
    intro k hk hkl hf
    have hb : ∀ c ∈ ca, bv.length - k + c.2 < (bv ++ List.replicate (n - k) hole).length := by
      intro c hc
      have := h.below c hc
      rw [List.length_append, List.length_replicate]
      omega
    refine ⟨fun i hi => ?_, fun c hc => store_entry hole h.sorted hb hc⟩
    rw [store_keeps hole h.sorted hb (fun c hc => ?_) (by rw [getD_replicate]; exact hi), getD_replicate]
    rw [getD_replicate]
    by_cases hck : c.2 < k
    · exact hf c hc hck
    · refine Or.inl ?_
      rw [List.getD_eq_getElem?_getD, List.getElem?_eq_none (by omega)]
      rfl
  cases ca with
  | nil => exact ⟨fun i _ => rfl, fun c hc => absurd hc List.not_mem_nil⟩
  | cons first rest =>
    rw [insertSparse]
    split
    · rename_i i hi
      split_ifs at hi with hn
      obtain ⟨hlt, hp⟩ := firstUp_some hi
      have hf : fits hole bv i (first :: rest) n = true := (of_decide_eq_true hp).2
      have hb : ∀ c ∈ first :: rest, i + c.2 < bv.length := by
        intro c hc
        have := h.below c hc
        omega
      exact ⟨fun j hj => store_keeps hole h.sorted hb
        (fun c hc => fits_entry hole h.sorted hf hc (h.below c hc)) hj,
        fun c hc => store_entry hole h.sorted hb hc⟩
    · split
      · rename_i i hi
        obtain ⟨-, hle, hf⟩ := firstDown_some hi
        exact hover i (by omega) (by omega) fun c hc hck => fits_entry hole h.sorted hf hc hck
      · exact hover 0 (Nat.zero_le _) (Nat.zero_le _) fun c hc hck => absurd hck (Nat.not_lt_zero _)

/-! ## many rows -/

/-- rows into a vector one after the other: the vector and the places of the rows -/
def insertAll (bv : List α) : List (List (α × Nat) × Nat) → List α × List Nat
  | [] => (bv, [])
  | row :: rows =>
    let r := insertSparse hole bv row.1 row.2
    let s := insertAll r.1 rows
    (s.1, r.2 :: s.2)

theorem insertAll_places (bv : List α) (rows : List (List (α × Nat) × Nat)) :
    (insertAll hole bv rows).2.length = rows.length := by
  induction rows generalizing bv with
  | nil => rfl
  | cons row rows ih => exact congrArg (· + 1) (ih _)

theorem insertAll_append (bv : List α) (l r : List (List (α × Nat) × Nat)) :
    (insertAll hole bv (l ++ r)).1 = (insertAll hole (insertAll hole bv l).1 r).1 := by
  induction l generalizing bv with
  | nil => rfl
  | cons row l ih => exact ih _

theorem insertAll_append_places (bv : List α) (l r : List (List (α × Nat) × Nat)) :
    (insertAll hole bv (l ++ r)).2
      = (insertAll hole bv l).2 ++ (insertAll hole (insertAll hole bv l).1 r).2 := by
  induction l generalizing bv with
  | nil => rfl
  | cons row l ih => exact congrArg (_ :: ·) (ih _)

theorem insertAll_keeps {bv : List α} {rows : List (List (α × Nat) × Nat)}
    (h : ∀ row ∈ rows, Entries hole row.1 row.2) {i : Nat} (hi : bv.getD i hole ≠ hole) :
    (insertAll hole bv rows).1.getD i hole = bv.getD i hole := by
  induction rows generalizing bv with
  | nil => rfl
  | cons row rows ih =>
    have hk := (insertSparse_spec hole _ (h row List.mem_cons_self)).1 i hi
    show (insertAll hole (insertSparse hole bv row.1 row.2).1 rows).1.getD i hole = _
    rw [ih (fun x hx => h x (List.mem_cons_of_mem row hx)) (by rw [hk]; exact hi), hk]

/-- every entry of every row is found at the place of the row -/
theorem insertAll_entry {bv : List α} {rows : List (List (α × Nat) × Nat)}
    (h : ∀ row ∈ rows, Entries hole row.1 row.2) {k : Nat} {row : List (α × Nat) × Nat}
    (hk : rows[k]? = some row) {c : α × Nat} (hc : c ∈ row.1) :
    (insertAll hole bv rows).1.getD ((insertAll hole bv rows).2.getD k 0 + c.2) hole = c.1 := by
  induction rows generalizing bv k with
  | nil => exact absurd hk (by simp)
  | cons row' rows ih =>
    have hrows : ∀ row ∈ rows, Entries hole row.1 row.2 :=
      fun x hx => h x (List.mem_cons_of_mem row' hx)
    cases k with
    | zero =>
      obtain rfl : row' = row := Option.some.inj hk
      have he := h row' List.mem_cons_self
      have hs := (insertSparse_spec hole bv he).2 c hc
      have hne := he.full c hc
      show (insertAll hole (insertSparse hole bv row'.1 row'.2).1 rows).1.getD
        ((insertSparse hole bv row'.1 row'.2).2 + c.2) hole = c.1
      rw [insertAll_keeps hole hrows (by rw [hs]; exact hne), hs]
    | succ k => exact ih hrows hk

end

end Overlap
