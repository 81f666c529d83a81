import OpenWatcom.Lib.Bytes

/-!
# Sets of numbers as bits of a row of bytes

* `setBits`   marks numbers in a row, `none` when one of them is outside of the row;
* `bitAt`   reads a mark of a row that starts somewhere in a vector;
* `bitAt_setBits`   a mark is there exactly for the numbers marked.
-/

namespace BitRows

def mask (t : Nat) : BitVec 8 := 1#8 <<< (t % 8)

def setBit (row : List (BitVec 8)) (t : Nat) : Option (List (BitVec 8)) :=
  if t / 8 < row.length then some (row.modify (t / 8) fun b => b ||| mask t) else none

def setBits (row : List (BitVec 8)) (ts : List Nat) : Option (List (BitVec 8)) :=
  ts.foldlM setBit row

/-- the mark of `t` in the row that starts at byte `base`, `none` outside of the vector -/
def bitAt (v : List (BitVec 8)) (base t : Nat) : Option Bool :=
  v[t / 8 + base]?.map fun b => b &&& mask t ≠ 0

theorem mask_or_and (b : BitVec 8) (t u : Nat) :
    ((b ||| mask t) &&& mask u ≠ 0) = (b &&& mask u ≠ 0 ∨ t % 8 = u % 8) := by
  have hu := Nat.mod_lt u (show 0 < 8 by omega)
  have ht := Nat.mod_lt t (show 0 < 8 by omega)
  have key : ∀ c : BitVec 8, c &&& mask u ≠ 0 ↔ c.getLsbD (u % 8) = true := by
    intro c
    rw [mask, ← BitVec.twoPow_eq, BitVec.and_twoPow]
    have hne : BitVec.twoPow 8 (u % 8) ≠ 0 := fun e => by
      have := congrArg (fun x => x.getLsbD (u % 8)) e
      simp [BitVec.getLsbD_twoPow, hu] at this
    split_ifs with hc
    · exact ⟨fun _ => hc, fun _ => hne⟩
    · exact ⟨fun h => absurd rfl h, fun h => absurd h hc⟩
  rw [eq_iff_iff, key, key, BitVec.getLsbD_or, mask, ← BitVec.twoPow_eq, BitVec.getLsbD_twoPow,
    Bool.or_eq_true, Bool.and_eq_true, decide_eq_true_eq, decide_eq_true_eq]
  exact ⟨fun h => h.imp id fun h => h.2, fun h => h.imp id fun h => ⟨ht, h⟩⟩

theorem setBit_length {row row' : List (BitVec 8)} {t : Nat} (h : setBit row t = some row') :
    row'.length = row.length := by
  rw [setBit] at h
  split_ifs at h
  obtain rfl := Option.some.inj h
  exact List.length_modify _ _ _

theorem bitAt_setBit {row row' : List (BitVec 8)} {t u : Nat} (h : setBit row t = some row')
    {x : Bool} (hx : bitAt row 0 u = some x) : bitAt row' 0 u = some (x || decide (t = u)) := by
  rw [setBit] at h
  split_ifs at h with ht
  obtain rfl := Option.some.inj h
  obtain ⟨b, hb, rfl⟩ := Option.map_eq_some_iff.mp hx
  rw [bitAt, List.getElem?_modify, hb]
  by_cases e : t / 8 = u / 8 + 0
  · have : (t % 8 = u % 8) = (t = u) := by
      rw [eq_iff_iff]
      omega
    simp only [Option.map_eq_map, Option.map_some, if_pos e, mask_or_and, this, Bool.decide_or]
  · have : ¬t = u := by
      rintro rfl
      exact e rfl
    simp only [Option.map_eq_map, Option.map_some, if_neg e, this, decide_false, Bool.or_false]

theorem setBits_length {row row' : List (BitVec 8)} {ts : List Nat} (h : setBits row ts = some row') :
    row'.length = row.length := by
  induction ts generalizing row with
  | nil =>
    obtain rfl := Option.some.inj h
    rfl
  | cons t ts ih =>
    obtain ⟨r, hr, h⟩ := Option.bind_eq_some_iff.mp h
    exact (ih h).trans (setBit_length hr)

/-- the marks of a row are those it had and the numbers marked -/
theorem bitAt_setBits {row row' : List (BitVec 8)} {ts : List Nat} (h : setBits row ts = some row')
    {u : Nat} {x : Bool} (hx : bitAt row 0 u = some x) :
    bitAt row' 0 u = some (x || decide (u ∈ ts)) := by
  induction ts generalizing row x with
  | nil =>
    obtain rfl := Option.some.inj h
    simpa using hx
  | cons t ts ih =>
    obtain ⟨r, hr, h⟩ := Option.bind_eq_some_iff.mp h
    rw [ih h (bitAt_setBit hr hx), Bool.or_assoc]
    congr 2
    rw [← Bool.decide_or]
    exact decide_eq_decide.mpr ⟨fun h => by
      rcases h with rfl | h
      · exact List.mem_cons_self
      · exact List.mem_cons_of_mem t h, fun h => (List.mem_cons.mp h).imp Eq.symm id⟩

/-- numbers inside of the row can be marked -/
theorem setBits_some {row : List (BitVec 8)} {ts : List Nat} (h : ∀ t ∈ ts, t / 8 < row.length) :
    ∃ row', setBits row ts = some row' := by
  induction ts generalizing row with
  | nil => exact ⟨row, rfl⟩
  | cons t ts ih =>
    have ht := h t List.mem_cons_self
    have hs : setBit row t = some (row.modify (t / 8) fun b => b ||| mask t) := by
      rw [setBit, if_pos ht]
    have hmod : ∀ u ∈ ts, u / 8 < (row.modify (t / 8) fun b => b ||| mask t).length := fun u hu => by
      rw [List.length_modify]
      exact h u (List.mem_cons_of_mem t hu)
    obtain ⟨r, hr⟩ := ih hmod
    refine ⟨r, ?_⟩
    show (setBit row t).bind _ = some r
    rw [hs]
    exact hr

theorem bitAt_zeros {n u : Nat} (h : u / 8 < n) : bitAt (List.replicate n 0#8) 0 u = some false := by
  rw [bitAt, List.getElem?_replicate, if_pos (by omega), Option.map_some]
  congr 1
  exact decide_eq_false (by simp)

/-- a row that stands in a vector is read there -/
theorem bitAt_at {l v r : List (BitVec 8)} {u : Nat} (h : u / 8 < v.length) :
    bitAt (l ++ (v ++ r)) l.length u = bitAt v 0 u := by
  rw [bitAt, bitAt, Nat.add_comm (u / 8), List.getElem?_append_right (Nat.le_add_right _ _),
    Nat.add_sub_cancel_left, List.getElem?_append_left h]
  rfl

end BitRows
