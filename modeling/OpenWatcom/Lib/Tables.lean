import OpenWatcom.Lib.Bytes

/-!
# Tables of strings and reordered tables

A string table is a concatenation of NUL-terminated strings; a table may be written with the
entries of one kind first.

* `offsets_at`   a string of the table reads back at its offset;
* `getElem?_filter`   the place of an entry among those of its kind.
-/

namespace Tables

/-! ## strings -/

/-- strings as they stand in a table -/
def strBytes (names : List (List UInt8)) : List UInt8 := names.flatMap fun n => n ++ [0]

/-- offsets of strings laid down from `st` on -/
def offsets : Nat → List (List UInt8) → List Nat
  | _, [] => []
  | st, n :: names => st :: offsets (st + (n.length + 1)) names

/-- the string at offset `p` -/
def nameAt (tab : List UInt8) (p : Nat) : List UInt8 := (tab.drop p).takeWhile (· ≠ 0)

theorem strBytes_append (a b : List (List UInt8)) : strBytes (a ++ b) = strBytes a ++ strBytes b :=
  List.flatMap_append

theorem strBytes_cons (n : List UInt8) (names : List (List UInt8)) :
    strBytes (n :: names) = n ++ 0 :: strBytes names := by
  rw [strBytes, List.flatMap_cons, List.append_assoc]
  rfl

@[simp] theorem offsets_length (st : Nat) (names : List (List UInt8)) :
    (offsets st names).length = names.length := by
  induction names generalizing st with
  | nil => rfl
  | cons n names ih => rw [offsets, List.length_cons, List.length_cons, ih]

/-- a string reads back from where it was laid down -/
theorem nameAt_mid (pre n post : List UInt8) (h : (0 : UInt8) ∉ n) :
    nameAt (pre ++ (n ++ 0 :: post)) pre.length = n := by
  rw [nameAt, List.drop_left]
  induction n with
  | nil => rfl
  | cons b n ih =>
    have hb : b ≠ 0 := fun e => h (e ▸ List.mem_cons_self)
    rw [List.cons_append, List.takeWhile_cons_of_pos (by simpa using hb),
      ih fun h' => h (List.mem_cons_of_mem b h')]

/-- a string of the table reads back at its offset -/
theorem offsets_at (pre post : List UInt8) (names : List (List UInt8)) (i : Nat) (n : List UInt8)
    (h : names[i]? = some n) (hn : (0 : UInt8) ∉ n) :
    ∃ p, (offsets pre.length names)[i]? = some p ∧
      p < (pre ++ (strBytes names ++ post)).length ∧
      nameAt (pre ++ (strBytes names ++ post)) p = n := by
  induction names generalizing pre i with
  | nil => exact absurd h (by simp)
  | cons m names ih =>
    rw [strBytes_cons, List.append_assoc, List.cons_append]
    cases i with
    | zero =>
      rw [List.getElem?_cons_zero, Option.some.injEq] at h
      subst h
      refine ⟨pre.length, rfl, ?_, nameAt_mid pre m _ hn⟩
      simp
    | succ i =>
      rw [List.getElem?_cons_succ] at h
      obtain ⟨p, h1, h2, h3⟩ := ih (pre ++ (m ++ [0])) i h
      have e : (pre ++ (m ++ [0])).length = pre.length + (m.length + 1) := by simp
      have e2 : pre ++ (m ++ [0]) ++ (strBytes names ++ post)
          = pre ++ (m ++ 0 :: (strBytes names ++ post)) := by simp
      rw [e] at h1
      rw [e2] at h2 h3
      exact ⟨p, h1, h2, h3⟩

/-! ## entries of one kind -/

section
variable {α : Type} (P : α → Bool)

/-- the place of an entry among those of its kind -/
theorem getElem?_filter (l : List α) (q : Nat) (x : α) (h : l[q]? = some x) (hx : P x = true) :
    (l.filter P)[(l.take q).countP P]? = some x := by
  induction l generalizing q with
  | nil => exact absurd h (by simp)
  | cons y l ih =>
    cases q with
    | zero =>
      rw [List.getElem?_cons_zero, Option.some.injEq] at h
      subst h
      rw [List.filter_cons_of_pos hx]
      rfl
    | succ q =>
      rw [List.getElem?_cons_succ] at h
      have := ih q h
      rw [List.take_succ_cons]
      by_cases hy : P y = true
      · rw [List.filter_cons_of_pos hy, List.countP_cons_of_pos hy, List.getElem?_cons_succ]
        exact this
      · rw [List.filter_cons_of_neg hy, List.countP_cons_of_neg hy]
        exact this

omit P in
/-- an entry of the middle one of three tables -/
theorem getElem?_mid (a b c : List α) (i : Nat) (x : α) (h : b[i]? = some x) :
    (a ++ b ++ c)[a.length + i]? = some x := by
  have hi : i < b.length := (List.getElem?_eq_some_iff.mp h).1
  rw [List.append_assoc, List.getElem?_append_right (Nat.le_add_right _ _),
    Nat.add_sub_cancel_left, List.getElem?_append_left hi, h]

end
end Tables
