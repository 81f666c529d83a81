import Mathlib

/-!
# Files with a position

* `seek`, `write`, `read`     a file that is open for writing and reading, as `fseek`, `fwrite` and `fread`
  leave it; bytes that were never written are 0
* `write_append`     two writes in a row are one
* `write_data_inside`, `write_data_outside`     what a write changes
* `read_get`     what is read
-/

namespace SeekFile

structure File where
  data : ℕ → UInt8
  length : ℕ
  pos : ℕ

def empty : File := ⟨fun _ => 0, 0, 0⟩

/-- there is no position before the first byte: then the file stays as it is -/
def seek (f : File) (offset : ℤ) : File := if offset < 0 then f else { f with pos := offset.toNat }

def write (f : File) (bytes : List UInt8) : File :=
  if bytes = [] then f
  else
    { data := fun p => if f.pos ≤ p then bytes.getD (p - f.pos) (f.data p) else f.data p
      length := max f.length (f.pos + bytes.length)
      pos := f.pos + bytes.length }

/-- up to `n` bytes, as far as the file goes -/
def read (f : File) (n : ℕ) : List UInt8 × File :=
  let bytes := (List.range (min n (f.length - f.pos))).map fun i => f.data (f.pos + i)
  (bytes, { f with pos := f.pos + bytes.length })

variable (f : File) (bytes : List UInt8)

theorem seek_natCast (p : ℕ) : seek f (p : ℤ) = { f with pos := p } := if_neg (by omega)

@[simp] theorem write_nil : write f [] = f := rfl

theorem write_pos : (write f bytes).pos = f.pos + bytes.length := by
  by_cases h : bytes = []
  · rw [h]
    rfl
  · rw [write, if_neg h]

theorem length_le_write : f.length ≤ (write f bytes).length := by
  by_cases h : bytes = []
  · rw [h]
    rfl
  · rw [write, if_neg h]
    exact le_max_left _ _

theorem end_le_write (h : bytes ≠ []) : f.pos + bytes.length ≤ (write f bytes).length := by
  rw [write, if_neg h]
  exact le_max_right _ _

theorem write_data_inside {i : ℕ} (h : i < bytes.length) :
    (write f bytes).data (f.pos + i) = bytes[i] := by
  have hne : bytes ≠ [] := fun e => by
    rw [e] at h
    exact absurd h (Nat.not_lt_zero i)
  rw [write, if_neg hne]
  show (if f.pos ≤ f.pos + i then _ else _) = _
  rw [if_pos (Nat.le_add_right _ _), Nat.add_sub_cancel_left, List.getD_eq_getElem _ _ h]

theorem write_data_outside {p : ℕ} (h : p < f.pos ∨ f.pos + bytes.length ≤ p) :
    (write f bytes).data p = f.data p := by
  by_cases hb : bytes = []
  · rw [hb]
    rfl
  · rw [write, if_neg hb]
    show (if f.pos ≤ p then _ else _) = _
    by_cases hp : f.pos ≤ p
    · rw [if_pos hp, List.getD_eq_default _ _ (by omega)]
    · rw [if_neg hp]

/-- two writes in a row are one -/
theorem write_append (more : List UInt8) : write (write f bytes) more = write f (bytes ++ more) := by
  by_cases hb : bytes = []
  · rw [hb]
    rfl
  by_cases hm : more = []
  · rw [hm, List.append_nil]
    rfl
  rw [write, if_neg hm, write_pos]
  rw [write, if_neg hb, write, if_neg (List.append_ne_nil_of_left_ne_nil hb more), File.mk.injEq]
  refine ⟨?_, ?_, ?_⟩
  · funext p
    show (if f.pos + bytes.length ≤ p then more.getD (p - (f.pos + bytes.length))
        (if f.pos ≤ p then bytes.getD (p - f.pos) (f.data p) else f.data p)
      else if f.pos ≤ p then bytes.getD (p - f.pos) (f.data p) else f.data p) =
      if f.pos ≤ p then (bytes ++ more).getD (p - f.pos) (f.data p) else f.data p
    by_cases h1 : f.pos + bytes.length ≤ p
    · rw [if_pos h1, if_pos (by omega), if_pos (by omega), List.getD_append_right _ _ _ _ (by omega),
        List.getD_eq_default bytes _ (by omega), Nat.sub_sub]
    · rw [if_neg h1]
      by_cases h2 : f.pos ≤ p
      · rw [if_pos h2, if_pos h2, List.getD_append _ _ _ _ (by omega)]
      · rw [if_neg h2, if_neg h2]
  · show max (max f.length (f.pos + bytes.length)) (f.pos + bytes.length + more.length) =
      max f.length (f.pos + (bytes ++ more).length)
    rw [List.length_append]
    omega
  · rw [List.length_append, Nat.add_assoc]

theorem read_get {n i : ℕ} (hi : i < n) (hlen : f.pos + i < f.length) :
    (read f n).1[i]? = some (f.data (f.pos + i)) := by
  show ((List.range (min n (f.length - f.pos))).map fun i => f.data (f.pos + i))[i]? = _
  rw [List.getElem?_map, List.getElem?_range (by omega)]
  rfl

end SeekFile
