import OpenWatcom.Lib.Windows
import Mathlib

/-!
# Sorting and searching: `_algsort.mh`

* `insertionSort`, `med3`, `quickSort`, `sort`, `binarySearch`     the templates over a sequence of elements
* `insertionSort_spec`     the window is sorted
* `med3_spec`     the sentinels that `med3` leaves
* `partition_spec`     the loops stop inside of the window and split it around the pivot
* `quickSort_spec`, `sort_spec`, `binarySearch_spec`

An iterator is its position in the sequence, a `difference_type` a number. To read or to write outside
of the sequence is a fault, and so is an iterator before its first position. A loop has a count of the
rounds that it may still make, so that one that goes on for ever ends as `unfinished` for every count.
-/

namespace AlgSort
open Windows

/-- what ends an algorithm early -/
inductive Fault where
  /-- an element that is not in the sequence, or an iterator before it -/
  | outside
  /-- `std::domain_error( "heap underflow" )` -/
  | underflow
  /-- the count of rounds has run out -/
  | unfinished
deriving DecidableEq, Repr

abbrev Run := Except Fault

variable {α : Type}

def read (seq : List α) (i : ℕ) : Run α :=
  match seq[i]? with
  | some x => .ok x
  | none => .error .outside

def write (seq : List α) (i : ℕ) (x : α) : Run (List α) :=
  if i < seq.length then .ok (seq.set i x) else .error .outside

/-- `--i` -/
def back : ℕ → Run ℕ
  | 0 => .error .outside
  | i + 1 => .ok i

/-- `swap( seq[i], seq[j] )` -/
def swap (seq : List α) (i j : ℕ) : Run (List α) := do
  let x ← read seq i
  let y ← read seq j
  .ok ((seq.set i y).set j x)

section
variable (comp : α → α → Bool)

/-- the inner loop of `insertion_sort`: the sequence and `p1` where it ends -/
def shiftUp (first : ℕ) (temp : α) : ℕ → List α → ℕ → ℕ → Run (List α × ℕ)
  | 0, _, _, _ => .error .unfinished
  | rounds + 1, seq, p1, p2 => do
    let x ← read seq p2
    if comp temp x then
      let seq ← write seq p1 x
      if p2 = first then
        let p1 ← back p1
        .ok (seq, p1)
      else
        let p1 ← back p1
        let p2 ← back p2
        shiftUp first temp rounds seq p1 p2
    else .ok (seq, p1)

/-- the outer loop of `insertion_sort` -/
def insertAll (first last : ℕ) : ℕ → List α → ℕ → Run (List α)
  | 0, _, _ => .error .unfinished
  | rounds + 1, seq, current =>
    if current = last then .ok seq
    else do
      let temp ← read seq current
      let p2 ← back current
      let (seq, p1) ← shiftUp comp first temp rounds seq current p2
      let seq ← write seq p1 temp
      insertAll first last rounds seq (current + 1)

/-- `insertion_sort( seq + first, seq + last, comp )` -/
def insertionSort (rounds : ℕ) (seq : List α) (first last : ℕ) : Run (List α) :=
  if first = last then .ok seq else insertAll comp first last rounds seq (first + 1)

/-- `if( comp( seq[j], seq[i] ) ) swap( seq[i], seq[j] );` -/
def swapIfBefore (seq : List α) (i j : ℕ) : Run (List α) := do
  let y ← read seq j
  let x ← read seq i
  if comp y x then swap seq i j else .ok seq

def med3 (seq : List α) (left right : ℕ) : Run (List α × ℕ) := do
  let middle := (left + right) / 2
  let seq ← swapIfBefore comp seq left middle
  let seq ← swapIfBefore comp seq left right
  let seq ← swapIfBefore comp seq middle right
  let last ← back right
  let seq ← swap seq middle last
  .ok (seq, last)

/-- `while( comp( seq[++i], pivot ) ) ;` -/
def scanUp (seq : List α) (pivot : α) : ℕ → ℕ → Run ℕ
  | 0, _ => .error .unfinished
  | rounds + 1, i => do
    let x ← read seq (i + 1)
    if comp x pivot then scanUp seq pivot rounds (i + 1) else .ok (i + 1)

/-- `while( comp( pivot, seq[--j] ) ) ;` -/
def scanDown (seq : List α) (pivot : α) : ℕ → ℕ → Run ℕ
  | 0, _ => .error .unfinished
  | rounds + 1, j => do
    let j ← back j
    let x ← read seq j
    if comp pivot x then scanDown seq pivot rounds j else .ok j

/-- the `for( ;; )` loop of `quick_sort`: the sequence and `i` where it ends -/
def partition (pivot : α) : ℕ → List α → ℕ → ℕ → Run (List α × ℕ)
  | 0, _, _, _ => .error .unfinished
  | rounds + 1, seq, i, j => do
    let i ← scanUp comp seq pivot rounds i
    let j ← scanDown comp seq pivot rounds j
    if j ≤ i then .ok (seq, i)
    else
      let seq ← swap seq i j
      partition pivot rounds seq i j

def quickSort : ℕ → List α → ℕ → ℕ → Run (List α)
  | 0, _, _, _ => .error .unfinished
  | rounds + 1, seq, left, right =>
    if right - left < 10 then insertionSort comp rounds seq left (right + 1)
    else do
      let (seq, p) ← med3 comp seq left right
      let pivot ← read seq p
      let j ← back right
      let (seq, i) ← partition comp pivot rounds seq left j
      let last ← back right
      let seq ← swap seq i last
      let upper ← back i
      let seq ← quickSort rounds seq left upper
      quickSort rounds seq (i + 1) right

/-- `sort( first, last, comp )` -/
def sort (rounds : ℕ) (seq : List α) : Run (List α) :=
  if seq.length = 0 then .ok seq else quickSort comp rounds seq 0 (seq.length - 1)

/-- the loop of `binary_search` -/
def searchLoop (seq : List α) (value : α) : ℕ → (p1 len mid p2 : ℕ) → Run Bool
  | 0, _, _, _, _ => .error .unfinished
  | rounds + 1, p1, len, mid, p2 =>
    if 0 < len then do
      let x ← read seq p2
      if comp value x then
        let len := mid
        let mid := len / 2
        searchLoop seq value rounds p1 len mid (p1 + mid)
      else if comp x value then
        let len := mid + (if len % 2 = 0 then 0 else 1) - 1
        let mid := len / 2
        let p1 := p2 + 1
        searchLoop seq value rounds p1 len mid (p1 + mid)
      else .ok true
    else .ok false

/-- `binary_search( first, last, value, comp )` -/
def binarySearch (rounds : ℕ) (seq : List α) (value : α) : Run Bool :=
  searchLoop comp seq value rounds 0 seq.length (seq.length / 2) (0 + seq.length / 2)

end

/-! ## reads, writes and exchanges -/

theorem read_some {seq : List α} {i : ℕ} {x : α} (h : seq[i]? = some x) : read seq i = .ok x := by
  unfold read
  rw [h]

theorem write_some {seq : List α} {i : ℕ} (x : α) (h : i < seq.length) :
    write seq i x = .ok (seq.set i x) := by
  unfold write
  rw [if_pos h]

theorem back_succ (i : ℕ) : back (i + 1) = .ok i := rfl

theorem back_pos {i : ℕ} (h : 0 < i) : back i = .ok (i - 1) := by
  obtain ⟨k, rfl⟩ := Nat.exists_eq_succ_of_ne_zero h.ne'
  rfl

theorem ok_bind {β γ : Type} (x : β) (f : β → Run γ) : ((.ok x : Run β) >>= f) = f x := rfl

theorem swap_some {seq : List α} {i j : ℕ} {x y : α} (hi : seq[i]? = some x) (hj : seq[j]? = some y) :
    swap seq i j = .ok ((seq.set i y).set j x) := by
  unfold swap
  rw [read_some hi, ok_bind, read_some hj, ok_bind]

theorem exists_at (seq : List α) (i : ℕ) (h : i < seq.length) : ∃ x, seq[i]? = some x :=
  ⟨seq[i], List.getElem?_eq_getElem h⟩

variable {comp : α → α → Bool}

/-! ## `insertion_sort` -/

/-- the state of the inner loop: with `temp` put into the gap at `p1` the window is sorted but for the
gap, and `temp` is before what stands behind the gap -/
structure Gap (comp : α → α → Bool) (first last : ℕ) (temp : α) (p1 : ℕ) (u : List α) : Prop where
  inside : first ≤ p1 ∧ p1 < last ∧ last ≤ u.length
  temp_at : u[p1]? = some temp
  rest : ∀ i j x y, first ≤ i → i < j → j < last → i ≠ p1 → j ≠ p1 → u[i]? = some x →
    u[j]? = some y → comp y x = false
  behind : ∀ j y, p1 < j → j < last → u[j]? = some y → comp temp y = true

theorem Gap.sorted (hc : StrictWeak comp) {first last p1 : ℕ} {temp : α} {u : List α}
    (h : Gap comp first last temp p1 u) (hbefore : ∀ i x, first ≤ i → i < p1 → u[i]? = some x →
      comp temp x = false) : SortedIn comp first last u := by
  intro i j x y hl hij hr hx hy
  by_cases hi : i = p1
  · rw [hi, h.temp_at] at hx
    rw [← Option.some_injective _ hx]
    exact not_before_of_before hc (h.behind j y (by omega) hr hy)
  · by_cases hj : j = p1
    · rw [hj, h.temp_at] at hy
      rw [← Option.some_injective _ hy]
      exact hbefore i x hl (by omega) hx
    · exact h.rest i j x y hl hij hr hi hj hx hy

/-- the element before the gap moves into it -/
theorem Gap.move {first last p : ℕ} {temp x : α} {u : List α} (h : Gap comp first last temp (p + 1) u)
    (hp : first ≤ p) (hx : u[p]? = some x) (hbefore : comp temp x = true) :
    Gap comp first last temp p ((u.set (p + 1) x).set p temp) := by
  have hget : ∀ k, ((u.set (p + 1) x).set p temp)[k]? =
      if k = p then some temp else if k = p + 1 then some x else u[k]? :=
    fun k => getElem?_swapped h.temp_at hx k
  obtain ⟨hin, hin', hlen⟩ := h.inside
  refine ⟨⟨hp, by omega, by simpa using hlen⟩, ?_, ?_, ?_⟩
  · rw [hget, if_pos rfl]
  · intro i j a b hl hij hr hi hj ha hb
    rw [hget, if_neg hi] at ha
    rw [hget, if_neg hj] at hb
    by_cases hi' : i = p + 1
    · rw [if_pos hi'] at ha
      rw [if_neg (by omega)] at hb
      rw [← Option.some_injective _ ha]
      exact h.rest p j x b hp (by omega) hr (by omega) (by omega) hx hb
    · rw [if_neg hi'] at ha
      by_cases hj' : j = p + 1
      · rw [if_pos hj'] at hb
        rw [← Option.some_injective _ hb]
        exact h.rest i p a x hl (by omega) (by omega) hi' (by omega) ha hx
      · rw [if_neg hj'] at hb
        exact h.rest i j a b hl hij hr hi' hj' ha hb
  · intro j y hj hr hy
    rw [hget, if_neg (by omega)] at hy
    by_cases hj' : j = p + 1
    · rw [if_pos hj'] at hy
      rw [← Option.some_injective _ hy]
      exact hbefore
    · rw [if_neg hj'] at hy
      exact h.behind j y (by omega) hr hy

/-- the inner loop finds the place of `temp` -/
theorem shiftUp_spec (hc : StrictWeak comp) {first last : ℕ} {temp : α} :
    ∀ (rounds p : ℕ) (seq : List α), p - first < rounds → first ≤ p → p + 1 < seq.length →
      Gap comp first last temp (p + 1) (seq.set (p + 1) temp) →
      ∃ s q, shiftUp comp first temp rounds seq (p + 1) p = .ok (s, q) ∧ q < s.length ∧
        Shuffled first last (seq.set (p + 1) temp) (s.set q temp) ∧
        SortedIn comp first last (s.set q temp) := by
  intro rounds
  induction rounds with
  | zero => intro p seq hr; omega
  | succ rounds ih =>
    intro p seq hr hp hlen hgap
    obtain ⟨x, hx⟩ := exists_at seq p (by omega)
    have hux : (seq.set (p + 1) temp)[p]? = some x := by
      rw [List.getElem?_set_ne (by omega), hx]
    unfold shiftUp
    rw [read_some hx, ok_bind]
    by_cases hbefore : comp temp x = true
    · rw [if_pos hbefore, write_some x hlen, ok_bind]
      have hgap' := hgap.move hp hux hbefore
      rw [List.set_set] at hgap'
      have hshuf : Shuffled first last (seq.set (p + 1) temp) ((seq.set (p + 1) x).set p temp) := by
        have hin := hgap.inside
        have := shuffled_swap (l := first) (r := last) hgap.temp_at hux (by omega) (by omega) hp
          (by omega)
        rwa [List.set_set] at this
      by_cases hfirst : p = first
      · rw [if_pos hfirst, back_succ, ok_bind]
        refine ⟨_, _, rfl, by simp only [List.length_set]; omega, hshuf, hgap'.sorted hc ?_⟩
        intro i y hl hi
        omega
      · rw [if_neg hfirst, back_succ, ok_bind]
        obtain ⟨q, rfl⟩ : ∃ q, p = q + 1 := ⟨p - 1, by omega⟩
        rw [back_succ, ok_bind]
        obtain ⟨s, r, hrun, hr', hs, hsort⟩ := ih q (seq.set (q + 1 + 1) x) (by omega) (by omega)
          (by simp only [List.length_set]; omega) hgap'
        exact ⟨s, r, hrun, hr', hshuf.trans hs, hsort⟩
    · have hbefore' : comp temp x = false := by simpa using hbefore
      rw [if_neg hbefore]
      refine ⟨seq, p + 1, rfl, hlen, Shuffled.refl _ _ _, hgap.sorted hc ?_⟩
      intro i y hl hi hy
      by_cases hip : i = p
      · rw [hip, hux] at hy
        rw [← Option.some_injective _ hy]
        exact hbefore'
      · exact not_before_trans hc (hgap.rest i p y x hl (by omega) (by have := hgap.inside; omega)
          (by omega) (by omega) hy hux) hbefore'

theorem insertAll_spec (hc : StrictWeak comp) {first last : ℕ} :
    ∀ (rounds current : ℕ) (seq : List α), 2 * last ≤ rounds + current + first →
      first < current → current ≤ last → last ≤ seq.length → SortedIn comp first current seq →
      ∃ t, insertAll comp first last rounds seq current = .ok t ∧ Shuffled first last seq t ∧
        SortedIn comp first last t := by
  intro rounds
  induction rounds with
  | zero => intro current seq hr h1 h2; omega
  | succ rounds ih =>
    intro current seq hr hfirst hcl hlen hsort
    unfold insertAll
    by_cases hend : current = last
    · rw [if_pos hend]
      exact ⟨seq, rfl, Shuffled.refl _ _ _, hend ▸ hsort⟩
    · rw [if_neg hend]
      obtain ⟨p, rfl⟩ : ∃ p, current = p + 1 := ⟨current - 1, by omega⟩
      obtain ⟨temp, htemp⟩ := exists_at seq (p + 1) (by omega)
      rw [read_some htemp, ok_bind, back_succ, ok_bind]
      have hsame : seq.set (p + 1) temp = seq := by
        obtain ⟨hl, ht⟩ := List.getElem?_eq_some_iff.mp htemp
        rw [← ht]
        exact List.set_getElem_self hl
      have hgap : Gap comp first (p + 1 + 1) temp (p + 1) (seq.set (p + 1) temp) := by
        rw [hsame]
        refine ⟨⟨by omega, by omega, by omega⟩, htemp, ?_, fun j y hj hj' => by omega⟩
        intro i j x y hl hij hj hi hj' hx hy
        exact hsort i j x y hl hij (by omega) hx hy
      obtain ⟨s, q, hrun, hq, hshuf, hsort'⟩ := shiftUp_spec hc rounds p seq (by omega) (by omega)
        (by omega) hgap
      rw [hsame] at hshuf
      rw [hrun, ok_bind]
      show ∃ t, (write s q temp >>= fun seq => insertAll comp first last rounds seq (p + 1 + 1)) = _ ∧ _
      rw [write_some temp hq, ok_bind]
      obtain ⟨t, ht, hst, htsort⟩ := ih (p + 1 + 1) (s.set q temp) (by omega) (by omega) (by omega)
        (by rw [hshuf.length_eq]; exact hlen) hsort'
      exact ⟨t, ht, (hshuf.widen (le_refl _) (by omega)).trans hst, htsort⟩

/-- `insertion_sort` sorts its window -/
theorem insertionSort_spec (hc : StrictWeak comp) {rounds first last : ℕ} {seq : List α}
    (hr : 2 * last < rounds + 2 * first + 2) (hfl : first ≤ last) (hlen : last ≤ seq.length) :
    ∃ t, insertionSort comp rounds seq first last = .ok t ∧ Shuffled first last seq t ∧
      SortedIn comp first last t := by
  unfold insertionSort
  by_cases h : first = last
  · rw [if_pos h]
    exact ⟨seq, rfl, Shuffled.refl _ _ _, sortedIn_of_le _ (by omega)⟩
  · rw [if_neg h]
    exact insertAll_spec hc rounds (first + 1) seq (by omega) (by omega) (by omega) hlen
      (sortedIn_of_le _ (le_refl _))

/-! ## `med3` -/

theorem swapIfBefore_spec (hc : StrictWeak comp) {seq : List α} {i j l r : ℕ} {x y : α}
    (hi : seq[i]? = some x) (hj : seq[j]? = some y) (hij : i ≠ j) (hli : l ≤ i) (hir : i < r)
    (hlj : l ≤ j) (hjr : j < r) :
    ∃ t a b, swapIfBefore comp seq i j = .ok t ∧ Shuffled l r seq t ∧ t[i]? = some a ∧
      t[j]? = some b ∧ comp b a = false ∧ (∀ k, k ≠ i → k ≠ j → t[k]? = seq[k]?) ∧
      ((a = x ∧ b = y) ∨ (a = y ∧ b = x ∧ comp y x = true)) := by
  unfold swapIfBefore
  rw [read_some hj, ok_bind, read_some hi, ok_bind]
  by_cases hb : comp y x = true
  · rw [if_pos hb, swap_some hi hj]
    refine ⟨_, y, x, rfl, shuffled_swap hi hj hli hir hlj hjr, ?_, ?_, not_before_of_before hc hb, ?_,
      Or.inr ⟨rfl, rfl, hb⟩⟩
    · rw [getElem?_swapped hi hj, if_neg hij, if_pos rfl]
    · rw [getElem?_swapped hi hj, if_pos rfl]
    · intro k hki hkj
      rw [getElem?_swapped hi hj, if_neg hkj, if_neg hki]
  · rw [if_neg hb]
    exact ⟨seq, x, y, rfl, Shuffled.refl _ _ _, hi, hj, by simpa using hb, fun k _ _ => rfl,
      Or.inl ⟨rfl, rfl⟩⟩

/-- the first element is not behind the pivot, the last one not before it, and the pivot itself
stands before the last one: these stop the two scans -/
theorem med3_spec (hc : StrictWeak comp) {seq : List α} {left right : ℕ} (hlr : left + 2 < right)
    (hlen : right < seq.length) :
    ∃ t pivot x y, med3 comp seq left right = .ok (t, right - 1) ∧ Shuffled left (right + 1) seq t ∧
      t[right - 1]? = some pivot ∧ t[left]? = some x ∧ comp pivot x = false ∧
      t[right]? = some y ∧ comp y pivot = false := by
  unfold med3
  generalize hmid : (left + right) / 2 = middle
  have hm : left < middle ∧ middle + 1 < right := by omega
  obtain ⟨x0, hx0⟩ := exists_at seq left (by omega)
  obtain ⟨y0, hy0⟩ := exists_at seq middle (by omega)
  obtain ⟨z0, hz0⟩ := exists_at seq right hlen
  -- the first exchange puts the first two in order
  obtain ⟨s1, x1, y1, hrun1, hs1, hx1, hy1, hyx1, hk1, -⟩ := swapIfBefore_spec hc (l := left)
    (r := right + 1) hx0 hy0 (by omega) (by omega) (by omega) (by omega) (by omega)
  have hz1 : s1[right]? = some z0 := by rw [hk1 right (by omega) (by omega), hz0]
  -- after the second one the first of them is the least of the three
  obtain ⟨s2, x2, z2, hrun2, hs2, hx2, hz2, hzx2, hk2, hcase2⟩ := swapIfBefore_spec hc (l := left)
    (r := right + 1) hx1 hz1 (by omega) (by omega) (by omega) (by omega) (by omega)
  have hy2 : s2[middle]? = some y1 := by rw [hk2 middle (by omega) (by omega), hy1]
  have hyx2 : comp y1 x2 = false := by
    rcases hcase2 with ⟨rfl, -⟩ | ⟨rfl, -, hlt⟩
    · exact hyx1
    · exact not_before_trans hc (not_before_of_before hc hlt) hyx1
  -- the third one orders the other two
  obtain ⟨s3, y3, z3, hrun3, hs3, hy3, hz3, hzy3, hk3, hcase3⟩ := swapIfBefore_spec hc (l := left)
    (r := right + 1) hy2 hz2 (by omega) (by omega) (by omega) (by omega) (by omega)
  have hx3 : s3[left]? = some x2 := by rw [hk3 left (by omega) (by omega), hx2]
  have hyx3 : comp y3 x2 = false := by
    rcases hcase3 with ⟨rfl, -⟩ | ⟨rfl, -, -⟩
    · exact hyx2
    · exact hzx2
  obtain ⟨w, hw⟩ := exists_at s3 (right - 1)
    (by rw [hs3.length_eq, hs2.length_eq, hs1.length_eq]; omega)
  refine ⟨(s3.set middle w).set (right - 1) y3, y3, x2, z3, ?_, ?_, ?_, ?_, hyx3, ?_, hzy3⟩
  · dsimp only
    rw [hrun1, ok_bind, hrun2, ok_bind, hrun3, ok_bind, back_pos (by omega), ok_bind,
      swap_some hy3 hw, ok_bind]
  · exact ((hs1.trans hs2).trans hs3).trans
      (shuffled_swap hy3 hw (by omega) (by omega) (by omega) (by omega))
  · rw [getElem?_swapped hy3 hw, if_pos rfl]
  · rw [getElem?_swapped hy3 hw, if_neg (by omega), if_neg (by omega), hx3]
  · rw [getElem?_swapped hy3 hw, if_neg (by omega), if_neg (by omega), hz3]

/-! ## the partition -/

/-- the scan upwards stops at an element that is not before the pivot, if there is one -/
theorem scanUp_spec {seq : List α} {pivot : α} {e : ℕ} {z : α} (hz : seq[e]? = some z)
    (hstop : comp z pivot = false) :
    ∀ (rounds i : ℕ), i < e → e ≤ i + rounds →
      ∃ k x, scanUp comp seq pivot rounds i = .ok k ∧ i < k ∧ k ≤ e ∧ seq[k]? = some x ∧
        comp x pivot = false ∧ ∀ m y, i < m → m < k → seq[m]? = some y → comp y pivot = true := by
  have hlen : e < seq.length := (List.getElem?_eq_some_iff.mp hz).1
  intro rounds
  induction rounds with
  | zero => intro i h1 h2; omega
  | succ rounds ih =>
    intro i hie her
    obtain ⟨x, hx⟩ := exists_at seq (i + 1) (by omega)
    unfold scanUp
    rw [read_some hx, ok_bind]
    by_cases hbefore : comp x pivot = true
    · rw [if_pos hbefore]
      have hne : i + 1 ≠ e := by
        intro he
        rw [he, hz] at hx
        rw [← Option.some_injective _ hx, hstop] at hbefore
        exact absurd hbefore (by simp)
      obtain ⟨k, w, hrun, hik, hke, hw, hwp, hall⟩ := ih (i + 1) (by omega) (by omega)
      refine ⟨k, w, hrun, by omega, hke, hw, hwp, fun m y him hmk hy => ?_⟩
      by_cases hm : m = i + 1
      · rw [hm, hx] at hy
        rw [← Option.some_injective _ hy]
        exact hbefore
      · exact hall m y (by omega) hmk hy
    · rw [if_neg hbefore]
      exact ⟨i + 1, x, rfl, by omega, by omega, hx, by simpa using hbefore,
        fun m y h1 h2 => by omega⟩

/-- the scan downwards stops at an element that the pivot is not before, if there is one -/
theorem scanDown_spec {seq : List α} {pivot : α} {e : ℕ} {z : α} (hz : seq[e]? = some z)
    (hstop : comp pivot z = false) :
    ∀ (rounds j : ℕ), e < j → j ≤ seq.length → j ≤ e + rounds →
      ∃ k x, scanDown comp seq pivot rounds j = .ok k ∧ e ≤ k ∧ k < j ∧ seq[k]? = some x ∧
        comp pivot x = false ∧ ∀ m y, k < m → m < j → seq[m]? = some y → comp pivot y = true := by
  intro rounds
  induction rounds with
  | zero => intro j h1 h2; omega
  | succ rounds ih =>
    intro j hej hjl hjr
    obtain ⟨p, rfl⟩ : ∃ p, j = p + 1 := ⟨j - 1, by omega⟩
    obtain ⟨x, hx⟩ := exists_at seq p (by omega)
    unfold scanDown
    rw [back_succ, ok_bind, read_some hx, ok_bind]
    by_cases hbefore : comp pivot x = true
    · rw [if_pos hbefore]
      have hne : p ≠ e := by
        intro he
        rw [he, hz] at hx
        rw [← Option.some_injective _ hx, hstop] at hbefore
        exact absurd hbefore (by simp)
      obtain ⟨k, w, hrun, hek, hkj, hw, hwp, hall⟩ := ih p (by omega) (by omega) (by omega)
      refine ⟨k, w, hrun, hek, by omega, hw, hwp, fun m y hkm hmj hy => ?_⟩
      by_cases hm : m = p
      · rw [hm, hx] at hy
        rw [← Option.some_injective _ hy]
        exact hbefore
      · exact hall m y hkm (by omega) hy
    · rw [if_neg hbefore]
      exact ⟨p, x, rfl, by omega, by omega, hx, by simpa using hbefore, fun m y h1 h2 => by omega⟩

/-- what holds at the top of the `for( ;; )` loop: nothing up to `i` is behind the pivot, nothing
from `j` on is before it -/
structure Split (comp : α → α → Bool) (left last : ℕ) (pivot : α) (i j : ℕ) (s : List α) : Prop where
  order : left ≤ i ∧ i < j ∧ j ≤ last
  inside : last + 1 < s.length
  pivot_at : s[last]? = some pivot
  low : UpTo comp left (i + 1) s pivot
  high : From comp j (last + 2) s pivot

theorem Split.swap {left last i j k m : ℕ} {pivot x y : α} {s : List α}
    (h : Split comp left last pivot i j s) (hik : i < k) (hkm : k < m) (hmj : m < j)
    (hx : s[k]? = some x) (hy : s[m]? = some y) (hxp : comp x pivot = false)
    (hyp : comp pivot y = false)
    (hup : ∀ n z, i < n → n < k → s[n]? = some z → comp pivot z = false)
    (hdown : ∀ n z, m < n → n < j → s[n]? = some z → comp z pivot = false) :
    Split comp left last pivot k m ((s.set k y).set m x) := by
  have hget := getElem?_swapped hx hy
  obtain ⟨hl, hij, hjl⟩ := h.order
  refine ⟨⟨by omega, hkm, by omega⟩, by simpa using h.inside, ?_, ?_, ?_⟩
  · rw [hget, if_neg (by omega), if_neg (by omega), h.pivot_at]
  · intro n z hn hnk hz
    rw [hget, if_neg (by omega)] at hz
    by_cases hnk' : n = k
    · rw [if_pos hnk'] at hz
      rw [← Option.some_injective _ hz]
      exact hyp
    · rw [if_neg hnk'] at hz
      by_cases hni : n ≤ i
      · exact h.low n z hn (by omega) hz
      · exact hup n z (by omega) (by omega) hz
  · intro n z hn hnr hz
    rw [hget] at hz
    by_cases hnm : n = m
    · rw [if_pos hnm] at hz
      rw [← Option.some_injective _ hz]
      exact hxp
    · rw [if_neg hnm, if_neg (by omega)] at hz
      by_cases hnj : j ≤ n
      · exact h.high n z hnj hnr hz
      · exact hdown n z (by omega) (by omega) hz

/-- the loops stop inside of the window, and `i` splits it around the pivot -/
theorem partition_spec (hc : StrictWeak comp) {left last : ℕ} {pivot : α} :
    ∀ (rounds i j : ℕ) (s : List α), last - left + (j - i) < rounds →
      Split comp left last pivot i j s →
      ∃ t k, partition comp pivot rounds s i j = .ok (t, k) ∧ left < k ∧ k ≤ last ∧
        Shuffled left (last + 2) s t ∧ t[last]? = some pivot ∧ UpTo comp left k t pivot ∧
        From comp k (last + 2) t pivot := by
  intro rounds
  induction rounds with
  | zero => intro i j s hr; omega
  | succ rounds ih =>
    intro i j s hr h
    obtain ⟨hl, hij, hjl⟩ := h.order
    have hlen := h.inside
    obtain ⟨zi, hzi⟩ := exists_at s i (by omega)
    obtain ⟨zj, hzj⟩ := exists_at s j (by omega)
    -- the elements at `i` and at `j` are the sentinels of the two scans
    obtain ⟨k, x, hrunk, hik, hkj, hx, hxp, hup⟩ := scanUp_spec hzj (h.high j zj (le_refl _)
      (by omega) hzj) rounds i hij (by omega)
    obtain ⟨m, y, hrunm, him, hmj, hy, hyp, hdown⟩ := scanDown_spec hzi (h.low i zi hl
      (Nat.lt_succ_self i) hzi) rounds j hij (by omega) (by omega)
    unfold partition
    rw [hrunk, ok_bind, hrunm, ok_bind]
    by_cases hmk : m ≤ k
    · rw [if_pos hmk]
      refine ⟨s, k, rfl, by omega, by omega, Shuffled.refl _ _ _, h.pivot_at, ?_, ?_⟩
      · intro n z hn hnk hz
        by_cases hni : n ≤ i
        · exact h.low n z hn (by omega) hz
        · exact not_before_of_before hc (hup n z (by omega) hnk hz)
      · intro n z hkn hnr hz
        by_cases hnj : j ≤ n
        · exact h.high n z hnj hnr hz
        · by_cases hnk : n = k
          · rw [hnk, hx] at hz
            rw [← Option.some_injective _ hz]
            exact hxp
          · exact not_before_of_before hc (hdown n z (by omega) (by omega) hz)
    · rw [if_neg hmk, swap_some hx hy, ok_bind]
      have hsplit := h.swap hik (by omega) hmj hx hy hxp hyp
        (fun n z h1 h2 hz => not_before_of_before hc (hup n z h1 h2 hz))
        (fun n z h1 h2 hz => not_before_of_before hc (hdown n z h1 h2 hz))
      have hshuf : Shuffled left (last + 2) s ((s.set k y).set m x) :=
        shuffled_swap hx hy (by omega) (by omega) (by omega) (by omega)
      obtain ⟨t, e, hrun, he1, he2, ht, hrest⟩ := ih k m _ (by omega) hsplit
      exact ⟨t, e, hrun, he1, he2, hshuf.trans ht, hrest⟩

/-! ## `quick_sort` -/

/-- the pivot goes between the two parts -/
theorem pivot_placed {left last k : ℕ} {pivot z : α} {s : List α} (hkl : k ≤ last)
    (hz : s[k]? = some z) (hp : s[last]? = some pivot) (hlow : UpTo comp left k s pivot)
    (hhigh : From comp k (last + 2) s pivot) :
    ((s.set k pivot).set last z)[k]? = some pivot ∧
      UpTo comp left k ((s.set k pivot).set last z) pivot ∧
      From comp (k + 1) (last + 2) ((s.set k pivot).set last z) pivot := by
  have hget := getElem?_swapped hz hp
  refine ⟨?_, hlow.congr ?_, ?_⟩
  · rw [hget, if_pos rfl]
    by_cases hk : k = last
    · rw [if_pos hk, ← hz, hk, hp]
    · rw [if_neg hk]
  · intro n h1 h2
    rw [hget, if_neg (by omega), if_neg (by omega)]
  · intro n w hkn hnr hw
    rw [hget] at hw
    by_cases hnl : n = last
    · rw [if_pos hnl] at hw
      rw [← Option.some_injective _ hw]
      exact hhigh k z (le_refl _) (by omega) hz
    · rw [if_neg hnl, if_neg (by omega)] at hw
      exact hhigh n w (by omega) hnr hw

/-- `quick_sort` ends, and the window is sorted -/
theorem quickSort_spec (hc : StrictWeak comp) :
    ∀ (rounds left right : ℕ) (seq : List α), 2 * right + 4 < rounds + 2 * left + 2 →
      left ≤ right → right < seq.length →
      ∃ t, quickSort comp rounds seq left right = .ok t ∧ Shuffled left (right + 1) seq t ∧
        SortedIn comp left (right + 1) t := by
  intro rounds
  induction rounds with
  | zero => intro left right seq h1 h2; omega
  | succ rounds ih =>
    intro left right seq hr hlr hlen
    unfold quickSort
    by_cases hsmall : right - left < 10
    · rw [if_pos hsmall]
      exact insertionSort_spec hc (by omega) (by omega) (by omega)
    · rw [if_neg hsmall]
      obtain ⟨last, rfl⟩ : ∃ last, right = last + 1 := ⟨right - 1, by omega⟩
      obtain ⟨s1, pivot, x, y, hmed, hs1, hp1, hx1, hxp, hy1, hyp⟩ := med3_spec hc
        (show left + 2 < last + 1 by omega) hlen
      rw [Nat.add_sub_cancel] at hmed hp1
      have hsplit : Split comp left last pivot left last s1 := by
        refine ⟨⟨le_refl _, by omega, le_refl _⟩, by rw [hs1.length_eq]; exact hlen, hp1, ?_, ?_⟩
        · intro n z hn hn' hz
          rw [show n = left by omega, hx1] at hz
          rw [← Option.some_injective _ hz]
          exact hxp
        · intro n z hn hn' hz
          by_cases hnl : n = last
          · rw [hnl, hp1] at hz
            rw [← Option.some_injective _ hz]
            exact not_before_self hc pivot
          · rw [show n = last + 1 by omega, hy1] at hz
            rw [← Option.some_injective _ hz]
            exact hyp
      obtain ⟨s2, k, hpart, hlk, hkl, hs2, hp2, hlow2, hhigh2⟩ := partition_spec hc rounds left last
        s1 (by omega) hsplit
      obtain ⟨z, hz⟩ := exists_at s2 k
        (by rw [hs2.length_eq, hs1.length_eq]; omega)
      obtain ⟨hp3, hlow3, hhigh3⟩ := pivot_placed hkl hz hp2 hlow2 hhigh2
      have hs3 : Shuffled left (last + 2) s2 ((s2.set k pivot).set last z) :=
        shuffled_swap hz hp2 (by omega) (by omega) (by omega) (by omega)
      have hswap := swap_some hz hp2
      generalize (s2.set k pivot).set last z = s3 at hp3 hlow3 hhigh3 hs3 hswap
      have hlen3 : s3.length = seq.length := by
        rw [hs3.length_eq, hs2.length_eq, hs1.length_eq]
      obtain ⟨m, rfl⟩ : ∃ m, k = m + 1 := ⟨k - 1, by omega⟩
      obtain ⟨s4, hrun4, hs4, hsort4⟩ := ih left m s3 (by omega) (by omega) (by omega)
      obtain ⟨s5, hrun5, hs5, hsort5⟩ := ih (m + 1 + 1) (last + 1) s4 (by omega) (by omega)
        (by rw [hs4.length_eq]; omega)
      refine ⟨s5, ?_, ?_, ?_⟩
      · rw [hmed, ok_bind]
        dsimp only
        rw [read_some hp1, ok_bind, back_succ, ok_bind, hpart, ok_bind]
        dsimp only
        rw [ok_bind, hswap, ok_bind, back_succ, ok_bind, hrun4, ok_bind, hrun5]
      · exact (((hs1.trans hs2).trans hs3).trans (hs4.widen (le_refl _) (by omega))).trans
          (hs5.widen (by omega) (le_refl _))
      · have hp5 : s5[m + 1]? = some pivot := by
          rw [hs5.outside _ (by omega), hs4.outside _ (by omega), hp3]
        refine sortedIn_join hc hp5 (hsort4.congr ?_) hsort5 ?_ ?_
        · intro n h1 h2
          exact hs5.outside n (by omega)
        · exact (hlow3.shuffled hs4).congr fun n h1 h2 => hs5.outside n (by omega)
        · exact (hhigh3.congr fun n h1 h2 => hs4.outside n (by omega)).shuffled hs5

/-- `sort` ends with the elements in order -/
theorem sort_spec (hc : StrictWeak comp) {rounds : ℕ} {seq : List α}
    (hr : 2 * seq.length + 2 ≤ rounds) :
    ∃ t, sort comp rounds seq = .ok t ∧ t.Perm seq ∧ SortedIn comp 0 t.length t := by
  unfold sort
  by_cases hempty : seq.length = 0
  · rw [if_pos hempty]
    exact ⟨seq, rfl, List.Perm.refl _, sortedIn_of_le _ (by omega)⟩
  · rw [if_neg hempty]
    obtain ⟨t, hrun, hshuf, hsort⟩ := quickSort_spec hc rounds 0 (seq.length - 1) seq (by omega)
      (by omega) (by omega)
    rw [Nat.sub_add_cancel (by omega), ← hshuf.length_eq] at hsort
    exact ⟨t, hrun, hshuf.perm, hsort⟩

/-! ## `binary_search` -/

/-- neither of the two is before the other -/
def Equivalent (comp : α → α → Bool) (x y : α) : Prop := comp x y = false ∧ comp y x = false

theorem searchLoop_spec (hc : StrictWeak comp) {seq : List α} {value : α}
    (hsort : SortedIn comp 0 seq.length seq) :
    ∀ (rounds p1 len : ℕ), len < rounds → p1 + len ≤ seq.length →
      (∀ k x, k < p1 → seq[k]? = some x → comp x value = true) →
      (∀ k x, p1 + len ≤ k → seq[k]? = some x → comp value x = true) →
      ∃ b, searchLoop comp seq value rounds p1 len (len / 2) (p1 + len / 2) = .ok b ∧
        (b = true ↔ ∃ x ∈ seq, Equivalent comp x value) := by
  intro rounds
  induction rounds with
  | zero => intro p1 len h; omega
  | succ rounds ih =>
    intro p1 len hr hlen hlow hhigh
    unfold searchLoop
    by_cases hpos : 0 < len
    · rw [if_pos hpos]
      obtain ⟨x, hx⟩ := exists_at seq (p1 + len / 2) (by omega)
      rw [read_some hx, ok_bind]
      by_cases hleft : comp value x = true
      · rw [if_pos hleft]
        refine ih p1 (len / 2) (by omega) (by omega) hlow fun k y hk hy => ?_
        -- an element further on is not before the one in the middle
        by_contra hvy
        have hyx : comp y x = false := by
          by_cases hkm : k = p1 + len / 2
          · rw [hkm, hx] at hy
            rw [← Option.some_injective _ hy]
            exact not_before_self hc x
          · exact hsort _ k x y (Nat.zero_le _) (by omega) (List.getElem?_eq_some_iff.mp hy).1 hx hy
        have hvx := not_before_trans hc hyx (by simpa using hvy)
        rw [hleft] at hvx
        exact absurd hvx (by simp)
      · rw [if_neg hleft]
        by_cases hright : comp x value = true
        · rw [if_pos hright]
          have hhalf : len / 2 + (if len % 2 = 0 then 0 else 1) - 1 = len - len / 2 - 1 := by
            by_cases hodd : len % 2 = 0
            · rw [if_pos hodd]
              omega
            · rw [if_neg hodd]
              omega
          rw [hhalf]
          refine ih (p1 + len / 2 + 1) (len - len / 2 - 1) (by omega) (by omega) ?_ ?_
          · intro k y hk hy
            by_contra hyv
            have hxy : comp x y = false := by
              by_cases hkm : k = p1 + len / 2
              · rw [hkm, hx] at hy
                rw [← Option.some_injective _ hy]
                exact not_before_self hc x
              · exact hsort k _ y x (Nat.zero_le _) (by omega)
                  (List.getElem?_eq_some_iff.mp hx).1 hy hx
            have hxv := not_before_trans hc (by simpa using hyv) hxy
            rw [hright] at hxv
            exact absurd hxv (by simp)
          · intro k y hk hy
            exact hhigh k y (by omega) hy
        · rw [if_neg hright]
          refine ⟨true, rfl, fun _ => ?_, fun _ => rfl⟩
          exact ⟨x, List.mem_of_getElem? hx, by simpa using hright, by simpa using hleft⟩
    · rw [if_neg hpos]
      refine ⟨false, rfl, fun h => absurd h (by simp), ?_⟩
      rintro ⟨x, hx, hxv, hvx⟩
      obtain ⟨k, hk⟩ := List.mem_iff_getElem?.mp hx
      by_cases hkp : k < p1
      · rw [hlow k x hkp hk] at hxv
        exact absurd hxv (by simp)
      · rw [hhigh k x (by omega) hk] at hvx
        exact absurd hvx (by simp)

/-- `binary_search` in a sorted sequence finds out whether there is an equivalent element -/
theorem binarySearch_spec (hc : StrictWeak comp) {rounds : ℕ} {seq : List α} {value : α}
    (hsort : SortedIn comp 0 seq.length seq) (hr : seq.length < rounds) :
    ∃ b, binarySearch comp rounds seq value = .ok b ∧
      (b = true ↔ ∃ x ∈ seq, Equivalent comp x value) := by
  unfold binarySearch
  refine searchLoop_spec hc hsort rounds 0 seq.length hr (by omega) (fun k x hk => by omega) ?_
  intro k x hk hx
  have := (List.getElem?_eq_some_iff.mp hx).1
  omega

end AlgSort
