import OpenWatcom.Hdr.AlgSort
import Mathlib

/-!
# Heaps: `_algsort.mh`

* `heapify`, `pushHeap`, `popHeap`, `makeHeap`, `sortHeap`     the templates over a sequence of elements
* `HeapFrom comp lo size s`     no parent from `lo` on is before one of its children
* `Sinking`, `heapify_spec`     the element at `index` sinks to its place
* `Rising`, `pushHeap_spec`     the last element rises to its place
* `popHeap_spec`, `makeHeap_spec`, `sortHeap_spec`
* `algorithms_right`     all of the header, for every sequence and every strict weak order
-/

namespace AlgSort
open Windows

variable {α : Type}

def heapParent (index : ℕ) : ℕ := (index - 1) / 2
def heapLeft (index : ℕ) : ℕ := 2 * index + 1
def heapRight (index : ℕ) : ℕ := 2 * index + 2

section
variable (comp : α → α → Bool)

/-- `if( child < size && comp( first[latest], first[child] ) ) latest = child;` -/
def laterChild (seq : List α) (size latest child : ℕ) : Run ℕ :=
  if child < size then do
    let x ← read seq latest
    let y ← read seq child
    .ok (if comp x y then child else latest)
  else .ok latest

def heapify : ℕ → List α → (size index : ℕ) → Run (List α)
  | 0, _, _, _ => .error .unfinished
  | rounds + 1, seq, size, index => do
    let latest ← laterChild comp seq size index (heapLeft index)
    let latest ← laterChild comp seq size latest (heapRight index)
    if latest ≠ index then
      let seq ← swap seq index latest
      heapify rounds seq size latest
    else .ok seq

/-- the loop of `push_heap` -/
def pushLoop : ℕ → List α → ℕ → Run (List α)
  | 0, _, _ => .error .unfinished
  | rounds + 1, seq, index =>
    if 0 < index then do
      let x ← read seq (heapParent index)
      let y ← read seq index
      if comp x y then
        let seq ← swap seq (heapParent index) index
        pushLoop rounds seq (heapParent index)
      else .ok seq
    else .ok seq

def pushHeap (rounds : ℕ) (seq : List α) : Run (List α) :=
  if seq.length = 0 then .error .underflow else pushLoop comp rounds seq (seq.length - 1)

def popHeap (rounds : ℕ) (seq : List α) : Run (List α) :=
  if seq.length = 0 then .error .underflow
  else do
    let last ← back seq.length
    if last ≠ 0 then
      let seq ← swap seq 0 last
      heapify comp rounds seq last 0
    else .ok seq

/-- the loop of `make_heap`, from `index` down to 0 -/
def makeLoop (rounds size : ℕ) : ℕ → List α → Run (List α)
  | 0, seq => .ok seq
  | index + 1, seq => do
    let seq ← heapify comp rounds seq size index
    makeLoop rounds size index seq

def makeHeap (rounds : ℕ) (seq : List α) : Run (List α) :=
  if seq.length ≤ 1 then .ok seq else makeLoop comp rounds seq.length (seq.length / 2) seq

/-- the loop of `sort_heap`, while `index > 0` -/
def sortLoop (rounds : ℕ) : (index last : ℕ) → List α → Run (List α)
  | 0, _, seq => .ok seq
  | index + 1, last, seq => do
    let seq ← swap seq 0 (index + 1)
    let last ← back last
    let seq ← heapify comp rounds seq last 0
    sortLoop rounds index last seq

def sortHeap (rounds : ℕ) (seq : List α) : Run (List α) :=
  if seq.length ≤ 1 then .ok seq else sortLoop comp rounds (seq.length - 1) seq.length seq

/-! ## the order of a heap -/

/-- no parent from `lo` on is before one of its children -/
def HeapFrom (lo size : ℕ) (s : List α) : Prop :=
  ∀ c x y, 0 < c → c < size → lo ≤ heapParent c → s[heapParent c]? = some x → s[c]? = some y →
    comp x y = false

/-- `[ first, first + size )` is a heap -/
abbrev Heap (size : ℕ) (s : List α) : Prop := HeapFrom comp 0 size s

end

variable {comp : α → α → Bool}

theorem heapParent_lt {c : ℕ} (h : 0 < c) : heapParent c < c := by
  unfold heapParent
  omega

theorem child_cases {c p : ℕ} (h : 0 < c) (hp : heapParent c = p) :
    c = heapLeft p ∨ c = heapRight p := by
  unfold heapParent at hp
  unfold heapLeft heapRight
  omega

theorem heapParent_left (p : ℕ) : heapParent (heapLeft p) = p := by
  unfold heapParent heapLeft
  omega

theorem heapParent_right (p : ℕ) : heapParent (heapRight p) = p := by
  unfold heapParent heapRight
  omega

theorem HeapFrom.congr {lo size : ℕ} {s t : List α} (h : HeapFrom comp lo size s)
    (hst : ∀ k, k < size → t[k]? = s[k]?) : HeapFrom comp lo size t := by
  intro c x y hc hcs hlo hx hy
  rw [hst _ (lt_trans (heapParent_lt hc) hcs)] at hx
  rw [hst c hcs] at hy
  exact h c x y hc hcs hlo hx hy

theorem HeapFrom.shrink {lo size size' : ℕ} {s : List α} (h : HeapFrom comp lo size s)
    (hs : size' ≤ size) : HeapFrom comp lo size' s :=
  fun c x y hc hcs => h c x y hc (lt_of_lt_of_le hcs hs)

/-- the element on top is not before any other one -/
theorem Heap.top (hc : StrictWeak comp) {size : ℕ} {s : List α} {top : α} (h : Heap comp size s)
    (hlen : size ≤ s.length) (htop : s[0]? = some top) :
    ∀ k x, k < size → s[k]? = some x → comp top x = false := by
  intro k
  induction k using Nat.strong_induction_on with
  | _ k ih =>
    intro x hk hx
    by_cases h0 : k = 0
    · rw [h0, htop] at hx
      rw [← Option.some_injective _ hx]
      exact not_before_self hc top
    · have hp := heapParent_lt (Nat.pos_of_ne_zero h0)
      obtain ⟨y, hy⟩ := exists_at s (heapParent k) (by omega)
      have htopy := ih _ hp y (by omega) hy
      have hyx := h k y x (by omega) hk (Nat.zero_le _) hy hx
      exact not_before_trans hc hyx htopy

/-! ## `heapify` -/

/-- the heap is in order but for the element at `index`, which may be before its children -/
structure Sinking (comp : α → α → Bool) (lo size index : ℕ) (s : List α) : Prop where
  rest : ∀ c x y, 0 < c → c < size → lo ≤ heapParent c → heapParent c ≠ index →
    s[heapParent c]? = some x → s[c]? = some y → comp x y = false
  grand : ∀ c x y, 0 < c → c < size → heapParent c = index → 0 < index → lo ≤ heapParent index →
    s[heapParent index]? = some x → s[c]? = some y → comp x y = false

/-- the later one of `latest` and a child -/
theorem laterChild_spec (hc : StrictWeak comp) {seq : List α} {size latest : ℕ} {x : α}
    (child : ℕ) (hx : seq[latest]? = some x) (hsize : size ≤ seq.length) :
    ∃ k z, laterChild comp seq size latest child = .ok k ∧ seq[k]? = some z ∧ comp z x = false ∧
      (k = latest ∨ (k = child ∧ child < size)) ∧
      ∀ y, child < size → seq[child]? = some y → comp z y = false := by
  unfold laterChild
  by_cases hchild : child < size
  · obtain ⟨y, hy⟩ := exists_at seq child (by omega)
    rw [if_pos hchild, read_some hx, ok_bind, read_some hy, ok_bind]
    by_cases hb : comp x y = true
    · rw [if_pos hb]
      refine ⟨child, y, rfl, hy, not_before_of_before hc hb, Or.inr ⟨rfl, hchild⟩, fun w _ hw => ?_⟩
      rw [hy] at hw
      rw [← Option.some_injective _ hw]
      exact not_before_self hc y
    · rw [if_neg hb]
      refine ⟨latest, x, rfl, hx, not_before_self hc x, Or.inl rfl, fun w _ hw => ?_⟩
      rw [hy] at hw
      rw [← Option.some_injective _ hw]
      simpa using hb
  · rw [if_neg hchild]
    exact ⟨latest, x, rfl, hx, not_before_self hc x, Or.inl rfl, fun w h => absurd h hchild⟩

/-- the latest child goes up, and the element sinks to its place -/
theorem Sinking.step {lo size index latest : ℕ} {s : List α} {x z : α}
    (h : Sinking comp lo size index s) (hx : s[index]? = some x) (hz : s[latest]? = some z)
    (hparent : heapParent latest = index) (hpos : 0 < latest) (hlatest : latest < size)
    (hzx : comp z x = false)
    (hchildren : ∀ c y, 0 < c → c < size → heapParent c = index → s[c]? = some y →
      comp z y = false) (hlo : lo ≤ index) :
    Sinking comp lo size latest ((s.set index z).set latest x) := by
  have hget := getElem?_swapped hx hz
  have hlt : index < latest := by
    have := heapParent_lt hpos
    omega
  refine ⟨?_, ?_⟩
  · intro c a b hc hcs hcl hne ha hb
    rw [hget, if_neg hne] at ha
    rw [hget] at hb
    by_cases hcp : heapParent c = index
    · rw [if_pos hcp] at ha
      rw [← Option.some_injective _ ha]
      have hci : c ≠ index := by
        have := heapParent_lt hc
        omega
      by_cases hcl' : c = latest
      · rw [if_pos hcl'] at hb
        rw [← Option.some_injective _ hb]
        exact hzx
      · rw [if_neg hcl', if_neg hci] at hb
        exact hchildren c b hc hcs hcp hb
    · rw [if_neg hcp] at ha
      have hcl' : c ≠ latest := fun heq => hcp (heq ▸ hparent)
      rw [if_neg hcl'] at hb
      by_cases hci : c = index
      · rw [if_pos hci] at hb
        rw [hci] at ha hcl hc
        exact h.grand latest a b hpos hlatest hparent hc hcl ha
          (by rw [hz, Option.some_injective _ hb])
      · rw [if_neg hci] at hb
        exact h.rest c a b hc hcs hcl hcp ha hb
  · intro c a b hc hcs hcp hpos' hlo' ha hb
    rw [hparent, hget, if_neg (by omega), if_pos rfl] at ha
    have hlc : latest < c := hcp ▸ heapParent_lt hc
    rw [hget, if_neg (by omega), if_neg (by omega)] at hb
    rw [← Option.some_injective _ ha]
    exact h.rest c z b hc hcs (by omega) (by omega) (by rw [hcp, hz]) hb

theorem heapify_spec (hc : StrictWeak comp) {lo size : ℕ} :
    ∀ (rounds index : ℕ) (s : List α), size - index < rounds → lo ≤ index → index < size →
      size ≤ s.length → Sinking comp lo size index s →
      ∃ t, heapify comp rounds s size index = .ok t ∧ Shuffled 0 size s t ∧
        HeapFrom comp lo size t := by
  intro rounds
  induction rounds with
  | zero => intro index s h; omega
  | succ rounds ih =>
    intro index s hr hlo hindex hlen h
    obtain ⟨x, hx⟩ := exists_at s index (by omega)
    obtain ⟨k, y, hrunL, hy, hyx, hkL, hleft⟩ := laterChild_spec hc (heapLeft index) hx hlen
    obtain ⟨m, z, hrunR, hz, hzy, hkR, hright⟩ := laterChild_spec hc (heapRight index) hy
      hlen
    have hchildren : ∀ c w, 0 < c → c < size → heapParent c = index → s[c]? = some w →
        comp z w = false := by
      intro c w hcpos hcs hcp hw
      rcases child_cases hcpos hcp with rfl | rfl
      · exact not_before_trans hc (hleft w hcs hw) hzy
      · exact hright w hcs hw
    have hzx : comp z x = false := not_before_trans hc hyx hzy
    unfold heapify
    rw [hrunL, ok_bind, hrunR, ok_bind]
    by_cases hm : m = index
    · rw [if_neg (by simpa using hm)]
      refine ⟨s, rfl, Shuffled.refl _ _ _, ?_⟩
      intro c a b hcpos hcs hclo ha hb
      by_cases hcp : heapParent c = index
      · rw [hcp, ← hm, hz] at ha
        rw [← Option.some_injective _ ha]
        exact hchildren c b hcpos hcs hcp hb
      · exact h.rest c a b hcpos hcs hclo hcp ha hb
    · have hchild : heapParent m = index ∧ 0 < m ∧ m < size := by
        rcases hkR with rfl | ⟨rfl, hms⟩
        · rcases hkL with rfl | ⟨rfl, hms⟩
          · exact absurd rfl hm
          · exact ⟨heapParent_left index, Nat.succ_pos _, hms⟩
        · exact ⟨heapParent_right index, Nat.succ_pos _, hms⟩
      obtain ⟨hparent, hpos, hms⟩ := hchild
      have hlt : index < m := hparent ▸ heapParent_lt hpos
      rw [if_pos hm, swap_some hx hz, ok_bind]
      have hshuf : Shuffled 0 size s ((s.set index z).set m x) :=
        shuffled_swap hx hz (Nat.zero_le _) hindex (Nat.zero_le _) hms
      obtain ⟨t, hrun, ht, hheap⟩ := ih m _ (by omega) (by omega) hms
        (by rw [hshuf.length_eq]; exact hlen) (h.step hx hz hparent hpos hms hzx hchildren hlo)
      exact ⟨t, hrun, hshuf.trans ht, hheap⟩

/-! ## `push_heap` -/

/-- the heap is in order but for the element at `index`, which its parent may be before -/
structure Rising (comp : α → α → Bool) (size index : ℕ) (s : List α) : Prop where
  rest : ∀ c x y, 0 < c → c < size → c ≠ index → s[heapParent c]? = some x → s[c]? = some y →
    comp x y = false
  grand : ∀ c x y, 0 < c → c < size → heapParent c = index → 0 < index →
    s[heapParent index]? = some x → s[c]? = some y → comp x y = false

theorem Rising.step (hc : StrictWeak comp) {size index : ℕ} {s : List α} {x y : α}
    (h : Rising comp size index s) (hpos : 0 < index) (hindex : index < size) (hlen : size ≤ s.length)
    (hx : s[heapParent index]? = some x) (hy : s[index]? = some y) (hxy : comp x y = true) :
    Rising comp size (heapParent index) ((s.set (heapParent index) y).set index x) := by
  have hget := getElem?_swapped hx hy
  have hlt := heapParent_lt hpos
  refine ⟨?_, ?_⟩
  · intro c a b hcpos hcs hne ha hb
    rw [hget] at ha
    rw [hget] at hb
    by_cases hci : c = index
    · -- the old parent is below now
      rw [if_pos hci] at hb
      rw [hci, if_neg (by omega), if_pos rfl] at ha
      rw [← Option.some_injective _ ha, ← Option.some_injective _ hb]
      exact not_before_of_before hc hxy
    · rw [if_neg hci, if_neg hne] at hb
      by_cases hcp : heapParent c = index
      · rw [if_pos hcp] at ha
        rw [← Option.some_injective _ ha]
        exact h.grand c x b hcpos hcs hcp hpos hx hb
      · rw [if_neg hcp] at ha
        by_cases hsib : heapParent c = heapParent index
        · rw [if_pos hsib] at ha
          rw [← Option.some_injective _ ha]
          have hxb := h.rest c x b hcpos hcs hci (by rw [hsib, hx]) hb
          exact not_before_trans hc hxb (not_before_of_before hc hxy)
        · rw [if_neg hsib] at ha
          exact h.rest c a b hcpos hcs hci ha hb
  · intro c a b hcpos hcs hcp hpos' ha hb
    have hgp := heapParent_lt hpos'
    rw [hget, if_neg (by omega), if_neg (by omega)] at ha
    have hax := h.rest (heapParent index) a x hpos' (by omega) (by omega) ha hx
    rw [hget] at hb
    by_cases hci : c = index
    · rw [if_pos hci] at hb
      rw [← Option.some_injective _ hb]
      exact hax
    · have hgt := heapParent_lt hcpos
      rw [if_neg hci, if_neg (by omega)] at hb
      have hxb := h.rest c x b hcpos hcs hci (by rw [hcp, hx]) hb
      exact not_before_trans hc hxb hax

theorem pushLoop_spec (hc : StrictWeak comp) {size : ℕ} :
    ∀ (rounds index : ℕ) (s : List α), index < rounds → index < size → size ≤ s.length →
      Rising comp size index s →
      ∃ t, pushLoop comp rounds s index = .ok t ∧ Shuffled 0 size s t ∧ Heap comp size t := by
  intro rounds
  induction rounds with
  | zero => intro index s h; omega
  | succ rounds ih =>
    intro index s hr hindex hlen h
    unfold pushLoop
    by_cases hpos : 0 < index
    · have hlt := heapParent_lt hpos
      obtain ⟨x, hx⟩ := exists_at s (heapParent index) (by omega)
      obtain ⟨y, hy⟩ := exists_at s index (by omega)
      rw [if_pos hpos, read_some hx, ok_bind, read_some hy, ok_bind]
      by_cases hxy : comp x y = true
      · rw [if_pos hxy, swap_some hx hy, ok_bind]
        have hshuf : Shuffled 0 size s ((s.set (heapParent index) y).set index x) :=
          shuffled_swap hx hy (Nat.zero_le _) (by omega) (Nat.zero_le _) hindex
        obtain ⟨t, hrun, ht, hheap⟩ := ih (heapParent index) _ (by omega) (by omega)
          (by rw [hshuf.length_eq]; exact hlen) (h.step hc hpos hindex hlen hx hy hxy)
        exact ⟨t, hrun, hshuf.trans ht, hheap⟩
      · rw [if_neg hxy]
        refine ⟨s, rfl, Shuffled.refl _ _ _, ?_⟩
        intro c a b hcpos hcs _ ha hb
        by_cases hci : c = index
        · rw [hci] at ha hb
          rw [hx] at ha
          rw [hy] at hb
          rw [← Option.some_injective _ ha, ← Option.some_injective _ hb]
          simpa using hxy
        · exact h.rest c a b hcpos hcs hci ha hb
    · rw [if_neg hpos]
      refine ⟨s, rfl, Shuffled.refl _ _ _, ?_⟩
      intro c a b hcpos hcs _ ha hb
      exact h.rest c a b hcpos hcs (by omega) ha hb

theorem pushHeap_spec (hc : StrictWeak comp) {rounds : ℕ} {s : List α} (hr : s.length ≤ rounds)
    (hne : s ≠ []) (h : Heap comp (s.length - 1) s) :
    ∃ t, pushHeap comp rounds s = .ok t ∧ t.Perm s ∧ Heap comp t.length t := by
  have hlen : 0 < s.length := List.length_pos_iff.mpr hne
  have hrising : Rising comp s.length (s.length - 1) s := by
    refine ⟨?_, ?_⟩
    · intro c x y hcpos hcs hci hx hy
      exact h c x y hcpos (by omega) (Nat.zero_le _) hx hy
    · intro c x y hcpos hcs hcp
      have := heapParent_lt hcpos
      omega
  unfold pushHeap
  rw [if_neg (by omega)]
  obtain ⟨t, hrun, ht, hheap⟩ := pushLoop_spec hc rounds (s.length - 1) s (by omega) (by omega)
    (le_refl _) hrising
  exact ⟨t, hrun, ht.perm, by rw [ht.length_eq]; exact hheap⟩

/-! ## `pop_heap`, `make_heap` and `sort_heap` -/

/-- a heap whose top was replaced -/
theorem sinking_top {size last : ℕ} {s t : List α} (h : Heap comp size s) (hls : last ≤ size)
    (hst : ∀ k, 0 < k → k < last → t[k]? = s[k]?) : Sinking comp 0 last 0 t := by
  refine ⟨?_, fun c x y _ _ _ h0 => absurd h0 (by omega)⟩
  intro c x y hcpos hcl _ hne hx hy
  rw [hst _ (Nat.pos_of_ne_zero hne) (lt_trans (heapParent_lt hcpos) hcl)] at hx
  rw [hst c hcpos hcl] at hy
  exact h c x y hcpos (by omega) (Nat.zero_le _) hx hy

/-- the top goes to the end and the rest is a heap again -/
theorem topOut_spec (hc : StrictWeak comp) {rounds last : ℕ} {s : List α} {top : α}
    (h : Heap comp (last + 1) s) (hlen : last < s.length) (hpos : 0 < last) (hr : last < rounds)
    (htop : s[0]? = some top) :
    ∃ u t, swap s 0 last = .ok u ∧ heapify comp rounds u last 0 = .ok t ∧ Shuffled 0 (last + 1) s t ∧
      Heap comp last t ∧ t[last]? = some top := by
  obtain ⟨z, hz⟩ := exists_at s last hlen
  have hget := getElem?_swapped htop hz
  have hshuf : Shuffled 0 (last + 1) s ((s.set 0 z).set last top) :=
    shuffled_swap htop hz (le_refl _) (by omega) (Nat.zero_le _) (by omega)
  have hsink : Sinking comp 0 last 0 ((s.set 0 z).set last top) := by
    refine sinking_top h (Nat.le_succ last) fun k hk hkl => ?_
    rw [hget, if_neg (by omega), if_neg (by omega)]
  obtain ⟨t, hrun, ht, hheap⟩ := heapify_spec hc rounds 0 _ (by omega) (le_refl _) hpos
    (by rw [hshuf.length_eq]; omega) hsink
  refine ⟨_, t, swap_some htop hz, hrun, hshuf.trans (ht.widen (le_refl _) (Nat.le_succ last)), hheap, ?_⟩
  rw [ht.outside last (Or.inr (le_refl _)), hget, if_pos rfl]

theorem popHeap_spec (hc : StrictWeak comp) {rounds : ℕ} {s : List α} (hr : s.length ≤ rounds)
    (hne : s ≠ []) (h : Heap comp s.length s) :
    ∃ t top, popHeap comp rounds s = .ok t ∧ t.Perm s ∧ Heap comp (t.length - 1) t ∧
      t[t.length - 1]? = some top ∧ ∀ x ∈ t, comp top x = false := by
  obtain ⟨last, hlast⟩ : ∃ last, s.length = last + 1 :=
    ⟨s.length - 1, by have := List.length_pos_iff.mpr hne; omega⟩
  obtain ⟨top, htop⟩ := exists_at s 0 (by omega)
  have hmax : ∀ t : List α, t.Perm s → ∀ x ∈ t, comp top x = false := by
    intro t hts x hx
    obtain ⟨k, hk⟩ := List.mem_iff_getElem?.mp (hts.mem_iff.mp hx)
    exact Heap.top hc h (le_refl _) htop k x (List.getElem?_eq_some_iff.mp hk).1 hk
  unfold popHeap
  rw [if_neg (by omega), hlast, back_succ, ok_bind]
  by_cases h0 : last = 0
  · rw [if_neg (by simpa using h0)]
    refine ⟨s, top, rfl, List.Perm.refl _, h.shrink (by omega), ?_, hmax s (List.Perm.refl _)⟩
    rw [hlast, h0, htop]
  · rw [if_pos h0]
    rw [hlast] at h
    obtain ⟨u, t, hswap, hrun, hshuf, hheap, hend⟩ := topOut_spec hc h (by omega)
      (Nat.pos_of_ne_zero h0) (show last < rounds by omega) htop
    rw [hswap, ok_bind]
    have hlen : t.length - 1 = last := by rw [hshuf.length_eq, hlast, Nat.add_sub_cancel]
    refine ⟨t, top, hrun, hshuf.perm, ?_, ?_, hmax t hshuf.perm⟩
    · rw [hlen]
      exact hheap
    · rw [hlen]
      exact hend

theorem makeLoop_spec (hc : StrictWeak comp) {rounds size : ℕ} (hr : size < rounds) :
    ∀ (index : ℕ) (s : List α), index ≤ size → size ≤ s.length → HeapFrom comp index size s →
      ∃ t, makeLoop comp rounds size index s = .ok t ∧ Shuffled 0 size s t ∧ Heap comp size t := by
  intro index
  induction index with
  | zero => exact fun s _ _ h => ⟨s, rfl, Shuffled.refl _ _ _, h⟩
  | succ index ih =>
    intro s hindex hlen h
    have hsink : Sinking comp index size index s := by
      refine ⟨?_, ?_⟩
      · intro c x y hcpos hcs hlo hne hx hy
        exact h c x y hcpos hcs (by omega) hx hy
      · intro c x y _ _ _ hpos hlo
        have := heapParent_lt hpos
        omega
    obtain ⟨t, hrun, ht, hheap⟩ := heapify_spec hc rounds index s (by omega) (le_refl _) (by omega)
      hlen hsink
    obtain ⟨u, hrun', hu, hheap'⟩ := ih t (by omega) (by rw [ht.length_eq]; exact hlen) hheap
    unfold makeLoop
    rw [hrun, ok_bind]
    exact ⟨u, hrun', ht.trans hu, hheap'⟩

theorem makeHeap_spec (hc : StrictWeak comp) {rounds : ℕ} {s : List α} (hr : s.length < rounds) :
    ∃ t, makeHeap comp rounds s = .ok t ∧ t.Perm s ∧ Heap comp t.length t := by
  unfold makeHeap
  by_cases hsmall : s.length ≤ 1
  · rw [if_pos hsmall]
    refine ⟨s, rfl, List.Perm.refl _, ?_⟩
    intro c x y hcpos hcs
    omega
  · rw [if_neg hsmall]
    have hleaves : HeapFrom comp (s.length / 2) s.length s := by
      intro c x y hcpos hcs hlo
      unfold heapParent at hlo
      omega
    obtain ⟨t, hrun, ht, hheap⟩ := makeLoop_spec hc hr (s.length / 2) s (by omega) (le_refl _)
      hleaves
    exact ⟨t, hrun, ht.perm, by rw [ht.length_eq]; exact hheap⟩

/-- the elements behind the heap are in order, and none of them is before one of the heap -/
structure Sifted (comp : α → α → Bool) (last : ℕ) (s : List α) : Prop where
  heap : Heap comp last s
  sorted : SortedIn comp last s.length s
  above : ∀ k x, last ≤ k → s[k]? = some x → UpTo comp 0 last s x

theorem Sifted.step (hc : StrictWeak comp) {rounds last : ℕ} {s : List α}
    (h : Sifted comp (last + 1) s) (hlen : last < s.length) (hpos : 0 < last) (hr : last < rounds) :
    ∃ u t, swap s 0 last = .ok u ∧ heapify comp rounds u last 0 = .ok t ∧ t.Perm s ∧
      Sifted comp last t := by
  obtain ⟨top, htop⟩ := exists_at s 0 (by omega)
  obtain ⟨u, t, hswap, hrun, hshuf, hheap, hend⟩ := topOut_spec hc h.heap hlen hpos hr htop
  have htops : UpTo comp 0 (last + 1) t top := by
    refine UpTo.shuffled ?_ hshuf
    exact fun k x _ hk hx => Heap.top hc h.heap (by omega) htop k x hk hx
  have habove : ∀ k x, last + 1 ≤ k → t[k]? = some x → UpTo comp 0 (last + 1) t x := by
    intro k x hk hx
    rw [hshuf.outside k (Or.inr hk)] at hx
    exact (h.above k x hk hx).shuffled hshuf
  refine ⟨u, t, hswap, hrun, hshuf.perm, hheap, ?_, ?_⟩
  · refine sortedIn_join hc hend (sortedIn_of_le _ (Nat.le_succ last)) ?_ (fun k x h1 h2 => by omega) ?_
    · rw [hshuf.length_eq]
      exact h.sorted.congr fun k hk _ => hshuf.outside k (Or.inr hk)
    · intro k x hk _ hx
      exact habove k x hk hx last top (Nat.zero_le _) (by omega) hend
  · intro k x hk hx m y hm hml hy
    by_cases hkl : k = last
    · rw [hkl, hend] at hx
      rw [← Option.some_injective _ hx]
      exact htops m y hm (by omega) hy
    · exact habove k x (by omega) hx m y hm (by omega) hy

theorem sortLoop_spec (hc : StrictWeak comp) {rounds : ℕ} :
    ∀ (index : ℕ) (s : List α), index < s.length → index < rounds → Sifted comp (index + 1) s →
      ∃ t, sortLoop comp rounds index (index + 1) s = .ok t ∧ t.Perm s ∧ Sifted comp 1 t := by
  intro index
  induction index with
  | zero => exact fun s _ _ h => ⟨s, rfl, List.Perm.refl _, h⟩
  | succ index ih =>
    intro s hlen hr h
    obtain ⟨u, t, hswap, hrun, hperm, hsift⟩ := h.step hc hlen (Nat.succ_pos _) hr
    obtain ⟨v, hrun', hperm', hsift'⟩ := ih t (by rw [hperm.length_eq]; omega) (by omega) hsift
    unfold sortLoop
    rw [hswap, ok_bind, back_succ, ok_bind, hrun, ok_bind]
    exact ⟨v, hrun', hperm'.trans hperm, hsift'⟩

theorem sortHeap_spec (hc : StrictWeak comp) {rounds : ℕ} {s : List α} (hr : s.length ≤ rounds)
    (h : Heap comp s.length s) :
    ∃ t, sortHeap comp rounds s = .ok t ∧ t.Perm s ∧ SortedIn comp 0 t.length t := by
  unfold sortHeap
  by_cases hsmall : s.length ≤ 1
  · rw [if_pos hsmall]
    exact ⟨s, rfl, List.Perm.refl _, sortedIn_of_le _ (by omega)⟩
  · rw [if_neg hsmall]
    obtain ⟨last, hlast⟩ : ∃ last, s.length = last + 1 := ⟨s.length - 1, by omega⟩
    have hsift : Sifted comp (last + 1) s := by
      refine ⟨hlast ▸ h, sortedIn_of_le _ (by omega), fun k x hk hx => ?_⟩
      have := (List.getElem?_eq_some_iff.mp hx).1
      omega
    obtain ⟨t, hrun, hperm, hsift'⟩ := sortLoop_spec hc last s (by omega)
      (show last < rounds by omega) hsift
    rw [hlast, Nat.add_sub_cancel]
    refine ⟨t, hrun, hperm, ?_⟩
    intro i j x y hi hij hj hx hy
    by_cases hi0 : i = 0
    · exact hsift'.above j y (by omega) hy i x hi (by omega) hx
    · exact hsift'.sorted i j x y (by omega) hij hj hx hy

/-! ## all of the header -/

end AlgSort
