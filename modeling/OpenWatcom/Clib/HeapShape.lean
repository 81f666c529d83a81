import Mathlib.Data.List.Chain
import Mathlib.Tactic.NormNum
import OpenWatcom.Clib.Heap
import OpenWatcom.Lib.Rings

/-!
# The shape of a mini-heap

* `Block`, `Tiles`, `frees`, `useds`    the blocks of the area, in order, and the two kinds of them;
* `Laid`         the memory holds the tags of the blocks, and the end tag behind them;
* `WellFormed`   a mini-heap between two operations: tiles, ring, counts, rover and bounds;
* `Laid.edit`    neighbouring blocks are exchanged for others on the same stretch.
-/

namespace Clib
open Rings

/-! ## reading after writing -/

section
variable (h : Heapblk) (p q n : Nat)

theorem setLen_mem : (h.setLen p n).mem q = if q = p then { h.mem p with len := n } else h.mem q :=
  Function.update_apply h.mem p _ q
theorem setPrev_mem :
    (h.setPrev p n).mem q = if q = p then { h.mem p with prev := n } else h.mem q :=
  Function.update_apply h.mem p _ q
theorem setNext_mem :
    (h.setNext p n).mem q = if q = p then { h.mem p with next := n } else h.mem q :=
  Function.update_apply h.mem p _ q

@[simp] theorem setLen_len : ((h.setLen p n).mem q).len = if q = p then n else (h.mem q).len := by
  rw [setLen_mem]
  split <;> rfl
@[simp] theorem setLen_prev : ((h.setLen p n).mem q).prev = (h.mem q).prev := by
  rw [setLen_mem]
  split
  · next e => rw [e]
  · rfl
@[simp] theorem setLen_next : ((h.setLen p n).mem q).next = (h.mem q).next := by
  rw [setLen_mem]
  split
  · next e => rw [e]
  · rfl
@[simp] theorem setPrev_len : ((h.setPrev p n).mem q).len = (h.mem q).len := by
  rw [setPrev_mem]
  split
  · next e => rw [e]
  · rfl
@[simp] theorem setPrev_prev :
    ((h.setPrev p n).mem q).prev = if q = p then n else (h.mem q).prev := by
  rw [setPrev_mem]
  split <;> rfl
@[simp] theorem setPrev_next : ((h.setPrev p n).mem q).next = (h.mem q).next := by
  rw [setPrev_mem]
  split
  · next e => rw [e]
  · rfl
@[simp] theorem setNext_len : ((h.setNext p n).mem q).len = (h.mem q).len := by
  rw [setNext_mem]
  split
  · next e => rw [e]
  · rfl
@[simp] theorem setNext_prev : ((h.setNext p n).mem q).prev = (h.mem q).prev := by
  rw [setNext_mem]
  split
  · next e => rw [e]
  · rfl
@[simp] theorem setNext_next :
    ((h.setNext p n).mem q).next = if q = p then n else (h.mem q).next := by
  rw [setNext_mem]
  split <;> rfl

@[simp] theorem setLen_addr : (h.setLen p n).addr = h.addr := rfl
@[simp] theorem setPrev_addr : (h.setPrev p n).addr = h.addr := rfl
@[simp] theorem setNext_addr : (h.setNext p n).addr = h.addr := rfl
@[simp] theorem setLen_heapLen : (h.setLen p n).len = h.len := rfl
@[simp] theorem setPrev_heapLen : (h.setPrev p n).len = h.len := rfl
@[simp] theorem setNext_heapLen : (h.setNext p n).len = h.len := rfl
@[simp] theorem setLen_rover : (h.setLen p n).rover = h.rover := rfl
@[simp] theorem setPrev_rover : (h.setPrev p n).rover = h.rover := rfl
@[simp] theorem setNext_rover : (h.setNext p n).rover = h.rover := rfl
@[simp] theorem setLen_b4rover : (h.setLen p n).b4rover = h.b4rover := rfl
@[simp] theorem setPrev_b4rover : (h.setPrev p n).b4rover = h.b4rover := rfl
@[simp] theorem setNext_b4rover : (h.setNext p n).b4rover = h.b4rover := rfl
@[simp] theorem setLen_largestBlk : (h.setLen p n).largestBlk = h.largestBlk := rfl
@[simp] theorem setPrev_largestBlk : (h.setPrev p n).largestBlk = h.largestBlk := rfl
@[simp] theorem setNext_largestBlk : (h.setNext p n).largestBlk = h.largestBlk := rfl
@[simp] theorem setLen_numalloc : (h.setLen p n).numalloc = h.numalloc := rfl
@[simp] theorem setPrev_numalloc : (h.setPrev p n).numalloc = h.numalloc := rfl
@[simp] theorem setNext_numalloc : (h.setNext p n).numalloc = h.numalloc := rfl
@[simp] theorem setLen_numfree : (h.setLen p n).numfree = h.numfree := rfl
@[simp] theorem setPrev_numfree : (h.setPrev p n).numfree = h.numfree := rfl
@[simp] theorem setNext_numfree : (h.setNext p n).numfree = h.numfree := rfl

end

/-! ## blocks -/

/-- a block of the area -/
structure Block where
  addr : Nat
  size : Nat
  used : Bool
  deriving DecidableEq, Repr

/-- the length word of the block -/
def Block.tag (b : Block) : Nat := if b.used then b.size + 1 else b.size

/-- the addresses of the free blocks; the allocated blocks and their addresses -/
def frees (bs : List Block) : List Nat := (bs.filter fun b => !b.used).map Block.addr
def lives (bs : List Block) : List Block := bs.filter fun b => b.used
def useds (bs : List Block) : List Nat := (lives bs).map Block.addr

@[simp] theorem frees_nil : frees [] = [] := rfl
@[simp] theorem useds_nil : useds [] = [] := rfl

@[simp] theorem frees_append (l r : List Block) : frees (l ++ r) = frees l ++ frees r := by
  rw [frees, List.filter_append, List.map_append]
  rfl

@[simp] theorem lives_append (l r : List Block) : lives (l ++ r) = lives l ++ lives r :=
  List.filter_append l r

@[simp] theorem useds_append (l r : List Block) : useds (l ++ r) = useds l ++ useds r := by
  rw [useds, lives_append, List.map_append]
  rfl

@[simp] theorem frees_free (a n : Nat) (r : List Block) :
    frees (⟨a, n, false⟩ :: r) = a :: frees r := rfl
@[simp] theorem frees_used (a n : Nat) (r : List Block) : frees (⟨a, n, true⟩ :: r) = frees r := rfl
@[simp] theorem lives_nil : lives [] = [] := rfl
@[simp] theorem lives_free (a n : Nat) (r : List Block) : lives (⟨a, n, false⟩ :: r) = lives r := rfl
@[simp] theorem lives_used (a n : Nat) (r : List Block) :
    lives (⟨a, n, true⟩ :: r) = ⟨a, n, true⟩ :: lives r := rfl
@[simp] theorem useds_free (a n : Nat) (r : List Block) : useds (⟨a, n, false⟩ :: r) = useds r := rfl
@[simp] theorem useds_used (a n : Nat) (r : List Block) :
    useds (⟨a, n, true⟩ :: r) = a :: useds r := rfl

theorem mem_frees {bs : List Block} {x : Nat} :
    x ∈ frees bs ↔ ∃ b ∈ bs, b.used = false ∧ b.addr = x := by
  simp [frees, and_assoc]

theorem mem_useds {bs : List Block} {x : Nat} :
    x ∈ useds bs ↔ ∃ b ∈ bs, b.used = true ∧ b.addr = x := by
  simp [useds, lives, and_assoc]

/-- the block of an entry of the free list -/
theorem frees_split {bs : List Block} {q u : List Nat} {d : Nat} (h : frees bs = q ++ d :: u) :
    ∃ l n r, bs = l ++ ⟨d, n, false⟩ :: r ∧ frees l = q ∧ frees r = u := by
  induction bs generalizing q with
  | nil => exact absurd h (by simp)
  | cons b bs ih =>
    obtain ⟨a, n, used⟩ := b
    cases used with
    | true =>
      rw [frees_used] at h
      obtain ⟨l, m, r, rfl, h1, h2⟩ := ih h
      exact ⟨⟨a, n, true⟩ :: l, m, r, rfl, h1, h2⟩
    | false =>
      rw [frees_free] at h
      cases q with
      | nil =>
        obtain ⟨rfl, hu⟩ := List.cons_eq_cons.mp h
        exact ⟨[], n, bs, rfl, rfl, hu⟩
      | cons c q =>
        obtain ⟨rfl, hu⟩ := List.cons_eq_cons.mp h
        obtain ⟨l, m, r, rfl, h1, h2⟩ := ih hu
        exact ⟨⟨a, n, false⟩ :: l, m, r, rfl, by rw [frees_free, h1], h2⟩

section
variable (t : Target)

/-- the blocks tile the stretch from `a` to `e`; each has room for a `freelist` -/
def Tiles : Nat → List Block → Nat → Prop
  | a, [], e => a = e
  | a, b :: bs, e => b.addr = a ∧ t.freelistSize ≤ b.size ∧ Tiles (a + b.size) bs e

end

section
variable {t : Target} {a e : Nat} {b : Block} {bs l m r : List Block}

theorem freelistSize_pos (t : Target) : 0 < t.freelistSize := by
  cases t <;> decide

theorem tiles_append : Tiles t a (l ++ r) e ↔ ∃ c, Tiles t a l c ∧ Tiles t c r e := by
  induction l generalizing a with
  | nil =>
    refine ⟨fun h => ⟨a, rfl, h⟩, ?_⟩
    rintro ⟨c, rfl, h⟩
    exact h
  | cons b l ih =>
    constructor
    · rintro ⟨h1, h2, h3⟩
      obtain ⟨c, hl, hr⟩ := ih.mp h3
      exact ⟨c, ⟨h1, h2, hl⟩, hr⟩
    · rintro ⟨c, ⟨h1, h2, hl⟩, hr⟩
      exact ⟨h1, h2, ih.mpr ⟨c, hl, hr⟩⟩

theorem Tiles.le (h : Tiles t a bs e) : a ≤ e := by
  induction bs generalizing a with
  | nil => exact Nat.le_of_eq h
  | cons b bs ih =>
    have := ih h.2.2
    omega

/-- the blocks lie inside the stretch -/
theorem Tiles.inside (h : Tiles t a bs e) (hb : b ∈ bs) :
    a ≤ b.addr ∧ b.addr + b.size ≤ e ∧ t.freelistSize ≤ b.size := by
  induction bs generalizing a with
  | nil => exact absurd hb List.not_mem_nil
  | cons c bs ih =>
    obtain ⟨h1, h2, h3⟩ := h
    rcases List.mem_cons.mp hb with rfl | hb
    · have := h3.le
      omega
    · have := ih h3 hb
      omega

/-- the blocks around one block -/
theorem Tiles.around (h : Tiles t a (l ++ b :: r) e) :
    Tiles t a l b.addr ∧ t.freelistSize ≤ b.size ∧ Tiles t (b.addr + b.size) r e := by
  obtain ⟨c, h1, h2, h3, h4⟩ := tiles_append.mp h
  rw [h2]
  exact ⟨h1, h3, h4⟩

theorem Tiles.before (h : Tiles t a (l ++ b :: r) e) {c : Block} (hc : c ∈ l) :
    c.addr + c.size ≤ b.addr :=
  (h.around.1.inside hc).2.1

theorem Tiles.behind (h : Tiles t a (l ++ b :: r) e) {c : Block} (hc : c ∈ r) :
    b.addr + b.size ≤ c.addr :=
  (h.around.2.2.inside hc).1

theorem Tiles.frees_before (h : Tiles t a (l ++ b :: r) e) {x : Nat} (hx : x ∈ frees l) :
    x < b.addr := by
  obtain ⟨c, hc, -, rfl⟩ := mem_frees.mp hx
  have := h.before hc
  have := (h.around.1.inside hc).2.2
  have := freelistSize_pos t
  omega

theorem Tiles.frees_behind (h : Tiles t a (l ++ b :: r) e) {x : Nat} (hx : x ∈ frees r) :
    b.addr + b.size ≤ x := by
  obtain ⟨c, hc, -, rfl⟩ := mem_frees.mp hx
  exact h.behind hc

theorem Tiles.frees_ge (h : Tiles t a bs e) {x : Nat} (hx : x ∈ frees bs) : a ≤ x ∧ x < e := by
  obtain ⟨c, hc, -, rfl⟩ := mem_frees.mp hx
  have := h.inside hc
  have := freelistSize_pos t
  omega

/-- the blocks are apart -/
theorem Tiles.pairwise (h : Tiles t a bs e) :
    bs.Pairwise fun x y => x.addr + x.size ≤ y.addr := by
  induction bs generalizing a with
  | nil => exact List.Pairwise.nil
  | cons b bs ih =>
    refine List.pairwise_cons.mpr ⟨fun c hc => ?_, ih h.2.2⟩
    have := (h.2.2.inside hc).1
    rw [h.1]
    exact this

theorem Tiles.frees_sorted (h : Tiles t a bs e) : (frees bs).Pairwise (· < ·) := by
  rw [frees, List.pairwise_map]
  refine List.Pairwise.filter _ (h.pairwise.imp_of_mem ?_)
  intro x y hx _ hxy
  have := (h.inside hx).2.2
  have := freelistSize_pos t
  omega

theorem Tiles.useds_sorted (h : Tiles t a bs e) : (useds bs).Pairwise (· < ·) := by
  rw [useds, lives, List.pairwise_map]
  refine List.Pairwise.filter _ (h.pairwise.imp_of_mem ?_)
  intro x y hx _ hxy
  have := (h.inside hx).2.2
  have := freelistSize_pos t
  omega

/-- there are no more blocks than bytes -/
theorem Tiles.length_le (h : Tiles t a bs e) : a + bs.length ≤ e := by
  induction bs generalizing a with
  | nil => exact Nat.le_of_eq h
  | cons b bs ih =>
    have := ih h.2.2
    have := h.2.1
    have := freelistSize_pos t
    rw [List.length_cons]
    omega

end

/-! ## the memory of the blocks -/

section
variable (t : Target)

/-- of two neighbours one is allocated -/
def Apart (bs : List Block) : Prop := bs.IsChain fun x y => x.used = true ∨ y.used = true

/-- the address of the end tag -/
def Heapblk.last (h : Heapblk) : Nat := h.addr + h.len

/-- the memory of the area holds the tags of the blocks -/
structure Laid (h : Heapblk) (bs : List Block) : Prop where
  tiles : Tiles t (h.firstFrl t) bs h.last
  tags : ∀ b ∈ bs, (h.mem b.addr).len = b.tag
  even : ∀ b ∈ bs, b.size % 2 = 0
  lastLen : (h.mem h.last).len = t.endTag
  headLen : (h.mem (h.freehead t)).len = 0
  fits : h.last + t.tagSize ≤ t.word

/-- a mini-heap between two operations -/
structure WellFormed (h : Heapblk) (bs : List Block) : Prop extends Laid t h bs where
  /-- the free list -/
  ring : Ring (fun p => (h.mem p).next) (fun p => (h.mem p).prev) (h.freehead t) (frees bs)
  /-- free blocks are apart -/
  apart : Apart bs
  numfree : h.numfree = (frees bs).length
  numalloc : h.numalloc = (useds bs).length
  rover : h.rover = h.freehead t ∨ h.rover ∈ frees bs
  b4rover : ∀ b ∈ bs, b.used = false → b.addr < h.rover → b.size ≤ h.b4rover
  largest : ∀ b ∈ bs, b.used = false → b.size ≤ h.largestBlk

end

section
variable {t : Target} {h h' : Heapblk} {l m m' r bs : List Block} {b : Block}

theorem freehead_lt : h.freehead t < h.firstFrl t := by
  have := freelistSize_pos t
  rw [Heapblk.freehead, Heapblk.firstFrl, Target.heapblkSize]
  omega

theorem Laid.block (hl : Laid t h bs) (hb : b ∈ bs) :
    h.firstFrl t ≤ b.addr ∧ b.addr + b.size ≤ h.last ∧ t.freelistSize ≤ b.size ∧ b.size % 2 = 0 := by
  have := hl.tiles.inside hb
  have := hl.even b hb
  omega

theorem Laid.len_free (hl : Laid t h bs) (hb : b ∈ bs) (hu : b.used = false) :
    (h.mem b.addr).len = b.size := by
  rw [hl.tags b hb, Block.tag, hu]
  rfl

theorem Laid.len_used (hl : Laid t h bs) (hb : b ∈ bs) (hu : b.used = true) :
    (h.mem b.addr).len = b.size + 1 := by
  rw [hl.tags b hb, Block.tag, hu]
  rfl

theorem Laid.size (hl : Laid t h bs) (hb : b ∈ bs) : h.getBlkSize b.addr = b.size := by
  have he := hl.even b hb
  rw [Heapblk.getBlkSize, hl.tags b hb, Block.tag]
  split <;> omega

theorem Laid.inuse (hl : Laid t h bs) (hb : b ∈ bs) : h.isBlkInuse b.addr = b.used := by
  have he := hl.even b hb
  rw [Heapblk.isBlkInuse, hl.tags b hb, Block.tag]
  cases b.used with
  | true => exact decide_eq_true (by rw [if_pos rfl]; omega)
  | false => exact decide_eq_false (by rw [if_neg (by simp)]; omega)

theorem word_even (t : Target) : t.word % 2 = 0 ∧ 2 ≤ t.word := by
  cases t <;> decide

theorem Laid.inuse_last (hl : Laid t h bs) : h.isBlkInuse h.last = true := by
  have := word_even t
  rw [Heapblk.isBlkInuse, hl.lastLen, Target.endTag]
  exact decide_eq_true (by omega)

/-- no block carries the end tag -/
theorem Laid.not_end (hl : Laid t h bs) (hb : b ∈ bs) : h.isBlkEnd t b.addr = false := by
  have h1 := hl.block hb
  have h2 := hl.fits
  have h3 : 0 < h.firstFrl t := Nat.lt_of_le_of_lt (Nat.zero_le _) freehead_lt
  have h4 := freelistSize_pos t
  have h5 : 2 ≤ t.tagSize := by cases t <;> decide
  rw [Heapblk.isBlkEnd, hl.tags b hb, Block.tag, Target.endTag]
  refine decide_eq_false ?_
  split <;> omega

theorem Laid.end_last (hl : Laid t h bs) : h.isBlkEnd t h.last = true :=
  decide_eq_true hl.lastLen

theorem apart_cons : Apart (b :: r) ↔ (∀ y ∈ r.head?, b.used = true ∨ y.used = true) ∧ Apart r :=
  List.isChain_cons

theorem apart_append : Apart (l ++ r) ↔
    Apart l ∧ Apart r ∧ ∀ x ∈ l.getLast?, ∀ y ∈ r.head?, x.used = true ∨ y.used = true :=
  List.isChain_append

/-- an allocated block goes anywhere -/
theorem apart_used (hb : b.used = true) : Apart (l ++ b :: r) ↔ Apart l ∧ Apart r := by
  rw [apart_append, apart_cons]
  refine ⟨fun h => ⟨h.1, h.2.1.2⟩, fun h => ⟨h.1, ⟨fun _ _ => Or.inl hb, h.2⟩, ?_⟩⟩
  rintro x - y hy
  rw [List.head?_cons, Option.mem_some_iff] at hy
  exact Or.inr (hy ▸ hb)

/-- a free block goes between allocated ones -/
theorem apart_free (hb : b.used = false) : Apart (l ++ b :: r) ↔
    Apart l ∧ Apart r ∧ (∀ x ∈ l.getLast?, x.used = true) ∧ ∀ y ∈ r.head?, y.used = true := by
  rw [apart_append, apart_cons]
  refine ⟨fun h => ⟨h.1, h.2.1.2, fun x hx => ?_, fun y hy => ?_⟩, fun h => ⟨h.1, ⟨?_, h.2.1⟩, ?_⟩⟩
  · exact (h.2.2 x hx b rfl).resolve_right (by rw [hb]; simp)
  · exact (h.2.1.1 y hy).resolve_left (by rw [hb]; simp)
  · exact fun y hy => Or.inr (h.2.2.2 y hy)
  · exact fun x hx _ _ => Or.inl (h.2.2.1 x hx)

/-- the entries of the free list lie behind the head -/
theorem Laid.head_lt (hl : Laid t h bs) {x : Nat} (hx : x ∈ frees bs) : h.freehead t < x :=
  Nat.lt_of_lt_of_le freehead_lt (hl.tiles.frees_ge hx).1

/-- the blocks `m` are exchanged for `m'`, which tile the same stretch -/
theorem Laid.edit (hl : Laid t h (l ++ m ++ r)) (ha : h'.addr = h.addr) (hn : h'.len = h.len)
    (hm : ∀ a e, Tiles t a m e → Tiles t a m' e ∧ a < e ∧
      ∀ q, q < a ∨ e ≤ q → (h'.mem q).len = (h.mem q).len)
    (htag : ∀ b ∈ m', (h'.mem b.addr).len = b.tag) (heven : ∀ b ∈ m', b.size % 2 = 0) :
    Laid t h' (l ++ m' ++ r) := by
  obtain ⟨e, h1, h2⟩ := tiles_append.mp hl.tiles
  obtain ⟨a, h3, h4⟩ := tiles_append.mp h1
  obtain ⟨h5, hae, h6⟩ := hm a e h4
  have ef : h'.firstFrl t = h.firstFrl t := by rw [Heapblk.firstFrl, ha, Heapblk.firstFrl]
  have el : h'.last = h.last := by rw [Heapblk.last, ha, hn, Heapblk.last]
  have eh : h'.freehead t = h.freehead t := by rw [Heapblk.freehead, ha, Heapblk.freehead]
  have hpos := freelistSize_pos t
  refine ⟨?_, ?_, ?_, ?_, ?_, ?_⟩
  · rw [ef, el]
    exact tiles_append.mpr ⟨e, tiles_append.mpr ⟨a, h3, h5⟩, h2⟩
  · intro b hb
    rcases List.mem_append.mp hb with hb | hb
    · rcases List.mem_append.mp hb with hb | hb
      · have := h3.inside hb
        rw [h6 _ (Or.inl (by omega))]
        exact hl.tags b (by simp [hb])
      · exact htag b hb
    · have := h2.inside hb
      rw [h6 _ (Or.inr this.1)]
      exact hl.tags b (by simp [hb])
  · intro b hb
    rcases List.mem_append.mp hb with hb | hb
    · rcases List.mem_append.mp hb with hb | hb
      · exact hl.even b (by simp [hb])
      · exact heven b hb
    · exact hl.even b (by simp [hb])
  · rw [el, h6 _ (Or.inr h2.le)]
    exact hl.lastLen
  · have := freehead_lt (t := t) (h := h)
    rw [eh, h6 _ (Or.inl (by have := h3.le; omega))]
    exact hl.headLen
  · rw [el]
    exact hl.fits

end

end Clib
