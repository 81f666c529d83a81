import OpenWatcom.Clib.MiniHeapRuns

/-!
# Looking at the heap: `nheapwal.c`, `nheapchk.c`, `freect.c`

* `nHeapWalk`     the entry behind an entry, through the mini-heaps
* `checkFreeList`, `checkFree`, `nheapchk`     the check of the heap
* `freect`     how often a size can be allocated
* `nmallocs`     one call of `_nmalloc` after the other

The null pointer is 0. Loops are bounded as those of the heap; `none` is a loop that is still running.
-/

namespace Clib

inductive HeapStatus
  | heapOk | heapEmpty | heapBadBegin | heapBadNode | heapEnd | heapBadPtr
  deriving DecidableEq, Repr

/-- `struct _heapinfo`; `_useflag` is `_USEDENTRY` or `_FREEENTRY` -/
structure HeapInfo where
  pentry : ℕ
  used : Bool
  size : ℕ
  deriving DecidableEq, Repr

section
variable (t : Target)

/-! ## the walk -/

/-- the mini-heaps from the one with the entry on, or from the last one on -/
def heapsFrom (frl : ℕ) : List MiniHeap → List MiniHeap
  | x :: y :: rest => if x.isInHeap frl then x :: y :: rest else heapsFrom frl (y :: rest)
  | rest => rest

/-- the loop that goes on to the next mini-heap at an end tag -/
def skipEnds : List MiniHeap → ℕ → HeapStatus × HeapInfo
  | [], _ => (.heapEnd, ⟨0, true, 0⟩)
  | heap :: rest, frl =>
    if heap.blk.isBlkEnd t frl then
      match rest with
      | [] => (.heapEnd, ⟨0, true, 0⟩)
      | heap' :: _ => skipEnds rest (heap'.blk.firstFrl t)
    else (.heapOk, ⟨frl, heap.blk.isBlkInuse frl, heap.blk.getBlkSize frl⟩)

/-- `__NHeapWalk` -/
def nHeapWalk (entry : HeapInfo) (list : List MiniHeap) : HeapStatus × HeapInfo :=
  match list with
  | [] => (.heapEmpty, entry)
  | heap :: _ =>
    if entry.pentry = 0 then skipEnds t list (heap.blk.firstFrl t)
    else
      match heapsFrom entry.pentry list with
      | [] => (.heapEmpty, entry)
      | heap :: rest =>
        let frlNext := heap.blk.nextBlkA entry.pentry
        if frlNext ≤ entry.pentry then (.heapBadNode, entry) else skipEnds t (heap :: rest) frlNext

/-- `__NHeapWalk` until it does not answer `_HEAPOK`: the entries, and the last answer -/
def walkAll (list : List MiniHeap) : ℕ → HeapInfo → Option (List HeapInfo × HeapStatus)
  | 0, _ => none
  | f + 1, entry =>
    match nHeapWalk t entry list with
    | (.heapOk, entry) => (walkAll list f entry).map fun r => (entry :: r.1, r.2)
    | (status, _) => some ([], status)

/-! ## the check -/

/-- a pointer between the head of the free list and the end of the mini-heap -/
def inBounds (h : Heapblk) (p : ℕ) : Bool := p ≠ 0 ∧ h.freehead t ≤ p ∧ p ≤ h.last

/-- the loop of `checkFreeList` around one ring: its size is added, or there is a bad node -/
def checkRing (h : Heapblk) (endFrl : ℕ) : ℕ → ℕ → ℕ → Option (Option ℕ)
  | 0, _, _ => none
  | f + 1, frl, freeListSize =>
    if inBounds t h (h.mem frl).next = false then some none
    else if (h.mem (h.mem frl).next).prev ≠ frl then some none
    else if h.isBlkInuse frl then some none
    else
      let newSize := (freeListSize + (h.mem frl).len) % t.word
      if newSize < freeListSize then some none
      else if (h.mem frl).next = endFrl then some (some newSize)
      else checkRing h endFrl f (h.mem frl).next newSize

def checkFreeList : List MiniHeap → ℕ → Option (Option ℕ)
  | [], freeListSize => some (some freeListSize)
  | heap :: rest, freeListSize =>
    let h := heap.blk
    let frl := (h.mem (h.freehead t)).next
    if inBounds t h (h.mem frl).prev = false then some none
    else if (h.mem (h.mem frl).prev).next ≠ frl then some none
    else
      match checkRing t h frl (h.len + 2) frl freeListSize with
      | some (some newSize) => checkFreeList rest newSize
      | r => r

/-- the record that a pointer leads to -/
def recordAt (list : List MiniHeap) (p : ℕ) : Freelist :=
  ((list.find? (·.isInHeap p)).map fun x => x.blk.mem p).getD ⟨0, 0, 0⟩

/-- `checkFree`, whether it answers `_HEAPOK` -/
def checkFree (list : List MiniHeap) (frl : ℕ) : Bool :=
  let next := (recordAt list frl).next
  let prev := (recordAt list frl).prev
  (recordAt list frl).len % 2 = 0 ∧ next ≠ 0 ∧ prev ≠ 0 ∧
    (recordAt list next).prev = frl ∧ (recordAt list prev).next = frl ∧
    (recordAt list next).next ≠ 0 ∧ (recordAt list prev).prev ≠ 0 ∧
    (recordAt list (recordAt list next).next).prev = next ∧
    (recordAt list (recordAt list prev).prev).next = prev

/-- the loop of `_nheapchk` over the entries -/
def chkLoop (list : List MiniHeap) : ℕ → HeapInfo → ℕ → Option (HeapStatus × ℕ)
  | 0, _, _ => none
  | f + 1, hi, freeSize =>
    match nHeapWalk t hi list with
    | (.heapOk, hi) =>
      if hi.used then chkLoop list f hi freeSize
      else if checkFree list hi.pentry = false then some (.heapBadNode, freeSize)
      else chkLoop list f hi ((freeSize + t.word - hi.size) % t.word)
    | (status, _) => some (status, freeSize)

/-- `_nheapchk` -/
def nheapchk (fuel : ℕ) (list : List MiniHeap) : Option HeapStatus :=
  match checkFreeList t list 0 with
  | none => none
  | some none => some .heapBadNode
  | some (some freeSize) =>
    (chkLoop t list fuel ⟨0, true, 0⟩ freeSize).map fun (status, freeSize) =>
      if freeSize ≠ 0 then .heapBadNode
      else if status = .heapBadPtr then .heapBadNode
      else if status = .heapEnd then .heapOk
      else status

/-! ## `_freect` -/

/-- the loop over the free list of a mini-heap -/
def freectRing (h : Heapblk) (sizeOfChunk : ℕ) : ℕ → ℕ → ℕ → Option ℕ
  | 0, _, _ => none
  | f + 1, frl, count =>
    if frl = h.freehead t then some count
    else freectRing h sizeOfChunk f (h.mem frl).next ((count + (h.mem frl).len / sizeOfChunk) % t.word)

def freectLoop (sizeOfChunk : ℕ) : List MiniHeap → ℕ → Option ℕ
  | [], count => some count
  | heap :: rest, count =>
    (freectRing t heap.blk sizeOfChunk (heap.blk.len + 2) (heap.blk.mem (heap.blk.freehead t)).next
      count).bind (freectLoop sizeOfChunk rest)

/-- `_freect`; the size of a chunk is that of the block for a request -/
def freect (size : ℕ) (list : List MiniHeap) : Option ℕ :=
  if t.roundUpSizeHeap size < size then some 0 else freectLoop t (blkSize t size) list 0

/-- calls of `_nmalloc` for one size, and what they return -/
def nmallocs (objAny : Bool) (amt : ℕ) (ans : Answer) : ℕ → Heaps → Option (List ℕ × Heaps)
  | 0, s => some ([], s)
  | n + 1, s =>
    match nmalloc t objAny amt ans s with
    | none => none
    | some a => (nmallocs objAny amt ans n a.heaps).map fun r => (a.cstg :: r.1, r.2)

end

end Clib
