import Mathlib

/-!
# The C library heap: `mem.c`, `_expand.c`, `grownear.c`

One mini-heap: its descriptor, and the records that lie in its area.

* `Target`                 the sizes `heap.h` derives for the 16-bit and the 32-bit library and OS/2;
* `Heapblk`                the descriptor and the memory behind it, one `freelist` record an address;
* `linkUpNewNHeap`, `newNHeap`     a new mini-heap, and its one block built for `_nfree`;
* `memAllocator`, `memFree`, `heapManagerExpand`    the three operations.

The area of a mini-heap ends below the largest address, so sums of addresses are not reduced. Loops
are bounded by the length of the area; `none` is a loop that is still running then.
-/

namespace Clib

/-- `_M_I86`, the 32-bit library, and that of `__OS2_32BIT__` -/
inductive Target
  | i86 | ix86 | os2
  deriving DecidableEq, Repr

namespace Target

def tagSize : Target → Nat
  | i86 => 2 | ix86 => 4 | os2 => 4

def heapRoundSize : Target → Nat
  | i86 => 2 | ix86 => 8 | os2 => 8

/-- the number of values of an `unsigned` -/
def word : Target → Nat
  | i86 => 2 ^ 16 | ix86 => 2 ^ 32 | os2 => 2 ^ 32

def endTag (t : Target) : Nat := t.word - 1

/-- the bit field `used_obj_any` that only OS/2 has -/
def objAnySize : Target → Nat
  | i86 => 0 | ix86 => 0 | os2 => 4

/-- `sizeof( freelist )` and `sizeof( heapblk )` -/
def freelistSize (t : Target) : Nat := 3 * t.tagSize
def heapblkSize (t : Target) : Nat := 8 * t.tagSize + t.freelistSize + t.objAnySize

/-- `__ROUND_UP_SIZE` in words -/
def roundUpSize (t : Target) (s amt : Nat) : Nat :=
  let x := (s + (amt - 1)) % t.word
  x - x % amt

def roundUpSizeHeap (t : Target) (s : Nat) : Nat := t.roundUpSize (s + t.tagSize) t.heapRoundSize

def frlSize (t : Target) : Nat := t.roundUpSize t.freelistSize t.heapRoundSize

end Target

/-- `freelist` -/
structure Freelist where
  len : Nat
  prev : Nat
  next : Nat
  deriving DecidableEq, Repr

/-- `heapblk` at `addr`, without its links to other mini-heaps, and the memory; the record of
`freehead` is part of the memory -/
structure Heapblk where
  addr : Nat
  len : Nat
  rover : Nat
  b4rover : Nat
  largestBlk : Nat
  numalloc : Nat
  numfree : Nat
  mem : Nat → Freelist

namespace Heapblk

def setLen (h : Heapblk) (p n : Nat) : Heapblk :=
  { h with mem := Function.update h.mem p { h.mem p with len := n } }

def setPrev (h : Heapblk) (p q : Nat) : Heapblk :=
  { h with mem := Function.update h.mem p { h.mem p with prev := q } }

def setNext (h : Heapblk) (p q : Nat) : Heapblk :=
  { h with mem := Function.update h.mem p { h.mem p with next := q } }

/-- `&heap->freehead` -/
def freehead (t : Target) (h : Heapblk) : Nat := h.addr + 8 * t.tagSize

/-- `FIRST_FRL` -/
def firstFrl (t : Target) (h : Heapblk) : Nat := h.addr + t.heapblkSize

def getBlkSize (h : Heapblk) (p : Nat) : Nat := (h.mem p).len - (h.mem p).len % 2
def isBlkInuse (h : Heapblk) (p : Nat) : Bool := (h.mem p).len % 2 ≠ 0
def isBlkEnd (t : Target) (h : Heapblk) (p : Nat) : Bool := (h.mem p).len = t.endTag
def nextBlk (h : Heapblk) (p : Nat) : Nat := p + (h.mem p).len
def nextBlkA (h : Heapblk) (p : Nat) : Nat := p + h.getBlkSize p

def setBlkInuse (h : Heapblk) (p : Nat) : Heapblk := h.setLen p (h.getBlkSize p + 1)

end Heapblk

def blk2Cstg (t : Target) (p : Nat) : Nat := p + t.tagSize
def cstg2Blk (t : Target) (cstg : Nat) : Nat := cstg - t.tagSize

section
variable (t : Target)

/-! ## a new mini-heap -/

/-- `__LinkUpNewNHeap` on the descriptor itself -/
def linkUpNewNHeap (h : Heapblk) : Heapblk :=
  let h := h.setLen (h.freehead t) 0
  let h := h.setPrev (h.freehead t) (h.freehead t)
  let h := h.setNext (h.freehead t) (h.freehead t)
  let h := { h with rover := h.freehead t, b4rover := 0, numalloc := 0, numfree := 0 }
  let h := h.setLen (h.firstFrl t) (h.len - t.heapblkSize)
  h.setLen (h.nextBlk (h.firstFrl t)) t.endTag

/-- what the callers of `__LinkUpNewNHeap` do before they give the block to `_nfree` -/
def newNHeap (h : Heapblk) : Heapblk :=
  let h := linkUpNewNHeap t h
  let h := h.setBlkInuse (h.firstFrl t)
  { h with numalloc := h.numalloc + 1, largestBlk := 0 }

/-! ## `__MemAllocator` -/

/-- where a search of the free list ends, and the largest block passed -/
inductive Search
  | found (pcur largest : Nat)
  | failed (largest : Nat)

def search (h : Heapblk) (size : Nat) : Nat → Nat → Nat → Option Search
  | 0, _, _ => none
  | f + 1, pcur, largest =>
    let len := (h.mem pcur).len
    if size ≤ len then some (.found pcur largest)
    else
      let largest := if largest < len then len else largest
      let pcur := (h.mem pcur).next
      if pcur = h.freehead t then some (.failed largest) else search h size f pcur largest

/-- `size` bytes are taken from the free block `pcur` -/
def takeBlk (h : Heapblk) (pcur size largest : Nat) : Heapblk :=
  let h := { h with b4rover := largest, numalloc := h.numalloc + 1 }
  let len := (h.mem pcur).len - size
  let h :=
    if t.frlSize ≤ len then
      let pnew := pcur + size
      let h := { h with rover := pnew }
      let h := h.setLen pnew len
      let h := h.setLen pcur size
      let pprev := (h.mem pcur).prev
      let h := h.setPrev pnew pprev
      let pnext := (h.mem pcur).next
      let h := h.setNext pnew pnext
      let h := h.setNext pprev pnew
      h.setPrev pnext pnew
    else
      let pprev := (h.mem pcur).prev
      let h := { h with numfree := h.numfree - 1, rover := pprev }
      let pnext := (h.mem pcur).next
      let h := h.setNext pprev pnext
      h.setPrev pnext pprev
  h.setBlkInuse pcur

/-- the size of the block for a request -/
def blkSize (reqSize : Nat) : Nat :=
  let size := t.roundUpSizeHeap reqSize
  if size < t.frlSize then t.frlSize else size

def memAllocator (h : Heapblk) (reqSize : Nat) : Option (Nat × Heapblk) :=
  if reqSize ≠ 0 ∧ t.roundUpSizeHeap reqSize ≥ reqSize ∧ blkSize t reqSize ≤ h.largestBlk then
    let size := blkSize t reqSize
    let found :=
      if size ≤ h.b4rover then search t h size (h.len + 2) (h.mem (h.freehead t)).next 0
      else search t h size (h.len + 2) h.rover h.b4rover
    match found with
    | none => none
    | some (.failed largest) => some (0, { h with largestBlk := largest })
    | some (.found pcur largest) => some (blk2Cstg t pcur, takeBlk t h pcur size largest)
  else some (0, h)

/-! ## `__MemFree` -/

/-- the special places around the rover and at the ends of the free list -/
def specialSpot (h : Heapblk) (pfree : Nat) : Option Nat :=
  if pfree < h.rover then
    if pfree > (h.mem h.rover).prev then some h.rover
    else if pfree < (h.mem (h.freehead t)).next then some (h.mem (h.freehead t)).next
    else none
  else if pfree < (h.mem h.rover).next then some (h.mem h.rover).next
  else if pfree > (h.mem (h.freehead t)).prev then some (h.freehead t)
  else none

/-- the scan of the blocks behind `pfree`: a free one, or the search is given up -/
def scanLoop (h : Heapblk) : Nat → Nat → Nat → Option (Option Nat)
  | 0, _, _ => none
  | f + 1, pnext, average =>
    if h.isBlkEnd t pnext then some none
    else if h.isBlkInuse pnext = false then some (some pnext)
    else
      let average := (average + t.word - 1) % t.word
      if average = 0 then some none else scanLoop h f (h.nextBlkA pnext) average

def scanAhead (h : Heapblk) (pfree : Nat) : Option (Option Nat) :=
  let average := h.numalloc / (h.numfree + 1)
  if average < h.numfree then
    let worst := (h.numalloc + t.word - h.numfree) % t.word
    scanLoop t h (h.len + 1) (h.nextBlk pfree)
      (if worst ≤ h.numfree then t.word - 1 else average * 2 % t.word)
  else some none

/-- the first entry behind `pfree`, from `pnext` on -/
def searchSpot (h : Heapblk) (pfree : Nat) : Nat → Nat → Option Nat
  | 0, _ => none
  | f + 1, pnext =>
    if pfree < pnext then some pnext else searchSpot h pfree f (h.mem pnext).next

/-- the free block behind `pfree` is taken out of the list and added to it -/
def joinNext (h : Heapblk) (pfree len pnext : Nat) : Heapblk × Nat :=
  let h := h.setLen pfree (len + (h.mem pnext).len)
  let h := if pnext = h.rover then { h with rover := pfree } else h
  let pprev := (h.mem pnext).prev
  let pnext := (h.mem pnext).next
  let h := h.setNext pprev pnext
  let h := h.setPrev pnext pprev
  ({ h with numfree := h.numfree - 1 }, pnext)

/-- the entry of the free list before which `pfree` belongs -/
def findSpot (h : Heapblk) (pfree : Nat) : Option (Heapblk × Nat) :=
  let len := h.getBlkSize pfree
  let pnext := pfree + len
  if h.isBlkInuse pnext = false then some (joinNext h pfree len pnext)
  else
    let h := h.setLen pfree len
    match specialSpot t h pfree with
    | some pnext => some (h, pnext)
    | none =>
      match scanAhead t h pfree with
      | none => none
      | some (some pnext) => some (h, pnext)
      | some none =>
        -- pfree is before rover? then begin at start
        let pnext := if pfree < h.rover then (h.mem (h.freehead t)).next else h.rover
        (searchSpot h pfree (h.len + 2) pnext).map fun pnext => (h, pnext)

/-- `pfree` becomes part of the entry before it, or an entry itself -/
def joinPrev (h : Heapblk) (pfree pprev pnext : Nat) : Heapblk × Nat × Nat :=
  let len := (h.mem pfree).len
  if h.nextBlk pprev = pfree then
    let len := len + (h.mem pprev).len
    let h := h.setLen pprev len
    (if h.rover = pfree then { h with rover := pprev } else h, pprev, len)
  else
    let h := { h with numfree := h.numfree + 1 }
    let h := h.setNext pfree pnext
    let h := h.setPrev pfree pprev
    let h := h.setNext pprev pfree
    (h.setPrev pnext pfree, pfree, len)

/-- the code behind `found_it` -/
def linkFree (h : Heapblk) (pfree pnext : Nat) : Heapblk :=
  let pprev := (h.mem pnext).prev
  let (h, pfree, len) := joinPrev h pfree pprev pnext
  let h := { h with numalloc := h.numalloc - 1 }
  let h := if pfree < h.rover ∧ h.b4rover < len then { h with b4rover := len } else h
  if h.largestBlk < len then { h with largestBlk := len } else h

def memFree (h : Heapblk) (cstg : Nat) : Option Heapblk :=
  if cstg ≠ 0 ∧ h.isBlkInuse (cstg2Blk t cstg) then
    (findSpot t h (cstg2Blk t cstg)).map fun (h, pnext) => linkFree h (cstg2Blk t cstg) pnext
  else some h

/-! ## `__HeapManager_expand` -/

inductive Hm
  | success | fail
  | tryGrow (growthSize : Nat)
  deriving DecidableEq, Repr

/-- the loop over the free blocks `p2` behind the block `p1` -/
def growLoop (p1 : Nat) : Nat → Heapblk → Nat → Nat → Option (Hm × Heapblk)
  | 0, _, _, _ => none
  | f + 1, h, p2, growthSize =>
    if h.isBlkEnd t p2 then some (.tryGrow growthSize, h)
    else if h.isBlkInuse p2 then some (.fail, h)
    else
      let freeSize := (h.mem p2).len
      let pnext := (h.mem p2).next
      let pprev := (h.mem p2).prev
      let h := if h.rover = p2 then { h with rover := (h.mem p2).prev } else h
      if freeSize < growthSize ∨ freeSize - growthSize < t.frlSize then
        -- unlink small free block
        let h := h.setNext pprev pnext
        let h := h.setPrev pnext pprev
        let h := h.setLen p1 ((h.mem p1).len + freeSize)
        let h := { h with numfree := h.numfree - 1 }
        if freeSize ≥ growthSize then some (.success, h)
        else growLoop p1 f h (p2 + freeSize) (growthSize - freeSize)
      else
        let p2 := p2 + growthSize
        let h := h.setLen p2 (freeSize - growthSize)
        let h := h.setPrev p2 pprev
        let h := h.setNext p2 pnext
        let h := h.setNext pprev p2
        let h := h.setPrev pnext p2
        some (.success, h.setLen p1 ((h.mem p1).len + growthSize))

/-- the size of the block for a new size; a size that overflows goes for the largest -/
def expandSize (reqSize : Nat) : Nat :=
  let size := t.roundUpSizeHeap reqSize
  let size := if size < reqSize then t.word - 1 else size
  if size < t.frlSize then t.frlSize else size

def heapManagerExpand (h : Heapblk) (cstg reqSize : Nat) : Option (Hm × Heapblk) :=
  let newSize := expandSize t reqSize
  let p1 := cstg2Blk t cstg
  let oldSize := h.getBlkSize p1
  if newSize > oldSize then
    growLoop t p1 (h.len + 1) h (p1 + oldSize) (newSize - oldSize)
  else if oldSize - newSize ≥ t.frlSize then
    -- block big enough to split
    let h := h.setLen p1 (newSize + 1)
    let p2 := p1 + newSize
    let h := h.setLen p2 (oldSize - newSize + 1)
    let h := { h with numalloc := h.numalloc + 1 }
    (memFree t h (blk2Cstg t p2)).map fun h => (.success, h)
  else some (.success, h)

end

end Clib
