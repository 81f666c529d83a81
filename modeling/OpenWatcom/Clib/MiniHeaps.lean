import Mathlib
import OpenWatcom.Clib.HeapRuns

/-!
# The list of mini-heaps: `nmalloc.c`, `nfree.c`, `grownear.c`, `nheapmin.c`, `nheapunl.c`

* `Heaps`     the mini-heaps in the order of their links, the two rovers, and the cached bound;
* `nmalloc`, `nfree`, `expandDGROUP`, `nheapshrink`     the four operations;
* `Answer`     what the system says when it is asked for memory, and when memory is given back;
* `Alloc.asked`     the heaps as they were each time that `_nmalloc` went to the system.

The links of a mini-heap are its neighbours in the list, and a pointer to it is its address. Modelled
are the systems on which `__ExpandDGROUP` makes a mini-heap of its own: Windows, NT and OS/2.
-/

namespace Clib

/-- a mini-heap, and whether its memory may be high: `used_obj_any` is a field on OS/2 only -/
structure MiniHeap where
  blk : Heapblk
  usedObjAny : Bool

/-- `__nheapbeg`, `__MiniHeapRover`, `__LargestSizeB4MiniHeapRover` and `__MiniHeapFreeRover` -/
structure Heaps where
  list : List MiniHeap
  miniHeapRover : Option ℕ
  largestSizeB4 : ℕ
  miniHeapFreeRover : Option ℕ

def MiniHeap.addr (x : MiniHeap) : ℕ := x.blk.addr

/-- `IS_IN_HEAP` -/
def MiniHeap.isInHeap (x : MiniHeap) (m : ℕ) : Bool :=
  x.blk.addr ≤ m ∧ m < x.blk.addr + x.blk.len

/-- `heap->prev` and `heap->next` of the mini-heap at `a` -/
def prevHeap (a : ℕ) : List MiniHeap → Option MiniHeap
  | x :: y :: rest => if y.addr = a then some x else prevHeap a (y :: rest)
  | _ => none

def nextHeap (a : ℕ) : List MiniHeap → Option MiniHeap
  | x :: rest => if x.addr = a then rest.head? else nextHeap a rest
  | [] => none

/-- the descriptor at `h.addr` and its area are changed -/
def putHeap (h : Heapblk) (list : List MiniHeap) : List MiniHeap :=
  list.map fun x => if x.addr = h.addr then { x with blk := h } else x

section
variable (t : Target)

/-! ## `_nfree` -/

/-- the likely locations: the rover and its neighbours -/
def nearRover (list : List MiniHeap) (rover : Option ℕ) (cstg : ℕ) : Option MiniHeap :=
  match rover.bind fun a => list.find? fun x => x.addr = a with
  | none => none
  | some heap =>
    if heap.isInHeap cstg then some heap
    else ((prevHeap heap.addr list).filter (·.isInHeap cstg)).or
      ((nextHeap heap.addr list).filter (·.isInHeap cstg))

def findHeap (s : Heaps) (cstg : ℕ) : Option MiniHeap :=
  (nearRover s.list s.miniHeapFreeRover cstg).or
    ((nearRover s.list s.miniHeapRover cstg).or (s.list.find? (·.isInHeap cstg)))

def nfree (s : Heaps) (cstg : ℕ) : Option Heaps :=
  if cstg = 0 then some s
  else
    match findHeap s cstg with
    | none => some s
    | some heap => (memFree t heap.blk cstg).map fun h =>
      { list := putHeap h s.list
        miniHeapRover := s.miniHeapRover
        largestSizeB4 :=
          -- `heap < __MiniHeapRover`
          if (∃ r ∈ s.miniHeapRover, heap.addr < r) ∧ s.largestSizeB4 < h.largestBlk then
            h.largestBlk
          else s.largestSizeB4
        miniHeapFreeRover := some heap.addr }

/-! ## shrinking -/

/-- `__UnlinkNHeap` of the mini-heap at `a` -/
def unlinkNHeap (a : ℕ) (s : Heaps) : Heaps :=
  let rest := s.list.filter fun x => x.addr ≠ a
  let rover :=
    if s.miniHeapRover = some a then
      match prevHeap a s.list with
      | some prev => (some prev.addr, s.largestSizeB4)
      | none => (rest.head?.map MiniHeap.addr, 0)
    else (s.miniHeapRover, s.largestSizeB4)
  { list := rest
    miniHeapRover := rover.1
    largestSizeB4 := rover.2
    miniHeapFreeRover := if s.miniHeapFreeRover = some a then none else s.miniHeapFreeRover }

/-- the last free entry has the full size of the mini-heap -/
def isUnused (h : Heapblk) : Bool :=
  h.len - t.heapblkSize = (h.mem (h.mem (h.freehead t)).prev).len

/-- `__nheapshrink`; `returned a` when the system takes the mini-heap at `a` back -/
def nheapshrink (returned : ℕ → Bool) (s : Heaps) : Heaps :=
  s.list.foldl (fun s heap =>
    if isUnused t heap.blk ∧ returned heap.addr then unlinkNHeap heap.addr s else s) s

/-! ## growing -/

/-- what happens outside when memory is asked for -/
structure Answer where
  /-- `__heap_enabled`, and `_curbrk` is not at its end -/
  enabled : Bool
  /-- `_RWD_amblksiz` -/
  amblksiz : ℕ
  /-- the mini-heaps that are taken back -/
  returned : ℕ → Bool
  /-- the address that the system gives, and what the memory holds -/
  mem : Option ℕ
  contents : ℕ → Freelist

/-- the unit of what the system gives; the 16-bit library takes what it needs -/
def sysRound : Target → ℕ
  | .i86 => 1 | .ix86 => 2 ^ 12 | .os2 => 2 ^ 16

/-- `__AdjustAmount`; `none` is a request too large -/
def adjustAmount (amblksiz amount : ℕ) : Option ℕ :=
  let amt := t.roundUpSizeHeap amount
  if amt < amount then none
  else
    let oldAmount := amt
    let amt := (amt + (t.tagSize + t.freelistSize + t.heapblkSize)) % t.word
    if amt < oldAmount then none
    else
      let amt := if amt < amblksiz then amblksiz - amblksiz % 2 else amt
      let oldAmount := amt
      let amt := t.roundUpSize amt (sysRound t)
      if amt < oldAmount then none
      else if amt = 0 then none
      else some amt

/-- `__LinkUpNewNHeap` on the list -/
def linkHeap (new : MiniHeap) : List MiniHeap → List MiniHeap
  | [] => [new]
  | heap2 :: rest => if new.addr < heap2.addr then new :: heap2 :: rest else heap2 :: linkHeap new rest

/-- the memory that the system gave, with its descriptor filled out -/
def sysHeap (addr amount : ℕ) (contents : ℕ → Freelist) : Heapblk :=
  newNHeap t ⟨addr, amount - t.tagSize, 0, 0, 0, 0, 0, contents⟩

/-- `__CreateNewNHeap` -/
def createNewNHeap (objAny : Bool) (amount : ℕ) (ans : Answer) (s : Heaps) : Option (Bool × Heaps) :=
  let s := nheapshrink t ans.returned s
  match ans.mem with
  | none => some (false, s)
  | some addr =>
    let heap := sysHeap t addr amount ans.contents
    let s := { s with list := linkHeap ⟨heap, objAny⟩ s.list }
    (nfree t s (blk2Cstg t (heap.firstFrl t))).map fun s => (true, s)

/-- `__ExpandDGROUP` -/
def expandDGROUP (objAny : Bool) (amount : ℕ) (ans : Answer) (s : Heaps) : Option (Bool × Heaps) :=
  if ans.enabled then
    match adjustAmount t ans.amblksiz amount with
    | none => some (false, s)
    | some amount => createNewNHeap t objAny amount ans s
  else some (false, s)

/-! ## `_nmalloc` -/

/-- how a pass over the list ends: the storage, and the heaps behind it -/
structure Pass where
  cstg : ℕ
  rover : Option ℕ
  largestB4 : ℕ
  list : List MiniHeap

/-- `heap` is of the kind that is asked for -/
def MiniHeap.isKind (objAny : Bool) (x : MiniHeap) : Bool := t ≠ .os2 ∨ objAny = x.usedObjAny

/-- the search from a mini-heap on -/
def searchHeaps (objAny : Bool) (amt : ℕ) : Option ℕ → ℕ → List MiniHeap → Option Pass
  | rover, largestB4, [] => some ⟨0, rover, largestB4, []⟩
  | _, largestB4, heap :: rest =>
    let largest := heap.blk.largestBlk
    let next (heap' : MiniHeap) : Option Pass :=
      (searchHeaps objAny amt (some heap.addr) (max largestB4 largest) rest).map fun p =>
        { p with list := heap' :: p.list }
    if heap.isKind t objAny ∧ largest ≥ amt then
      match memAllocator t heap.blk amt with
      | none => none
      | some (cstg, h) =>
        let heap' := { heap with blk := h }
        if cstg ≠ 0 then some ⟨cstg, some heap.addr, largestB4, heap' :: rest⟩
        else next heap'
    else next heap

/-- one turn of the loop of `_nmalloc` up to the end of the list -/
def mallocPass (objAny : Bool) (amt : ℕ) (s : Heaps) : Option (ℕ × Heaps) :=
  -- where to start looking for free blocks
  let start :=
    if blkSize t amt > s.largestSizeB4 then
      match s.miniHeapRover with
      | none => (0, [], s.list)
      | some r => (s.largestSizeB4, s.list.takeWhile (·.addr ≠ r), s.list.dropWhile (·.addr ≠ r))
    else (0, [], s.list)
  (searchHeaps t objAny amt s.miniHeapRover start.1 start.2.2).map fun p =>
    (p.cstg, { s with list := start.2.1 ++ p.list, miniHeapRover := p.rover,
                      largestSizeB4 := p.largestB4 })

/-- what `_nmalloc` returns, and the heaps as they were when it went to the system -/
structure Alloc where
  cstg : ℕ
  heaps : Heaps
  asked : List Heaps

/-- `_nmalloc`; `__nmemneed` returns 0, so that there is a second pass behind a new mini-heap only -/
def nmalloc (objAny : Bool) (amt : ℕ) (ans : Answer) (s : Heaps) : Option Alloc :=
  if amt = 0 ∨ amt > t.word - t.heapblkSize then some ⟨0, s, []⟩
  else
    match mallocPass t objAny amt s with
    | none => none
    | some (cstg, s) =>
      if cstg ≠ 0 then some ⟨cstg, s, []⟩
      else
        match expandDGROUP t objAny amt ans s with
        | none => none
        | some (false, s') => some ⟨0, s', [s]⟩
        | some (true, s') =>
          (mallocPass t objAny amt s').map fun r => ⟨r.1, r.2, if r.1 ≠ 0 then [s] else [s, r.2]⟩

end

end Clib
