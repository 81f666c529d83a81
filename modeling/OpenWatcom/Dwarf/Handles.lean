import Mathlib

/-!
# Handles and their references: `dwhandle.c`, `dwcarve.c`

* `newBlock`, `newHandle`, `getIndex`, `getCommon`     the entries of the handles, in blocks of 1024 that
  stand in a skip list
* `carveAlloc`, `carveFreeLink`     the links of the chains of forward references
* `handleWriteOffset`, `setHandleLocation`     a reference is written, and a handle gets its location
* `Op`, `Client.step`     one call, or bytes that the program writes to a section itself

A block is the number of its allocation, and a link of a chain an even number that is not 0. The sections
are those of the program that uses the library, which can tell every position in 32 bits. What a call
does when it goes through a null pointer, when the program refuses to write or when there are too many
handles is `none`.
-/

namespace DwHandle

def blockSize : ℕ := 1024
def maxHandleHeight : ℕ := 12
def handleMask : ℕ := 0x0fffffff
/-- `DW_FT_MAX` -/
def firstHandle : ℕ := 9
/-- `DW_DEBUG_MAX` -/
def debugMax : ℕ := 9
/-- the elements of a block of `chain_carver` -/
def chainBlock : ℕ := 16

/-- `dw_sectnum` -/
abbrev Sectnum := Fin debugMax

def debugInfo : Sectnum := ⟨0, by decide⟩

/-- `dw_sect_offs`, `dw_out_offset` -/
abbrev SectOffs := BitVec 32

/-- `handle_common`: the union of an offset and of a pointer, which may be wider than the offset -/
structure HandleCommon where
  offset : SectOffs
  high : ℕ
deriving DecidableEq

/-- `reloc.u.chain` -/
def HandleCommon.chain (c : HandleCommon) : ℕ := c.offset.toNat + 2 ^ 32 * c.high

def ofChain (chain : ℕ) : HandleCommon := ⟨BitVec.ofNat 32 chain, chain / 2 ^ 32⟩

/-- `GET_HANDLE_LOCATION` -/
def getHandleLocation (c : HandleCommon) : SectOffs :=
  if c.offset &&& 1#32 ≠ 0#32 then c.offset >>> 1 else 0#32

/-- `SET_HANDLE_LOCATION` -/
def setLocation (c : HandleCommon) (o : SectOffs) : HandleCommon := { c with offset := 1#32 ||| (o <<< 1) }

/-- `IS_FORWARD_LOCATION` -/
def isForwardLocation (c : HandleCommon) : Bool := c.offset &&& 1#32 == 0#32

/-! ## the blocks of the entries -/

structure HandleBlk where
  data : ℕ → HandleCommon
  index : ℕ
  height : ℕ
  next : ℕ → Option ℕ

/-- an array of links, one for each level: that of the client or that of a block -/
inductive Edge where
  | head
  | next (blk : ℕ)
deriving DecidableEq

/-- `handles_private`; `blockTail i` is the array whose link `i` ends level `i` -/
structure Handles where
  numHandles : ℕ
  forward : BitVec 32
  blockHead : ℕ → Option ℕ
  blockTail : ℕ → Edge
  maxHeight : ℕ
  blocks : ℕ → HandleBlk
  blockCount : ℕ

def Handles.link (hs : Handles) : Edge → ℕ → Option ℕ
  | .head, i => hs.blockHead i
  | .next blk, i => (hs.blocks blk).next i

def Handles.setLink (hs : Handles) : Edge → ℕ → Option ℕ → Handles
  | .head, i, p => { hs with blockHead := Function.update hs.blockHead i p }
  | .next blk, i, p =>
    let b := hs.blocks blk
    { hs with blocks := Function.update hs.blocks blk { b with next := Function.update b.next i p } }

def Handles.init : Handles where
  numHandles := 0
  forward := 0
  blockHead := fun _ => none
  blockTail := fun _ => .head
  maxHeight := 0
  blocks := fun _ => ⟨fun _ => ⟨0, 0⟩, 0, 0, fun _ => none⟩
  blockCount := 0

/-- the height of a block: each toss tells whether `rand( )` was in the upper half -/
def blockHeight : List Bool → ℕ → ℕ
  | true :: tosses, height => if height < maxHandleHeight then blockHeight tosses (height + 1) else height
  | _, height => height

/-- the block is linked into the list of one level -/
def linkLevel (blk : ℕ) (hs : Handles) (i : ℕ) : Handles :=
  let hs := hs.setLink (.next blk) i none
  let hs := hs.setLink (hs.blockTail i) i (some blk)
  { hs with blockTail := Function.update hs.blockTail i (.next blk) }

def newBlock (hs : Handles) (tosses : List Bool) : Handles :=
  let height := blockHeight tosses 1
  let blk := hs.blockCount
  let hs := { hs with
    maxHeight := if hs.maxHeight < height then height else hs.maxHeight
    blockCount := hs.blockCount + 1
    blocks := Function.update hs.blocks blk
      ⟨fun _ => ⟨0, 0⟩, hs.numHandles / blockSize, height, fun _ => none⟩ }
  (List.range height).foldl (linkLevel blk) hs

/-- the handle, and the handles after it -/
def newHandle (hs : Handles) (tosses : List Bool) : Option (ℕ × Handles) :=
  let elmNum := hs.numHandles
  if elmNum % blockSize = 0 ∧ blockSize * 2 ^ 16 ≤ elmNum then none
  else
    let hs := if elmNum % blockSize = 0 then newBlock hs tosses else hs
    some (elmNum + firstHandle,
      { hs with numHandles := hs.numHandles + 1, forward := hs.forward + 1 })

/-- the two loops of `getIndex`: the levels downwards, and on each of them to the right -/
def getIndexLoop (hs : Handles) (index : ℕ) : ℕ → Edge → ℕ → Option ℕ
  | 0, _, _ => none
  | rounds + 1, leftEdge, i =>
    match hs.link leftEdge i with
    | none => none
    | some blk =>
      if (hs.blocks blk).index = index then some blk
      else if index < (hs.blocks blk).index ∨ (hs.blocks blk).next i = none then
        match i with
        | 0 => none
        | i + 1 => getIndexLoop hs index rounds leftEdge i
      else getIndexLoop hs index rounds (.next blk) i

/-- a round goes one level down or at least one block on, so these are enough -/
def getIndex (hs : Handles) (index : ℕ) : Option ℕ :=
  match hs.maxHeight with
  | 0 => none
  | top + 1 => getIndexLoop hs index (top + 1 + hs.blockCount) .head top

def elmNumber (hdl : ℕ) : ℕ := (hdl &&& handleMask) - firstHandle

/-- `DW_GetCommon`: the entry, as its block and its place there -/
def getCommon (hs : Handles) (hdl : ℕ) : Option (ℕ × ℕ) :=
  match getIndex hs (elmNumber hdl / blockSize) with
  | none => none
  | some blk => some (blk, elmNumber hdl % blockSize)

def Handles.entry (hs : Handles) (c : ℕ × ℕ) : HandleCommon := (hs.blocks c.1).data c.2

def Handles.setEntry (hs : Handles) (c : ℕ × ℕ) (e : HandleCommon) : Handles :=
  let b := hs.blocks c.1
  { hs with blocks := Function.update hs.blocks c.1 { b with data := Function.update b.data c.2 e } }

/-! ## the links of the chains -/

/-- `reloc_chain` -/
structure RelocChain where
  next : ℕ
  offset : SectOffs
  sect : Sectnum

/-- `carve_t`: `topElm` elements of the newest block were not handed out yet -/
structure Carve where
  freeList : ℕ
  blkCount : ℕ
  topElm : ℕ

/-- `DW_CarveCreate`, with the first block -/
def Carve.create : Carve := ⟨0, 1, chainBlock⟩

/-- element `k` of block `b` -/
def elmAddress (b k : ℕ) : ℕ := 2 * (chainBlock * b + k + 1)

/-- `DW_CarveAlloc` -/
def carveAlloc (cv : Carve) (cells : ℕ → RelocChain) : ℕ × Carve :=
  if cv.freeList ≠ 0 then (cv.freeList, { cv with freeList := (cells cv.freeList).next })
  else
    let cv := if cv.topElm = 0 then { cv with blkCount := cv.blkCount + 1, topElm := chainBlock } else cv
    (elmAddress (cv.blkCount - 1) (cv.topElm - 1), { cv with topElm := cv.topElm - 1 })

/-! ## the sections -/

/-- a section of the program: its bytes and where the next one goes -/
structure Sect where
  cells : ℕ → BitVec 8
  size : ℕ
  pos : ℕ

/-- `CLITell` -/
def Sect.tell (s : Sect) : SectOffs := BitVec.ofNat 32 s.pos

/-- `CLIWrite` -/
def Sect.write (s : Sect) (bytes : List (BitVec 8)) : Option Sect :=
  if s.pos + bytes.length < 2 ^ 32 then
    some { cells := fun p => if s.pos ≤ p then bytes.getD (p - s.pos) (s.cells p) else s.cells p
           size := max s.size (s.pos + bytes.length)
           pos := s.pos + bytes.length }
  else none

/-- the four bytes of a number -/
def bytesU32 (bigEndian : Bool) (v : BitVec 32) : List (BitVec 8) :=
  let bytes := [v.extractLsb' 0 8, v.extractLsb' 8 8, v.extractLsb' 16 8, v.extractLsb' 24 8]
  if bigEndian then bytes.reverse else bytes

/-- `dw_client` -/
structure Client where
  handles : Handles
  carver : Carve
  cells : ℕ → RelocChain
  sections : Sectnum → Sect
  sectionBase : Sectnum → SectOffs
  bigEndian : Bool

def Client.setSect (cl : Client) (sect : Sectnum) (s : Sect) : Client :=
  { cl with sections := Function.update cl.sections sect s }

def Client.write (cl : Client) (sect : Sectnum) (bytes : List (BitVec 8)) : Option Client := do
  let s ← (cl.sections sect).write bytes
  some (cl.setSect sect s)

def Client.writeU32 (cl : Client) (sect : Sectnum) (v : BitVec 32) : Option Client :=
  cl.write sect (bytesU32 cl.bigEndian v)

/-- `CLISectionSeekAbs` -/
def Client.seekAbs (cl : Client) (sect : Sectnum) (o : SectOffs) : Client :=
  cl.setSect sect { cl.sections sect with pos := o.toNat }

/-- `CLISectionSeekEnd` -/
def Client.seekEnd (cl : Client) (sect : Sectnum) : Client :=
  cl.setSect sect { cl.sections sect with pos := (cl.sections sect).size }

/-- `InfoSectionOffset` -/
def Client.infoSectionOffset (cl : Client) : SectOffs :=
  (cl.sections debugInfo).tell - cl.sectionBase debugInfo

/-! ## references and locations -/

/-- a forward reference at the position of the section is put in front of the chain of the entry -/
def Client.addForward (cl : Client) (c : ℕ × ℕ) (sect : Sectnum) : Client :=
  let (chain, carver) := carveAlloc cl.carver cl.cells
  { cl with
    carver := carver
    cells := Function.update cl.cells chain
      ⟨(cl.handles.entry c).chain, (cl.sections sect).tell, sect⟩
    handles := cl.handles.setEntry c (ofChain chain) }

/-- `DW_HandleWriteOffset` -/
def Client.handleWriteOffset (cl : Client) (hdl : ℕ) (sect : Sectnum) : Option Client := do
  let c ← getCommon cl.handles hdl
  let e := cl.handles.entry c
  let offset := getHandleLocation e
  let cl := if isForwardLocation e then cl.addForward c sect else cl
  cl.writeU32 sect offset

/-- `DW_CarveFreeLink`: the next link, and the client after it -/
def Client.carveFreeLink (cl : Client) (elm : ℕ) : ℕ × Client :=
  ((cl.cells elm).next,
    { cl with
      cells := Function.update cl.cells elm { cl.cells elm with next := cl.carver.freeList }
      carver := { cl.carver with freeList := elm } })

/-- the loop that updates the forward references -/
def patchLoop (offset : SectOffs) : ℕ → Client → (Sectnum → Bool) → ℕ →
    Option (Client × (Sectnum → Bool))
  | 0, _, _, _ => none
  | rounds + 1, cl, used, cur =>
    if cur = 0 then some (cl, used)
    else do
      let link := cl.cells cur
      let used := Function.update used link.sect true
      let cl := cl.seekAbs link.sect link.offset
      let cl ← cl.writeU32 link.sect offset
      let (next, cl) := cl.carveFreeLink cur
      patchLoop offset rounds cl used next

/-- the loop over the sections that were sought in -/
def seekEnds (used : Sectnum → Bool) (cl : Client) : Client :=
  (List.finRange debugMax).foldl (fun cl sect => if used sect then cl.seekEnd sect else cl) cl

/-- `DW_SetHandleLocation`; a chain has no more links than the carver has elements -/
def Client.setHandleLocation (cl : Client) (hdl : ℕ) : Option Client := do
  let c ← getCommon cl.handles hdl
  let cur := (cl.handles.entry c).chain
  let offset := cl.infoSectionOffset
  let cl := { cl with
    handles := { cl.handles.setEntry c (setLocation (cl.handles.entry c) offset) with
      forward := cl.handles.forward - 1 } }
  if cur ≠ 0 then
    let (cl, used) ← patchLoop offset (chainBlock * cl.carver.blkCount + 1) cl (fun _ => false) cur
    some (seekEnds used cl)
  else some cl

/-! ## runs -/

/-- what the program does: a new handle (with the tosses for the height of a new block), a reference,
the location of a handle, or bytes that it writes to a section -/
inductive Op where
  | newHandle (tosses : List Bool)
  | writeOffset (hdl : ℕ) (sect : Sectnum)
  | setLocation (hdl : ℕ)
  | write (sect : Sectnum) (bytes : List (BitVec 8))

def Client.step (cl : Client) : Op → Option Client
  | .newHandle tosses => do
    let (_, hs) ← DwHandle.newHandle cl.handles tosses
    some { cl with handles := hs }
  | .writeOffset hdl sect => cl.handleWriteOffset hdl sect
  | .setLocation hdl => cl.setHandleLocation hdl
  | .write sect bytes => cl.write sect bytes

def Client.run (cl : Client) : List Op → Option Client
  | [] => some cl
  | op :: ops => do
    let cl ← cl.step op
    cl.run ops

/-- a client before its first handle -/
def Client.start (sections : Sectnum → Sect) (base : Sectnum → SectOffs) (bigEndian : Bool) : Client where
  handles := Handles.init
  carver := Carve.create
  cells := fun _ => ⟨0, 0, debugInfo⟩
  sections := sections
  sectionBase := base
  bigEndian := bigEndian

end DwHandle
