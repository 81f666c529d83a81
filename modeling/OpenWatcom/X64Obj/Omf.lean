import OpenWatcom.Lib.Stride
import OpenWatcom.X64Obj.Pass2

/-!
# Passes 0, 1 and 1b of `X64ObjFini`: reading the OMF object

Each pass walks over the records of the object (`recPositions`) and keeps its own state:

* `pass0`   LNAMES and SEGDEF32: which segment is the text, which hold data, where BSS lies;
* `pass1`   LEDATA, PUBDEF, EXTDEF: the images and the name tables;
* `pass1b`  FIXUPP: the fixups of the text and of the data image;
* `parse`   all three.

A read past the end of the object gives `0`; buffers grow as needed.
-/

namespace X64Obj
open Bytes Stride

/-! ## records -/

section
variable (omf : List UInt8)

/-- `rec_len` -/
def recLen (i : Nat) : Nat := leNat (slice omf (i + 1) 2)

def recNext (i : Nat) : Nat := i + (3 + recLen omf i)

/-- `while( i < omf_size && i + 3 <= omf_size )` -/
def recPositions : List Nat := stops (recNext omf) (omf.length - 2) 0

/-- `end`, where the checksum byte stands -/
def recEnd (i : Nat) : Nat := i + 3 + recLen omf i - 1

/-- an index of one or two bytes at `p`, and its size -/
def indexAt (p : Nat) : Nat × Nat :=
  if byteAt omf p &&& 0x80 ≠ 0 then
    ((byteAt omf p &&& 0x7F).toNat * 256 + (byteAt omf (p + 1)).toNat, 2)
  else ((byteAt omf p).toNat, 1)

end

/-- what `strlen` and `strcmp` see of a name -/
def cstr (n : List UInt8) : List UInt8 := n.takeWhile (· ≠ 0)

/-! ## Pass 0 -/

/-- tables of Pass 0 -/
structure Segs where
  segNum : Nat
  textSegIdx : Nat
  segIsData : Nat → Bool
  segIsBss : Nat → Bool
  segLen : Nat → Nat

def lnamesLoop (omf : List UInt8) (tend : Nat) : Nat → Nat → List (List UInt8) → List (List UInt8)
  | 0, _, lnames => lnames
  | f + 1, tj, lnames =>
    if tj < tend ∧ lnames.length < 64 then
      let tnl := (byteAt omf tj).toNat
      if 0 < tnl ∧ tj + 1 + tnl ≤ tend then
        lnamesLoop omf tend f (tj + 1 + tnl) (lnames ++ [cstr (slice omf (tj + 1) tnl)])
      else lnamesLoop omf tend f (tj + 1) (lnames ++ [[]])
    else lnames

def lnamesStep (omf : List UInt8) (lnames : List (List UInt8)) (ti : Nat) : List (List UInt8) :=
  if byteAt omf ti = 0x96 then lnamesLoop omf (recEnd omf ti) (recLen omf ti) (ti + 3) lnames
  else lnames

/-- `lnames[]`; entry 0 is the empty name -/
def lnames (omf : List UInt8) : List (List UInt8) :=
  (recPositions omf).foldl (lnamesStep omf) [[]]

/-- `"CODE"`, `"DATA"`, `"BSS"` -/
def className : List UInt8 × List UInt8 × List UInt8 :=
  ([0x43, 0x4F, 0x44, 0x45], [0x44, 0x41, 0x54, 0x41], [0x42, 0x53, 0x53])

def segdefStep (omf : List UInt8) (names : List (List UInt8)) (s : Segs) (ti : Nat) : Segs :=
  if byteAt omf ti = 0x99 then
    let segNum := s.segNum + 1
    let classIdx := (byteAt omf (ti + 9)).toNat
    let named := 0 < classIdx ∧ classIdx < names.length
    let cls := names.getD classIdx []
    { segNum := segNum
      textSegIdx := if named ∧ cls = className.1 then segNum else s.textSegIdx
      segIsData := if named ∧ segNum < 64 then
          Function.update s.segIsData segNum (cls = className.2.1) else s.segIsData
      segIsBss := if named ∧ segNum < 64 then
          Function.update s.segIsBss segNum (cls = className.2.2) else s.segIsBss
      segLen := if segNum < 64 then
          Function.update s.segLen segNum (leNat (slice omf (ti + 4) 4)) else s.segLen }
  else s

def pass0 (omf : List UInt8) : Segs :=
  (recPositions omf).foldl (segdefStep omf (lnames omf))
    ⟨0, 1, fun _ => false, fun _ => false, fun _ => 0⟩

/-- `bss_total` before segment `z` is placed (segments are placed from 1 on) -/
def bssBefore (s : Segs) : Nat → Nat
  | 0 => 0
  | z + 1 => bssBefore s z + if 0 < z ∧ s.segIsBss z then s.segLen z else 0

/-- `bss_total` -/
def bssTotal (s : Segs) : Nat := bssBefore s 64

/-- `seg_bss_base` -/
def segBssBase (s : Segs) (z : Nat) : Int :=
  if 0 < z ∧ z < 64 ∧ s.segIsBss z ∧ 0 < s.segLen z then bssBefore s z else -1

/-! ## Pass 1 -/

/-- a LEDATA record: segment, where its data starts, how much there is -/
structure Ledata where
  segIdx : Nat
  start : Nat
  len : Int

def ledataAt (omf : List UInt8) (i : Nat) : Ledata :=
  let ds := if byteAt omf i = 0xA1 then i + 3 + 1 + 4 else i + 3 + 1 + 2
  let ds := ds + ((indexAt omf (i + 3)).2 - 1)
  ⟨(indexAt omf (i + 3)).1, ds, (recLen omf i : Int) - (ds - (i + 3) : Nat) - 1⟩

def isLedata (omf : List UInt8) (i : Nat) : Bool := byteAt omf i = 0xA1 || byteAt omf i = 0xA0

/-- an entry of `pub_names`, `pub_offs`, `pub_segs`, `pub_local` -/
structure Pub where
  name : List UInt8
  off : Nat
  seg : Nat
  isLocal : Bool
  deriving DecidableEq, Repr

/-- what Pass 1 collects -/
structure Image where
  code : List UInt8
  data : List UInt8
  segBase : Nat → Int
  pubs : List Pub
  exts : List (List UInt8)

/-- a name of length `nl` at `j`, without the Watcom suffix -/
def symName (omf : List UInt8) (j nl : Nat) : List UInt8 :=
  let n := slice omf j nl
  cstr (if nl > 1 ∧ byteAt n (nl - 1) = 0x5F then n.take (nl - 1) else n)

def ledataStep (omf : List UInt8) (s : Segs) (im : Image) (i : Nat) : Image :=
  let r := ledataAt omf i
  if 0 < r.len ∧ r.start + r.len ≤ omf.length then
    let bytes := slice omf r.start r.len.toNat
    if r.segIdx = s.textSegIdx then { im with code := im.code ++ bytes }
    else if 0 < r.segIdx ∧ r.segIdx < 512 ∧ s.segIsData r.segIdx then
      { im with
        segBase := if im.segBase r.segIdx < 0 then
            Function.update im.segBase r.segIdx (im.data.length : Int) else im.segBase
        data := im.data ++ bytes }
    else im
  else im

def pubLoop (omf : List UInt8) (stop : Nat) (wide isLocal : Bool) (baseSeg : Nat) :
    Nat → Nat → List Pub → List Pub
  | 0, _, pubs => pubs
  | f + 1, j, pubs =>
    if j < stop ∧ pubs.length < 64 then
      let nl := (byteAt omf j).toNat
      if nl = 0 ∨ j + 1 + nl > stop then pubs
      else
        let width := if wide then 4 else 2
        let p := j + 1 + nl
        let off := leNat (slice omf p width)
        let j := p + width
        pubLoop omf stop wide isLocal baseSeg f (if j < stop then j + 1 else j)
          (pubs ++ [⟨symName omf (p - nl) nl, off, baseSeg, isLocal⟩])
    else pubs

def isPubdef (omf : List UInt8) (i : Nat) : Bool :=
  byteAt omf i = 0x91 || byteAt omf i = 0x90 || byteAt omf i = 0xB7 || byteAt omf i = 0xB6

def pubdefStep (omf : List UInt8) (pubs : List Pub) (i : Nat) : List Pub :=
  let rt := byteAt omf i
  let baseSeg := (byteAt omf (i + 4)).toNat
  pubLoop omf (recEnd omf i) (rt = 0x91 || rt = 0xB7) (rt = 0xB6 || rt = 0xB7) baseSeg
    (recLen omf i) (if baseSeg = 0 then i + 7 else i + 5) pubs

def extLoop (omf : List UInt8) (stop : Nat) : Nat → Nat → List (List UInt8) → List (List UInt8)
  | 0, _, exts => exts
  | f + 1, j, exts =>
    if j < stop ∧ exts.length < 64 then
      let nl := (byteAt omf j).toNat
      let j := j + 1
      if 0 < nl ∧ j + nl ≤ stop then
        extLoop omf stop f (if j + nl < stop then j + nl + 1 else j + nl)
          (exts ++ [symName omf j nl])
      else extLoop omf stop f (if j < stop then j + 1 else j) exts
    else exts

def isExtdef (omf : List UInt8) (i : Nat) : Bool := byteAt omf i = 0x8C || byteAt omf i = 0xB4

def extdefStep (omf : List UInt8) (exts : List (List UInt8)) (i : Nat) : List (List UInt8) :=
  extLoop omf (recEnd omf i) (recLen omf i) (i + 3) exts

def pass1Step (omf : List UInt8) (s : Segs) (im : Image) (i : Nat) : Image :=
  if isLedata omf i then ledataStep omf s im i
  else if isPubdef omf i ∧ im.pubs.length < 64 then { im with pubs := pubdefStep omf im.pubs i }
  else if isExtdef omf i ∧ im.exts.length < 64 then { im with exts := extdefStep omf im.exts i }
  else im

/-- the tables before Pass 1; only the first 64 entries of `seg_base` are set to -1 -/
def pass1Init : Image := ⟨[], [], fun z => if z < 64 then -1 else 0, [], []⟩

def pass1 (omf : List UInt8) (s : Segs) : Image :=
  (recPositions omf).foldl (pass1Step omf s) pass1Init

/-! ## Pass 1b -/

/-- the LEDATA record fixups refer to -/
structure Chunk where
  isText : Bool
  base : Nat
  dbase : Int
  runText : Nat
  segPacked : Nat → Nat

def chunkStep (omf : List UInt8) (s : Segs) (im : Image) (c : Chunk) (i : Nat) : Chunk :=
  let r := ledataAt omf i
  let isText := decide (r.segIdx = s.textSegIdx)
  if isText ∧ 0 < r.len then
    { c with isText := isText, base := c.runText, runText := c.runText + r.len.toNat }
  else if !isText ∧ 0 < r.segIdx ∧ r.segIdx < 512 ∧ s.segIsData r.segIdx ∧
      0 ≤ im.segBase r.segIdx then
    { c with
      isText := isText
      dbase := im.segBase r.segIdx + c.segPacked r.segIdx
      segPacked := if 0 < r.len then
          Function.update c.segPacked r.segIdx (c.segPacked r.segIdx + r.len.toNat)
        else c.segPacked }
  else { c with isText := isText }

section
variable (omf : List UInt8) (wide : Bool)

/-- bytes of the frame datum of the FIXUP subrecord at `j` -/
def frameLen (j : Nat) : Nat :=
  let fixDat := byteAt omf (j + 2)
  if fixDat >>> 7 = 0 ∧ (fixDat >>> 4) &&& 7 ≤ 3 then
    (if byteAt omf (j + 3) &&& 0x80 ≠ 0 then 2 else 1)
  else 0

/-- the target index of the FIXUP subrecord at `j` -/
def targetAt (j : Nat) : Nat × Nat := indexAt omf (j + 3 + frameLen omf j)

/-- bytes of the target displacement -/
def dispLen (j : Nat) : Nat :=
  if (byteAt omf (j + 2) >>> 2) &&& 1 = 0 then (if wide then 4 else 2) else 0

def isThread (j : Nat) : Bool := byteAt omf j &&& 0x80 = 0

/-- where the cursor goes from `j` -/
def fixNext (j : Nat) : Nat :=
  if isThread omf j then j + 3
  else j + 3 + frameLen omf j + (targetAt omf j).2 + dispLen omf wide j

def fixOffset (j : Nat) : Nat :=
  (byteAt omf j &&& 0x03).toNat * 256 + (byteAt omf (j + 1)).toNat

end

/-- `fixups` and `dfixups` -/
structure Relocs where
  fixups : List FixupRec
  dfixups : List FixupRec
  deriving DecidableEq, Repr

/-- what the FIXUP subrecord at `j` records -/
def fixupStep (omf : List UInt8) (extCount : Nat) (c : Chunk) (r : Relocs) (j : Nat) : Relocs :=
  if isThread omf j then r
  else
    let method := byteAt omf (j + 2) &&& 3
    let tidx := (targetAt omf j).1
    let offset := fixOffset omf j
    if !c.isText then
      if r.dfixups.length < 256 then
        { r with dfixups := r.dfixups ++ [⟨c.dbase + offset,
            if method = 2 ∧ 0 < tidx ∧ tidx ≤ extCount then (tidx : Int) - 1 else -1,
            if method = 2 then 0 else tidx⟩] }
      else r
    else if method = 2 ∧ 0 < tidx ∧ tidx ≤ extCount then
      { r with fixups := r.fixups ++ [⟨(c.base + offset : Nat), (tidx : Int) - 1, 0⟩] }
    else if method = 0 ∨ method = 1 then
      { r with fixups := r.fixups ++ [⟨(c.base + offset : Nat), -1, tidx⟩] }
    else r

def fixupLoop (omf : List UInt8) (wide : Bool) (extCount : Nat) (c : Chunk) (stop : Nat) :
    Nat → Nat → Relocs → Relocs
  | 0, _, r => r
  | f + 1, j, r =>
    if j < stop ∧ r.fixups.length < 256 then
      fixupLoop omf wide extCount c stop f (fixNext omf wide j) (fixupStep omf extCount c r j)
    else r

def isFixupp (omf : List UInt8) (i : Nat) : Bool := byteAt omf i = 0x9D || byteAt omf i = 0x9C

def pass1bStep (omf : List UInt8) (s : Segs) (im : Image) (st : Chunk × Relocs) (i : Nat) :
    Chunk × Relocs :=
  let c := if isLedata omf i then chunkStep omf s im st.1 i else st.1
  let r := if isFixupp omf i ∧ st.2.fixups.length < 256 then
      fixupLoop omf (byteAt omf i = 0x9D) im.exts.length c (recEnd omf i) (recLen omf i) (i + 3) st.2
    else st.2
  (c, r)

def pass1bInit : Chunk × Relocs := (⟨true, 0, 0, 0, fun _ => 0⟩, ⟨[], []⟩)

def pass1b (omf : List UInt8) (s : Segs) (im : Image) : Relocs :=
  ((recPositions omf).foldl (pass1bStep omf s im) pass1bInit).2

/-! ## the whole object -/

structure Parsed where
  segs : Segs
  image : Image
  relocs : Relocs

def parse (omf : List UInt8) : Parsed :=
  let s := pass0 omf
  let im := pass1 omf s
  ⟨s, im, pass1b omf s im⟩

end X64Obj
