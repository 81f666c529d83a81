import OpenWatcom.Lib.Tables
import OpenWatcom.X64Obj.Omf

/-!
# The ELF64 writer of `X64ObjFini`

* `finish`   the tables after Pass 2: patched text, adjusted symbols and fixups;
* `symbols`, `relaText`, `relaData`, `strtab`   the contents of the sections;
* `Layout`, `layout`   the offsets computed up front from counts and paddings;
* `elfFile`   the bytes in the order in which they are written.
-/

namespace X64Obj
open Bytes Tables

/-! ## after Pass 2 -/

/-- what the writer starts from -/
structure Obj where
  segs : Segs
  code : List UInt8
  data : List UInt8
  segBase : Nat → Int
  pubs : List Pub
  exts : List (List UInt8)
  fixups : List FixupRec
  dfixups : List FixupRec
  fixupOrigOff : List UInt8

/-- the new offset of a PUBDEF symbol, whatever its segment -/
def adjustPub (len : Nat) (offsetMap : Nat → Int) (p : Pub) : Pub :=
  if p.off ≤ len ∧ 0 ≤ offsetMap p.off then { p with off := (offsetMap p.off).toNat }
  else p

/-- the byte of the old text before a fixup -/
def origOff (code : List UInt8) (f : FixupRec) : UInt8 :=
  if 1 ≤ f.codeOffset ∧ f.codeOffset < code.length then byteAt code (f.codeOffset.toNat - 1) else 0

def finish (omf : List UInt8) : Obj :=
  let p := parse omf
  let code := p.image.code
  let (patched, offsetMap) := pass2 code p.relocs.fixups
  { segs := p.segs
    code := patched
    data := p.image.data
    segBase := p.image.segBase
    pubs := p.image.pubs.map (adjustPub code.length offsetMap)
    exts := p.image.exts
    fixups := p.relocs.fixups.map (adjustFixup code.length offsetMap)
    dfixups := p.relocs.dfixups
    fixupOrigOff := p.relocs.fixups.map (origOff code) }

/-! ## string table -/

def ascii (cs : List Char) : List UInt8 := cs.map fun ch => UInt8.ofNat ch.toNat

/-- the fixed names, with the empty name in front -/
def fixedNames : List (List UInt8) :=
  [[],
    ascii ['.', 't', 'e', 'x', 't'],
    ascii ['.', 's', 't', 'r', 't', 'a', 'b'],
    ascii ['.', 's', 'y', 'm', 't', 'a', 'b'],
    ascii ['.', 'd', 'a', 't', 'a'],
    ascii ['.', 'b', 's', 's'],
    ascii ['.', 'r', 'e', 'l', 'a', '.', 't', 'e', 'x', 't'],
    ascii ['.', 'r', 'e', 'l', 'a', '.', 'd', 'a', 't', 'a'],
    ascii ['.', 'n', 'o', 't', 'e', '.', 'G', 'N', 'U', '-', 's', 't', 'a', 'c', 'k']]

def strText : Nat := 1
def strStrtab : Nat := 7
def strSymtab : Nat := 15
def strData : Nat := 23
def strBss : Nat := 29
def strRelatext : Nat := 34
def strReladata : Nat := 45
def strNote : Nat := 56

section
variable (o : Obj)

def strPub : List Nat := offsets 72 (o.pubs.map Pub.name)

/-- `ext_local`: the first symbol defined here under an external's name -/
def extLocal (name : List UInt8) : Option Nat := o.pubs.findIdx? fun p => p.name = name

/-- the externals that stay undefined -/
def undefined : List (List UInt8) := o.exts.filter fun e => extLocal o e = none

/-- `str_ext`, with the names of undefined externals laid down from `st` on -/
def strExt : Nat → List (List UInt8) → List Nat
  | _, [] => []
  | st, e :: exts =>
    match extLocal o e with
    | some q => (strPub o).getD q 0 :: strExt st exts
    | none => st :: strExt (st + (e.length + 1)) exts

/-- `st_len` when the symbols defined here are in the table -/
def strExtStart : Nat := 72 + (strBytes (o.pubs.map Pub.name)).length

def strtab : List UInt8 :=
  strBytes fixedNames ++ strBytes (o.pubs.map Pub.name) ++ strBytes (undefined o)

/-! ## symbols -/

structure Sym where
  name : Nat
  isGlobal : Bool
  type : Nat
  shndx : Nat
  value : Nat
  size : Nat
  deriving DecidableEq, Repr

def Sym.bytes (s : Sym) : List UInt8 :=
  leBytes 4 s.name ++ leBytes 1 ((if s.isGlobal then 16 else 0) + s.type) ++ [0]
    ++ leBytes 2 s.shndx ++ leBytes 8 s.value ++ leBytes 8 s.size

def SEC_TEXT : Nat := 1
def SEC_DATA : Nat := 2
def SEC_BSS : Nat := 3
def SEC_SYMTAB : Nat := 4

def isBssSeg (z : Int) : Bool := 0 < z && z < 512 && o.segs.segIsBss z.toNat

/-- where a segment begins inside `.bss` or `.data` -/
def segmentBase (z : Int) : Int :=
  if isBssSeg o z then (if 0 ≤ segBssBase o.segs z.toNat then segBssBase o.segs z.toNat else 0)
  else if 0 < z ∧ z < 512 ∧ 0 ≤ o.segBase z.toNat then o.segBase z.toNat
  else 0

/-- the smallest offset of a symbol of segment `z` above `off`, if below `stop` -/
def nextOff (z off stop : Nat) : Nat :=
  o.pubs.foldl (fun n r => if r.seg = z ∧ off < r.off ∧ r.off < n then r.off else n) stop

/-- the symbol of a PUBDEF whose name stands at `st` -/
def pubSym (p : Pub) (st : Nat) : Sym :=
  if p.seg = o.segs.textSegIdx then
    { name := st, isGlobal := !p.isLocal, type := 2, shndx := SEC_TEXT, value := p.off
      size := (nextOff o p.seg p.off o.code.length + 2 ^ 32 - p.off) % 2 ^ 32 }
  else
    let endoff := nextOff o p.seg p.off (o.segs.segLen p.seg)
    { name := st, isGlobal := !p.isLocal, type := 1
      shndx := if isBssSeg o p.seg then SEC_BSS else SEC_DATA
      value := ofSigned 4 (segmentBase o p.seg + p.off)
      size := if endoff > p.off then endoff - p.off else 4 }

def sectionSym (st sec : Nat) : Sym := ⟨st, false, 3, sec, 0, 0⟩

/-- the PUBDEF symbols with their names' offsets -/
def pubsWithStr : List (Pub × Nat) := o.pubs.zip (strPub o)

/-- the externals with their names' offsets -/
def extsWithStr : List (List UInt8 × Nat) := o.exts.zip (strExt o (strExtStart o) o.exts)

/-- the symbol table in the order in which it is written -/
def symbols : List Sym :=
  [⟨0, false, 0, 0, 0, 0⟩, sectionSym strText SEC_TEXT, sectionSym strData SEC_DATA,
      sectionSym strBss SEC_BSS]
    ++ ((pubsWithStr o).filter fun p => p.1.isLocal).map (fun p => pubSym o p.1 p.2)
    ++ ((pubsWithStr o).filter fun p => !p.1.isLocal).map (fun p => pubSym o p.1 p.2)
    ++ ((extsWithStr o).filter fun e => extLocal o e.1 = none).map
        (fun e => ⟨e.2, true, 0, 0, 0, 0⟩)

def nLocalPub : Nat := o.pubs.countP Pub.isLocal

/-- `pub_symidx` -/
def pubSymidx (q : Nat) : Nat :=
  if ((o.pubs.map Pub.isLocal).getD q false) then 4 + (o.pubs.take q).countP Pub.isLocal
  else 4 + nLocalPub o + (o.pubs.take q).countP (fun p => !p.isLocal)

/-- symbol index of external `e` -/
def extSymidx (e : Nat) : Nat :=
  match extLocal o (o.exts.getD e []) with
  | some q => pubSymidx o q
  | none => 4 + o.pubs.length + (o.exts.take e).countP fun t => extLocal o t = none

/-! ## relocations -/

structure Rela where
  offset : Int
  sym : Nat
  type : Nat
  addend : Int
  deriving DecidableEq, Repr

def Rela.bytes (r : Rela) : List UInt8 :=
  leBytes 8 (ofSigned 8 r.offset) ++ leBytes 8 (r.sym * 2 ^ 32 + r.type)
    ++ leBytes 8 (ofSigned 8 r.addend)

def R_X86_64_PC32 : Nat := 2
def R_X86_64_PLT32 : Nat := 4
def R_X86_64_32 : Nat := 10
def R_X86_64_32S : Nat := 11

end

/-- a byte of an image at an offset that may be negative -/
def codeAt (code : List UInt8) (off : Int) : UInt8 := if off < 0 then 0 else byteAt code off.toNat

/-- `within`: the four bytes at a fixup, if they lie in the image -/
def withinAt (code : List UInt8) (off : Int) : Nat :=
  if off + 4 ≤ code.length then leNat ((List.range 4).map fun i => codeAt code (off + i)) else 0

/-- bytes of immediate an opcode is taken to have -/
def trailOf (op : UInt8) : Option Nat :=
  if op = 0x83 ∨ op = 0xC6 ∨ op = 0x80 ∨ op = 0x6B then some 1
  else if op = 0x81 ∨ op = 0xC7 ∨ op = 0x69 then some 4
  else none

/-- the opcode byte `n` before a fixup, looking through a `48` -/
def opBefore (code : List UInt8) (off : Int) (n : Nat) : UInt8 :=
  let op := codeAt code (off - n)
  if op = 0x48 ∧ n + 1 ≤ off then codeAt code (off - (n + 1)) else op

/-- `trail` of an external reference -/
def extTrail (code : List UInt8) (off : Int) : Nat :=
  if 2 ≤ off then
    match trailOf (opBefore code off 2) with
    | some t => t
    | none => (trailOf (if 3 ≤ off then opBefore code off 3 else 0)).getD 0
  else 0

/-- `trail` of a segment reference -/
def segTrail (code : List UInt8) (off : Int) : Nat :=
  if 2 ≤ off then (trailOf (opBefore code off 2)).getD 0 else 0

section
variable (o : Obj)

/-- the relocation of a reference to external `e` -/
def relaExt (off : Int) (e : Nat) : Rela :=
  let within := toSigned 4 (withinAt o.code off)
  let prev := if 1 ≤ off then codeAt o.code (off - 1) else 0
  if 1 ≤ off ∧ (prev = 0xE8 ∨ prev = 0xE9) then ⟨off, extSymidx o e, R_X86_64_PLT32, within - 4⟩
  else if prev &&& 0xC7 = 0x05 then
    ⟨off, extSymidx o e, R_X86_64_PC32, within - 4 - extTrail o.code off⟩
  else ⟨off, extSymidx o e, R_X86_64_32S, within⟩

/-- the anchor and the base for a reference from the text to segment `ts` -/
def textAnchor (ts : Int) : Nat × Int :=
  if isBssSeg o ts then (SEC_BSS, segmentBase o ts)
  else if ts = o.segs.textSegIdx then (SEC_TEXT, 0)
  else (SEC_DATA, segmentBase o ts)

/-- the relocation of a reference to segment `ts`; `orig` is the fixup's `fixup_orig_off` -/
def relaSeg (off ts : Int) (orig : UInt8) : Rela :=
  let within := withinAt o.code off
  let (anchor, base) := textAnchor o ts
  let prev := if 1 ≤ off then orig else 0
  if (0xB8 ≤ prev ∧ prev ≤ 0xBF) ∨ prev = 0x68 ∨ prev = 0x6A ∨ prev = 0xC7 then
    ⟨off, anchor, R_X86_64_32S, base + within⟩
  else ⟨off, anchor, R_X86_64_PC32, base + within - 4 - segTrail o.code off⟩

/-- the entry for a fixup of the text -/
def relaText1 (f : FixupRec) (orig : UInt8) : Rela :=
  if 0 ≤ f.extIdx then relaExt o f.codeOffset f.extIdx.toNat
  else relaSeg o f.codeOffset f.targetSeg orig

def relaText : List Rela := (o.fixups.zip o.fixupOrigOff).map fun f => relaText1 o f.1 f.2

/-- the entry for a fixup of the data image -/
def relaData1 (f : FixupRec) : Rela :=
  let within := if 0 ≤ f.codeOffset then withinAt o.data f.codeOffset else 0
  if 0 ≤ f.extIdx then ⟨f.codeOffset, extSymidx o f.extIdx.toNat, R_X86_64_32, within⟩
  else
    let anchor := if isBssSeg o f.targetSeg then SEC_BSS else SEC_DATA
    ⟨f.codeOffset, anchor, R_X86_64_32S, segmentBase o f.targetSeg + within⟩

def relaData : List Rela := o.dfixups.map (relaData1 o)

/-! ## layout -/

/-- bytes up to the next multiple of `n` -/
def padTo (n off : Nat) : Nat := (n - off % n) % n

def realExt : Nat := (undefined o).length

/-- `num_syms` -/
def numSyms : Nat := 4 + o.pubs.length + realExt o

/-- `num_local` -/
def numLocal : Nat := 4 + nLocalPub o

def textOff : Nat := 64
def textPad : Nat := padTo 16 (textOff + o.code.length)
def dataOff : Nat := textOff + o.code.length + textPad o
def dataPad : Nat := padTo 16 (dataOff o + o.data.length)
def symtabOff : Nat := dataOff o + o.data.length + dataPad o
def symtabSz : Nat := numSyms o * 24
def relaOff : Nat := symtabOff o + symtabSz o
def relaSz : Nat := o.fixups.length * 24
def drelaOff : Nat := relaOff o + relaSz o
def drelaSz : Nat := o.dfixups.length * 24
def strtabOff : Nat := drelaOff o + drelaSz o
/-- `st_len` after the last name -/
def stLen : Nat := (strtab o).length
def strtabPad : Nat := padTo 8 (strtabOff o + stLen o)
def shdrOff : Nat := strtabOff o + stLen o + strtabPad o

def hasRela : Bool := 0 < o.fixups.length
def hasDrela : Bool := 0 < o.dfixups.length

/-- `SEC_STRTAB`: null, .text, .data, .bss, .symtab, two optional sections and .note come first -/
def SEC_STRTAB : Nat := 6 + (if hasRela o then 1 else 0) + (if hasDrela o then 1 else 0)

/-- `num_shdrs` -/
def numShdrs : Nat := SEC_STRTAB o + 1

structure Shdr where
  name : Nat
  type : Nat
  flags : Nat
  offset : Nat
  size : Nat
  link : Nat
  info : Nat
  addralign : Nat
  entsize : Nat
  deriving DecidableEq, Repr

def Shdr.bytes (h : Shdr) : List UInt8 :=
  leBytes 4 h.name ++ leBytes 4 h.type ++ leBytes 8 h.flags ++ leBytes 8 0 ++ leBytes 8 h.offset
    ++ leBytes 8 h.size ++ leBytes 4 h.link ++ leBytes 4 h.info ++ leBytes 8 h.addralign
    ++ leBytes 8 h.entsize

def textShdr : Shdr := ⟨strText, 1, 6, textOff, o.code.length, 0, 0, 16, 0⟩
def dataShdr : Shdr := ⟨strData, 1, 3, dataOff o, o.data.length, 0, 0, 16, 0⟩
def bssShdr : Shdr := ⟨strBss, 8, 3, symtabOff o, bssTotal o.segs, 0, 0, 16, 0⟩
def symtabShdr : Shdr := ⟨strSymtab, 2, 0, symtabOff o, symtabSz o, SEC_STRTAB o, numLocal o, 8, 24⟩
def relaShdr : Shdr := ⟨strRelatext, 4, 64, relaOff o, relaSz o, SEC_SYMTAB, SEC_TEXT, 8, 24⟩
def drelaShdr : Shdr := ⟨strReladata, 4, 64, drelaOff o, drelaSz o, SEC_SYMTAB, SEC_DATA, 8, 24⟩
def noteShdr : Shdr := ⟨strNote, 1, 0, strtabOff o, 0, 0, 0, 1, 0⟩
def strtabShdr : Shdr := ⟨strStrtab, 3, 0, strtabOff o, stLen o, 0, 0, 1, 0⟩

def shdrs : List Shdr :=
  [⟨0, 0, 0, 0, 0, 0, 0, 0, 0⟩, textShdr o, dataShdr o, bssShdr o, symtabShdr o]
    ++ (if hasRela o then [relaShdr o] else []) ++ (if hasDrela o then [drelaShdr o] else [])
    ++ [noteShdr o, strtabShdr o]

/-- the fields of the ELF header that depend on the object -/
structure Ehdr where
  shoff : Nat
  shnum : Nat
  shstrndx : Nat
  deriving DecidableEq, Repr

def Ehdr.bytes (h : Ehdr) : List UInt8 :=
  [0x7F, 0x45, 0x4C, 0x46, 2, 1, 1, 0] ++ leBytes 8 0 ++ leBytes 2 1 ++ leBytes 2 62 ++ leBytes 4 1
    ++ leBytes 8 0 ++ leBytes 8 0 ++ leBytes 8 h.shoff ++ leBytes 4 0 ++ leBytes 2 64
    ++ leBytes 2 0 ++ leBytes 2 0 ++ leBytes 2 64 ++ leBytes 2 h.shnum ++ leBytes 2 h.shstrndx

def ehdr : Ehdr := ⟨shdrOff o, numShdrs o, SEC_STRTAB o⟩

def zeros (n : Nat) : List UInt8 := List.replicate n 0

/-- the file, in the order of the `fwrite` calls -/
def elfFile : List UInt8 :=
  (ehdr o).bytes ++ o.code ++ zeros (textPad o) ++ o.data ++ zeros (dataPad o)
    ++ (symbols o).flatMap Sym.bytes ++ (relaText o).flatMap Rela.bytes
    ++ (relaData o).flatMap Rela.bytes ++ strtab o ++ zeros (strtabPad o)
    ++ (shdrs o).flatMap Shdr.bytes

end
end X64Obj
