import OpenWatcom.Wl.Fixups

/-!
# Far calls of the linker: `PatchData`, `FarCallOpt`, `Relocate` of `obj2supp.c`

* `Segdata`, `Config`, `Globals`   the data of a segment, the settings, and what `FarCallOpt` remembers;
* `findRealAddr`, `patchData`      a fixup that is not self-relative is put into its field;
* `farCallOpt`                     a far call or jump inside a segment becomes a near one;
* `relocate`                       one fixup, with the optimisation on.

The messages are not modelled here. What `FmtReloc` leaves in a field is a part of the fixup: it depends on the
tables of relocations. A far call that is optimised never gets there.
-/

namespace Wl
open Bytes

/-! ## segments and settings -/

/-- `segdata`: its bytes, its address, and what `FarCallOpt` asks for; `isdbi` is `DBINoReloc` of its leader,
and `is32bit` tells how its code runs -/
structure Segdata where
  bytes : List UInt8
  addr : TargAddr
  canfarcall : Bool
  iscode : Bool
  is32bit : Bool
  isdbi : Bool
  short : bytes.length < 2 ^ 32

/-- the other settings: `FmtData.base`, flags of the link and of the module, and the selectors of RDOS -/
structure Config extends Link where
  base : Off
  otherMachine : Bool
  flattenDbi : Bool
  cvDbi : Bool
  rdosCodeSeg : BitVec 16
  rdosCodeSel : BitVec 16
  rdosDataSeg : BitVec 16
  rdosDataSel : BitVec 16

/-- `LastOptimized`, `LastOptType` -/
structure Globals where
  lastOptimized : Off
  lastOptType : FixType
  deriving DecidableEq, Repr

def resetObj2Supp : Globals := ⟨0xFFFFFFFF, 0⟩

/-! ## `PatchData` -/

section
variable (cf : Config)

def mkRdos : BitVec 32 := mkRdos16 ||| mkRdos32

/-- the address that is put into a field -/
def findRealAddr (isdbi : Bool) (type : FixType) (tgt : TargAddr) : Off :=
  if Has type fixAbs ∨ isdbi ∧ ¬cf.flattenDbi then tgt.off
  else if Has cf.type (mkOs2Flat ||| mkWinVxd ||| mkLinearize ||| mkQnxFlat) ∧ ¬Has type fixSecRel then
    if Has cf.type (mkOs2Le ||| mkWinVxd) ∧ ¬isdbi then tgt.off
    else
      match findGroup cf.toLink tgt.seg with
      | none => tgt.off
      | some group =>
        let off := tgt.off + (group.linear - group.grpAddr.off)
        let off :=
          if Has cf.type mkLinearize then
            let off := if Has type fixNoBase then off else off + cf.base
            if isdbi ∧ ¬Has cf.type mkElf then
              off - ((cf.groups.head?.map GroupEntry.linear).getD 0)
            else off
          else off
        if isdbi ∧ ¬Has cf.type mkElf then off - cf.base else off
  else tgt.off

/-- the number of the group with a segment, from 1 -/
def findGroupIdx (seg : BitVec 16) : BitVec 16 :=
  match cf.groups.findIdx? fun group => group.grpAddr.seg = seg with
  | some i => BitVec.ofNat 16 (i + 1)
  | none => 0

/-- a word of a field -/
def putWord (data : List UInt8) (pos : Nat) (val : BitVec 16) : List UInt8 :=
  writeBytes data pos (leBytes 2 val.toNat)

/-- the segment of a pointer, behind its offset -/
def patchSegment (isdbi done : Bool) (type : FixType) (tgt : TargAddr) (data : List UInt8)
    (pos : Nat) : List UInt8 :=
  let data := if Has cf.type mkProtMode then putWord data pos 0 else data
  if Has cf.type (mkDos16m ||| mkPharMultiseg) then putWord data pos tgt.seg
  else if Has cf.type mkRdos then
    putWord data pos
      (if tgt.seg = cf.rdosCodeSeg then cf.rdosCodeSel
        else if tgt.seg = cf.rdosDataSeg then cf.rdosDataSel else tgt.seg)
  else if done ∨ Has cf.type (mkQnx ||| mkDos) then
    putWord data pos
      (if isdbi ∧ cf.cvDbi then findGroupIdx cf tgt.seg
        else if Has type fixAbs then tgt.seg
        else BitVec.ofNat 16 (leNat ((data.drop pos).take 2)) + tgt.seg)
  else data

/-- a pointer whose relocation carries its offset -/
def mkPointers : BitVec 32 := mkOs2 ||| mkWinNe ||| mkWinVxd

/-- `data` are the bytes of the field now -/
def patchData (isdbi : Bool) (fix : FixReloData) (data : List UInt8) : List UInt8 :=
  let type :=
    if Has fix.type fixNoadj ∧ fix.imported ∧ Has cf.type (mkOs2Flat ||| mkWinVxd) then
      fix.type &&& fixNoadj
    else fix.type
  if Has type fixRel then data
  else if fix.imported ∧ ¬isdbi then data
  else
    let tgt := if fix.imported then ⟨0, 0⟩ else fix.tgtAddr
    let done : Bool := Has type fixAbs ∧ ¬Has cf.type (mkQnx ||| mkDos16m) ∨ isdbi
    if ¬Has type fixBase then
      if Has cf.type mkWinNe ∧ Has type fixLoaderRes then data
      else (patchOffset type data (findRealAddr cf isdbi type tgt) false).data
    else if fixGetOffset type = 0 then patchSegment cf isdbi done type tgt data 0
    else if ¬done ∧ Has cf.type mkPointers then data
    else
      patchSegment cf isdbi done type tgt
        (patchOffset type data (findRealAddr cf isdbi type tgt) false).data
        (offsetSizes (fixGetOffset type))

end

/-! ## `FarCallOpt` -/

def farCallId : UInt8 := 0x9A
def farJmpId : UInt8 := 0xEA
def nopId : UInt8 := 0x90
def ssOverride : UInt8 := 0x36
def csOverride : UInt8 := 0x3e
def pushcsId : UInt8 := 0x0e
def nearCallId : UInt8 := 0xe8
def nearJmpId : UInt8 := 0xE9
def movAxaxId : Nat := 0xC089

def fixPointerMask : FixType := fixBase ||| fixHigh ||| fixOffsetMask

def fixBaseOffset16 : FixType := fixBase ||| fixOffset16
def fixBaseOffset32 : FixType := fixBase ||| fixOffset32

/-- the bytes of the offset of a far pointer -/
def pointerSize (type : FixType) : Option Nat :=
  if type &&& fixPointerMask = fixBaseOffset16 then some 2
  else if type &&& fixPointerMask = fixBaseOffset32 then some 4
  else none

/-- the call before was optimised with a NOP behind it -/
def Globals.Precedes (last : Globals) (off : Off) : Prop :=
  last.lastOptType = fixBaseOffset16 ∧ 5 ≤ off ∧ last.lastOptimized = off - 5 ∨
    last.lastOptType = fixBaseOffset32 ∧ 7 ≤ off ∧ last.lastOptimized = off - 7

instance (last : Globals) (off : Off) : Decidable (last.Precedes off) :=
  inferInstanceAs (Decidable (_ ∨ _))

section
variable (cf : Config)

/-- a far call or jump in `addbuf`, where the field starts at position 2; `temp` counts from the end of the
instruction, and a call at an odd address returns to a NOP -/
def rewrite (last : Globals) (type : FixType) (locOff : Off) (n : Nat) (temp : Off)
    (addbuf : List UInt8) : Option (Globals × List UInt8) :=
  if byteAt addbuf 1 = farJmpId then
    let temp := temp - (locOff + BitVec.ofNat 32 n)
    some (last, writeBytes addbuf 1 (nearJmpId :: (leBytes n temp.toNat ++ leBytes 2 movAxaxId)))
  else if byteAt addbuf 1 = farCallId then
    let temp := temp - (locOff + BitVec.ofNat 32 (n + 2))
    if Has locOff 1 then
      some (⟨locOff, type &&& fixPointerMask⟩,
        writeBytes addbuf 1 (pushcsId :: nearCallId :: (leBytes n (temp + 1).toNat ++ [nopId])))
    else
      let addbuf := if last.Precedes locOff then writeBytes addbuf 0 [ssOverride] else addbuf
      some (last, writeBytes addbuf 1 (pushcsId :: csOverride :: nearCallId :: leBytes n temp.toNat))
  else none

def farCallOpt (seg : Segdata) (last : Globals) (fix : FixReloData) (addbuf : List UInt8) :
    Option (Globals × List UInt8) :=
  if cf.otherMachine ∨ Has fix.type fixUnsafe ∨ fix.imported ∨ Has fix.type fixAbs then none
  else
    match pointerSize fix.type with
    | none => none
    | some n =>
      if fix.locAddr.seg ≠ fix.tgtAddr.seg ∨ ¬(seg.canfarcall ∨ seg.iscode) then none
      else
        let temp := mget n (addbuf.drop 2)
        let temp := if Has cf.type mkPointers then temp + fix.tgtAddr.off else temp
        rewrite last fix.type fix.locAddr.off n temp addbuf

end

/-! ## `Relocate` -/

/-- a fixup at an offset of a segment; `fmtReloc` is what `FmtReloc` makes of the bytes of the field -/
structure Fixup where
  off : Nat
  tgtAddr : TargAddr
  type : FixType
  fppType : Nat
  imported : Bool
  targetExt : Bool
  symImported : Bool
  tocPos : Off
  fmtReloc : List UInt8 → List UInt8
  keeps : ∀ data, (fmtReloc data).length = data.length

def Segdata.locAddr (seg : Segdata) (f : Fixup) : TargAddr :=
  ⟨seg.addr.seg, seg.addr.off + BitVec.ofNat 32 f.off⟩

/-- the fixup with the bytes it patches -/
def Segdata.fix (seg : Segdata) (f : Fixup) : FixReloData :=
  ⟨slice seg.bytes f.off (calcFixupSize f.type), seg.locAddr f, f.tgtAddr, f.type, f.fppType,
    f.imported, f.targetExt, f.symImported, f.tocPos, by rw [slice_length]⟩

/-- `shift`: how many bytes before the field are in `addbuf` -/
def Fixup.shift (f : Fixup) : Nat := min f.off 2

/-- `addbuf`: two places for the bytes before the field, and the field -/
def Segdata.addbuf (seg : Segdata) (f : Fixup) (data : List UInt8) : List UInt8 :=
  List.replicate (2 - f.shift) 0 ++ (slice seg.bytes (f.off - f.shift) f.shift ++ data)

/-- `PutInfo` -/
def Segdata.putInfo (seg : Segdata) (f : Fixup) (addbuf : List UInt8) : Segdata :=
  { seg with
    bytes := writeBytes seg.bytes (f.off - f.shift) (addbuf.drop (2 - f.shift))
    short := by rw [writeBytes_length]; exact seg.short }

/-- behind `CheckSpecials`; the last component tells whether `FarCallOpt` has rewritten an instruction -/
def relocateData (cf : Config) (last : Globals) (seg : Segdata) (f : Fixup) (data : List UInt8) :
    Globals × Segdata × Bool :=
  let data := patchData cf seg.isdbi (seg.fix f) data
  match farCallOpt cf seg last (seg.fix f) (seg.addbuf f data) with
  | some (last, addbuf) => (last, seg.putInfo f addbuf, true)
  | none => (last, seg.putInfo f (seg.addbuf f (f.fmtReloc data)), false)

/-- what a fixup does to its segment; a field that is not inside of it is not modelled -/
def relocate (cf : Config) (last : Globals) (seg : Segdata) (f : Fixup) :
    Option (Globals × Segdata × Bool) :=
  if seg.bytes.length < f.off + calcFixupSize f.type then none
  else
    (checkSpecials cf.toLink (seg.fix f)).map fun outcome =>
      match outcome with
      | .done _ data => (last, seg.putInfo f (seg.addbuf f data), false)
      | .resolved _ data true => (last, seg.putInfo f (seg.addbuf f data), false)
      | .resolved _ data false => relocateData cf last seg f data
      | .declined => relocateData cf last seg f (seg.fix f).data

end Wl
