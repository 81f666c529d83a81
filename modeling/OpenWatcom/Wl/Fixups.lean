import OpenWatcom.Lib.Bytes

/-!
# Fixups of the linker: `obj2supp.c`

* `FixReloData`, `Link`     a fixup with the bytes it patches, and what the linker knows about addresses;
* `patchOffset`             a displacement added to the field of a fixup;
* `checkSpecials`           the fixups that are settled before a relocation is written, self-relative ones
                            among them.

The host is little-endian. The tables that `AddNovImpReloc` and `MakeQNXFloatReloc` fill are not modelled.
-/

namespace Wl
open Bytes

/-! ## the bits of a fixup -/

abbrev FixType := BitVec 32

/-- `offset`; the addresses of the linker wrap -/
abbrev Off := BitVec 32

def fixUnsafe : FixType := 0x00000004
def fixAbs : FixType := 0x00000008
def fixBase : FixType := 0x00000010
def fixHigh : FixType := 0x00000020
def fixRel : FixType := 0x00000040
def fixShift : FixType := 0x00000080
def fixNoadj : FixType := 0x00000800
def fixNoBase : FixType := 0x00001000
def fixSigned : FixType := 0x00002000
def fixLoaderRes : FixType := 0x00004000
def fixSecRel : FixType := 0x00008000
def fixOffset8 : FixType := 0x00010000
def fixOffset16 : FixType := 0x00020000
def fixOffset21 : FixType := 0x00030000
def fixOffset32 : FixType := 0x00040000
def fixOffset24 : FixType := 0x00050000
def fixOffset26 : FixType := 0x00060000
def fixOffsetMask : FixType := 0x00070000
def fixToc : FixType := 0x00100000
def fixTocv : FixType := 0x00200000
def fixIfglue : FixType := 0x00300000
def fixSpecialMask : FixType := 0x00300000

/-- `w & m` as a condition -/
abbrev Has (w m : BitVec 32) : Prop := w &&& m ≠ 0

/-- `FIX_GET_OFFSET`: the kind of the field, 1 to 6 for 8, 16, 21, 32, 24 and 26 bits -/
def fixGetOffset (type : FixType) : Nat := ((type &&& fixOffsetMask) >>> 16).toNat

/-- `OffsetSizes` -/
def offsetSizes (kind : Nat) : Nat := [0, 1, 2, 4, 4, 4, 4].getD kind 0

def calcFixupSize (type : FixType) : Nat :=
  offsetSizes (fixGetOffset type) + if Has type fixBase then 2 else 0

/-! ## the formats -/

def mkOs2Ne : BitVec 32 := 0x00000001
def mkOs2Le : BitVec 32 := 0x00000002
def mkOs2Lx : BitVec 32 := 0x00000004
def mkWinNe : BitVec 32 := 0x00000008
def mkPe : BitVec 32 := 0x00000010
def mkDosExe : BitVec 32 := 0x00000020
def mkCom : BitVec 32 := 0x00000040
def mkOverlays : BitVec 32 := 0x00000080
def mkNovell : BitVec 32 := 0x00000100
def mkQnx16 : BitVec 32 := 0x00000200
def mkPharSimple : BitVec 32 := 0x00000400
def mkPharFlat : BitVec 32 := 0x00000800
def mkPharRex : BitVec 32 := 0x00001000
def mkPharMultiseg : BitVec 32 := 0x00002000
def mkQnxFlat : BitVec 32 := 0x00004000
def mkElf : BitVec 32 := 0x00008000
def mkWinVxd : BitVec 32 := 0x00010000
def mkDos16m : BitVec 32 := 0x00020000
def mkRaw : BitVec 32 := 0x00040000
def mkRdos32 : BitVec 32 := 0x00080000
def mkRdos16 : BitVec 32 := 0x00100000

def mkDos : BitVec 32 := mkOverlays ||| mkDosExe ||| mkCom
def mkOs2Flat : BitVec 32 := mkOs2Le ||| mkOs2Lx
def mkOs2 : BitVec 32 := mkOs2Ne ||| mkOs2Flat
def mkPharLap : BitVec 32 := mkPharSimple ||| mkPharFlat ||| mkPharRex ||| mkPharMultiseg
def mkQnx : BitVec 32 := mkQnx16 ||| mkQnxFlat
def mk32bit : BitVec 32 := mkPharLap ||| mkNovell ||| mkQnx ||| mkOs2Flat ||| mkPe ||| mkElf |||
  mkWinVxd ||| mkRaw ||| mkRdos32
def mkIdSplit : BitVec 32 := mkNovell
def mkProtMode : BitVec 32 := ~~~mkDos
def mkLinearize : BitVec 32 := mkElf ||| mkPe

/-! ## a fixup -/

structure TargAddr where
  seg : BitVec 16
  off : Off
  deriving DecidableEq, Repr

/-- `group_entry`: the fields that fixups read -/
structure GroupEntry where
  grpAddr : TargAddr
  linear : Off
  dosSegment : BitVec 16
  deriving DecidableEq, Repr

/-- `FmtData` and `Groups` -/
structure Link where
  type : BitVec 32
  segShift : Nat
  genRelRelocs : Bool
  groups : List GroupEntry
  deriving DecidableEq, Repr

def findGroup (lk : Link) (seg : BitVec 16) : Option GroupEntry :=
  lk.groups.find? fun group => group.grpAddr.seg = seg

def find16MSeg (lk : Link) (selector : BitVec 16) : BitVec 16 :=
  match findGroup lk selector with
  | some group => group.dosSegment
  | none => 0

/-- `fix_relo_data`; `data` are the bytes from the field on, the whole field among them. The last three
fields are what is known about the target: whether it is a symbol, an imported one, and its place in the TOC -/
structure FixReloData where
  data : List UInt8
  locAddr : TargAddr
  tgtAddr : TargAddr
  type : FixType
  fppType : Nat
  imported : Bool
  targetExt : Bool
  symImported : Bool
  tocPos : Off
  room : calcFixupSize type ≤ data.length

/-- the messages of `LnkMsg`; `relNotAligned` is a warning, the others are errors -/
inductive Msg
  | relNotAligned | badRelocType | fixupOffRange | badAbsFixup | badRelFixup | dllInRelReloc
  | badImpRelReloc | novNoCodeDataReloc | relNotSameSeg
  deriving DecidableEq, Repr

/-- `MGET_U8`, `MGET_U16_UN`, `MGET_U32_UN` by their size -/
def mget (size : Nat) (data : List UInt8) : Off := BitVec.ofNat 32 (leNat (data.take size))

/-- `MPUT_8`, `MPUT_16_UN`, `MPUT_32_UN` -/
def mput (size : Nat) (data : List UInt8) (val : Off) : List UInt8 :=
  leBytes size val.toNat ++ data.drop size

/-- `GET_S16` -/
def getS16 (data : List UInt8) : Off := ((mget 2 data).setWidth 16).signExtend 32

/-! ## `PatchOffset` -/

structure Patch where
  data : List UInt8
  msgs : List Msg
  fixupOverflow : Bool

/-- the 16-bit cases -/
def patchOffset16 (type : FixType) (code : List UInt8) (oldval : Off) (isdelta : Bool)
    (msgs : List Msg) : Patch :=
  if Has type fixSigned then
    let val := oldval + getS16 code
    if isdelta then
      if 0x7FFF < val.toInt then
        let val := val &&& 0xFFFF
        if 0x7FFF < val then ⟨mput 2 code (val - 0x10000), msgs, true⟩
        else ⟨mput 2 code val, msgs, false⟩
      else ⟨mput 2 code val, msgs, false⟩
    else if oldval >>> 16 < val >>> 16 then ⟨mput 2 code val, msgs, true⟩
    else ⟨mput 2 code val, msgs, oldval >>> 16 = val >>> 16 ∧ (val.setWidth 16).toInt < 0⟩
  else ⟨mput 2 code (oldval + mget 2 code), msgs, false⟩

/-- the bits of a 32-bit word that lie in `mask` -/
def patchMasked (mask : Off) (code : List UInt8) (val : Off) (msgs : List Msg) : Patch :=
  let oldval := mget 4 code
  ⟨mput 4 code ((oldval &&& ~~~mask) ||| ((val + oldval) &&& mask)), msgs, false⟩

/-- by how much the field is shifted for `FIX_HIGH` -/
def high (type : FixType) (bits : Nat) (val : Off) : Off :=
  if Has type fixHigh then val >>> bits else val

def patchOffset (type : FixType) (code : List UInt8) (val : Off) (isdelta : Bool) : Patch :=
  if val = 0 then ⟨code, [], false⟩
  else
    let msgs := if Has type fixShift ∧ Has val 3 then [Msg.relNotAligned] else []
    let val := if Has type fixShift then val >>> 2 else val
    match fixGetOffset type with
    | 1 => ⟨mput 1 code (mget 1 code + high type 8 val), msgs, false⟩
    | 2 => patchOffset16 type code (high type 16 val) isdelta msgs
    | 0 => patchOffset16 type code val isdelta msgs
    | 3 => patchMasked 0x001FFFFF code val msgs
    | 5 => patchMasked 0x03FFFFFF code val msgs
    | 6 => patchMasked 0x03FFFFFF code val msgs
    | 4 => ⟨mput 4 code (mget 4 code + val), msgs, false⟩
    | _ => ⟨code, msgs ++ [.badRelocType], false⟩

/-! ## `CheckSpecials` -/

def checkPartialRange (type : FixType) (data : List UInt8) (off mask topbit : Off) : List Msg :=
  let utemp := mget 4 data &&& mask
  let utemp := if Has utemp topbit then utemp ||| ~~~mask else utemp
  let temp := utemp + if Has type fixShift then off / 4 else off
  if temp.toInt < -topbit.toInt ∨ topbit.toInt ≤ temp.toInt then [.fixupOffRange] else []

/-- the distance from the field to the target; `none` where the group of the field is missing, and the code
reads through a null pointer -/
def selfRelOff (lk : Link) (fix : FixReloData) : Option Off :=
  let off := fix.tgtAddr.off - fix.locAddr.off
  if Has lk.type mkLinearize then
    let linear := match findGroup lk fix.tgtAddr.seg with
      | none => 0
      | some group => group.linear
    let linear := match findGroup lk fix.locAddr.seg with
      | none => linear
      | some group => linear - group.linear
    some (linear + off)
  else if Has lk.type (mk32bit ||| mkQnx) then
    if Has fix.type fixAbs then (findGroup lk fix.locAddr.seg).map fun group => off - group.linear
    else some off
  else if Has lk.type mkDos16m then
    some (((find16MSeg lk fix.tgtAddr.seg).setWidth 32 - (find16MSeg lk fix.locAddr.seg).setWidth 32) * 16
      + off)
  else
    some ((fix.tgtAddr.seg.setWidth 32 - fix.locAddr.seg.setWidth 32) <<< lk.segShift + off)

/-- `declined`: the function returns false and has patched nothing; `done`: it returns true before it comes
to a displacement; `resolved`: it has patched a displacement, and returns `handled` -/
inductive Outcome
  | declined
  | done (msgs : List Msg) (data : List UInt8)
  | resolved (msgs : List Msg) (data : List UInt8) (handled : Bool)
  deriving DecidableEq, Repr

/-- the end of `CheckSpecials`, from the distance on -/
def resolve (lk : Link) (fix : FixReloData) (off : Off) : Outcome :=
  let fixsize := calcFixupSize fix.type
  let off := if Has fix.type fixNoadj then off else off - BitVec.ofNat 32 fixsize
  let msgs :=
    if fix.type = fixOffset16 then
      if 0x10000 ≤ off + (fix.locAddr.off + BitVec.ofNat 32 fixsize) then [Msg.fixupOffRange] else []
    else if fix.type = fixOffset21 then checkPartialRange fix.type fix.data off 0x001FFFFF 0x00100000
    else if fix.type = fixOffset24 then checkPartialRange fix.type fix.data off 0x03FFFFFF 0x02000000
    else []
  let patch := patchOffset fix.type fix.data off true
  let os2Selfrel := Has lk.type mkOs2Lx ∧ lk.genRelRelocs = true
  .resolved (msgs ++ patch.msgs) patch.data (¬(os2Selfrel ∨ Has fix.type fixAbs))

/-- an imported target -/
def checkImported (lk : Link) (fix : FixReloData) : Outcome :=
  if Has lk.type (mkOs2Ne ||| mkWinNe) then .done [.dllInRelReloc] fix.data
  else if Has lk.type mkElf then .declined
  else if Has lk.type mkNovell then
    if fix.type &&& fixOffsetMask ≠ fixOffset32 ∨ Has fix.type fixBase then
      .done [.badImpRelReloc] fix.data
    else
      let patch := patchOffset fix.type fix.data (-4) true
      .done patch.msgs patch.data
  else .done [] fix.data

/-- from the test of `FIX_REL` on -/
def checkSelfRel (lk : Link) (fix : FixReloData) : Option Outcome :=
  if ¬Has fix.type fixRel then some .declined
  else if Has lk.type (mkOs2Flat ||| mkWinVxd) ∧
      (fix.imported = true ∨ fix.locAddr.seg ≠ fix.tgtAddr.seg) then some .declined
  else if Has fix.type fixAbs ∧ ¬Has lk.type mkQnx then some (.done [.badAbsFixup] fix.data)
  else if Has fix.type fixBase then some (.done [.badRelFixup] fix.data)
  else if fix.imported then some (checkImported lk fix)
  else if Has lk.type (mkProtMode &&& ~~~(mkOs2Flat ||| mkWinVxd ||| mkPe ||| mkElf)) ∧
      fix.locAddr.seg ≠ fix.tgtAddr.seg ∧ ¬Has fix.type fixAbs then
    some (.done [if Has lk.type mkIdSplit then .novNoCodeDataReloc else .relNotSameSeg] fix.data)
  else (selfRelOff lk fix).map (resolve lk fix)

/-- `TOC_RESTORE_INSTRUCTION` -/
def tocRestoreInstruction : Off := 0x804b0004

def checkSpecials (lk : Link) (fix : FixReloData) : Option Outcome :=
  if Has lk.type mkElf ∧ ¬Has fix.type fixRel then some .declined
  else if fix.fppType ≠ 0 ∧ Has lk.type (mkQnx ||| mkWinNe) then some (.done [] fix.data)
  else
    let special := fix.type &&& fixSpecialMask
    if special = fixToc ∨ special = fixTocv then
      some (.done [] (mput (if Has fix.type fixOffset16 then 2 else 4) fix.data fix.tocPos))
    else if special = fixIfglue then
      some (.done [] (if fix.targetExt ∧ fix.symImported then mput 4 fix.data tocRestoreInstruction
        else fix.data))
    else checkSelfRel lk fix

end Wl
