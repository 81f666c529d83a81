import OpenWatcom.Watcom.Leb128

/-!
# Line programs: the writer `dwline.c`, `dwlngen.c` and the reader `drline.c`

* `dwLineGen`, `dwLineNum`, `dwSetFile`, `dwLineAddr`    what the writer appends to `.debug_line`;
* `lineProgram`                                the program behind the prologue, with its end;
* `LineData`, `standardOp`, `extendedOp`, `wlkStateProg`   the state machine of the reader, and its rows.

The writer lays the label of `DWLineAddr` down by a relocation; what the linker leaves there is given by
`label`. The reader is run as by `DRWalkLines`; `none` is a program that ends inside an opcode.
-/

namespace Dwarf
open Bytes Leb128

/-! ## the constants of `dwarf.h` -/

def dwlineOpcodeBase : Nat := 10
def dwMinInstrLength : Nat := 1
def dwlineBase : Int := -1
def dwlineRange : Nat := 4

/-- `MAX_ADDR_INCR` -/
def maxAddrIncr : Nat := (255 - dwlineOpcodeBase) / dwlineRange

def lnsCopy : UInt8 := 1
def lnsAdvancePc : UInt8 := 2
def lnsAdvanceLine : UInt8 := 3
def lnsSetFile : UInt8 := 4
def lnsSetColumn : UInt8 := 5
def lnsNegateStmt : UInt8 := 6
def lnsSetBasicBlock : UInt8 := 7
def lnsConstAddPc : UInt8 := 8
def lneEndSequence : UInt8 := 1
def lneSetAddress : UInt8 := 2
def lneDefineFile : UInt8 := 3

/-! ## the writer -/

/-- an `int` that wraps -/
def wrap32 (z : Int) : Int := (BitVec.ofInt 32 z).toInt

/-- the end of `DWLineGen`, behind the label `overflow`; `lineIncr` counts from `DWLINE_BASE` -/
def genOverflow (lineIncr addrIncr : Int) : List UInt8 :=
  if lineIncr = 0 - dwlineBase then lnsAdvancePc :: (encodeSLEB128 addrIncr ++ [lnsCopy])
  else
    let addr := addrIncr % (maxAddrIncr - 1 : Nat)
    let opcode : Int := lineIncr + dwlineRange * addr + dwlineOpcodeBase
    lnsAdvancePc :: (encodeSLEB128 (addrIncr - addr) ++ [UInt8.ofNat opcode.toNat])

/-- the opcode of a row whose increments are not both 0; `opcode` is a `uint` -/
def genOpcode (lineIncr addrIncr : Int) : List UInt8 :=
  let lineIncr := lineIncr - dwlineBase
  if wrap32 (dwlineRange * addrIncr) < addrIncr then genOverflow lineIncr addrIncr
  else
    let opcode : Int := dwlineRange * addrIncr % 2 ^ 32
    if (opcode + lineIncr) % 2 ^ 32 < opcode then genOverflow lineIncr addrIncr
    else
      let opcode : Int := (opcode + lineIncr) % 2 ^ 32
      if opcode ≤ 255 - dwlineOpcodeBase then [UInt8.ofNat (opcode + dwlineOpcodeBase).toNat]
      else if addrIncr < 2 * maxAddrIncr then
        [lnsConstAddPc, UInt8.ofNat (opcode - maxAddrIncr * dwlineRange + dwlineOpcodeBase).toNat]
      else genOverflow lineIncr addrIncr

/-- the increment of the address, and the row -/
def genAddr (lineIncr addrIncr : Int) : List UInt8 :=
  let (front, addrIncr) :=
    if addrIncr < 0 then (lnsAdvancePc :: encodeSLEB128 addrIncr, 0)
    else ([], addrIncr / dwMinInstrLength)
  front ++ if addrIncr = 0 ∧ lineIncr = 0 then [lnsCopy] else genOpcode lineIncr addrIncr

def dwLineGen (lineIncr addrIncr : Int) : List UInt8 :=
  if lineIncr < dwlineBase ∨ lineIncr > dwlineBase + dwlineRange - 1 then
    lnsAdvanceLine :: (encodeSLEB128 lineIncr ++ genAddr 0 addrIncr)
  else genAddr lineIncr addrIncr

/-- a file name; with its attributes it has a length that fits in an `unsigned` -/
structure FileName where
  bytes : List UInt8
  short : bytes.length + 5 < 2 ^ 32
  deriving DecidableEq

/-- `cli->debug_line`; the files, the newest first, with their numbers -/
structure DebugLine where
  files : List (FileName × Nat)
  addr : BitVec 32
  line : BitVec 32
  column : BitVec 16
  isStmt : Bool

def writeFileName (name : FileName) : List UInt8 :=
  let len := name.bytes.length + 1
  let bufSize := 1 + len + 1 + (encodeULEB128 0).length + (encodeULEB128 0).length
  0 :: (encodeULEB128 bufSize ++ lneDefineFile :: (name.bytes ++ 0 ::
    (encodeULEB128 0 ++ (encodeULEB128 0 ++ encodeULEB128 0))))

/-- the number of a file, which is defined when it is new -/
def dwGetFileNumber (w : DebugLine) (name : FileName) : Nat × DebugLine × List UInt8 :=
  match w.files.find? fun walk => walk.1 = name with
  | some walk => (walk.2, w, [])
  | none =>
    let number := match w.files with
      | [] => 1
      | next :: _ => (next.2 + 1) % 2 ^ 32
    (number, { w with files := (name, number) :: w.files }, writeFileName name)

def dwSetFile (w : DebugLine) (name : FileName) : DebugLine × List UInt8 :=
  let (number, w, defined) := dwGetFileNumber w name
  (w, defined ++ lnsSetFile :: encodeSLEB128 number)

def dwLineNum (w : DebugLine) (stmt blk : Bool) (line : BitVec 32) (column : BitVec 16)
    (addr : BitVec 32) : DebugLine × List UInt8 :=
  let block := if blk then [lnsSetBasicBlock] else []
  let negate := if stmt ≠ w.isStmt then [lnsNegateStmt] else []
  let col := if column ≠ w.column then lnsSetColumn :: encodeSLEB128 column.toNat else []
  ({ w with addr := addr, line := line, column := column, isStmt := stmt },
    block ++ (negate ++ (col ++ dwLineGen (line - w.line).toInt (addr - w.addr).toInt)))

/-- `cli->offset_size` -/
inductive OffsetSize
  | two | four
  deriving DecidableEq, Repr

def OffsetSize.bytes : OffsetSize → Nat
  | two => 2 | four => 4

def dwLineAddr (size : OffsetSize) (label : Nat) (w : DebugLine) (addr : BitVec 32) :
    DebugLine × List UInt8 :=
  ({ w with addr := addr },
    0 :: (encodeULEB128 (1 + size.bytes) ++ lneSetAddress :: leBytes size.bytes label))

/-- `DW_InitDebugLine` behind the prologue -/
def dwInitDebugLine (source : FileName) : DebugLine × List UInt8 :=
  (dwGetFileNumber ⟨[], 0, 1, 0, false⟩ source).2

/-- a call of the client; `label` is the relocated value of the symbol -/
inductive Call
  | setFile (name : FileName)
  | lineAddr (label : Nat) (addr : BitVec 32)
  | lineNum (stmt blk : Bool) (line : BitVec 32) (column : BitVec 16) (addr : BitVec 32)

def call (size : OffsetSize) (w : DebugLine) : Call → DebugLine × List UInt8
  | .setFile name => dwSetFile w name
  | .lineAddr label addr => dwLineAddr size label w addr
  | .lineNum stmt blk line column addr => dwLineNum w stmt blk line column addr

/-- what a sequence of calls appends -/
def emits (size : OffsetSize) (w : DebugLine) : List Call → List UInt8
  | [] => []
  | c :: cs => (call size w c).2 ++ emits size (call size w c).1 cs

/-- the program, with the end that `DW_FiniDebugLine` writes -/
def lineProgram (size : OffsetSize) (source : FileName) (cs : List Call) : List UInt8 :=
  (dwInitDebugLine source).2 ++ (emits size (dwInitDebugLine source).1 cs ++ [0, 1, lneEndSequence])

/-! ## the reader -/

/-- `dr_line_data` -/
structure LineData where
  offset : BitVec 32
  line : BitVec 32
  column : BitVec 16
  file : BitVec 16
  seg : BitVec 16
  isStmt : Bool
  basicBlk : Bool
  endSeq : Bool
  addrSet : Bool
  deriving DecidableEq, Repr

/-- `prog_rdr`: what the prologue says -/
structure ProgRdr where
  seg : BitVec 16
  lineBase : Int
  lineRange : Nat
  minInsLen : Nat
  defIsStmt : Bool
  opcodeBase : Nat
  opLens : List Nat

/-- the values that `DW_InitDebugLine` writes in the prologue -/
def prologue (seg : BitVec 16) : ProgRdr :=
  ⟨seg, dwlineBase, dwlineRange, dwMinInstrLength, false, dwlineOpcodeBase,
    [0, 1, 1, 1, 1, 0, 0, 0, 0]⟩

def initState (rdr : ProgRdr) : LineData :=
  ⟨0, 1, 0, 1, rdr.seg, rdr.defIsStmt, false, false, true⟩

/-- the state behind an opcode, the rows it appends, and the bytes behind it -/
abbrev OpResult := Option (LineData × List LineData × List UInt8)

/-- what follows an appended row -/
def LineData.appended (s : LineData) : LineData := { s with addrSet := false, basicBlk := false }

/-- `DR_ReadInt` -/
def readInt (curr : List UInt8) (size : Nat) : Option Nat :=
  if (size = 1 ∨ size = 2 ∨ size = 4) ∧ size ≤ curr.length then some (leNat (curr.take size)) else none

def skipLeb : Nat → List UInt8 → Option (List UInt8)
  | 0, curr => some curr
  | n + 1, curr => (decodeULEB128 curr).bind fun (_, curr) => skipLeb n curr

section
variable (rdr : ProgRdr) (s : LineData)

def standardOp (op : Nat) (curr : List UInt8) : OpResult :=
  match op with
  | 1 => some (s.appended, [s], curr)
  | 2 => (decodeULEB128 curr).map fun (v, curr) =>
      ({ s with offset := s.offset + BitVec.ofNat 32 (v * rdr.minInsLen) }, [], curr)
  | 3 => (decodeSLEB128 curr).map fun (v, curr) =>
      ({ s with line := s.line + BitVec.ofInt 32 v }, [], curr)
  | 4 => (decodeULEB128 curr).map fun (v, curr) => ({ s with file := BitVec.ofNat 16 v }, [], curr)
  | 5 => (decodeULEB128 curr).map fun (v, curr) => ({ s with column := BitVec.ofNat 16 v }, [], curr)
  | 6 => some ({ s with isStmt := !s.isStmt }, [], curr)
  | 7 => some ({ s with basicBlk := true }, [], curr)
  | 8 =>
    let value := 255 - rdr.opcodeBase
    some ({ s with offset := s.offset + BitVec.ofNat 32 (value / rdr.lineRange * rdr.minInsLen) }, [],
      curr)
  | 9 => (readInt curr 2).map fun v =>
      ({ s with offset := s.offset + BitVec.ofNat 32 v }, [], curr.drop 2)
  | _ => (skipLeb (rdr.opLens.getD (op - 1) 0) curr).map fun curr => (s, [], curr)

def extendedOp (curr : List UInt8) : OpResult :=
  (decodeULEB128 curr).bind fun (length, curr) =>
    match curr with
    | [] => none
    | lne :: curr =>
      let length := (length + 2 ^ 32 - 1) % 2 ^ 32
      match lne.toNat with
      | 1 => some (initState rdr, [{ s with endSeq := true }], curr)
      | 2 => (readInt curr length).map fun v =>
          ({ s with offset := BitVec.ofNat 32 v, addrSet := true }, [], curr.drop length)
      | 4 => some (s, [], curr)
      | 128 => (readInt curr length).map fun v =>
          ({ s with seg := BitVec.ofNat 16 v }, [], curr.drop length)
      | _ => some (s, [], curr.drop length)

def specialOp (value : Nat) (curr : List UInt8) : OpResult :=
  let s := { s with
    offset := s.offset + BitVec.ofNat 32 (value / rdr.lineRange * rdr.minInsLen)
    line := s.line + BitVec.ofInt 32 ((value % rdr.lineRange : Nat) + rdr.lineBase) }
  some (s.appended, [s], curr)

end

/-- the loop of `WlkStateProg`: the rows that are appended -/
def wlkLoop (rdr : ProgRdr) : Nat → LineData → List UInt8 → Option (List LineData)
  | _, _, [] => some []
  | 0, _, _ :: _ => none
  | f + 1, s, op :: curr =>
    (if op.toNat = 0 then extendedOp rdr s curr
      else if op.toNat < rdr.opcodeBase then standardOp rdr s op.toNat curr
      else specialOp rdr s (op.toNat - rdr.opcodeBase) curr).bind fun (s, rows, curr) =>
        (wlkLoop rdr f s curr).map fun more => rows ++ more

def wlkStateProg (rdr : ProgRdr) (program : List UInt8) : Option (List LineData) :=
  wlkLoop rdr program.length (initState rdr) program

end Dwarf
