import OpenWatcom.Lib.CircularBuffer
import Mathlib

/-!
# The buffers of the serial port: `serialio.c`

* `ComPort`, `Memory`     the port control structure, and a buffer that was allocated;
* `setReceiveBufferSize`, `setTransmitBufferSize`, `writeData`, `readData`, `flushReadBuffer`,
  `flushWriteBuffer`, `serialIntProcess`     the operations, each of them as a whole;
* `Event`, `Port.step`     what happens to a port, with the bytes that went in and came out.

A pointer is its offset in its buffer. The check of the handle, which an acquired port passes, is left
out, and so are `Disable` and `Enable`.
-/

namespace SerialIo
open CircularBuffer

abbrev Byte := BitVec 8

def bufferMin : Nat := 128
def bufferMax : Nat := 65535
def xmtFifoLength : Nat := 2048
def rcvFifoLength : Nat := 2048
def hwXoffThreshold : Nat := 32

def serDataEnable : Byte := 0x01
def serTbreEnable : Byte := 0x02
def serMsrEnable : Byte := 0x08
def rts : Byte := 0x02
def dtr : Byte := 0x01
def receiveReady : Byte := 0x01
def overrunError : Byte := 0x02
def parityError : Byte := 0x04
def framingError : Byte := 0x08
def transmitReady : Byte := 0x20
def cts : Byte := 0x10
def dsr : Byte := 0x20

/-- `CharacterMaskTable` -/
def characterMaskTable : Fin 4 → Byte
  | 0 => 0x1F
  | 1 => 0x3F
  | 2 => 0x7F
  | 3 => 0xFF

/-- a register that is written to, with the byte -/
inductive Out where
  | transmit (b : Byte)
  | intEnable (b : Byte)
  | modemCtl (b : Byte)
deriving DecidableEq

/-- an allocated buffer -/
structure Memory where
  cells : Nat → Byte
  length : Nat

/-- `T_ComPortStruct` -/
structure ComPort where
  dataBits : Fin 4
  flowControl : Byte
  enableMask : Byte
  rtsOn : Bool
  rcvErrors : Fin 4 → BitVec 32
  rtsOffThreshold : Nat
  rcvBufferSize : Nat
  xmitBufferSize : Nat
  rcvByteCount : BitVec 16
  comInputPtr : Nat
  pcInputPtr : Nat
  comOutputPtr : Nat
  pcOutputPtr : Nat
  inputBuffer : Memory
  outputBuffer : Memory

namespace ComPort
variable (p : ComPort)

/-- a pointer one further, and back to the buffer behind its last byte -/
def advance (size ptr : Nat) : Nat := if ptr + 1 = size then 0 else ptr + 1

/-- the clamps of `BufferSize` -/
def clamp (bufferSize : BitVec 16) : Nat :=
  let size := if bufferSize.toNat < bufferMin then bufferMin else bufferSize.toNat
  if size > bufferMax then bufferMax else size

/-- `SetReceiveBufferSize`, with what the new buffer holds when `Alloc` gives one -/
def setReceiveBufferSize (bufferSize : BitVec 16) (tmp : Option (Nat → Byte)) : Nat × ComPort :=
  let size := clamp bufferSize
  let (buffer, size) := match tmp with
    | some cells => (⟨cells, size⟩, size)
    | none => (p.inputBuffer, if size > p.rcvBufferSize then p.rcvBufferSize else size)
  (size, { p with
    inputBuffer := buffer
    rcvBufferSize := size
    comInputPtr := 0
    pcInputPtr := 0
    rcvByteCount := 0 })

/-- `SetTransmitBufferSize` -/
def setTransmitBufferSize (bufferSize : BitVec 16) (tmp : Option (Nat → Byte)) : Nat × ComPort :=
  let size := clamp bufferSize
  let (buffer, size) := match tmp with
    | some cells => (⟨cells, size⟩, size)
    | none => (p.outputBuffer, if size > p.xmitBufferSize then p.xmitBufferSize else size)
  (size, { p with
    outputBuffer := buffer
    xmitBufferSize := size
    comOutputPtr := 0
    pcOutputPtr := 0 })

/-- `StartTransmit` -/
def startTransmit : List Out × ComPort :=
  if p.enableMask &&& (serTbreEnable ||| serMsrEnable) = 0 then
    let mask := p.enableMask ||| serTbreEnable
    ([.intEnable mask], { p with enableMask := mask })
  else ([], p)

/-- the loop of `WriteData`: the number of bytes it has written -/
def writeLoop (p : ComPort) : List Byte → Nat × ComPort
  | [] => (0, p)
  | b :: rest =>
    let newPcOutput := advance p.xmitBufferSize p.pcOutputPtr
    if newPcOutput = p.comOutputPtr then (0, p)
    else
      let r := writeLoop { p with
        outputBuffer :=
          { p.outputBuffer with cells := Function.update p.outputBuffer.cells p.pcOutputPtr b }
        pcOutputPtr := newPcOutput } rest
      (r.1 + 1, r.2)

/-- `WriteData` -/
def writeData (buffer : List Byte) : Nat × List Out × ComPort :=
  let (i, p) := p.writeLoop buffer
  (i, p.startTransmit)

/-- `WriteModemControlRegister`, with what the register reads -/
def writeModemControl (status modemCtl : Byte) : Out :=
  .modemCtl ((status &&& (rts ||| dtr)) ||| (modemCtl &&& ~~~(dtr ||| rts)))

/-- more than `RTS_OFFthreshold` bytes are free, by the byte counter -/
def moreRoom : Bool :=
  (p.rcvBufferSize : Int) - p.rcvByteCount.toNat > p.rtsOffThreshold

/-- the part of the loop of `ReadData` that turns RTS on -/
def rtsOnAgain (modemCtl : Byte) : List Out × ComPort :=
  if p.flowControl ≠ 0 ∧ p.rtsOn = false ∧ p.moreRoom then
    ([writeModemControl (modemCtl ||| rts) modemCtl], { p with rtsOn := true })
  else ([], p)

/-- the loop of `ReadData` for at most that many bytes -/
def readLoop (p : ComPort) (modemCtl : Byte) : Nat → List Byte × List Out × ComPort
  | 0 => ([], [], p)
  | length + 1 =>
    if p.pcInputPtr ≠ p.comInputPtr ∧ p.rcvByteCount > 0 then
      let b := p.inputBuffer.cells p.pcInputPtr
      let (out, p) := { p with
        rcvByteCount := p.rcvByteCount - 1
        pcInputPtr := advance p.rcvBufferSize p.pcInputPtr }.rtsOnAgain modemCtl
      let r := readLoop p modemCtl length
      (b :: r.1, out ++ r.2.1, r.2.2)
    else ([], [], p)

/-- `ReadData` -/
def readData (length : BitVec 16) (modemCtl : Byte) : List Byte × List Out × ComPort :=
  if p.rcvByteCount = 0 then ([], [], p) else p.readLoop modemCtl length.toNat

/-- `FlushReadBuffer` -/
def flushReadBuffer : ComPort := { p with comInputPtr := 0, pcInputPtr := 0 }

/-- `FlushWriteBuffer` -/
def flushWriteBuffer : ComPort := { p with comOutputPtr := 0, pcOutputPtr := 0 }

end ComPort

/-- what an interrupt reads: the line status, the byte, the modem control and the modem status, and the
line status again -/
structure Reads where
  lineStatus : Byte
  receive : Byte
  modemCtl : Byte
  modemStatus : Byte
  lineStatus2 : Byte

namespace ComPort
variable (p : ComPort)

/-- the error counters -/
def countErrors (lineStatus : Byte) : ComPort :=
  let bit (mask : Byte) : BitVec 32 := if lineStatus &&& mask ≠ 0 then 1 else 0
  { p with rcvErrors := fun
      | 0 => p.rcvErrors 0 + bit overrunError
      | 1 => p.rcvErrors 1 + bit parityError
      | 2 => p.rcvErrors 2 + bit framingError
      | 3 => p.rcvErrors 3 }

/-- the part of `SerialIntProcess` that turns RTS off -/
def rtsOffWhenFull (modemCtl : Byte) : List Out × ComPort :=
  if p.flowControl ≠ 0 ∧ p.moreRoom = false ∧ p.rtsOn then
    ([writeModemControl (modemCtl &&& ~~~rts) modemCtl], { p with rtsOn := false })
  else ([], p)

/-- the part of `SerialIntProcess` that stores a byte, or counts it as missed -/
def storeByte (inByte : Byte) : ComPort :=
  let newInputPtr := advance p.rcvBufferSize p.comInputPtr
  if newInputPtr ≠ p.pcInputPtr then
    { p with
      inputBuffer :=
        { p.inputBuffer with cells := Function.update p.inputBuffer.cells p.comInputPtr inByte }
      comInputPtr := newInputPtr
      rcvByteCount := p.rcvByteCount + 1 }
  else { p with rcvErrors := Function.update p.rcvErrors 3 (p.rcvErrors 3 + 1) }

/-- `TransmitChar` -/
def transmitChar (reads : Reads) : List Out × ComPort :=
  let msr := reads.modemStatus &&& (cts ||| dsr)
  let (out, q) :=
    if p.flowControl = 0 ∨ msr = cts ||| dsr then
      if p.comOutputPtr ≠ p.pcOutputPtr then
        let (out, q) :=
          if reads.lineStatus2 &&& transmitReady ≠ 0 then
            ([.transmit (p.outputBuffer.cells p.comOutputPtr)],
              { p with comOutputPtr := advance p.xmitBufferSize p.comOutputPtr })
          else ([], p)
        (out, { q with enableMask := (q.enableMask &&& ~~~serMsrEnable) ||| serTbreEnable })
      else
        ([], { p with enableMask :=
          (p.enableMask &&& ~~~(serTbreEnable ||| serMsrEnable)) &&& ~~~serTbreEnable })
    else ([], { p with enableMask := (p.enableMask ||| serMsrEnable) &&& ~~~serTbreEnable })
  (if p.enableMask ≠ q.enableMask then out ++ [.intEnable q.enableMask] else out, q)

/-- `SerialIntProcess` -/
def serialIntProcess (reads : Reads) : List Out × ComPort :=
  let p := p.countErrors reads.lineStatus
  let (out1, p) :=
    if reads.lineStatus &&& receiveReady ≠ 0 then
      let (out, q) := p.rtsOffWhenFull reads.modemCtl
      (out, q.storeByte (reads.receive &&& characterMaskTable p.dataBits))
    else ([], p)
  let (out2, p) := p.transmitChar reads
  (out1 ++ out2, p)

/-- a port behind `AcquireSerialPort` and `InitSerialPort` -/
def init (dataBits : Fin 4) (flowControl : Byte) (inputCells outputCells : Nat → Byte) : ComPort where
  dataBits := dataBits
  flowControl := flowControl
  enableMask := serDataEnable
  rtsOn := true
  rcvErrors := fun _ => 0
  rtsOffThreshold := hwXoffThreshold
  rcvBufferSize := rcvFifoLength
  xmitBufferSize := xmtFifoLength
  rcvByteCount := 0
  comInputPtr := 0
  pcInputPtr := 0
  comOutputPtr := 0
  pcOutputPtr := 0
  inputBuffer := ⟨inputCells, rcvFifoLength⟩
  outputBuffer := ⟨outputCells, xmtFifoLength⟩

end ComPort

/-- the byte that an interrupt received, unless it was counted as missed -/
def receivedByte (p q : ComPort) (reads : Reads) : List Byte :=
  if reads.lineStatus &&& receiveReady ≠ 0 ∧ q.rcvErrors 3 = p.rcvErrors 3 then
    [reads.receive &&& characterMaskTable p.dataBits]
  else []

end SerialIo
