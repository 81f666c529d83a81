import OpenWatcom.Trap.SerialIo

/-!
# Runs of the serial port

* `Event`, `Port`, `step`, `run`     the operations in any order, with the bytes that were stored, returned,
  accepted and sent since the last flush or resize;
* `InputOk`, `OutputOk`, `CountOk`     the two sides of a port, and the byte counter;
* `writeLoop_ok`, `readLoop_ok`, `storeByte_ok`, `transmitChar_ok`     what the operations keep;
* `port_right_iff`     a run keeps everything exactly when no `FlushReadBuffer` throws bytes away.
-/

namespace SerialIo
open CircularBuffer

namespace ComPort
variable (p : ComPort)

/-- the input buffer: the interrupt writes it, `ReadData` reads it -/
def input : Buffer Byte := ⟨p.inputBuffer.cells, p.rcvBufferSize, p.pcInputPtr, p.comInputPtr⟩

/-- the output buffer: `WriteData` writes it, `TransmitChar` reads it -/
def output : Buffer Byte := ⟨p.outputBuffer.cells, p.xmitBufferSize, p.comOutputPtr, p.pcOutputPtr⟩

end ComPort

inductive Event where
  | setReceiveBufferSize (bufferSize : BitVec 16) (tmp : Option (Nat → Byte))
  | setTransmitBufferSize (bufferSize : BitVec 16) (tmp : Option (Nat → Byte))
  | writeData (buffer : List Byte)
  | readData (length : BitVec 16) (modemCtl : Byte)
  | flushReadBuffer
  | flushWriteBuffer
  | interrupt (reads : Reads)

/-- a port, with the bytes since the last flush or resize of each side: those that interrupts stored and
`ReadData` returned, and those that `WriteData` accepted and that were sent -/
structure Port where
  com : ComPort
  stored : List Byte
  returned : List Byte
  accepted : List Byte
  sent : List Byte

/-- the bytes that were written to the transmit register -/
def sentBytes (out : List Out) : List Byte :=
  out.filterMap fun o => match o with
    | .transmit b => some b
    | _ => none

def step (s : Port) : Event → Port
  | .setReceiveBufferSize n tmp =>
    { s with com := (s.com.setReceiveBufferSize n tmp).2, stored := [], returned := [] }
  | .setTransmitBufferSize n tmp =>
    { s with com := (s.com.setTransmitBufferSize n tmp).2, accepted := [], sent := [] }
  | .writeData buffer =>
    let r := s.com.writeData buffer
    { s with com := r.2.2, accepted := s.accepted ++ buffer.take r.1 }
  | .readData length modemCtl =>
    let r := s.com.readData length modemCtl
    { s with com := r.2.2, returned := s.returned ++ r.1 }
  | .flushReadBuffer => { s with com := s.com.flushReadBuffer, stored := [], returned := [] }
  | .flushWriteBuffer => { s with com := s.com.flushWriteBuffer, accepted := [], sent := [] }
  | .interrupt reads =>
    let r := s.com.serialIntProcess reads
    { s with
      com := r.2
      stored := s.stored ++ receivedByte s.com r.2 reads
      sent := s.sent ++ sentBytes r.1 }

def run (s : Port) (es : List Event) : Port := es.foldl step s

/-! ## what is to hold -/

/-- the input pointers are in their buffer, and what was stored is what was returned and is still there -/
structure InputOk (p : ComPort) (stored returned : List Byte) : Prop where
  size : p.rcvBufferSize ≤ p.inputBuffer.length ∧ p.rcvBufferSize ≤ bufferMax
  inside : p.input.Inside
  order : stored = returned ++ p.input.contents

/-- the output pointers are in their buffer, and what was accepted is what was sent and is still there -/
structure OutputOk (p : ComPort) (accepted sent : List Byte) : Prop where
  size : p.xmitBufferSize ≤ p.outputBuffer.length
  inside : p.output.Inside
  order : accepted = sent ++ p.output.contents

/-- `RcvByteCount` is the number of bytes in the input buffer -/
def CountOk (p : ComPort) : Prop := p.rcvByteCount.toNat = p.input.dist

/-- what is to hold of a port in every state -/
structure Right (s : Port) : Prop where
  input : InputOk s.com s.stored s.returned
  output : OutputOk s.com s.accepted s.sent
  count : CountOk s.com
  reads : ∀ length modemCtl,
    (s.com.readData length modemCtl).1 = s.com.input.contents.take length.toNat

/-! ## the operations -/

section
variable {p q : ComPort} {stored returned accepted sent : List Byte}

/-- what the input side of a port is made of -/
def ComPort.inputSide (p : ComPort) : Memory × Nat × BitVec 16 × Nat × Nat :=
  (p.inputBuffer, p.rcvBufferSize, p.rcvByteCount, p.comInputPtr, p.pcInputPtr)

/-- what the output side is made of -/
def ComPort.outputSide (p : ComPort) : Memory × Nat × Nat × Nat :=
  (p.outputBuffer, p.xmitBufferSize, p.comOutputPtr, p.pcOutputPtr)

theorem inputSide_input (h : q.inputSide = p.inputSide) : q.input = p.input := by
  obtain ⟨h1, h2, -, h4, h5⟩ : q.inputBuffer = p.inputBuffer ∧ q.rcvBufferSize = p.rcvBufferSize ∧
      q.rcvByteCount = p.rcvByteCount ∧ q.comInputPtr = p.comInputPtr ∧
      q.pcInputPtr = p.pcInputPtr := by
    simpa [ComPort.inputSide] using h
  rw [ComPort.input, ComPort.input, h1, h2, h4, h5]

theorem inputOk_congr (h : q.inputSide = p.inputSide) (hp : InputOk p stored returned) :
    InputOk q stored returned := by
  have e := inputSide_input h
  have h1 : q.inputBuffer = p.inputBuffer := congrArg (·.1) h
  have h2 : q.rcvBufferSize = p.rcvBufferSize := congrArg (·.2.1) h
  exact ⟨by rw [h1, h2]; exact hp.size, by rw [e]; exact hp.inside, by rw [e]; exact hp.order⟩

theorem countOk_congr (h : q.inputSide = p.inputSide) (hp : CountOk p) : CountOk q := by
  have h3 : q.rcvByteCount = p.rcvByteCount := congrArg (·.2.2.1) h
  rw [CountOk, inputSide_input h, h3]
  exact hp

theorem outputOk_congr (h : q.outputSide = p.outputSide) (hp : OutputOk p accepted sent) :
    OutputOk q accepted sent := by
  obtain ⟨h1, h2, h3, h4⟩ : q.outputBuffer = p.outputBuffer ∧ q.xmitBufferSize = p.xmitBufferSize ∧
      q.comOutputPtr = p.comOutputPtr ∧ q.pcOutputPtr = p.pcOutputPtr := by
    simpa [ComPort.outputSide] using h
  have e : q.output = p.output := by
    rw [ComPort.output, ComPort.output, h1, h2, h3, h4]
  exact ⟨by rw [h1, h2]; exact hp.size, by rw [e]; exact hp.inside, by rw [e]; exact hp.order⟩

theorem clamp_bounds (n : BitVec 16) : bufferMin ≤ ComPort.clamp n ∧ ComPort.clamp n ≤ bufferMax := by
  have h : bufferMin ≤ bufferMax := by decide
  unfold ComPort.clamp
  dsimp only
  split_ifs <;> omega

/-- an empty input side -/
theorem inputOk_empty (hsize : p.rcvBufferSize ≤ p.inputBuffer.length ∧ p.rcvBufferSize ≤ bufferMax)
    (hpos : 0 < p.rcvBufferSize) (h1 : p.comInputPtr = 0) (h2 : p.pcInputPtr = 0) :
    InputOk p [] [] := by
  have h : p.input.head = p.input.tail := by rw [ComPort.input, h1, h2]
  refine ⟨hsize, ⟨?_, ?_⟩, (contents_empty h).symm⟩
  · show p.pcInputPtr < p.rcvBufferSize
    rwa [h2]
  · show p.comInputPtr < p.rcvBufferSize
    rwa [h1]

theorem outputOk_empty (hsize : p.xmitBufferSize ≤ p.outputBuffer.length)
    (hpos : 0 < p.xmitBufferSize) (h1 : p.comOutputPtr = 0) (h2 : p.pcOutputPtr = 0) :
    OutputOk p [] [] := by
  have h : p.output.head = p.output.tail := by rw [ComPort.output, h1, h2]
  refine ⟨hsize, ⟨?_, ?_⟩, (contents_empty h).symm⟩
  · show p.comOutputPtr < p.xmitBufferSize
    rwa [h1]
  · show p.pcOutputPtr < p.xmitBufferSize
    rwa [h2]

theorem setReceiveBufferSize_ok (hp : InputOk p stored returned) (n : BitVec 16)
    (tmp : Option (Nat → Byte)) : InputOk (p.setReceiveBufferSize n tmp).2 [] [] := by
  have hc := clamp_bounds n
  have hmin : 0 < bufferMin := by decide
  have hs := hp.size
  have hpos : 0 < p.rcvBufferSize := Nat.zero_lt_of_lt hp.inside.head
  cases tmp with
  | some cells => exact inputOk_empty ⟨le_refl _, hc.2⟩ (by show 0 < ComPort.clamp n; omega) rfl rfl
  | none =>
    refine inputOk_empty ?_ ?_ rfl rfl
    · show (if ComPort.clamp n > p.rcvBufferSize then p.rcvBufferSize else ComPort.clamp n) ≤
          p.inputBuffer.length ∧
        (if ComPort.clamp n > p.rcvBufferSize then p.rcvBufferSize else ComPort.clamp n) ≤ bufferMax
      split_ifs <;> omega
    · show 0 < if ComPort.clamp n > p.rcvBufferSize then p.rcvBufferSize else ComPort.clamp n
      split_ifs <;> omega

theorem setTransmitBufferSize_ok (hp : OutputOk p accepted sent) (n : BitVec 16)
    (tmp : Option (Nat → Byte)) : OutputOk (p.setTransmitBufferSize n tmp).2 [] [] := by
  have hc := clamp_bounds n
  have hmin : 0 < bufferMin := by decide
  have hs := hp.size
  have hpos : 0 < p.xmitBufferSize := Nat.zero_lt_of_lt hp.inside.head
  cases tmp with
  | some cells => exact outputOk_empty (le_refl _) (by show 0 < ComPort.clamp n; omega) rfl rfl
  | none =>
    refine outputOk_empty ?_ ?_ rfl rfl
    · show (if ComPort.clamp n > p.xmitBufferSize then p.xmitBufferSize else ComPort.clamp n) ≤
          p.outputBuffer.length
      split_ifs <;> omega
    · show 0 < if ComPort.clamp n > p.xmitBufferSize then p.xmitBufferSize else ComPort.clamp n
      split_ifs <;> omega

/-- `WriteData` puts the accepted bytes behind those that wait -/
theorem writeLoop_ok (buffer : List Byte) : ∀ {p : ComPort} {accepted : List Byte},
    OutputOk p accepted sent →
    OutputOk (p.writeLoop buffer).2 (accepted ++ buffer.take (p.writeLoop buffer).1) sent ∧
      (p.writeLoop buffer).2.inputSide = p.inputSide := by
  induction buffer with
  | nil =>
    intro p accepted hp
    rw [List.take_nil, List.append_nil]
    exact ⟨hp, rfl⟩
  | cons b rest ih =>
    intro p accepted hp
    unfold ComPort.writeLoop
    by_cases h : ComPort.advance p.xmitBufferSize p.pcOutputPtr = p.comOutputPtr
    · simp only [if_pos h, List.take_zero, List.append_nil]
      exact ⟨hp, trivial⟩
    · simp only [if_neg h]
      have hpush : OutputOk { p with
          outputBuffer :=
            { p.outputBuffer with cells := Function.update p.outputBuffer.cells p.pcOutputPtr b }
          pcOutputPtr := ComPort.advance p.xmitBufferSize p.pcOutputPtr } (accepted ++ [b]) sent := by
        refine ⟨hp.size, inside_push hp.inside b, ?_⟩
        rw [hp.order, List.append_assoc]
        exact congrArg (sent ++ ·) (contents_push hp.inside h b).symm
      obtain ⟨h1, h2⟩ := ih hpush
      rw [List.append_assoc] at h1
      exact ⟨h1, h2⟩

theorem rtsOnAgain_sides (modemCtl : Byte) :
    (p.rtsOnAgain modemCtl).2.inputSide = p.inputSide ∧
      (p.rtsOnAgain modemCtl).2.outputSide = p.outputSide := by
  unfold ComPort.rtsOnAgain
  split_ifs <;> exact ⟨rfl, rfl⟩

theorem rtsOffWhenFull_sides (modemCtl : Byte) :
    (p.rtsOffWhenFull modemCtl).2.inputSide = p.inputSide ∧
      (p.rtsOffWhenFull modemCtl).2.outputSide = p.outputSide := by
  unfold ComPort.rtsOffWhenFull
  split_ifs <;> exact ⟨rfl, rfl⟩

/-- one byte of `ReadData` -/
theorem readByte_ok (hp : InputOk p stored returned) (h : p.pcInputPtr ≠ p.comInputPtr) :
    InputOk { p with
      rcvByteCount := p.rcvByteCount - 1
      pcInputPtr := ComPort.advance p.rcvBufferSize p.pcInputPtr } stored
      (returned ++ [p.inputBuffer.cells p.pcInputPtr]) := by
  refine ⟨hp.size, inside_pop hp.inside, ?_⟩
  rw [hp.order, List.append_assoc, contents_pop hp.inside h]
  rfl

theorem readByte_count (hp : InputOk p stored returned) (hc : CountOk p)
    (h : p.pcInputPtr ≠ p.comInputPtr) : CountOk { p with
      rcvByteCount := p.rcvByteCount - 1
      pcInputPtr := ComPort.advance p.rcvBufferSize p.pcInputPtr } := by
  have hd := dist_pop hp.inside h
  have hc' : p.rcvByteCount.toNat = p.input.dist := hc
  have hlt := p.rcvByteCount.isLt
  show (p.rcvByteCount - 1).toNat = p.input.pop.dist
  have e : (p.rcvByteCount - 1).toNat = p.rcvByteCount.toNat - 1 := by
    rw [BitVec.toNat_sub_of_le]
    · rfl
    · rw [BitVec.le_def]
      show 1 ≤ p.rcvByteCount.toNat
      omega
  omega

/-- `ReadData` takes the bytes from the front of those that wait -/
theorem readLoop_ok (modemCtl : Byte) (length : Nat) : ∀ {p : ComPort} {returned : List Byte},
    InputOk p stored returned →
    InputOk (p.readLoop modemCtl length).2.2 stored (returned ++ (p.readLoop modemCtl length).1) ∧
      (p.readLoop modemCtl length).2.2.outputSide = p.outputSide := by
  induction length with
  | zero =>
    intro p returned hp
    exact ⟨by simpa [ComPort.readLoop] using hp, rfl⟩
  | succ length ih =>
    intro p returned hp
    unfold ComPort.readLoop
    by_cases h : p.pcInputPtr ≠ p.comInputPtr ∧ p.rcvByteCount > 0
    · simp only [if_pos h]
      have hs := rtsOnAgain_sides (p := { p with
        rcvByteCount := p.rcvByteCount - 1
        pcInputPtr := ComPort.advance p.rcvBufferSize p.pcInputPtr }) modemCtl
      obtain ⟨h1, h2⟩ := ih (inputOk_congr hs.1 (readByte_ok hp h.1))
      rw [List.append_assoc] at h1
      exact ⟨h1, h2.trans hs.2⟩
    · simp only [if_neg h, List.append_nil]
      exact ⟨hp, trivial⟩

/-- with the right count `ReadData` takes as many bytes as it can -/
theorem readLoop_count (modemCtl : Byte) (length : Nat) : ∀ {p : ComPort} {returned : List Byte},
    InputOk p stored returned → CountOk p →
    CountOk (p.readLoop modemCtl length).2.2 ∧
      (p.readLoop modemCtl length).1 = p.input.contents.take length := by
  induction length with
  | zero => exact fun _ hc => ⟨hc, rfl⟩
  | succ length ih =>
    intro p returned hp hc
    have hc' : p.rcvByteCount.toNat = p.input.dist := hc
    unfold ComPort.readLoop
    by_cases hne : p.pcInputPtr = p.comInputPtr
    · rw [if_neg fun h => h.1 hne, contents_empty hne]
      exact ⟨hc, rfl⟩
    · have hpos : p.rcvByteCount > 0 := by
        show (0 : BitVec 16).toNat < p.rcvByteCount.toNat
        have hd := dist_pop hp.inside hne
        rw [hc', ← hd]
        exact Nat.succ_pos _
      simp only [if_pos (And.intro hne hpos)]
      have hs := rtsOnAgain_sides (p := { p with
        rcvByteCount := p.rcvByteCount - 1
        pcInputPtr := ComPort.advance p.rcvBufferSize p.pcInputPtr }) modemCtl
      obtain ⟨h1, h2⟩ := ih (inputOk_congr hs.1 (readByte_ok hp hne))
        (countOk_congr hs.1 (readByte_count hp hc hne))
      refine ⟨h1, ?_⟩
      rw [h2, inputSide_input hs.1, contents_pop hp.inside hne, List.take_succ_cons]
      rfl

theorem readData_ok (hp : InputOk p stored returned) (length : BitVec 16) (modemCtl : Byte) :
    InputOk (p.readData length modemCtl).2.2 stored (returned ++ (p.readData length modemCtl).1) ∧
      (p.readData length modemCtl).2.2.outputSide = p.outputSide := by
  unfold ComPort.readData
  split_ifs
  · rw [List.append_nil]
    exact ⟨hp, rfl⟩
  · exact readLoop_ok modemCtl length.toNat hp

theorem readData_count (hp : InputOk p stored returned) (hc : CountOk p) (length : BitVec 16)
    (modemCtl : Byte) : CountOk (p.readData length modemCtl).2.2 ∧
      (p.readData length modemCtl).1 = p.input.contents.take length.toNat := by
  unfold ComPort.readData
  by_cases h : p.rcvByteCount = 0
  · have hc' : p.rcvByteCount.toNat = p.input.dist := hc
    rw [h] at hc'
    rw [if_pos h, contents_empty ((dist_eq_zero hp.inside).mp hc'.symm)]
    exact ⟨hc, List.take_nil.symm⟩
  · rw [if_neg h]
    exact readLoop_count modemCtl length.toNat hp hc

/-- the byte is stored when there is room, else it is counted as missed -/
theorem storeByte_ok (hp : InputOk p stored returned) (b : Byte) :
    InputOk (p.storeByte b)
      (stored ++ if (p.storeByte b).rcvErrors 3 = p.rcvErrors 3 then [b] else []) returned := by
  unfold ComPort.storeByte
  by_cases h : ComPort.advance p.rcvBufferSize p.comInputPtr ≠ p.pcInputPtr
  · simp only [if_pos h]
    refine ⟨hp.size, inside_push hp.inside b, ?_⟩
    rw [hp.order, List.append_assoc]
    exact congrArg (returned ++ ·) (contents_push hp.inside h b).symm
  · have hne : p.rcvErrors 3 + 1 ≠ p.rcvErrors 3 := by
      intro he
      have := congrArg (· - p.rcvErrors 3) he
      simp at this
    simp only [if_neg h, Function.update_self, if_neg hne, List.append_nil]
    exact ⟨hp.size, hp.inside, hp.order⟩

theorem storeByte_count (hp : InputOk p stored returned) (hc : CountOk p) (b : Byte) :
    CountOk (p.storeByte b) := by
  have hc' : p.rcvByteCount.toNat = p.input.dist := hc
  unfold ComPort.storeByte
  by_cases h : ComPort.advance p.rcvBufferSize p.comInputPtr ≠ p.pcInputPtr
  · simp only [if_pos h]
    have hd := dist_push hp.inside h b
    have hlt := dist_lt (inside_push hp.inside b)
    have hsize : p.rcvBufferSize ≤ 65535 := hp.size.2
    have hb : (p.input.push b).dist < p.rcvBufferSize := hlt
    show (p.rcvByteCount + 1).toNat = (p.input.push b).dist
    rw [BitVec.toNat_add, hd, hc', Nat.mod_eq_of_lt]
    · rfl
    · show p.input.dist + 1 < 65536
      omega
  · simp only [if_neg h]
    exact hc

theorem transmitChar_ok (hp : OutputOk p accepted sent) (reads : Reads) :
    OutputOk (p.transmitChar reads).2 accepted (sent ++ sentBytes (p.transmitChar reads).1) ∧
      (p.transmitChar reads).2.inputSide = p.inputSide ∧
      (p.transmitChar reads).2.rcvErrors = p.rcvErrors := by
  have hmask (out : List Out) (c : Prop) [Decidable c] (m : Byte) :
      sentBytes (if c then out ++ [.intEnable m] else out) = sentBytes out := by
    split_ifs
    · rw [sentBytes, List.filterMap_append]
      exact List.append_nil _
    · rfl
  have hid (m : Byte) : OutputOk { p with enableMask := m } accepted (sent ++ sentBytes []) := by
    rw [sentBytes, List.filterMap_nil, List.append_nil]
    exact ⟨hp.size, hp.inside, hp.order⟩
  unfold ComPort.transmitChar
  dsimp only
  rw [hmask]
  by_cases h1 : p.flowControl = 0 ∨ reads.modemStatus &&& (cts ||| dsr) = cts ||| dsr
  · rw [if_pos h1]
    by_cases h2 : p.comOutputPtr ≠ p.pcOutputPtr
    · rw [if_pos h2]
      by_cases h3 : reads.lineStatus2 &&& transmitReady ≠ 0
      · rw [if_pos h3]
        refine ⟨⟨hp.size, inside_pop hp.inside, ?_⟩, rfl, rfl⟩
        rw [hp.order, List.append_assoc, contents_pop hp.inside h2]
        rfl
      · rw [if_neg h3]
        exact ⟨hid _, rfl, rfl⟩
    · rw [if_neg h2]
      exact ⟨hid _, rfl, rfl⟩
  · rw [if_neg h1]
    exact ⟨hid _, rfl, rfl⟩

end

/-! ## one interrupt -/

section
variable {p : ComPort} {stored returned accepted sent : List Byte}

/-- the receiving half of an interrupt -/
def ComPort.receiveHalf (p : ComPort) (reads : Reads) : List Out × ComPort :=
  if reads.lineStatus &&& receiveReady ≠ 0 then
    ((p.rtsOffWhenFull reads.modemCtl).1,
      (p.rtsOffWhenFull reads.modemCtl).2.storeByte
        (reads.receive &&& characterMaskTable p.dataBits))
  else ([], p)

theorem serialIntProcess_eq (reads : Reads) : p.serialIntProcess reads =
    (((p.countErrors reads.lineStatus).receiveHalf reads).1 ++
        (((p.countErrors reads.lineStatus).receiveHalf reads).2.transmitChar reads).1,
      (((p.countErrors reads.lineStatus).receiveHalf reads).2.transmitChar reads).2) := rfl

theorem storeByte_outputSide (b : Byte) : (p.storeByte b).outputSide = p.outputSide := by
  unfold ComPort.storeByte
  dsimp only
  split_ifs <;> rfl

theorem rtsOffWhenFull_errors (modemCtl : Byte) :
    (p.rtsOffWhenFull modemCtl).2.rcvErrors = p.rcvErrors := by
  unfold ComPort.rtsOffWhenFull
  split_ifs <;> rfl

theorem rtsOffWhenFull_sent (modemCtl : Byte) : sentBytes (p.rtsOffWhenFull modemCtl).1 = [] := by
  unfold ComPort.rtsOffWhenFull
  split_ifs <;> rfl

theorem receiveHalf_ok (hp : InputOk p stored returned) (reads : Reads) :
    InputOk (p.receiveHalf reads).2
      (stored ++ if reads.lineStatus &&& receiveReady ≠ 0 ∧
          (p.receiveHalf reads).2.rcvErrors 3 = p.rcvErrors 3 then
        [reads.receive &&& characterMaskTable p.dataBits] else []) returned ∧
      (p.receiveHalf reads).2.outputSide = p.outputSide ∧
      sentBytes (p.receiveHalf reads).1 = [] := by
  have hs := rtsOffWhenFull_sides (p := p) reads.modemCtl
  unfold ComPort.receiveHalf
  by_cases h : reads.lineStatus &&& receiveReady ≠ 0
  · have hst := storeByte_ok (inputOk_congr hs.1 hp) (reads.receive &&& characterMaskTable p.dataBits)
    rw [rtsOffWhenFull_errors] at hst
    simp only [h, true_and, ne_eq, not_false_eq_true]
    exact ⟨hst, (storeByte_outputSide _).trans hs.2, rtsOffWhenFull_sent _⟩
  · simp only [h, false_and, if_false, List.append_nil]
    exact ⟨hp, trivial, rfl⟩

theorem receiveHalf_count (hp : InputOk p stored returned) (hc : CountOk p) (reads : Reads) :
    CountOk (p.receiveHalf reads).2 := by
  have hs := rtsOffWhenFull_sides (p := p) reads.modemCtl
  unfold ComPort.receiveHalf
  split_ifs
  · exact storeByte_count (inputOk_congr hs.1 hp) (countOk_congr hs.1 hc) _
  · exact hc

theorem serialIntProcess_ok (hi : InputOk p stored returned) (ho : OutputOk p accepted sent)
    (reads : Reads) :
    InputOk (p.serialIntProcess reads).2
        (stored ++ receivedByte p (p.serialIntProcess reads).2 reads) returned ∧
      OutputOk (p.serialIntProcess reads).2 accepted
        (sent ++ sentBytes (p.serialIntProcess reads).1) := by
  have hi' : InputOk (p.countErrors reads.lineStatus) stored returned := inputOk_congr (p := p) rfl hi
  have ho' : OutputOk (p.countErrors reads.lineStatus) accepted sent := outputOk_congr (p := p) rfl ho
  obtain ⟨h1, h2, h3⟩ := receiveHalf_ok hi' reads
  obtain ⟨h4, h5, h6⟩ := transmitChar_ok (outputOk_congr h2 ho') reads
  rw [serialIntProcess_eq]
  constructor
  · rw [receivedByte, h6]
    exact inputOk_congr h5 h1
  · rw [sentBytes, List.filterMap_append]
    have e : sentBytes ((p.countErrors reads.lineStatus).receiveHalf reads).1 ++
        sentBytes (((p.countErrors reads.lineStatus).receiveHalf reads).2.transmitChar reads).1 =
        sentBytes (((p.countErrors reads.lineStatus).receiveHalf reads).2.transmitChar reads).1 := by
      rw [h3, List.nil_append]
    rw [← e] at h4
    exact h4

theorem serialIntProcess_count (hi : InputOk p stored returned) (ho : OutputOk p accepted sent)
    (hc : CountOk p) (reads : Reads) : CountOk (p.serialIntProcess reads).2 := by
  have hi' : InputOk (p.countErrors reads.lineStatus) stored returned := inputOk_congr (p := p) rfl hi
  have ho' : OutputOk (p.countErrors reads.lineStatus) accepted sent := outputOk_congr (p := p) rfl ho
  have hc' : CountOk (p.countErrors reads.lineStatus) := countOk_congr (p := p) rfl hc
  obtain ⟨-, h2, -⟩ := receiveHalf_ok hi' reads
  obtain ⟨-, h5, -⟩ := transmitChar_ok (outputOk_congr h2 ho') reads
  exact countOk_congr h5 (receiveHalf_count hi' hc' reads)

end

/-! ## runs -/

/-- what holds in every run -/
structure Inv (s : Port) : Prop where
  input : InputOk s.com s.stored s.returned
  output : OutputOk s.com s.accepted s.sent

/-- a `FlushReadBuffer` finds the byte counter at 0 -/
def FlushesEmpty (s : Port) : Event → Prop
  | .flushReadBuffer => s.com.rcvByteCount = 0
  | _ => True

theorem step_inv {s : Port} (h : Inv s) (e : Event) : Inv (step s e) := by
  cases e with
  | setReceiveBufferSize n tmp =>
    exact ⟨setReceiveBufferSize_ok h.input n tmp, outputOk_congr (p := s.com) rfl h.output⟩
  | setTransmitBufferSize n tmp =>
    exact ⟨inputOk_congr (p := s.com) rfl h.input, setTransmitBufferSize_ok h.output n tmp⟩
  | writeData buffer =>
    obtain ⟨h1, h2⟩ := writeLoop_ok buffer h.output
    have hs : (s.com.writeData buffer).2.2.inputSide = (s.com.writeLoop buffer).2.inputSide ∧
        (s.com.writeData buffer).2.2.outputSide = (s.com.writeLoop buffer).2.outputSide := by
      show ((s.com.writeLoop buffer).2.startTransmit).2.inputSide = _ ∧
        ((s.com.writeLoop buffer).2.startTransmit).2.outputSide = _
      unfold ComPort.startTransmit
      split_ifs <;> exact ⟨rfl, rfl⟩
    exact ⟨inputOk_congr (hs.1.trans h2) h.input, outputOk_congr hs.2 h1⟩
  | readData length modemCtl =>
    obtain ⟨h1, h2⟩ := readData_ok h.input length modemCtl
    exact ⟨h1, outputOk_congr h2 h.output⟩
  | flushReadBuffer =>
    exact ⟨inputOk_empty h.input.size (Nat.zero_lt_of_lt h.input.inside.head) rfl rfl,
      outputOk_congr (p := s.com) rfl h.output⟩
  | flushWriteBuffer =>
    exact ⟨inputOk_congr (p := s.com) rfl h.input,
      outputOk_empty h.output.size (Nat.zero_lt_of_lt h.output.inside.head) rfl rfl⟩
  | interrupt reads =>
    obtain ⟨h1, h2⟩ := serialIntProcess_ok h.input h.output reads
    exact ⟨h1, h2⟩

theorem dist_flushed {p : ComPort} (h1 : p.comInputPtr = 0) (h2 : p.pcInputPtr = 0) :
    p.input.dist = 0 := by
  rw [ComPort.input, h1, h2]
  rfl

theorem step_count {s : Port} (h : Inv s) (hc : CountOk s.com) {e : Event}
    (he : FlushesEmpty s e) : CountOk (step s e).com := by
  cases e with
  | setReceiveBufferSize n tmp => exact (dist_flushed rfl rfl).symm
  | setTransmitBufferSize n tmp => exact countOk_congr (p := s.com) rfl hc
  | writeData buffer =>
    have h2 := (writeLoop_ok buffer h.output).2
    refine countOk_congr (Eq.trans ?_ h2) hc
    show ((s.com.writeLoop buffer).2.startTransmit).2.inputSide = _
    unfold ComPort.startTransmit
    split_ifs <;> rfl
  | readData length modemCtl => exact (readData_count h.input hc length modemCtl).1
  | flushReadBuffer =>
    have he' : s.com.rcvByteCount = 0 := he
    show s.com.rcvByteCount.toNat = s.com.flushReadBuffer.input.dist
    rw [he', dist_flushed rfl rfl]
    rfl
  | flushWriteBuffer => exact countOk_congr (p := s.com) rfl hc
  | interrupt reads => exact serialIntProcess_count h.input h.output hc reads

/-- a `FlushReadBuffer` with bytes in the buffer leaves the counter behind -/
theorem flush_count {s : Port} : CountOk (step s .flushReadBuffer).com ↔ s.com.rcvByteCount = 0 := by
  have e : (step s .flushReadBuffer).com.input.dist = 0 := dist_flushed rfl rfl
  rw [CountOk, e]
  constructor
  · intro h
    exact BitVec.eq_of_toNat_eq h
  · intro h
    show s.com.rcvByteCount.toNat = 0
    rw [h]
    rfl

theorem run_snoc (s : Port) (es : List Event) (e : Event) : run s (es ++ [e]) = step (run s es) e := by
  rw [run, List.foldl_append]
  rfl

theorem run_inv {s : Port} (h : Inv s) (es : List Event) : Inv (run s es) := by
  induction es using List.reverseRecOn with
  | nil => exact h
  | append_singleton es e ih =>
    rw [run_snoc]
    exact step_inv ih e

theorem run_count {s : Port} (h : Inv s) (hc : CountOk s.com) (es : List Event)
    (he : ∀ es1 e es2, es = es1 ++ e :: es2 → FlushesEmpty (run s es1) e) :
    CountOk (run s es).com := by
  induction es using List.reverseRecOn with
  | nil => exact hc
  | append_singleton es e ih =>
    rw [run_snoc]
    refine step_count (run_inv h es) (ih fun es1 e1 es2 h1 => ?_) (he es e [] rfl)
    refine he es1 e1 (es2 ++ [e]) ?_
    rw [h1, List.append_assoc, List.cons_append]

/-- a port that nothing has happened to -/
def Port.init (dataBits : Fin 4) (flowControl : Byte) (inputCells outputCells : Nat → Byte) : Port :=
  ⟨ComPort.init dataBits flowControl inputCells outputCells, [], [], [], []⟩

variable (dataBits : Fin 4) (flowControl : Byte) (inputCells outputCells : Nat → Byte)

theorem init_inv : Inv (Port.init dataBits flowControl inputCells outputCells) :=
  ⟨inputOk_empty ⟨le_refl _, (by decide : rcvFifoLength ≤ bufferMax)⟩
    (by decide : 0 < rcvFifoLength) rfl rfl,
    outputOk_empty (le_refl _) (by decide : 0 < xmtFifoLength) rfl rfl⟩

theorem right_iff {s : Port} (h : Inv s) : Right s ↔ CountOk s.com :=
  ⟨fun hr => hr.count, fun hc => ⟨h.input, h.output, hc, fun length modemCtl =>
    (readData_count h.input hc length modemCtl).2⟩⟩

/-- everything holds throughout a run exactly when no `FlushReadBuffer` of the run finds bytes -/
theorem port_right_iff (es : List Event) :
    (∀ es1 es2, es = es1 ++ es2 →
        Right (run (Port.init dataBits flowControl inputCells outputCells) es1)) ↔
      ∀ es1 es2, es = es1 ++ .flushReadBuffer :: es2 →
        (run (Port.init dataBits flowControl inputCells outputCells) es1).com.rcvByteCount = 0 := by
  have hi := init_inv dataBits flowControl inputCells outputCells
  constructor
  · intro h es1 es2 he
    have hr := h (es1 ++ [.flushReadBuffer]) es2 (by rw [he, List.append_assoc]; rfl)
    have hc := hr.count
    rw [run_snoc] at hc
    exact flush_count.mp hc
  · intro h es1 es2 he
    refine (right_iff (run_inv hi es1)).mpr (run_count hi rfl es1 fun es3 e es4 h1 => ?_)
    cases e with
    | flushReadBuffer =>
      refine h es3 (es4 ++ es2) ?_
      rw [he, h1, List.append_assoc, List.cons_append]
    | _ => trivial

/-- a byte arrives, and the input is flushed -/
def flushRun : List Event := [.interrupt ⟨receiveReady, 0x41, 0, 0, 0⟩, .flushReadBuffer]

/-- the pointers say that the buffer is empty, and the counter says that there is a byte -/
theorem flushRun_wrong : ¬ Right (run (Port.init 3 0 (fun _ => 0) (fun _ => 0)) flushRun) := by
  intro h
  have hc : (run (Port.init 3 0 (fun _ => 0) (fun _ => 0)) flushRun).com.rcvByteCount.toNat =
    (run (Port.init 3 0 (fun _ => 0) (fun _ => 0)) flushRun).com.input.dist := h.count
  revert hc
  decide

end SerialIo
