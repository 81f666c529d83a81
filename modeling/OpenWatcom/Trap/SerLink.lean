import OpenWatcom.Lib.Events
import Mathlib

/-!
# The serial debug link: `serlink.c`

Two peers and the two lines between them. `BlockSend` and `WaitReceive` are cut at the calls of `WaitByte`;
an act says what happens between two of these calls.

* `Item`, `Peer`     what is on a line, and the state of one side;
* `Peer.act`     one act of a peer: its new state, what it sends, and what is left of the line to it;
* `Sys.step`     an act of either peer, or damage on a line.

A block stands on the line as a whole, and the CRC and the ETX are taken to detect every damage: a damaged
block is its bytes. What a peer has discarded, or may no longer wait for, is part of the act. The count of
errors and the timers are left out.
-/

namespace SerLink

def sdataSTX : UInt8 := 0x02
def sdataACK : UInt8 := 0x06
def sdataNAK : UInt8 := 0x15
def sdataRLR : UInt8 := 0x1D

/-- a byte, or the bytes of a whole block -/
inductive Item where
  | byte (b : UInt8)
  | block (blkno : Nat) (data : List UInt8)
deriving DecidableEq, Repr

/-- what a peer is doing -/
inductive Mode where
  | idle
  | sending (data : List UInt8)     -- in `BlockSend`, waiting for an acknowledgement
  | receiving                       -- in `WaitReceive`
deriving DecidableEq, Repr

/-- the variables of a side, and the blocks that were passed to `BlockSend`, those for which it returned
true, and those that `WaitReceive` returned -/
structure Peer where
  mode : Mode
  sendBlkNo : Nat
  receiveBlkNo : Nat
  lastResponse : UInt8
  passed : List (List UInt8)
  confirmed : List (List UInt8)
  returned : List (List UInt8)
deriving DecidableEq, Repr

/-- what happens in a peer -/
inductive Act where
  | blockSend (data : List UInt8) (cleared : Nat)   -- `BlockSend` up to the first `WaitByte`
  | noData                                          -- no answer, and no time-out yet
  | giveUp                                          -- no answer in time
  | reply (discarded : Nat)                         -- an answer
  | waitReceive                                     -- `WaitReceive` is called
  | timeOut                                         -- and returns without a block
  | receive (maxLen : Nat) (cleared : Nat) (answered : Bool)    -- a byte or a block arrives
deriving DecidableEq, Repr

/-- an `unsigned` one larger -/
def next (n : Nat) : Nat := (n + 1) % 2 ^ 32

/-- the block as it is sent: two bytes for its number -/
def Peer.wire (p : Peer) (data : List UInt8) : Item := .block (p.sendBlkNo % 2 ^ 16) data

/-- the loop of `BlockSend` that waits for an acknowledgement, on an answer -/
def Peer.answer (p : Peer) (data : List UInt8) (discarded : Nat) (rest : List Item) :
    Item → Peer × List Item × List Item
  | .byte b =>
    if b = sdataACK then
      ({ p with mode := .idle, sendBlkNo := next p.sendBlkNo, confirmed := p.confirmed ++ [data] }, [], rest)
    else if b = sdataNAK then (p, [p.wire data], rest)
    else if b = sdataRLR then (p, [.byte p.lastResponse, p.wire data], rest)
    else (p, [.byte sdataRLR], rest.drop discarded)
  | .block _ _ => (p, [.byte sdataRLR], rest.drop discarded)

/-- `BlockReceive` of a block that has arrived undamaged -/
def Peer.blockReceive (p : Peer) (maxLen cleared : Nat) (rest : List Item) (blkno : Nat)
    (data : List UInt8) : Peer × List Item × List Item :=
  if data.length > maxLen then (p, [], rest.drop cleared)
  else if p.receiveBlkNo ≠ blkno then
    ({ p with lastResponse := sdataACK }, [.byte sdataACK], rest.drop cleared)
  else
    ({ p with mode := .idle, lastResponse := sdataACK, receiveBlkNo := next p.receiveBlkNo,
              returned := p.returned ++ [data] }, [.byte sdataACK], rest)

/-- the loop of `WaitReceive`, on a byte or a block; behind a single STX `BlockReceive` fails -/
def Peer.arrive (p : Peer) (maxLen cleared : Nat) (answered : Bool) (rest : List Item) :
    Item → Peer × List Item × List Item
  | .byte b =>
    if b = sdataSTX then
      if answered then ({ p with lastResponse := sdataNAK }, [.byte sdataNAK], rest.drop cleared)
      else (p, [], rest.drop cleared)
    else if b = sdataRLR then (p, [.byte sdataNAK], rest)
    else (p, [], rest)
  | .block blkno data => p.blockReceive maxLen cleared rest blkno data

/-- one act of a peer with the line `line` to it -/
def Peer.act (p : Peer) (line : List Item) : Act → Option (Peer × List Item × List Item)
  | .blockSend data cleared =>
    if p.mode = .idle then
      some ({ p with mode := .sending data, passed := p.passed ++ [data] }, [p.wire data],
        line.drop cleared)
    else none
  | .noData =>
    match p.mode with
    | .sending _ => some (p, [.byte sdataRLR], line)
    | _ => none
  | .giveUp =>
    match p.mode with
    | .sending _ => some ({ p with mode := .idle }, [], line)
    | _ => none
  | .reply discarded =>
    match p.mode, line with
    | .sending data, item :: rest => some (p.answer data discarded rest item)
    | _, _ => none
  | .waitReceive => if p.mode = .idle then some ({ p with mode := .receiving }, [], line) else none
  | .timeOut => if p.mode = .receiving then some ({ p with mode := .idle }, [], line) else none
  | .receive maxLen cleared answered =>
    match p.mode, line with
    | .receiving, item :: rest => some (p.arrive maxLen cleared answered rest item)
    | _, _ => none

/-- the two peers and the lines from the one to the other and back -/
structure Sys where
  here : Peer
  there : Peer
  out : List Item
  back : List Item
deriving DecidableEq, Repr

/-- seen from the other side -/
def Sys.swap (s : Sys) : Sys := ⟨s.there, s.here, s.back, s.out⟩

def Sys.act (s : Sys) (a : Act) : Option Sys :=
  (s.here.act s.back a).map fun r => ⟨r.1, s.there, s.out ++ r.2.1, r.2.2⟩

/-- what is at place `i` of the line becomes other bytes, or is lost -/
def Sys.damage (s : Sys) (i : Nat) (bytes : List UInt8) : Sys :=
  { s with out := s.out.take i ++ bytes.map .byte ++ s.out.drop (i + 1) }

inductive Event where
  | here (a : Act)
  | there (a : Act)
  | damageOut (i : Nat) (bytes : List UInt8)
  | damageBack (i : Nat) (bytes : List UInt8)
deriving DecidableEq, Repr

def step : Event → Sys → Option Sys
  | .here a, s => s.act a
  | .there a, s => (s.swap.act a).map Sys.swap
  | .damageOut i bytes, s => some (s.damage i bytes)
  | .damageBack i bytes, s => some (s.swap.damage i bytes).swap

/-- a peer before the first block -/
def Peer.start (sendBlkNo receiveBlkNo : Nat) : Peer :=
  ⟨.idle, sendBlkNo, receiveBlkNo, sdataNAK, [], [], []⟩

/-- two peers whose numbers agree -/
def Sys.start (n m : Nat) : Sys := ⟨Peer.start n m, Peer.start m n, [], []⟩

end SerLink
