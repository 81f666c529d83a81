import OpenWatcom.Lib.Bytes

/-!
# The patch file of bdiff

* `Region`, `PatchCmd`      what the lists of `diff.c` hold, and the commands of a patch;
* `outVar`, `processHoleArray`   the hole commands as `ProcessHoleArray( 1 )` writes them;
* `execute`                 the command loop of `Execute`, as the list of its accesses to the new file.

A patch is read from a list of bytes; `none` is a patch that ends too early or has an unknown command.
-/

namespace Bdiff
open Bytes

/-- `foff` and `hole` are both `unsigned_32` -/
abbrev Foff := UInt32

/-- `region`, without its link: `diff` is the difference of a hole -/
structure Region where
  oldStart : Foff
  newStart : Foff
  size : Foff
  diff : Foff
deriving DecidableEq, Repr

/-- `patch_cmd` -/
inductive PatchCmd where
  | diffs
  | sames
  | done
  | holes
  | iterHoles
deriving DecidableEq, Repr

/-- a command is stored as one byte -/
def PatchCmd.byte : PatchCmd → UInt8
  | .diffs => 0
  | .sames => 1
  | .done => 2
  | .holes => 3
  | .iterHoles => 4

def PatchCmd.ofByte (b : UInt8) : Option PatchCmd :=
  if b = 0 then some .diffs
  else if b = 1 then some .sames
  else if b = 2 then some .done
  else if b = 3 then some .holes
  else if b = 4 then some .iterHoles
  else none

@[simp] theorem PatchCmd.ofByte_byte (c : PatchCmd) : PatchCmd.ofByte c.byte = some c := by
  cases c <;> rfl

/-- `OutPatch( val, foff )` -/
def outFoff (v : Foff) : List UInt8 := leBytes 4 v.toNat

@[simp] theorem outFoff_length (v : Foff) : (outFoff v).length = 4 := leBytes_length 4 _

/-! ## writing holes -/

/-- the bytes of `OutVar( value, 1 )` -/
def outVar (value : Foff) : List UInt8 :=
  if value ≤ 0x7f then [(value &&& 0x7f).toUInt8]
  else if value ≤ 0x3fff then
    [((0x80 : Foff) ||| ((value >>> 8) &&& 0x3f)).toUInt8, (value &&& 0xff).toUInt8]
  else
    [((0xC0 : Foff) ||| ((value >>> 16) &&& 0x3f)).toUInt8, ((value >>> 8) &&& 0xff).toUInt8,
      (value &&& 0xff).toUInt8]

/-- `MIN_ITERS`: `sizeof( patch_cmd ) + sizeof( hole ) + sizeof( foff ) + sizeof( foff )` -/
def minIters : Foff := 1 + 4 + 4 + 4

/-- where the `end_iters` loop stops -/
structure Iters where
  iters : Foff
  incr : Foff
  /-- `prev->new_start` -/
  last : Foff
  /-- the holes from `end_iters` on -/
  rest : List Region

/-- the `end_iters` loop of `ProcessHoleArray` over the holes after `curr` -/
def countIters (diff incr prev iters : Foff) : List Region → Iters
  | [] => ⟨iters, incr, prev, []⟩
  | e :: t =>
    if diff ≠ e.diff then ⟨iters, incr, prev, e :: t⟩
    else if incr ≠ 0 ∧ incr ≠ e.newStart - prev then ⟨iters, incr, prev, e :: t⟩
    else countIters diff (e.newStart - prev) e.newStart (iters + 1) t

/-- the run of equally spaced holes of one difference that begins at `curr` -/
def itersAt (curr : Region) (rest : List Region) : Iters :=
  countIters curr.diff 0 curr.newStart 1 rest

/-- the terminator of the command before -/
def separator (first : Bool) : List UInt8 := if first then [] else [0]

/-- the loop of `ProcessHoleArray( 1 )` over `curr`, with `curr_diff` and `curr_start` -/
def processLoop : Nat → Bool → Foff → Foff → List Region → List UInt8
  | 0, _, _, _, _ => []
  | _ + 1, _, _, _, [] => []
  | n + 1, first, currDiff, currStart, curr :: rest =>
    let run := itersAt curr rest
    if run.iters > minIters then
      separator first ++ PatchCmd.iterHoles.byte :: outFoff curr.newStart ++ outFoff curr.diff
        ++ outFoff run.iters ++ outFoff run.incr
        ++ processLoop n false 0 run.last run.rest
    else if first ∨ curr.diff ≠ currDiff then
      separator first ++ PatchCmd.holes.byte :: outFoff curr.newStart ++ outFoff curr.diff
        ++ processLoop n false curr.diff curr.newStart rest
    else
      outVar (curr.newStart - currStart)
        ++ processLoop n false currDiff curr.newStart rest

/-- `ProcessHoleArray( 1 )` -/
def processHoleArray (holes : List Region) : List UInt8 :=
  if holes = [] then [] else processLoop holes.length true 0 0 holes ++ [0]

/-! ## executing a patch -/

/-- one access of `Execute` to the new file -/
inductive Access where
  /-- `OutNew( off, x, byte )` -/
  | out (off : Foff) (x : UInt8)
  /-- `OutNew( off, InOld( old ), byte )` -/
  | same (off old : Foff)
  /-- `AddHole( off, diff )` -/
  | hole (off diff : Foff)
deriving DecidableEq, Repr

/-- `InPatch( foff )` -/
def inFoff : List UInt8 → Option (Foff × List UInt8)
  | a :: b :: c :: d :: pat => some (UInt32.ofNat (leNat [a, b, c, d]), pat)
  | _ => none

/-- the loop of `CMD_DIFFS`; the bytes are in the patch -/
def diffsLoop (off : Foff) : Nat → List UInt8 → Option (List Access × List UInt8)
  | 0, pat => some ([], pat)
  | _ + 1, [] => none
  | n + 1, b :: pat => (diffsLoop (off + 1) n pat).map fun r => (.out off b :: r.1, r.2)

/-- the loop of `CMD_SAMES` -/
def samesLoop (off old : Foff) : Nat → List Access
  | 0 => []
  | n + 1 => .same off old :: samesLoop (off + 1) (old + 1) n

/-- the loop of `CMD_ITER_HOLES` -/
def iterLoop (off diff incr : Foff) : Nat → List Access
  | 0 => []
  | n + 1 => .hole off diff :: iterLoop (off + incr) diff incr n

/-- the loop of `CMD_HOLES`, from the hole at `off` on -/
def holesLoop (off diff : Foff) : List UInt8 → Option (List Access × List UInt8)
  | [] => none
  | next :: pat =>
    if next = 0 then some ([.hole off diff], pat)
    else if next &&& 0x80 = 0 then
      (holesLoop (off + (next &&& 0x7f).toUInt32) diff pat).map
        fun r => (.hole off diff :: r.1, r.2)
    else if next &&& 0x40 = 0 then
      match pat with
      | b :: pat =>
        (holesLoop (off + ((next &&& 0x3f).toUInt32 <<< 8) + b.toUInt32) diff pat).map
          fun r => (.hole off diff :: r.1, r.2)
      | [] => none
    else
      match pat with
      | b :: c :: pat =>
        (holesLoop (off + ((next &&& 0x3f).toUInt32 <<< 16) + (b.toUInt32 <<< 8) + c.toUInt32)
          diff pat).map fun r => (.hole off diff :: r.1, r.2)
      | _ => none

/-- one command after its byte: its accesses and the patch behind it -/
def command : PatchCmd → List UInt8 → Option (List Access × List UInt8)
  | .diffs, pat => do
    let (off, pat) ← inFoff pat
    let (size, pat) ← inFoff pat
    diffsLoop off size.toNat pat
  | .sames, pat => do
    let (off, pat) ← inFoff pat
    let (old, pat) ← inFoff pat
    let (size, pat) ← inFoff pat
    some (samesLoop off old size.toNat, pat)
  | .iterHoles, pat => do
    let (off, pat) ← inFoff pat
    let (diff, pat) ← inFoff pat
    let (iters, pat) ← inFoff pat
    let (incr, pat) ← inFoff pat
    -- `ch = InPatch( byte )`: the terminator is read and not looked at
    match pat with
    | _ :: pat => some (iterLoop off diff incr iters.toNat, pat)
    | [] => none
  | .holes, pat => do
    let (off, pat) ← inFoff pat
    let (diff, pat) ← inFoff pat
    holesLoop off diff pat
  | .done, pat => some ([], pat)

/-- the command loop of `Execute`; every command takes at least its own byte from the patch -/
def executeLoop : Nat → List UInt8 → Option (List Access)
  | 0, _ => none
  | _ + 1, [] => none
  | n + 1, b :: pat =>
    match PatchCmd.ofByte b with
    | none => none
    | some .done => some []
    | some cmd =>
      match command cmd pat with
      | none => none
      | some (acc, pat) => (executeLoop n pat).map (acc ++ ·)

/-- the accesses of `Execute` to the new file, in order -/
def execute (pat : List UInt8) : Option (List Access) := executeLoop pat.length pat

end Bdiff
