import Mathlib

/-!
# Lowering of a switch: `bldsel.c` and `x86sel.c`

The case ranges of a switch are sorted, and one of six strategies is chosen by cost:

* `bgSelRange`, `sortNodeList`, `mergeListEntries`   the list of ranges;
* `scanCost`, `jumpCost`, `ifCost`, `pickKind`       the cost functions and the choice;
* `makeScanTab`, `makeJmpTab`, `binarySearch`        the tables and the tree of comparisons;
* `bgSelect`, `Selection.run`                        the code for a switch, and the label it reaches.

A bound is 64 bits wide. Labels are of any type; the default label is always given.
-/

namespace Cg

/-- integers of 1, 2, 4 and 8 bytes -/
inductive Width
  | b1 | b2 | b4 | b8
  deriving DecidableEq, Repr

namespace Width

def bytes : Width → Nat
  | b1 => 1 | b2 => 2 | b4 => 4 | b8 => 8

/-- `TY_UINT_1`, `TY_UINT_2`, `TY_UINT_4`, `TY_UINT_8` -/
def refno : Width → Nat
  | b1 => 0 | b2 => 2 | b4 => 4 | b8 => 6

end Width

/-- the low bytes of a value -/
def trunc (w : Width) (x : BitVec 64) : Nat := x.toNat % 256 ^ w.bytes

/-- a value under the order of `SelCompare` -/
def key (signed : Bool) (x : BitVec 64) : Int := if signed then x.toInt else x.toNat

/-! ## the list of ranges -/

/-- `select_list` -/
structure Case (L : Type) where
  low : BitVec 64
  high : BitVec 64
  count : BitVec 64
  label : L
  deriving DecidableEq, Repr

/-- `select_node` -/
structure SelNode (L : Type) where
  numCases : BitVec 64
  list : List (Case L)
  otherWise : L
  lower : BitVec 64
  upper : BitVec 64

section
variable {L : Type}

def newCase (lo hi : BitVec 64) (label : L) : Case L := ⟨lo, hi, hi - lo + 1, label⟩

def bgSelInit (other : L) : SelNode L := ⟨0, [], other, 0, 0⟩

def bgSelRange (s : SelNode L) (r : BitVec 64 × BitVec 64 × L) : SelNode L :=
  let list := newCase r.1 r.2.1 r.2.2
  { s with list := list :: s.list, numCases := s.numCases + list.count }

def sortNodeList (signed : Bool) (s : SelNode L) : SelNode L :=
  let list := s.list.insertionSort fun a b => key signed a.low ≤ key signed b.low
  { s with
    list := list
    lower := (list.head?.map (·.low)).getD 0
    upper := (list.getLast?.map (·.high)).getD 0 }

variable [DecidableEq L]

def mergeInto (a : Case L) : List (Case L) → List (Case L)
  | [] => [a]
  | b :: rest =>
    if a.high + 1 = b.low ∧ a.label = b.label then
      mergeInto { a with high := b.high, count := a.count + b.count } rest
    else a :: mergeInto b rest

def mergeListEntries : List (Case L) → List (Case L)
  | [] => []
  | a :: rest => mergeInto a rest

end

/-! ## costs -/

def MAX_COST : Nat := 0x7FFFFFFF

def selType (len : Width) (signed : Bool) (range : BitVec 64) : Width :=
  let t : Width :=
    if range.toNat / 2 ^ 32 ≠ 0 then .b8
    else if range.toNat / 2 ^ 16 % 2 ^ 16 ≠ 0 then .b4
    else if range.toNat / 2 ^ 8 % 2 ^ 8 ≠ 0 then .b2
    else .b1
  if t.refno > len.refno + (if signed then 1 else 0) then len else t

def balance (optSize size time : Nat) : Nat :=
  let opt := if optSize < 25 then 25 else optSize
  let b := (size * opt + 10 * time * ((100 - opt : Int) % 2 ^ 32).toNat) % 2 ^ 32 / 100
  if 2 ^ 31 ≤ b ∨ b > MAX_COST then MAX_COST else b

/-- `LONG_JUMP` and `SHORT_JUMP` -/
def jumpSize (entries : Nat) : Nat := if entries > 20 then 6 else 2

def getCmpSize : Width → Nat
  | .b1 => 2 | .b2 => 4 | .b4 => 5 | .b8 => 0

/-- the loop that counts `log_entries` -/
def logEntries : Nat → Nat → Nat
  | 0, _ => 0
  | f + 1, entries => if entries ≠ 0 then logEntries f (entries / 4) + 1 else 0

section
variable {L : Type} (len : Width) (signed : Bool) (optSize : Nat) (s : SelNode L)

def scanCost : Nat :=
  let type := selType len signed (s.upper - s.lower)
  if type ≠ .b8 ∧ s.numCases.toNat / 2 ^ 32 = 0 then
    let values := s.numCases.toNat % 2 ^ 32
    if values ≥ 7 ∨ type = .b4 ∧ values ≥ 5 then
      balance optSize ((12 + values * (4 + type.bytes)) % 2 ^ 32) (values / 2)
    else MAX_COST
  else MAX_COST

def jumpCost : Nat :=
  let tmp := s.upper - s.lower + 1
  let inRange := tmp.toNat % 2 ^ 32
  if tmp.toNat / 2 ^ 32 = 0 ∧ inRange ≤ MAX_COST / 1000 ∧ s.numCases.toNat % 2 ^ 32 ≥ 4 ∧
      inRange ≥ 4 then
    balance optSize (12 + 4 * inRange + if selType len signed (-1) = .b1 then 2 else 0) 1
  else MAX_COST

def ifCost (entries : Nat) : Nat :=
  let type := selType len signed (s.upper - s.lower)
  let jumpsize := jumpSize entries
  let size := jumpsize + getCmpSize type +
    if selType len signed (-1) ≠ .b1 ∧ type = .b1 then 1 else 0
  -- the counting loop has left 0 in `entries`, so nothing is added for further jumps
  let cost := balance optSize (size * entries % 2 ^ 32) (logEntries 16 entries)
  if cost ≥ MAX_COST then MAX_COST - 1 else cost

def distinctEntries [DecidableEq L] (a : Case L) : List (Case L) → Nat
  | [] => 1
  | b :: rest =>
    -- `list` stays where it is while its own successor value starts the next range
    if a.high + 1 ≠ b.low ∨ a.label ≠ b.label then distinctEntries b rest + 1
    else distinctEntries a rest

def distinctIfCost [DecidableEq L] : Nat :=
  match s.list with
  | [] => MAX_COST
  | a :: rest => ifCost len signed optSize s (distinctEntries a rest % 2 ^ 32)

end

/-! ## the choice -/

inductive SelKind
  | uScan | uJump | uIf | sScan | sJump | sIf
  deriving DecidableEq, Repr

def SelKind.signed : SelKind → Bool
  | .sScan | .sJump | .sIf => true
  | _ => false

/-- `CG_SWITCH_SCAN`, `CG_SWITCH_TABLE`, `CG_SWITCH_BSEARCH` -/
structure Allowed where
  scan : Bool
  table : Bool
  bsearch : Bool

def Allowed.all : Allowed := ⟨true, true, true⟩

section
variable {L : Type} (len : Width) (optSize : Nat)

/-- the ranges sorted signed, and then unsigned -/
def sortFor (signed : Bool) (s : SelNode L) : SelNode L :=
  if signed then sortNodeList true s else sortNodeList false (sortNodeList true s)

variable [DecidableEq L]

/-- the cost of a strategy for the ranges in its own order -/
def kindCost (s : SelNode L) (k : SelKind) : Nat :=
  let s := sortFor k.signed s
  match k with
  | .uScan | .sScan => scanCost len k.signed optSize s
  | .uJump | .sJump => jumpCost len k.signed optSize s
  | .uIf | .sIf => distinctIfCost len k.signed optSize s

def Allowed.kinds (a : Allowed) : List SelKind :=
  (if a.scan then [.sScan] else []) ++ (if a.table then [.sJump] else []) ++
    (if a.bsearch then [.sIf] else []) ++ (if a.scan then [.uScan] else []) ++
    (if a.table then [.uJump] else []) ++ (if a.bsearch then [.uIf] else [])

/-- the last of the cheapest strategies -/
def pickKind (s : SelNode L) (allowed : Allowed) : Nat × SelKind :=
  allowed.kinds.foldl (fun best k =>
    if kindCost len optSize s k ≤ best.1 then (kindCost len optSize s k, k) else best)
    (MAX_COST, .uScan)

end

/-! ## tables -/

section
variable {L : Type} (signed : Bool)

/-- the loop over all values, upwards: each value with the label of its range -/
def walkForward (upper : BitVec 64) : Nat → Case L → List (Case L) → BitVec 64 →
    List (BitVec 64 × L)
  | 0, _, _, _ => []
  | f + 1, list, rest, curr =>
    (curr, list.label) ::
      if key signed curr ≥ key signed upper then []
      else if key signed curr ≥ key signed list.high then
        match rest with
        | [] => []
        | next :: rest => walkForward upper f next rest next.low
      else walkForward upper f list rest (curr + 1)

/-- the loop over all values, downwards; `prev` are the ranges before `list`, the last one first -/
def walkBackward (lower : BitVec 64) : Nat → Case L → List (Case L) → BitVec 64 →
    List (BitVec 64)
  | 0, _, _, _ => []
  | f + 1, list, prev, curr =>
    curr ::
      if key signed curr ≤ key signed lower then []
      else if key signed curr ≤ key signed list.low then
        match prev with
        | [] => []
        | p :: prev => walkBackward lower f p prev p.high
      else walkBackward lower f list prev (curr - 1)

def genValuesForward (s : SelNode L) : List (BitVec 64) :=
  match s.list with
  | [] => []
  | list :: rest =>
    (walkForward signed s.upper ((s.upper - s.lower).toNat + 1) list rest s.lower).map (·.1)

def genValuesBackward (s : SelNode L) : List (BitVec 64) :=
  match s.list.dropWhile fun e => e.high ≠ s.upper with
  | [] => []
  | list :: _ =>
    walkBackward signed s.lower ((s.upper - s.lower).toNat + 1) list
      (s.list.takeWhile fun e => e.high ≠ s.upper).reverse s.upper

/-- `tbl_control`: its size, the values stored in front, and the labels -/
structure ScanTab (L : Type) where
  size : Nat
  values : List Nat
  labels : List L

def makeScanTab (s : SelNode L) (valueType : Width) (same : Bool) : ScanTab L :=
  let toSub := if same then 0 else s.lower
  let values := if valueType = .b4 then genValuesForward signed s else genValuesBackward signed s
  let labels := match s.list with
    | [] => []
    | list :: rest =>
      (walkForward signed s.upper ((s.upper - s.lower).toNat + 1) list rest s.lower).map (·.2)
  { size := s.numCases.toNat % 2 ^ 32
    values := values.map fun x => trunc valueType (x - toSub)
    labels := if valueType = .b4 then labels ++ [s.otherWise] else s.otherWise :: labels }

/-- the labels of all values from `curr` up to `upper` -/
def jmpLoop (other : L) (upper : BitVec 64) : Nat → Case L → List (Case L) → BitVec 64 → List L
  | 0, _, _, _ => []
  | f + 1, list, rest, curr =>
    (if key signed curr < key signed list.low then other else list.label) ::
      if key signed curr ≥ key signed upper then []
      else if key signed curr ≥ key signed list.high then
        match rest with
        | [] => []
        | next :: rest => jmpLoop other upper f next rest (curr + 1)
      else jmpLoop other upper f list rest (curr + 1)

def makeJmpTab (s : SelNode L) : List L :=
  match s.list with
  | [] => []
  | list :: rest =>
    jmpLoop signed s.otherWise s.upper ((s.upper - s.lower).toNat + 1) list rest s.lower

end

/-! ## the tree of comparisons -/

/-- how a jump was generated: not at all, unconditionally, or behind a comparison with `c` -/
inductive Test
  | never
  | always
  | compare (c : BitVec 64)

/-- the code of `DoBinarySearch`; in `branch`, `left` stands behind the label `lt` -/
inductive IfCode (L : Type)
  | goto (label : L)
  | ifEq (c : BitVec 64) (label : L) (rest : IfCode L)
  | branch (lt le : Test) (label : L) (right left : IfCode L)

section
variable {L : Type} (signed : Bool) (list : List (Case L)) (other : L)

/-- `DoBinarySearch` on the ranges `lo` to `hi`; a bound that is not known is `none` -/
def binarySearch : Nat → Nat → Nat → Option (BitVec 64) → Option (BitVec 64) → IfCode L
  | 0, _, _, _, _ => .goto other
  | f + 1, lo, hi, lobound, hibound =>
    let mid := lo + (hi - lo) / 2
    match list[mid]? with
    | none => .goto other
    | some m =>
      let branch : IfCode L :=
        .branch
          (if ∀ b ∈ lobound, key signed b < key signed m.low then
            if ∃ b ∈ hibound, key signed b < key signed m.low then .always else .compare m.low
          else .never)
          (if ∀ b ∈ lobound, key signed b ≤ key signed m.high then
            if ∃ b ∈ hibound, key signed b ≤ key signed m.high then .always else .compare m.high
          else .never)
          m.label
          (if mid < hi then binarySearch f (mid + 1) hi (some (m.high + 1)) hibound
            else .goto other)
          (if lo < mid then binarySearch f lo (mid - 1) lobound (some (m.low - 1))
            else .goto other)
      if lo = hi then
        if lobound = some m.low ∧ hibound = some m.high then .goto m.label
        else if m.low = m.high then .ifEq m.low m.label (.goto other)
        else branch
      else match list[mid + 1]? with
        | none => branch
        | some next =>
          if hi = mid + 1 ∧ next.low = next.high then
            .ifEq next.low next.label (binarySearch f lo mid lobound
              (hibound.map fun b => if b = next.low then b - 1 else b))
          else branch

def genIfStmts : IfCode L := binarySearch signed list other list.length 0 (list.length - 1) none none

end

/-! ## the code for a switch -/

/-- the code `BGSelect` generates -/
inductive Selection (L : Type)
  | goto (label : L)
  | scan (lower range : BitVec 64) (valueType : Width) (same : Bool) (table : ScanTab L)
  | jump (lower range : BitVec 64) (labels : List L)
  | ifs (code : IfCode L)

section
variable {L : Type} [DecidableEq L] (len : Width) (optSize : Nat)

def genScanTable (signed : Bool) (s : SelNode L) : Selection L :=
  let valueType := selType len signed (s.upper - s.lower)
  -- a signed type is never the type of the table
  let same := !signed && decide (len = valueType)
  .scan s.lower (s.upper - s.lower) valueType same (makeScanTab signed s valueType same)

def genSelTable (signed : Bool) (s : SelNode L) : Selection L :=
  .jump s.lower (s.upper - s.lower) (makeJmpTab signed s)

/-- the strategy picked, and its code -/
def bgSelect (s : SelNode L) (allowed : Allowed) : Bool × Selection L :=
  if s.numCases ≠ 0 then
    let kind := (pickKind len optSize s allowed).2
    let s := sortFor false s
    let s := if kind.signed then sortNodeList true s else s
    let s := { s with list := mergeListEntries s.list }
    (kind.signed, match kind with
      | .uScan | .sScan => genScanTable len kind.signed s
      | .uJump | .sJump => genSelTable kind.signed s
      | .uIf | .sIf => .ifs (genIfStmts kind.signed s.list s.otherWise))
  else (false, .goto s.otherWise)

end

/-! ## what the code does -/

/-- `repne scas`: ECX when it stops. Behind the values stand the labels: the comparison with the
first of them leaves 0 whatever it finds, more is not known -/
def repneScas : List Nat → Nat → Nat → Option Nat
  | _, 0, _ => some 0
  | [], 1, _ => some 0
  | [], _ + 2, _ => none
  | v :: values, ecx + 1, x => if v = x then some ecx else repneScas values ecx x

/-- a truncated value as the processor compares it -/
def machineKey (len : Width) (signed : Bool) (x : BitVec 64) : Int :=
  if signed ∧ 256 ^ len.bytes / 2 ≤ trunc len x then (trunc len x : Int) - (256 ^ len.bytes : Nat)
  else trunc len x

section
variable {L : Type} (len : Width) (signed : Bool)

def Test.passes (r : Int → Int → Prop) [DecidableRel r] (v : BitVec 64) : Test → Bool
  | .never => false
  | .always => true
  | .compare c => decide (r (machineKey len signed v) (machineKey len signed c))

def IfCode.run (v : BitVec 64) : IfCode L → L
  | .goto label => label
  | .ifEq c label rest =>
    if machineKey len signed v = machineKey len signed c then label else rest.run v
  | .branch lt le label right left =>
    if lt.passes len signed (· < ·) v then left.run v
    else if le.passes len signed (· ≤ ·) v then label
    else right.run v

/-- the label a scan reaches. For tables of bytes and words ECX is the index; for tables of four
bytes EDI has passed the values compared, and the labels follow the values -/
def ScanTab.run (t : ScanTab L) (valueType : Width) (x : Nat) : Option L :=
  let start := (t.size + 1) % 2 ^ 32
  match valueType with
  | .b1 | .b2 => (repneScas t.values start x).bind fun ecx => t.labels[ecx]?
  | .b4 => (repneScas t.values start x).bind fun ecx =>
      let position := start - ecx + (t.size - 1)
      if position < t.values.length then none else t.labels[position - t.values.length]?
  | .b8 => none

/-- the label the code reaches for the selector value `v` -/
def Selection.run (other : L) (v : BitVec 64) : Selection L → Option L
  | .goto label => some label
  | .scan lower range valueType same table =>
    if same then table.run valueType (trunc valueType v)
    else if trunc len (v - lower) ≤ trunc len range then
      table.run valueType (trunc valueType (v - lower))
    else some other
  | .jump lower range labels =>
    let node := trunc len (v - lower)
    if node ≤ trunc len range then labels[node * 4 % 2 ^ 32 / 4]? else some other
  | .ifs code => some (code.run len signed v)

end

end Cg
