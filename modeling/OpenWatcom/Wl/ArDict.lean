import OpenWatcom.Lib.InPlace
import OpenWatcom.Lib.QSort
import OpenWatcom.Clib.BSearch
import OpenWatcom.Nwlib.SymSound

/-!
# The symbol dictionary of an archive: `libr.c`

* `readARDictData`     one dictionary of the archive
* `sortARDict`     the symbols in order, along the cycles of a sorted table of positions
* `arSearchExtLib`     the search for a name
* `readARDict`     all dictionaries of an archive, and the sort where it is needed

The data of a dictionary are the bytes that the archive has for it; `none` is a run that reads past
them or writes past an allocation.  A symbol is the string that its pointer points to.
-/

namespace ArDict
open Bytes Nwlib InPlace

instance : Inhabited Name := ⟨⟨[], List.not_mem_nil⟩⟩

/-- `ar_dict_entry` -/
structure ARDictEntry where
  filepostab : List UInt32
  offsettab : Option (List UInt16)
  symbtab : Option (List Name)
  numEntries : UInt32

/-! ## reading -/

/-- `MGET_BE_U32_UN`, and the data behind it -/
def mgetBeU32 : List UInt8 → Option (UInt32 × List UInt8)
  | b0 :: b1 :: b2 :: b3 :: data => some (UInt32.ofNat (leNat [b3, b2, b1, b0]), data)
  | _ => none

/-- `MGET_LE_U32_UN` -/
def mgetLeU32 : List UInt8 → Option (UInt32 × List UInt8)
  | b0 :: b1 :: b2 :: b3 :: data => some (UInt32.ofNat (leNat [b0, b1, b2, b3]), data)
  | _ => none

/-- `MGET_LE_U16_UN` -/
def mgetLeU16 : List UInt8 → Option (UInt16 × List UInt8)
  | b0 :: b1 :: data => some (UInt16.ofNat (leNat [b0, b1]), data)
  | _ => none

/-- the string at `data`, and what is behind its null character -/
def getName : List UInt8 → Option (Name × List UInt8)
  | [] => none
  | c :: data =>
    if h : c = 0 then some (default, data)
    else (getName data).map fun r =>
      (⟨c :: r.1.bytes, fun hm => (List.mem_cons.mp hm).elim (fun e => h e.symm) r.1.noNul⟩, r.2)

/-- the loops over the entries of a table; the numbers are stored where they are read -/
def getEach {α : Type} (get : List UInt8 → Option (α × List UInt8)) : ℕ → List UInt8 →
    Option (List α × List UInt8)
  | 0, data => some ([], data)
  | num + 1, data =>
    (get data).bind fun r => (getEach get num r.2).map fun s => (r.1 :: s.1, s.2)

/-- the last loop: pointers to the strings are stored in `symbtab` -/
def setSymbols (dict : ARDictEntry) (data : List UInt8) : Option ARDictEntry :=
  (getEach getName dict.numEntries.toNat data).bind fun r =>
    match dict.symbtab with
    | none => if r.1 = [] then some dict else none
    | some cells =>
      if r.1.length ≤ cells.length then some { dict with symbtab := some (writeBytes cells 0 r.1) }
      else none

section
-- what an allocation holds before it is written
variable (junk : ℕ → Name)

def allocSymbtab (num : UInt32) : List Name := (List.range num.toNat).map junk

def readARDictData (dict : ARDictEntry) (data : List UInt8) (numdicts : ℕ) : Option ARDictEntry :=
  if numdicts = 1 then
    (mgetBeU32 data).bind fun num =>
    (getEach mgetBeU32 num.1.toNat num.2).bind fun files =>
    setSymbols ⟨files.1, none, if 0 < num.1 then some (allocSymbtab junk num.1) else none, num.1⟩ files.2
  else
    (mgetLeU32 data).bind fun num =>
    (getEach mgetLeU32 num.1.toNat num.2).bind fun files =>
    (mgetLeU32 files.2).bind fun num =>
    (getEach mgetLeU16 num.1.toNat num.2).bind fun offs =>
    setSymbols ⟨files.1, some offs.1,
      if 0 < num.1 ∧ dict.symbtab = none then some (allocSymbtab junk num.1) else dict.symbtab, num.1⟩ offs.2

/-- the calls for the dictionaries of an archive, of which `numdicts` came before -/
def readDicts : List (List UInt8) → ℕ → ARDictEntry → Option ARDictEntry
  | [], _, dict => some dict
  | data :: more, numdicts, dict =>
    (readARDictData junk dict data (numdicts + 1)).bind (readDicts more (numdicts + 1))

end

/-! ## sorting -/

namespace ARDictEntry
variable (d : ARDictEntry)

def symbol (i : ℕ) : Name := byteAt (d.symbtab.getD []) i

/-- the entry of the table that goes with the symbols, as an `unsigned_32` -/
def offsetSave (i : ℕ) : UInt32 :=
  match d.offsettab with
  | none => byteAt d.filepostab i
  | some offs => (byteAt offs i).toUInt32

def move (ix1 ixNext : ℕ) : ARDictEntry :=
  let d' := { d with symbtab := d.symbtab.map fun (t : List Name) => t.set ix1 (byteAt t ixNext) }
  match d.offsettab with
  | none => { d' with filepostab := d.filepostab.set ix1 (byteAt d.filepostab ixNext) }
  | some offs => { d' with offsettab := some (offs.set ix1 (byteAt offs ixNext)) }

def put (ix1 : ℕ) (save : Name × UInt32) : ARDictEntry :=
  let d' := { d with symbtab := d.symbtab.map fun (t : List Name) => t.set ix1 save.1 }
  match d.offsettab with
  | none => { d' with filepostab := d.filepostab.set ix1 save.2 }
  | some offs => { d' with offsettab := some (offs.set ix1 save.2.toUInt16) }

end ARDictEntry

def entryMoves : Moves ARDictEntry (Name × UInt32) where
  cell d i := (d.symbol i, d.offsetSave i)
  move := ARDictEntry.move
  put := ARDictEntry.put

def arCompI (d : ARDictEntry) (index1 index2 : ℕ) : ℤ :=
  stricmp (d.symbol index1).bytes (d.symbol index2).bytes

def arComp (d : ARDictEntry) (index1 index2 : ℕ) : ℤ :=
  strcmp (d.symbol index1).bytes (d.symbol index2).bytes

/-- `caseFlag` is `LF_CASE_FLAG` -/
def sortARDict (q : QSort ℕ) (caseFlag : Bool) (d : ARDictEntry) : ARDictEntry :=
  if d.numEntries < 2 then d
  else
    let indexTab := q.sort (if caseFlag then arComp d else arCompI d) (List.range d.numEntries.toNat)
    (entryMoves.reorder d.numEntries.toNat indexTab d).2

/-! ## searching -/

def arCompName (key base : Name) : ℤ := strcmp key.bytes base.bytes

def arCompIName (key base : Name) : ℤ := stricmp key.bytes base.bytes

/-- `none` is a read outside of `filepostab` -/
def fileOffset (d : ARDictEntry) (tabidx : ℕ) : Option UInt32 :=
  match d.offsettab with
  | none => d.filepostab[tabidx]?
  | some offs => if byteAt offs tabidx = 0 then none else d.filepostab[(byteAt offs tabidx).toNat - 1]?

/-- `none` where the name is not found, and else what is stored through `off` -/
def arSearchExtLib (caseFlag : Bool) (d : ARDictEntry) (name : Name) : Option (Option UInt32) :=
  (Clib.bsearch (if caseFlag then arCompName name else arCompIName name) (d.symbtab.getD [])
    d.numEntries.toNat).map (fileOffset d)

/-- the dictionaries that are in front of the first object file -/
def readARDict (junk : ℕ → Name) (q : QSort ℕ) (caseFlag : Bool) (dict : ARDictEntry)
    (dicts : List (List UInt8)) : Option ARDictEntry :=
  if dicts = [] then none
  else (readDicts junk dicts 0 dict).map fun d =>
    if caseFlag = false ∨ dicts.length = 1 then sortARDict q caseFlag d else d

end ArDict
