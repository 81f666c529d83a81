import Mathlib.Logic.Function.Basic

/-!
# The symbol table of the librarian

* `hash`, `symbolNameCmp`   `Hash` and `SymbolNameCmp`;
* `Table`                   `FileTable`, `HashTable`, `CurrFile` and the entries in memory;
* `newSymFile`, `addSym`, `removeObjectSymbols`, `cleanFileTab`   the operations;
* `step`, `run`             one operation, and a sequence of them.

Files and entries are known by numbers that stand for their addresses and are never used twice.  The
symbol list of a file and the chains of the hash table are lists of these numbers, kept apart as in
the source; `none` is a run that reads or writes memory that was freed.
-/

namespace Nwlib

/-! ## names -/

/-- a C string, without its terminator -/
structure Name where
  bytes : List UInt8
  noNul : (0 : UInt8) ∉ bytes
deriving DecidableEq

/-- one step of the loop of `Hash` -/
def hashStep (h : UInt32) (c : UInt8) : UInt32 :=
  let h := (h <<< 4) + c.toUInt32
  let g := h &&& 0xf0000000
  if g ≠ 0 then (h ^^^ (g >>> 24)) ^^^ g else h

/-- `Hash`, with `HASH_SIZE` 256 -/
def hash (s : Name) : Nat := (s.bytes.foldl hashStep 0).toNat % 256

/-- the value of a byte as an `int` -/
def charValue (c : UInt8) : Int := (c.toNat : Int)

/-- `strcmp`; the string that ends first goes on with its terminator -/
def strcmp : List UInt8 → List UInt8 → Int
  | [], [] => 0
  | [], d :: _ => 0 - charValue d
  | c :: _, [] => charValue c
  | c :: s, d :: t => if c = d then strcmp s t else charValue c - charValue d

/-- `tolower` -/
def toLower (c : UInt8) : UInt8 := if 0x41 ≤ c ∧ c ≤ 0x5a then c + 0x20 else c

/-- `stricmp` -/
def stricmp (s t : List UInt8) : Int := strcmp (s.map toLower) (t.map toLower)

/-- the members of `Options` that the symbol table reads -/
structure Options where
  respectCase : Bool
  quiet : Bool

/-- `SymbolNameCmp` -/
def symbolNameCmp (o : Options) (s1 s2 : Name) : Int :=
  if o.respectCase then strcmp s1.bytes s2.bytes else stricmp s1.bytes s2.bytes

/-! ## the table -/

abbrev FileId := Nat
abbrev SymId := Nat

/-- `symbol_strength` -/
inductive Strength where
  | weak
  | strong
deriving DecidableEq, Repr

/-- the value of the enumerator -/
def Strength.rank : Strength → Nat
  | .weak => 0
  | .strong => 1

/-- `sym_entry`, without its two links -/
structure SymEntry where
  file : FileId
  /-- an `unsigned short` -/
  len : UInt16
  info : UInt8
  strength : Strength
  name : Name

/-- `sym_file`: its name and its symbol list -/
structure SymFile where
  id : FileId
  fullName : Name
  syms : List SymId

/-- the state of `symtable.c` -/
structure Table where
  /-- the list from `FileTable.first` on -/
  files : List SymFile
  /-- `FileTable.add_to`: the link of a file, or `none` for `FileTable.first` -/
  addTo : Option FileId
  /-- the chains of `HashTable` -/
  hashTable : Nat → List SymId
  /-- the entries in memory -/
  heap : SymId → Option SymEntry
  /-- `CurrFile` -/
  currFile : Option FileId
  nextSym : SymId
  nextFile : FileId
  /-- `Options.modified` -/
  modified : Bool
  /-- the names of the warnings `ERR_DUPLICATE_SYMBOL` -/
  warnings : List Name

/-- `InitFileTab` -/
def initFileTab : Table where
  files := []
  addTo := none
  hashTable := fun _ => []
  heap := fun _ => none
  currFile := none
  nextSym := 0
  nextFile := 0
  modified := false
  warnings := []

/-! ## files -/

/-- `*(FileTable.add_to) = sfile` where `add_to` is the link of the file `f` -/
def linkAfter (f : FileId) (sfile : SymFile) : List SymFile → Option (List SymFile)
  | [] => none
  | g :: files => if g.id = f then some [g, sfile] else (linkAfter f sfile files).map (g :: ·)

/-- `*(FileTable.add_to) = sfile` -/
def linkFile (t : Table) (sfile : SymFile) : Option (List SymFile) :=
  match t.addTo with
  | none => some [sfile]
  | some f => linkAfter f sfile t.files

/-- `CurrFile = NewSymFile( arch, obj_type )` -/
def newSymFile (t : Table) (name : Name) : Option Table :=
  (linkFile t ⟨t.nextFile, name, []⟩).map fun files =>
    { t with files := files, addTo := some t.nextFile, currFile := some t.nextFile,
             nextFile := t.nextFile + 1 }

/-- the loop of `CleanFileTab`; `last` is the last file of `kept` -/
def cleanLoop (addTo : Option FileId) (kept : List SymFile) :
    List SymFile → List SymFile × Option FileId
  | [] => (kept, addTo)
  | curr :: files =>
    if curr.syms = [] then
      cleanLoop (if addTo = some curr.id then kept.getLast?.map SymFile.id else addTo) kept files
    else cleanLoop addTo (kept ++ [curr]) files

/-- `CleanFileTab` -/
def cleanFileTab (t : Table) : Table :=
  let r := cleanLoop t.addTo [] t.files
  { t with files := r.1, addTo := r.2 }

/-! ## symbols -/

/-- the search of `AddSym` along a chain: the entry of the name, if there is one -/
def findSym (o : Options) (t : Table) (name : Name) : List SymId → Option (Option (SymId × SymEntry))
  | [] => some none
  | x :: chain =>
    match t.heap x with
    | none => none
    | some e =>
      if e.len.toNat ≠ name.bytes.length then findSym o t name chain
      else if symbolNameCmp o e.name name = 0 then some (some (x, e))
      else findSym o t name chain

/-- the symbol list of a file is changed -/
def mapSyms (f : FileId) (g : List SymId → List SymId) (files : List SymFile) : List SymFile :=
  files.map fun sfile => if sfile.id = f then { sfile with syms := g sfile.syms } else sfile

/-- the symbol list of the file `f` -/
def symsOf (files : List SymFile) (f : FileId) : List SymId :=
  ((files.find? fun sfile => sfile.id = f).map SymFile.syms).getD []

/-- `AddSym` takes a weaker entry off both of its lists and frees it -/
def dropSym (t : Table) (hval : Nat) (x : SymId) (e : SymEntry) : Option Table :=
  if x ∈ symsOf t.files e.file ∧ x ∈ t.hashTable hval then
    some { t with
      files := mapSyms e.file (fun syms => syms.erase x) t.files
      hashTable := Function.update t.hashTable hval ((t.hashTable hval).erase x)
      heap := Function.update t.heap x none }
  else none

/-- `AddSym` makes a new entry and puts it at the head of both of its lists -/
def pushSym (t : Table) (hval : Nat) (name : Name) (strength : Strength) (info : UInt8) :
    Option Table :=
  match t.currFile with
  | none => none
  | some f =>
    if f ∈ t.files.map SymFile.id then
      some { t with
        files := mapSyms f (fun syms => t.nextSym :: syms) t.files
        hashTable := Function.update t.hashTable hval (t.nextSym :: t.hashTable hval)
        heap := Function.update t.heap t.nextSym
          (some ⟨f, UInt16.ofNat name.bytes.length, info, strength, name⟩)
        nextSym := t.nextSym + 1 }
    else none

/-- the warning of `AddSym` about a second strong definition -/
def warnDuplicate (o : Options) (t : Table) (name : Name) (strength : Strength) (e : SymEntry) :
    Table :=
  if strength = e.strength ∧ strength = .strong ∧ o.quiet = false then
    { t with warnings := t.warnings ++ [name] }
  else t

/-- `AddSym` -/
def addSym (o : Options) (t : Table) (name : Name) (strength : Strength) (info : UInt8) :
    Option Table :=
  let hval := hash name
  match findSym o t name (t.hashTable hval) with
  | none => none
  | some none => pushSym t hval name strength info
  | some (some (x, e)) =>
    if strength.rank > e.strength.rank then
      match dropSym t hval x e with
      | none => none
      | some t => pushSym t hval name strength info
    else some (warnDuplicate o t name strength e)

/-- `RemoveFromHashTable`; an entry that is not on its chain is passed over -/
def removeFromHashTable (heap : SymId → Option SymEntry) (table : Nat → List SymId) (x : SymId) :
    Option (Nat → List SymId) :=
  (heap x).map fun e =>
    Function.update table (hash e.name) ((table (hash e.name)).erase x)

/-- the first file of a name, with the files before and behind it -/
def findFile (o : Options) (name : Name) (before : List SymFile) :
    List SymFile → Option (List SymFile × SymFile × List SymFile)
  | [] => none
  | sfile :: files =>
    if symbolNameCmp o sfile.fullName name = 0 then some (before, sfile, files)
    else findFile o name (before ++ [sfile]) files

/-- the file is taken off the list of files -/
def unlinkFile (t : Table) (before : List SymFile) (sfile : SymFile) (files : List SymFile) :
    List SymFile × Option FileId :=
  match before.getLast? with
  | some prev =>
    (before ++ files, if t.addTo = some sfile.id then some prev.id else t.addTo)
  | none => if t.addTo = some sfile.id then ([], none) else (files, t.addTo)

/-- `RemoveObjectSymbols`, with its result -/
def removeObjectSymbols (o : Options) (t : Table) (name : Name) : Option (Table × Bool) :=
  match findFile o name [] t.files with
  | none => some (t, false)
  | some (before, sfile, files) =>
    (sfile.syms.foldlM (removeFromHashTable t.heap) t.hashTable).map fun table =>
      let r := unlinkFile t before sfile files
      -- `FiniSymFile` frees the symbols of the file
      ({ t with files := r.1, addTo := r.2, hashTable := table,
                heap := fun x => if x ∈ sfile.syms then none else t.heap x, modified := true }, true)

/-! ## runs -/

/-- the operations on the table -/
inductive Op where
  | newSymFile (name : Name)
  | addSym (name : Name) (strength : Strength) (info : UInt8)
  | removeObjectSymbols (name : Name)
  | cleanFileTab

/-- one operation -/
def step (o : Options) (t : Table) : Op → Option Table
  | .newSymFile name => newSymFile t name
  | .addSym name strength info => addSym o t name strength info
  | .removeObjectSymbols name => (removeObjectSymbols o t name).map Prod.fst
  | .cleanFileTab => some (cleanFileTab t)

/-- a sequence of operations -/
def run (o : Options) : Table → List Op → Option Table
  | t, [] => some t
  | t, op :: ops => (step o t op).bind fun t => run o t ops

end Nwlib
