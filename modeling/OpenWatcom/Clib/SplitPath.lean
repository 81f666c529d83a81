import Mathlib

/-!
# Taking paths apart and joining them: `splitpat.c`, `makepath.c`

The variant of DOS, OS/2 and Windows, where each character is one byte.

* `copypart`, `scan`, `splitpath`     `_splitpath`, for each choice of the buffers
* `Buf`     the buffer of `_makepath` and the cursor in it
* `pickup`, `copyPicked`, `putDrive` to `putExt`, `makepath`     `_makepath`
* `parts`     directory, name and extension of a path without drive
-/

namespace DosPath

def nul : Char := Char.ofNat 0

def DIR_SEP : Char := '\\'
def ALT_DIR_SEP : Char := '/'
def EXT_SEP : Char := '.'
def DRV_SEP : Char := ':'

/-- `IS_DIR_SEP` -/
def isDirSep (c : Char) : Bool := c = ALT_DIR_SEP ∨ c = DIR_SEP

/-! ## Taking apart -/

/-- the sizes of the buffers of the parts; each has room for a character -/
structure Limits where
  dir : ℕ
  fname : ℕ
  ext : ℕ
  dir_pos : 1 < dir
  fname_pos : 1 < fname
  ext_pos : 1 < ext

/-- `_MAX_DIR`, `_MAX_FNAME`, `_MAX_EXT` with long file names -/
def Limits.lfn : Limits := ⟨256, 256, 256, by decide, by decide, by decide⟩

/-- and without -/
def Limits.dos : Limits := ⟨130, 9, 5, by decide, by decide, by decide⟩

/-- what is not `NULL` -/
structure Want where
  drive : Bool
  dir : Bool
  fname : Bool
  ext : Bool

/-- what is stored -/
structure Parts where
  drive : Option (List Char)
  dir : Option (List Char)
  fname : Option (List Char)
  ext : Option (List Char)
  deriving DecidableEq

/-- `copypart` -/
def copypart (buf : Bool) (p : List Char) (len maxlen : ℕ) : Option (List Char) :=
  if buf then some (p.take (if maxlen < len then maxlen else len)) else none

/-- `TEST_DRIVE` -/
def testDrive (x : List Char) : Bool := x.getD 0 nul ≠ nul ∧ x.getD 1 nul = DRV_SEP

/-- `fnamep`, `dotp` -/
structure Marks where
  fnamep : ℕ
  dotp : Option ℕ

/-- the loop; `i` is where `path` points -/
def scan : List Char → ℕ → Marks → Marks
  | [], _, m => m
  | ch :: path, i, m =>
    if ch = EXT_SEP then scan path (i + 1) { m with dotp := some i }
    else scan path (i + 1) (if isDirSep ch then ⟨i + 1, none⟩ else m)

/-- `_splitpath` -/
def splitpath (L : Limits) (want : Want) (path : List Char) : Parts :=
  let drive := if want.drive then some (if testDrive path then path.take 2 else []) else none
  let startp := if testDrive path ∧ want.drive then path.drop 2 else path
  let m := scan startp 0 ⟨0, none⟩
  let dotp := m.dotp.getD startp.length
  ⟨drive, copypart want.dir startp m.fnamep (L.dir - 1),
    copypart want.fname (startp.drop m.fnamep) (dotp - m.fnamep) (L.fname - 1),
    copypart want.ext (startp.drop dotp) (startp.length - dotp) (L.ext - 1)⟩

/-! ## Joining -/

/-- the buffer, and the cursor `path` -/
structure Buf where
  mem : ℕ → Char
  path : ℕ

/-- `*path` -/
def Buf.cur (b : Buf) : Char := b.mem b.path

/-- `*path = c` -/
def Buf.set (b : Buf) (c : Char) : Buf := { b with mem := Function.update b.mem b.path c }

/-- `path++` -/
def Buf.next (b : Buf) : Buf := { b with path := b.path + 1 }

/-- `*path++ = c` -/
def Buf.put (b : Buf) (c : Char) : Buf := (b.set c).next

/-- a character that `_mbvtop` stores, with a terminator behind it -/
def Buf.putTerminated (b : Buf) (c : Char) : Buf := (b.put c).set nul

/-- `strcpy`, and on to its end -/
def Buf.puts (b : Buf) (s : List Char) : Buf := s.foldl Buf.put b

/-- `pickup`, with the path character of choice -/
def pickup (c firstPc : Char) : Char × Char :=
  if isDirSep c then
    if firstPc = nul then (c, c) else (firstPc, firstPc)
  else (c, firstPc)

/-- the loops over `dir` and `fname` -/
def copyPicked : List Char → Buf → Char → Buf × Char
  | [], b, firstPc => (b, firstPc)
  | c :: s, b, firstPc =>
    let (c, firstPc) := pickup c firstPc
    copyPicked s (b.putTerminated c) firstPc

section
variable (b : Buf)

/-- the drive, or what starts with two separators -/
def putDrive (drive : List Char) : Buf :=
  if drive = [] then b
  else if drive.getD 0 nul = DIR_SEP ∧ drive.getD 1 nul = DIR_SEP then b.puts drive
  else (b.put (drive.getD 0 nul)).put DRV_SEP

/-- the directory: the cursor stays on a separator, provisional where `dir` does not end in one -/
def putDir (dir : List Char) : Buf × Char :=
  if dir = [] then (b, nul)
  else
    let (b, firstPc) := copyPicked dir b nul
    let firstPc := if firstPc = nul then DIR_SEP else firstPc
    if b.mem (b.path - 1) = firstPc then ({ b with path := b.path - 1 }, firstPc)
    else (b.set firstPc, firstPc)

/-- the name, behind the separator or over it -/
def putFname (firstPc : Char) (fname : List Char) : Buf :=
  if fname = [] then if b.cur = firstPc then b.next else b
  else
    let b := if (pickup (fname.getD 0 nul) firstPc).1 ≠ firstPc ∧ b.cur = firstPc then b.next else b
    (copyPicked fname b firstPc).1

/-- the extension, with its dot -/
def putExt (ext : List Char) : Buf :=
  if ext = [] then b else (if ext.getD 0 nul ≠ EXT_SEP then b.put EXT_SEP else b).puts ext

end

/-- `_makepath`, into a buffer; a part that is `NULL` is left out as an empty one is -/
def makepath (mem : ℕ → Char) (parts : Parts) : Buf :=
  let b := (putDrive ⟨mem, 0⟩ (parts.drive.getD [])).set nul
  let (b, firstPc) := putDir b (parts.dir.getD [])
  let firstPc := if firstPc = nul then DIR_SEP else firstPc
  let b := putFname b firstPc (parts.fname.getD [])
  (putExt b (parts.ext.getD [])).set nul

/-! ## What a path consists of -/

/-- the directory up to the last separator, the name up to the last dot behind it, the extension -/
def parts : List Char → List Char × List Char × List Char
  | [] => ([], [], [])
  | c :: xs =>
    let (dir, fname, ext) := parts xs
    if dir ≠ [] then (c :: dir, fname, ext)
    else if isDirSep c then ([c], fname, ext)
    else if c = EXT_SEP ∧ ext = [] then ([], [], c :: fname)
    else ([], c :: fname, ext)

/-- what follows the drive -/
def behindDrive (path : List Char) : List Char := if testDrive path then path.drop 2 else path

/-- the parts fit their buffers -/
structure Fits (L : Limits) (path : List Char) : Prop where
  dir : (parts (behindDrive path)).1.length < L.dir
  fname : (parts (behindDrive path)).2.1.length < L.fname
  ext : (parts (behindDrive path)).2.2.length < L.ext

/-- every separator is replaced by the first one -/
def unified (path : List Char) : List Char :=
  match path.find? isDirSep with
  | none => path
  | some s => path.map fun c => if isDirSep c then s else c

/-- the string at the start of a buffer -/
def IsString (mem : ℕ → Char) (s : List Char) : Prop :=
  (∀ i, (h : i < s.length) → mem i = s[i]) ∧ mem s.length = nul

end DosPath
