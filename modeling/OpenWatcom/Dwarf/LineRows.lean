import OpenWatcom.Dwarf.LineRuns

/-!
# The rows of a line program

* `Spec`, `expected`      the rows that a sequence of calls describes;
* `Faithful`              no call goes back by a distance that gets lost, and the files have 16 bits;
* `Synced`                the shadow state of the writer is the state of the reader, in the terms of `Spec`;
* `lineProgram_rows_iff`  the reader appends exactly these rows and the end of the sequence if and only if the
                          calls are `Faithful`.
-/

namespace Dwarf
open Bytes Leb128

/-! ## what the calls describe -/

structure Row where
  line : BitVec 32
  column : BitVec 16
  address : BitVec 32
  file : Nat
  isStmt : Bool
  basicBlk : Bool
  deriving DecidableEq, Repr

def LineData.row (r : LineData) : Row :=
  ⟨r.line, r.column, r.offset, r.file.toNat, r.isStmt, r.basicBlk⟩

/-- the files named so far, the newest first, and the position of the current one; the place where the
client's addresses start, and the last address -/
structure Spec where
  names : List FileName
  file : Nat
  base : BitVec 32
  addr : BitVec 32

/-- counted from the first file named, from 1 -/
def position (names : List FileName) (name : FileName) : Nat := names.length - names.idxOf name

section
variable (size : OffsetSize)

def Spec.call (t : Spec) : Call → Spec
  | .setFile name =>
    let names := if name ∈ t.names then t.names else name :: t.names
    { t with names := names, file := position names name }
  | .lineAddr label addr =>
    { t with base := BitVec.ofNat 32 (label % 256 ^ size.bytes) - addr, addr := addr }
  | .lineNum _ _ _ _ addr => { t with addr := addr }

/-- one row for each `DWLineNum` -/
def expected (t : Spec) : List Call → List Row
  | [] => []
  | .lineNum stmt blk line column addr :: cs =>
    ⟨line, column, t.base + addr, t.file, stmt, blk⟩
      :: expected (t.call size (.lineNum stmt blk line column addr)) cs
  | c :: cs => expected (t.call size c) cs

/-- the increment of the address is carried, and the number of the file fits -/
def Spec.Carries (t : Spec) : Call → Prop
  | .lineNum _ _ _ _ addr => ¬Lost (addr - t.addr).toInt ∧ t.file < 2 ^ 16
  | _ => True

def Faithful (t : Spec) : List Call → Prop
  | [] => True
  | c :: cs => t.Carries c ∧ Faithful (t.call size c) cs

end

def startSpec (source : FileName) : Spec := ⟨[source], 1, 0, 0⟩

/-! ## the files -/

/-- the files of the writer: a number is a position, in 32 bits -/
def numbered : List FileName → List (FileName × Nat)
  | [] => []
  | name :: names => (name, (names.length + 1) % 2 ^ 32) :: numbered names

theorem find_numbered (names : List FileName) (name : FileName) :
    (numbered names).find? (fun walk => walk.1 = name)
      = if name ∈ names then some (name, position names name % 2 ^ 32) else none := by
  induction names with
  | nil => rfl
  | cons n ns ih =>
    rw [numbered, List.find?_cons]
    by_cases h : n = name
    · subst h
      rw [if_pos List.mem_cons_self, position, List.idxOf_cons_self]
      simp
    · have hp : position (n :: ns) name = position ns name := by
        rw [position, position, List.idxOf_cons_ne _ h, List.length_cons, Nat.add_sub_add_right]
      have hm : name ∈ n :: ns ↔ name ∈ ns := by
        rw [List.mem_cons]
        exact or_iff_right (Ne.symm h)
      rw [hp]
      simp only [h, decide_false, hm]
      exact ih

theorem position_new (names : List FileName) (name : FileName) :
    position (name :: names) name = names.length + 1 := by
  rw [position, List.idxOf_cons_self]
  rfl

/-- a file that is not there yet gets the number behind the newest one -/
theorem getFileNumber_numbered (w : DebugLine) {names : List FileName} (hw : w.files = numbered names)
    (name : FileName) :
    dwGetFileNumber w name = if name ∈ names then (position names name % 2 ^ 32, w, [])
      else (position (name :: names) name % 2 ^ 32, { w with files := numbered (name :: names) },
        writeFileName name) := by
  rw [dwGetFileNumber, hw, find_numbered]
  by_cases h : name ∈ names
  · rw [if_pos h, if_pos h]
  · rw [if_neg h, if_neg h, position_new]
    cases names with
    | nil => rfl
    | cons n ns =>
      have e : ((ns.length + 1) % 2 ^ 32 + 1) % 2 ^ 32 = ((n :: ns).length + 1) % 2 ^ 32 := by
        rw [List.length_cons]
        omega
      show (_, { w with files := (name, ((ns.length + 1) % 2 ^ 32 + 1) % 2 ^ 32) :: numbered (n :: ns) }, _)
        = (_, { w with files := (name, ((n :: ns).length + 1) % 2 ^ 32) :: numbered (n :: ns) }, _)
      rw [← e]
      rfl

theorem writeFileName_eq (name : FileName) :
    writeFileName name = 0 :: (encodeULEB128 (name.bytes.length + 5) ++ [lneDefineFile] ++ name.bytes
      ++ [0, 0, 0, 0]) := by
  have e : 1 + (name.bytes.length + 1) + 1 + (encodeULEB128 0).length + (encodeULEB128 0).length
      = name.bytes.length + 5 := by
    show 1 + (name.bytes.length + 1) + 1 + 1 + 1 = _
    omega
  rw [writeFileName, e, List.append_assoc, List.append_assoc]
  rfl

/-- the definition of a file is skipped by its length -/
theorem reads_writeFileName {seg : BitVec 16} (s : LineData) (name : FileName) :
    Reads (prologue seg) s (writeFileName name) s [] := by
  have hl := name.short
  rw [writeFileName_eq]
  refine Reads.op fun rest => ?_
  show extendedOp (prologue seg) s _ = _
  rw [extendedOp, List.append_assoc, List.append_assoc, List.append_assoc, decodeU_encodeU (by omega),
    Option.bind_some]
  show some (s, [], List.drop ((name.bytes.length + 5 + 2 ^ 32 - 1) % 2 ^ 32)
    (name.bytes ++ ([0, 0, 0, 0] ++ rest))) = _
  have e : (name.bytes.length + 5 + 2 ^ 32 - 1) % 2 ^ 32 = (name.bytes ++ [0, 0, 0, 0]).length := by
    rw [List.length_append]
    show _ = name.bytes.length + 4
    omega
  rw [e, ← List.append_assoc, List.drop_left]

/-! ## writer and reader -/

/-- the writer's shadow is the reader's state -/
structure Synced (w : DebugLine) (s : LineData) (t : Spec) : Prop where
  files : w.files = numbered t.names
  addr : w.addr = t.addr
  line : s.line = w.line
  column : s.column = w.column
  isStmt : s.isStmt = w.isStmt
  offset : s.offset = t.base + t.addr
  file : s.file = BitVec.ofNat 16 t.file
  basicBlk : s.basicBlk = false
  endSeq : s.endSeq = false

section
variable {size : OffsetSize} {seg : BitVec 16} {w : DebugLine} {s : LineData} {t : Spec}

variable (size seg) in
theorem reads_dwSetFile (h : Synced w s t) (name : FileName) :
    ∃ s', Reads (prologue seg) s (dwSetFile w name).2 s' [] ∧
      Synced (dwSetFile w name).1 s' (t.call size (.setFile name)) := by
  have hb : ∀ n : Nat, BitVec.ofNat 16 (n % 2 ^ 32) = BitVec.ofNat 16 n := by
    intro n
    rw [← BitVec.toNat_inj, BitVec.toNat_ofNat, BitVec.toNat_ofNat]
    omega
  have hn : ∀ n : Nat, n % 2 ^ 32 < 2 ^ 34 := by
    intro n
    omega
  rw [dwSetFile, getFileNumber_numbered w h.files, Spec.call]
  by_cases hm : name ∈ t.names
  · rw [if_pos hm, if_pos hm]
    refine ⟨{ s with file := BitVec.ofNat 16 (position t.names name % 2 ^ 32) },
      reads_setFile s (hn _), ?_⟩
    exact { h with file := hb _ }
  · rw [if_neg hm, if_neg hm]
    refine ⟨{ s with file := BitVec.ofNat 16 (position (name :: t.names) name % 2 ^ 32) },
      (reads_writeFileName s name).cons (reads_setFile s (hn _)), ?_⟩
    exact { h with files := rfl, file := hb _ }

variable (size seg) in
theorem reads_dwLineAddr (h : Synced w s t) (label : Nat) (addr : BitVec 32) :
    ∃ s', Reads (prologue seg) s (dwLineAddr size label w addr).2 s' [] ∧
      Synced (dwLineAddr size label w addr).1 s' (t.call size (.lineAddr label addr)) := by
  refine ⟨{ s with offset := BitVec.ofNat 32 (label % 256 ^ size.bytes), addrSet := true },
    Reads.op fun rest => ?_, ?_⟩
  · have hs : size.bytes = 2 ∨ size.bytes = 4 := by
      cases size
      · exact Or.inl rfl
      · exact Or.inr rfl
    have e : (1 + size.bytes + 2 ^ 32 - 1) % 2 ^ 32 = size.bytes := by omega
    show extendedOp (prologue seg) s _ = _
    rw [extendedOp, List.append_assoc, decodeU_encodeU (by omega), Option.bind_some]
    dsimp only [List.cons_append]
    rw [e]
    have hr : readInt (leBytes size.bytes label ++ rest) size.bytes
        = some (label % 256 ^ size.bytes) := by
      rw [readInt, if_pos ⟨by omega, by rw [List.length_append, leBytes_length]; omega⟩,
        List.take_left' (leBytes_length _ _), leNat_leBytes]
    show (readInt (leBytes size.bytes label ++ rest) size.bytes).map _ = _
    rw [hr, Option.map_some, List.drop_left' (leBytes_length _ _)]
  · refine { h with addr := rfl, offset := ?_ }
    exact (BitVec.sub_add_cancel _ _).symm

/-- the flags and the column -/
theorem reads_flags (h : Synced w s t) (stmt blk : Bool) (column : BitVec 16) (rest : List UInt8)
    {s2 : LineData} {rows : List LineData}
    (hr : Reads (prologue seg) { s with basicBlk := blk, isStmt := stmt, column := column } rest s2 rows) :
    Reads (prologue seg) s ((if blk then [lnsSetBasicBlock] else []) ++
      ((if stmt ≠ w.isStmt then [lnsNegateStmt] else []) ++
        ((if column ≠ w.column then lnsSetColumn :: encodeSLEB128 column.toNat else []) ++ rest)))
      s2 rows := by
  have hc : Reads (prologue seg) { s with basicBlk := blk, isStmt := stmt }
      ((if column ≠ w.column then lnsSetColumn :: encodeSLEB128 column.toNat else []) ++ rest) s2 rows := by
    refine Reads.cons ?_ hr
    split_ifs with e
    · exact reads_setColumn _ column
    · have hcol : s.column = column := by rw [h.column, not_not.mp e]
      rw [← hcol]
      exact Reads.nil _
  have hstmt : Reads (prologue seg) { s with basicBlk := blk }
      (if stmt ≠ w.isStmt then [lnsNegateStmt] else []) { s with basicBlk := blk, isStmt := stmt } [] := by
    split_ifs with e
    · have hneg : (!s.isStmt) = stmt := by
        rw [h.isStmt]
        exact (Bool.eq_not.mpr e).symm
      rw [← hneg]
      exact reads_negate { s with basicBlk := blk }
    · have hst : s.isStmt = stmt := by rw [h.isStmt, not_not.mp e]
      rw [← hst]
      exact Reads.nil _
  have hblk : Reads (prologue seg) s (if blk then [lnsSetBasicBlock] else []) { s with basicBlk := blk } [] := by
    split_ifs with e
    · rw [e]
      exact reads_block s
    · have hb : s.basicBlk = blk := by
        rw [h.basicBlk]
        exact (Bool.eq_false_iff.mpr e).symm
      rw [← hb]
      exact Reads.nil _
  exact hblk.cons (hstmt.cons hc)

theorem bounds_toInt (x : BitVec 32) : -2 ^ 31 ≤ x.toInt ∧ x.toInt < 2 ^ 31 := by
  have h1 := BitVec.le_toInt x
  have h2 : x.toInt < 2 ^ (32 - 1) := BitVec.toInt_lt
  norm_num at h1 h2
  omega

theorem add_ofInt_sub (a b : BitVec 32) : a + BitVec.ofInt 32 (b - a).toInt = b := by
  rw [BitVec.ofInt_toInt, BitVec.add_comm, BitVec.sub_add_cancel]

variable (size seg) in
theorem reads_dwLineNum (h : Synced w s t) (stmt blk : Bool) (line : BitVec 32) (column : BitVec 16)
    (addr : BitVec 32) :
    ∃ s' r, Reads (prologue seg) s (dwLineNum w stmt blk line column addr).2 s' [r] ∧ r.endSeq = false ∧
      (r.row = ⟨line, column, t.base + addr, t.file, stmt, blk⟩
        ↔ t.Carries (.lineNum stmt blk line column addr)) ∧
      (t.Carries (.lineNum stmt blk line column addr) →
        Synced (dwLineNum w stmt blk line column addr).1 s'
          (t.call size (.lineNum stmt blk line column addr))) := by
  obtain ⟨l1, l2⟩ := bounds_toInt (line - w.line)
  obtain ⟨a1, a2⟩ := bounds_toInt (addr - w.addr)
  obtain ⟨d, hd, hiff⟩ := reads_lineGen seg
    { s with basicBlk := blk, isStmt := stmt, column := column } l1 l2 a1 a2
  have hline : s.line + BitVec.ofInt 32 (line - w.line).toInt = line := by
    rw [h.line, add_ofInt_sub]
  have hoff : s.offset + d = t.base + addr ↔ ¬Lost (addr - t.addr).toInt := by
    rw [← h.addr, ← hiff, h.offset, h.addr]
    have e : t.base + addr = t.base + t.addr + BitVec.ofInt 32 (addr - t.addr).toInt := by
      rw [BitVec.add_assoc, add_ofInt_sub]
    rw [e]
    exact BitVec.add_right_inj _
  have hfile : s.file.toNat = t.file ↔ t.file < 2 ^ 16 := by
    rw [h.file, BitVec.toNat_ofNat]
    exact Nat.mod_eq_iff_lt (by norm_num)
  refine ⟨_, _, reads_flags h stmt blk column _ hd, h.endSeq, ?_, fun hc => ?_⟩
  · show Row.mk (s.line + BitVec.ofInt 32 (line - w.line).toInt) column (s.offset + d) s.file.toNat stmt blk
      = _ ↔ ¬Lost (addr - t.addr).toInt ∧ t.file < 2 ^ 16
    rw [hline, ← hoff, ← hfile]
    constructor
    · intro hr
      exact ⟨congrArg Row.address hr, congrArg Row.file hr⟩
    · intro hr
      rw [hr.1, hr.2]
  · exact ⟨h.files, rfl, hline, rfl, rfl, hoff.mpr hc.1, h.file, rfl, h.endSeq⟩

/-! ## runs -/

/-- from a state the reader appends the rows of the calls, and ends the sequence -/
def Yields (s : LineData) (f : Nat) (seg : BitVec 16) (bytes : List UInt8) (rows : List Row) : Prop :=
  ∃ read last, wlkLoop (prologue seg) f s bytes = some (read ++ [last]) ∧ read.map LineData.row = rows ∧
    (∀ r ∈ read, r.endSeq = false) ∧ last.endSeq = true

/-- bytes that append no row -/
theorem yields_skip {f : Nat} {a rest : List UInt8} {s' : LineData} (rows : List Row)
    (h : Reads (prologue seg) s a s' []) (hf : (a ++ rest).length ≤ f) :
    ∃ f', rest.length ≤ f' ∧ (Yields s f seg (a ++ rest) rows ↔ Yields s' f' seg rest rows) := by
  obtain ⟨k, hk, e⟩ := h
  rw [List.length_append] at hf
  refine ⟨f - k, by omega, ?_⟩
  have e2 := e (f - k) rest
  rw [Nat.sub_add_cancel (by omega)] at e2
  have hid : (fun more : List LineData => [] ++ more) = id := rfl
  rw [Yields, Yields, e2, hid, Option.map_id]
  rfl

theorem yields_row {f : Nat} {a rest : List UInt8} {s' r : LineData} (x : Row) (rows : List Row)
    (h : Reads (prologue seg) s a s' [r]) (hr : r.endSeq = false) (hf : (a ++ rest).length ≤ f) :
    ∃ f', rest.length ≤ f' ∧
      (Yields s f seg (a ++ rest) (x :: rows) ↔ r.row = x ∧ Yields s' f' seg rest rows) := by
  obtain ⟨k, hk, e⟩ := h
  rw [List.length_append] at hf
  refine ⟨f - k, by omega, ?_⟩
  have e2 := e (f - k) rest
  rw [Nat.sub_add_cancel (by omega)] at e2
  rw [Yields, e2]
  constructor
  · intro ⟨read, last, hread, hmap, hend, hlast⟩
    obtain ⟨more, hmore, happ⟩ := Option.map_eq_some_iff.mp hread
    cases read with
    | nil => exact absurd hmap (by simp)
    | cons r' read =>
      obtain ⟨rfl, htail⟩ := List.cons.inj happ
      obtain ⟨hx, hrest⟩ := List.cons.inj hmap
      exact ⟨hx, read, last, hmore.trans (congrArg some htail), hrest,
        fun q hq => hend q (List.mem_cons_of_mem _ hq), hlast⟩
  · intro ⟨hx, read, last, hread, hmap, hend, hlast⟩
    refine ⟨r :: read, last, by rw [hread]; rfl, by rw [List.map_cons, hx, hmap], fun q hq => ?_, hlast⟩
    rcases List.mem_cons.mp hq with rfl | hq
    · exact hr
    · exact hend q hq

theorem yields_end {f : Nat} (hf : 3 ≤ f) : Yields s f seg [0, 1, lneEndSequence] [] := by
  obtain ⟨g, rfl⟩ : ∃ g, f = g + 1 := ⟨f - 1, by omega⟩
  refine ⟨[], { s with endSeq := true }, ?_, rfl, fun r hr => absurd hr (by simp), rfl⟩
  show (some (_ , _, _)).bind _ = _
  rw [Option.bind_some]
  show (wlkLoop (prologue seg) g _ []).map _ = _
  rw [wlkLoop]
  rfl

/-- the run: `Synced` is kept by each call that carries, and the first that does not has a wrong row -/
theorem yields_emits (cs : List Call) : ∀ {w : DebugLine} {s : LineData} {t : Spec} {f : Nat},
    Synced w s t → (emits size w cs ++ [0, 1, lneEndSequence]).length ≤ f →
    (Yields s f seg (emits size w cs ++ [0, 1, lneEndSequence]) (expected size t cs)
      ↔ Faithful size t cs) := by
  induction cs with
  | nil =>
    intro w s t f _ hf
    exact iff_of_true (yields_end hf) trivial
  | cons c cs ih =>
    intro w s t f h hf
    rw [emits, List.append_assoc] at hf ⊢
    rw [Faithful]
    cases c with
    | setFile name =>
      obtain ⟨s', hs, hsync⟩ := reads_dwSetFile size seg h name
      obtain ⟨f', hf', hiff⟩ := yields_skip
        (expected size (t.call size (.setFile name)) cs) hs hf
      exact hiff.trans ((ih hsync hf').trans (true_and _).to_iff.symm)
    | lineAddr label addr =>
      obtain ⟨s', hs, hsync⟩ := reads_dwLineAddr size seg h label addr
      obtain ⟨f', hf', hiff⟩ := yields_skip
        (expected size (t.call size (.lineAddr label addr)) cs) hs hf
      exact hiff.trans ((ih hsync hf').trans (true_and _).to_iff.symm)
    | lineNum stmt blk line column addr =>
      obtain ⟨s', r, hs, hend, hrow, hsync⟩ :=
        reads_dwLineNum size seg h stmt blk line column addr
      obtain ⟨f', hf', hiff⟩ := yields_row ⟨line, column, t.base + addr, t.file, stmt, blk⟩
        (expected size (t.call size (.lineNum stmt blk line column addr)) cs) hs hend hf
      refine hiff.trans ?_
      rw [hrow]
      exact and_congr_right fun hc => ih (hsync hc) hf'

/-! ## the program -/

theorem synced_start (source : FileName) :
    Synced (dwInitDebugLine source).1 (initState (prologue seg)) (startSpec source) :=
  ⟨rfl, rfl, rfl, rfl, rfl, rfl, rfl, rfl, rfl⟩

theorem reads_start (s : LineData) (source : FileName) :
    Reads (prologue seg) s (dwInitDebugLine source).2 s [] :=
  reads_writeFileName s source

variable (size seg) in
theorem yields_lineProgram (source : FileName) (cs : List Call) :
    Yields (initState (prologue seg)) (lineProgram size source cs).length seg
      (lineProgram size source cs) (expected size (startSpec source) cs)
    ↔ Faithful size (startSpec source) cs := by
  obtain ⟨f', hf', hiff⟩ := yields_skip (expected size (startSpec source) cs)
    (reads_start (initState (prologue seg)) source)
    (Nat.le_refl (lineProgram size source cs).length)
  exact hiff.trans (yields_emits cs (synced_start source) hf')

end

/-- the reader appends the rows that the calls ask for, one for each `DWLineNum`, and the end of the
sequence, if and only if no call goes back by at most `2 ^ 27` and its file has a number of 16 bits -/
theorem lineProgram_rows_iff (size : OffsetSize) (seg : BitVec 16) (source : FileName)
    (cs : List Call) :
    (∃ read last, wlkStateProg (prologue seg) (lineProgram size source cs) = some (read ++ [last]) ∧
      read.map LineData.row = expected size (startSpec source) cs ∧
      (∀ r ∈ read, r.endSeq = false) ∧ last.endSeq = true)
    ↔ Faithful size (startSpec source) cs :=
  yields_lineProgram size seg source cs

/-- a line at address 10, and one at address 9: the second row is at address 137 -/
theorem lineProgram_back :
    ¬∃ read last, wlkStateProg (prologue 0)
        (lineProgram .four ⟨[97], by decide⟩ [.lineNum true false 1 0 10, .lineNum true false 2 0 9])
        = some (read ++ [last]) ∧
      read.map LineData.row = expected .four (startSpec ⟨[97], by decide⟩)
        [.lineNum true false 1 0 10, .lineNum true false 2 0 9] ∧
      (∀ r ∈ read, r.endSeq = false) ∧ last.endSeq = true := by
  intro h
  have hf := (yields_lineProgram .four 0 ⟨[97], by decide⟩ _).mp h
  exact hf.2.1.1 (by decide)

end Dwarf
