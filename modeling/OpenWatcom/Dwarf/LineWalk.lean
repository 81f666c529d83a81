import OpenWatcom.Dwarf.LineGen
import Mathlib

/-!
# The cursor of `WlkStateProg`: `drline.c`

* `Client`, `Walk`     the callbacks, and the state of the walk;
* `walkOp`, `walkLoop`, `wlkProgram`     one opcode, the loop, and the whole walk with every cursor it decodes at;
* `Instr`, `WellFormed`     the instructions of a program and their bytes;
* `walkOp_passes`, `walkOp_slips`     an instruction that is passed, and those that are not;
* `program_walked_iff`     every instruction is decoded at its true start exactly when none of them is `Bad`.

A cursor is the list of the bytes from it to the end of the section; the readers are those of `virtstub.c`,
and `DR_EXCEPT` ends the walk.
-/

namespace Dwarf
open Bytes Leb128

/-- `dr_line_file` -/
structure LineFile where
  name : List UInt8
  dir : Nat
  time : Nat
  len : Nat
  index : BitVec 16
deriving DecidableEq

/-- the callbacks of a walk; each may be `NULL`, and says whether to go on -/
structure Client (D : Type) where
  cue : Option (D → LineData → Bool × D)
  file : Option (D → LineFile → Bool × D)

/-- the state of a walk, with the data of the callbacks -/
structure Walk (D : Type) where
  state : LineData
  fileIdx : Nat
  data : D
  cont : Bool

section
variable {D : Type} (rdr : ProgRdr) (oldProducer : Bool) (cl : Client D)

/-- a row is appended, and `after` follows unless the walk is to stop -/
def appendRow (w : Walk D) (after : LineData → LineData) : Walk D :=
  match cl.cue with
  | none => { w with state := after w.state }
  | some cue =>
    let (cont, data) := cue w.data w.state
    if cont then { w with state := after w.state, data := data, cont := true }
    else { w with data := data, cont := false }

/-- `DR_VMGetStrBuff`: the bytes before a NUL, and the cursor behind it -/
def getStr : List UInt8 → Option (List UInt8 × List UInt8)
  | [] => none
  | b :: curr => if b = 0 then some ([], curr) else (getStr curr).map fun p => (b :: p.1, p.2)

/-- `DW_LNE_define_file` -/
def defineFile (w : Walk D) (length : Nat) (curr : List UInt8) : Option (Walk D × List UInt8) :=
  let w := { w with fileIdx := w.fileIdx + 1 }
  match cl.file with
  | none => some (w, curr.drop length)
  | some file => do
    let (name, curr) ← getStr curr
    let (dir, curr) ← decodeULEB128 curr
    let (time, curr) ← decodeULEB128 curr
    let (len, curr) ← decodeULEB128 curr
    let (cont, data) := file w.data ⟨name, dir, time, len, BitVec.ofNat 16 w.fileIdx⟩
    some ({ w with data := data, cont := cont }, curr)

/-- the extended opcodes; opcode 4 is `DW_LNE_WATCOM_set_segment` for producers `VER_V1` and `VER_V2` -/
def walkExtended (w : Walk D) (curr : List UInt8) : Option (Walk D × List UInt8) :=
  (decodeULEB128 curr).bind fun (length, curr) =>
    match curr with
    | [] => none
    | lne :: curr =>
      let length := (length + 2 ^ 32 - 1) % 2 ^ 32
      let lne := if oldProducer ∧ lne.toNat = 4 then 128 else lne.toNat
      match lne with
      | 1 => some (appendRow cl { w with state.endSeq := true } fun _ => initState rdr, curr)
      | 2 => (readInt curr length).map fun v =>
          ({ w with state.offset := BitVec.ofNat 32 v, state.addrSet := true }, curr.drop length)
      | 3 => defineFile cl w length curr
      | 4 => some (w, curr)
      | 128 => (readInt curr length).map fun v =>
          ({ w with state.seg := BitVec.ofNat 16 v }, curr.drop length)
      | _ => some (w, curr.drop length)

/-- the standard opcodes -/
def walkStandard (w : Walk D) (op : Nat) (curr : List UInt8) : Option (Walk D × List UInt8) :=
  if op = 1 then some (appendRow cl w LineData.appended, curr)
  else (standardOp rdr w.state op curr).map fun (s, _, curr) => ({ w with state := s }, curr)

/-- the special opcodes -/
def walkSpecial (w : Walk D) (value : Nat) : Walk D :=
  let s := { w.state with
    offset := w.state.offset + BitVec.ofNat 32 (value / rdr.lineRange * rdr.minInsLen)
    line := w.state.line + BitVec.ofInt 32 ((value % rdr.lineRange : Nat) + rdr.lineBase) }
  appendRow cl { w with state := s } LineData.appended

/-- one turn of the loop of `WlkStateProg` -/
def walkOp (w : Walk D) : List UInt8 → Option (Walk D × List UInt8)
  | [] => none
  | op :: curr =>
    if op.toNat = 0 then walkExtended rdr oldProducer cl w curr
    else if op.toNat < rdr.opcodeBase then walkStandard rdr cl w op.toNat curr
    else some (walkSpecial rdr cl w (op.toNat - rdr.opcodeBase), curr)

/-- the loop, with the cursors at its head; `finish` is the number of bytes behind the program -/
def walkLoop (finish : Nat) : Nat → Walk D → List UInt8 →
    Option (List (List UInt8) × Walk D × List UInt8)
  | 0, _, _ => none
  | f + 1, w, curr =>
    if w.cont ∧ finish < curr.length then
      (walkOp rdr oldProducer cl w curr).bind fun r =>
        (walkLoop finish f r.1 r.2).map fun t => (curr :: t.1, t.2)
    else some ([], w, curr)

/-- `WlkStateProg` -/
def wlkProgram (fileIdx : Nat) (data : D) (program tail : List UInt8) :
    Option (List (List UInt8) × Walk D × List UInt8) :=
  walkLoop rdr oldProducer cl tail.length ((program ++ tail).length + 1)
    ⟨initState rdr, fileIdx, data, true⟩ (program ++ tail)

end

/-! ## line-number programs -/

/-- an instruction: a special opcode, a standard opcode with its operands, or an extended opcode with its
length and its operands -/
inductive Instr where
  | special (op : UInt8)
  | standard (op : UInt8) (operands : List UInt8)
  | extended (length : List UInt8) (lne : UInt8) (operands : List UInt8)
deriving DecidableEq

def Instr.bytes : Instr → List UInt8
  | .special op => [op]
  | .standard op operands => op :: operands
  | .extended length lne operands => 0 :: (length ++ lne :: operands)

/-- the operands of a standard opcode -/
def StandardOperands (rdr : ProgRdr) (op : Nat) (operands : List UInt8) : Prop :=
  match op with
  | 1 => operands = []
  | 2 => IsLeb operands
  | 3 => IsLeb operands
  | 4 => IsLeb operands
  | 5 => IsLeb operands
  | 6 => operands = []
  | 7 => operands = []
  | 8 => operands = [] ∧ 0 < rdr.lineRange
  | 9 => operands.length = 2
  | _ => ∃ lebs : List (List UInt8), lebs.length = rdr.opLens.getD (op - 1) 0 ∧
      (∀ l ∈ lebs, IsLeb l) ∧ operands = lebs.flatten

/-- the operands of an extended opcode; those of unknown opcodes may be anything -/
def ExtendedOperands (oldProducer : Bool) (lne : Nat) (operands : List UInt8) : Prop :=
  match lne with
  | 1 => operands = []
  | 3 => ∃ name dir time len, (0 : UInt8) ∉ name ∧ IsLeb dir ∧ IsLeb time ∧ IsLeb len ∧
      operands = name ++ 0 :: (dir ++ (time ++ len))
  | 4 => if oldProducer then True else IsLeb operands
  | _ => True

/-- the instruction is encoded as it should be -/
def WellFormed (rdr : ProgRdr) (oldProducer : Bool) : Instr → Prop
  | .special op => op ≠ 0 ∧ rdr.opcodeBase ≤ op.toNat ∧ 0 < rdr.lineRange
  | .standard op operands =>
    op ≠ 0 ∧ op.toNat < rdr.opcodeBase ∧ StandardOperands rdr op.toNat operands
  | .extended length lne operands =>
    IsLeb length ∧ lebValue length = operands.length + 1 ∧ lebValue length < 2 ^ 32 ∧
      ExtendedOperands oldProducer lne.toNat operands

/-- a `DW_LNE_set_discriminator`, or an address or segment that does not have 1, 2 or 4 bytes -/
def Bad (oldProducer : Bool) : Instr → Prop
  | .extended _ lne operands =>
    (lne.toNat = 4 ∧ oldProducer = false) ∨
      ((lne.toNat = 2 ∨ lne.toNat = 128 ∨ (lne.toNat = 4 ∧ oldProducer = true)) ∧
        ¬ (operands.length = 1 ∨ operands.length = 2 ∨ operands.length = 4))
  | _ => False

def bytesOf (is : List Instr) : List UInt8 := (is.map Instr.bytes).flatten

/-- where the instructions start -/
def starts (tail : List UInt8) : List Instr → List (List UInt8)
  | [] => []
  | i :: is => (bytesOf (i :: is) ++ tail) :: starts tail is

/-- the walk decodes at the starts of the first instructions and nowhere else, and ends behind the last one
of them, which is the last of all unless a callback stops the walk -/
def Walked {D : Type} (tail : List UInt8) (is : List Instr)
    (r : Option (List (List UInt8) × Walk D × List UInt8)) : Prop :=
  ∃ n visited w curr, r = some (visited, w, curr) ∧ n ≤ is.length ∧
    visited = (starts tail is).take n ∧ curr = bytesOf (is.drop n) ++ tail ∧
    tail.length ≤ curr.length ∧ (n < is.length → w.cont = false)

/-! ## the readers -/

theorem getStr_append {name : List UInt8} (h : (0 : UInt8) ∉ name) (rest : List UInt8) :
    getStr (name ++ 0 :: rest) = some (name, rest) := by
  induction name with
  | nil => rfl
  | cons b name ih =>
    rw [List.mem_cons, not_or] at h
    show (if b = 0 then _ else (getStr (name ++ 0 :: rest)).map _) = _
    rw [if_neg (Ne.symm h.1), ih h.2]
    rfl

theorem readInt_append (operands rest : List UInt8) : (∃ v, readInt (operands ++ rest)
    operands.length = some v) ↔ operands.length = 1 ∨ operands.length = 2 ∨ operands.length = 4 := by
  unfold readInt
  constructor
  · rintro ⟨v, h⟩
    by_contra hne
    rw [if_neg fun hc => hne hc.1] at h
    cases h
  · intro h
    exact ⟨_, if_pos ⟨h, by rw [List.length_append]; omega⟩⟩

theorem skipLeb_append {lebs : List (List UInt8)} (h : ∀ l ∈ lebs, IsLeb l) (rest : List UInt8) :
    skipLeb lebs.length (lebs.flatten ++ rest) = some rest := by
  induction lebs with
  | nil => rfl
  | cons l lebs ih =>
    show (decodeULEB128 (l ++ lebs.flatten ++ rest)).bind _ = _
    rw [List.append_assoc, decodeU_append (h l List.mem_cons_self)]
    exact ih fun x hx => h x (List.mem_cons_of_mem l hx)

/-! ## one instruction -/

section
variable {D : Type} {rdr : ProgRdr} {oldProducer : Bool} {cl : Client D}

theorem standardOp_unknown (rdr : ProgRdr) (s : LineData) {op : Nat} (h : op < 1 ∨ 9 < op)
    (curr : List UInt8) : standardOp rdr s op curr =
      (skipLeb (rdr.opLens.getD (op - 1) 0) curr).map fun curr => (s, [], curr) := by
  unfold standardOp
  split
  all_goals first | omega | rfl

theorem standardOp_append (s : LineData) {op : Nat} {operands : List UInt8}
    (h : StandardOperands rdr op operands) (rest : List UInt8) :
    ∃ s' rows, standardOp rdr s op (operands ++ rest) = some (s', rows, rest) := by
  unfold StandardOperands at h
  split at h
  · rw [h]
    exact ⟨_, _, rfl⟩
  · unfold standardOp
    rw [decodeU_append h]
    exact ⟨_, _, rfl⟩
  · obtain ⟨v, hv⟩ := decodeS_append h rest
    unfold standardOp
    rw [hv]
    exact ⟨_, _, rfl⟩
  · unfold standardOp
    rw [decodeU_append h]
    exact ⟨_, _, rfl⟩
  · unfold standardOp
    rw [decodeU_append h]
    exact ⟨_, _, rfl⟩
  · rw [h]
    exact ⟨_, _, rfl⟩
  · rw [h]
    exact ⟨_, _, rfl⟩
  · rw [h.1]
    exact ⟨_, _, rfl⟩
  · obtain ⟨v, hv⟩ := (readInt_append operands rest).mpr (Or.inr (Or.inl h))
    rw [h] at hv
    have e : (operands ++ rest).drop 2 = rest := by
      rw [← h, List.drop_left]
    refine ⟨{ s with offset := s.offset + BitVec.ofNat 32 v }, [], ?_⟩
    show (readInt (operands ++ rest) 2).map _ = _
    rw [hv, Option.map_some, e]
  · obtain ⟨lebs, h1, h2, rfl⟩ := h
    rename_i n1 n2 n3 n4 n5 n6 n7 n8 n9
    have hop : op < 1 ∨ 9 < op := by
      by_contra hc
      obtain e | e | e | e | e | e | e | e | e : op = 1 ∨ op = 2 ∨ op = 3 ∨ op = 4 ∨ op = 5 ∨
          op = 6 ∨ op = 7 ∨ op = 8 ∨ op = 9 := by omega
      · exact n1 e
      · exact n2 e
      · exact n3 e
      · exact n4 e
      · exact n5 e
      · exact n6 e
      · exact n7 e
      · exact n8 e
      · exact n9 e
    have e := standardOp_unknown rdr s hop (lebs.flatten ++ rest)
    rw [← h1, skipLeb_append h2] at e
    exact ⟨s, [], e⟩

theorem walkStandard_append (w : Walk D) {op : Nat} {operands : List UInt8}
    (h : StandardOperands rdr op operands) (rest : List UInt8) :
    ∃ w', walkStandard rdr cl w op (operands ++ rest) = some (w', rest) := by
  unfold walkStandard
  by_cases h1 : op = 1
  · subst h1
    have e : operands = [] := h
    rw [if_pos rfl, e]
    exact ⟨_, rfl⟩
  · obtain ⟨s', rows, hs⟩ := standardOp_append w.state h rest
    rw [if_neg h1, hs]
    exact ⟨_, rfl⟩

theorem defineFile_append (w : Walk D) {operands : List UInt8}
    (h : ExtendedOperands oldProducer 3 operands) (rest : List UInt8) :
    ∃ w', defineFile cl w operands.length (operands ++ rest) = some (w', rest) := by
  unfold defineFile
  cases hf : cl.file with
  | none => exact ⟨_, by dsimp only; rw [List.drop_left]⟩
  | some file =>
    obtain ⟨name, dir, time, len, h1, h2, h3, h4, rfl⟩ := h
    have e : name ++ 0 :: (dir ++ (time ++ len)) ++ rest =
        name ++ 0 :: (dir ++ (time ++ (len ++ rest))) := by
      simp only [List.append_assoc, List.cons_append]
    dsimp only
    rw [e, getStr_append h1]
    dsimp only [Option.bind_eq_bind, Option.bind_some]
    rw [decodeU_append h2]
    dsimp only [Option.bind_some]
    rw [decodeU_append h3]
    dsimp only [Option.bind_some]
    rw [decodeU_append h4]
    exact ⟨_, rfl⟩

/-- the number of an extended opcode, as the reader takes it -/
def lneOf (oldProducer : Bool) (lne : UInt8) : Nat :=
  if oldProducer ∧ lne.toNat = 4 then 128 else lne.toNat

/-- what an extended opcode does behind its length -/
def extendedBody (rdr : ProgRdr) (cl : Client D) (w : Walk D) (lne length : Nat)
    (curr : List UInt8) : Option (Walk D × List UInt8) :=
  match lne with
  | 1 => some (appendRow cl { w with state.endSeq := true } fun _ => initState rdr, curr)
  | 2 => (readInt curr length).map fun v =>
      ({ w with state.offset := BitVec.ofNat 32 v, state.addrSet := true }, curr.drop length)
  | 3 => defineFile cl w length curr
  | 4 => some (w, curr)
  | 128 => (readInt curr length).map fun v =>
      ({ w with state.seg := BitVec.ofNat 16 v }, curr.drop length)
  | _ => some (w, curr.drop length)

/-- the declared length is the number of the operands -/
theorem walkExtended_append (w : Walk D) {length operands : List UInt8} {lne : UInt8}
    (h1 : IsLeb length) (h2 : lebValue length = operands.length + 1) (h3 : lebValue length < 2 ^ 32)
    (rest : List UInt8) :
    walkExtended rdr oldProducer cl w (length ++ lne :: operands ++ rest) =
      extendedBody rdr cl w (lneOf oldProducer lne) operands.length (operands ++ rest) := by
  have e1 : lebValue length % 2 ^ 64 = operands.length + 1 := by omega
  have e2 : (operands.length + 1 + 2 ^ 32 - 1) % 2 ^ 32 = operands.length := by omega
  rw [walkExtended, List.append_assoc, decodeU_append h1, e1]
  show extendedBody rdr cl w (lneOf oldProducer lne) ((operands.length + 1 + 2 ^ 32 - 1) % 2 ^ 32)
    (operands ++ rest) = _
  rw [e2]

/-- an address or a segment is read when it has 1, 2 or 4 bytes -/
theorem readInt_passes {α : Type} (f : Nat → α) (operands rest : List UInt8)
    (h : operands.length = 1 ∨ operands.length = 2 ∨ operands.length = 4) :
    ∃ a, (readInt (operands ++ rest) operands.length).map
      (fun v => (f v, (operands ++ rest).drop operands.length)) = some (a, rest) := by
  obtain ⟨v, hv⟩ := (readInt_append operands rest).mpr h
  exact ⟨f v, by rw [hv, Option.map_some, List.drop_left]⟩

theorem readInt_fails {α : Type} (f : Nat → α) (operands rest : List UInt8)
    (h : ¬ (operands.length = 1 ∨ operands.length = 2 ∨ operands.length = 4)) :
    (readInt (operands ++ rest) operands.length).map f = none := by
  cases hr : readInt (operands ++ rest) operands.length with
  | none => rfl
  | some v => exact absurd ((readInt_append operands rest).mp ⟨v, hr⟩) h

theorem lneOf_cases (oldProducer : Bool) (lne : UInt8) :
    (lneOf oldProducer lne = lne.toNat ∧ ¬ (lne.toNat = 4 ∧ oldProducer = true)) ∨
      (lneOf oldProducer lne = 128 ∧ lne.toNat = 4 ∧ oldProducer = true) := by
  unfold lneOf
  by_cases h : oldProducer = true ∧ lne.toNat = 4
  · exact Or.inr ⟨if_pos h, h.2, h.1⟩
  · exact Or.inl ⟨if_neg h, fun hc => h ⟨hc.2, hc.1⟩⟩

theorem extendedBody_passes (w : Walk D) {length operands : List UInt8} {lne : UInt8}
    (hw : ExtendedOperands oldProducer lne.toNat operands)
    (hb : ¬ Bad oldProducer (.extended length lne operands)) (rest : List UInt8) :
    ∃ w', extendedBody rdr cl w (lneOf oldProducer lne) operands.length (operands ++ rest) =
      some (w', rest) := by
  have hsize : lneOf oldProducer lne = 2 ∨ lneOf oldProducer lne = 128 →
      operands.length = 1 ∨ operands.length = 2 ∨ operands.length = 4 := by
    intro h
    by_contra hne
    refine hb (Or.inr ⟨?_, hne⟩)
    obtain ⟨e, -⟩ | ⟨e, h4⟩ := lneOf_cases oldProducer lne
    · rw [e] at h
      exact h.elim Or.inl fun h => Or.inr (Or.inl h)
    · exact Or.inr (Or.inr h4)
  have hsame : lneOf oldProducer lne ≠ 128 → lneOf oldProducer lne = lne.toNat := fun h => by
    obtain ⟨e, -⟩ | ⟨e, -⟩ := lneOf_cases oldProducer lne
    · exact e
    · exact absurd e h
  generalize hn : lneOf oldProducer lne = n at hsize hsame ⊢
  unfold extendedBody
  split
  · have e : operands = [] := by
      rw [← hsame (by decide)] at hw
      exact hw
    rw [e]
    exact ⟨_, rfl⟩
  · exact readInt_passes _ operands rest (hsize (Or.inl rfl))
  · rw [← hsame (by decide)] at hw
    exact defineFile_append w hw rest
  · have h4 : lne.toNat = 4 := (hsame (by decide)).symm
    refine absurd (Or.inl ⟨h4, ?_⟩) hb
    obtain ⟨-, h⟩ | ⟨e, -⟩ := lneOf_cases oldProducer lne
    · exact Bool.eq_false_iff.mpr fun h' => h ⟨h4, h'⟩
    · rw [hn] at e
      cases e
  · exact readInt_passes _ operands rest (hsize (Or.inr rfl))
  · exact ⟨_, by rw [List.drop_left]⟩

variable (cl) in
/-- an instruction that is not bad is passed -/
theorem walkOp_passes (w : Walk D) {i : Instr} (hw : WellFormed rdr oldProducer i)
    (hb : ¬ Bad oldProducer i) (rest : List UInt8) :
    ∃ w', walkOp rdr oldProducer cl w (i.bytes ++ rest) = some (w', rest) := by
  have nonzero {op : UInt8} (h : op ≠ 0) : op.toNat ≠ 0 := fun e =>
    h (UInt8.toNat_inj.mp (e.trans rfl))
  cases i with
  | special op =>
    obtain ⟨h1, h2, -⟩ := hw
    refine ⟨walkSpecial rdr cl w (op.toNat - rdr.opcodeBase), ?_⟩
    show (if op.toNat = 0 then _ else if op.toNat < rdr.opcodeBase then _ else _) = _
    rw [if_neg (nonzero h1), if_neg (Nat.not_lt.mpr h2)]
    rfl
  | standard op operands =>
    obtain ⟨h1, h2, h3⟩ := hw
    show ∃ w', (if op.toNat = 0 then _ else if op.toNat < rdr.opcodeBase then
      walkStandard rdr cl w op.toNat (operands ++ rest) else _) = some (w', rest)
    rw [if_neg (nonzero h1), if_pos h2]
    exact walkStandard_append w h3 rest
  | extended length lne operands =>
    obtain ⟨h1, h2, h3, h4⟩ := hw
    show ∃ w', walkExtended rdr oldProducer cl w (length ++ lne :: operands ++ rest) =
      some (w', rest)
    rw [walkExtended_append w h1 h2 h3]
    exact extendedBody_passes w h4 hb rest

variable (cl) in
/-- a bad instruction is passed only in part, or ends the walk -/
theorem walkOp_slips (w : Walk D) {i : Instr} (hw : WellFormed rdr oldProducer i)
    (hb : Bad oldProducer i) (rest : List UInt8) :
    walkOp rdr oldProducer cl w (i.bytes ++ rest) = none ∨
      ∃ part, part ≠ [] ∧ walkOp rdr oldProducer cl w (i.bytes ++ rest) = some (w, part ++ rest) := by
  cases i with
  | special op => exact absurd hb id
  | standard op operands => exact absurd hb id
  | extended length lne operands =>
    obtain ⟨h1, h2, h3, h4⟩ := hw
    show walkExtended rdr oldProducer cl w (length ++ lne :: operands ++ rest) = none ∨
      ∃ part, part ≠ [] ∧ walkExtended rdr oldProducer cl w (length ++ lne :: operands ++ rest) =
        some (w, part ++ rest)
    rw [walkExtended_append w h1 h2 h3]
    obtain ⟨h5, h6⟩ | ⟨h5, h6⟩ := hb
    · have e : lneOf oldProducer lne = 4 := by rw [lneOf, h6, h5]; rfl
      rw [h5, h6] at h4
      have hleb : IsLeb operands := h4
      rw [e]
      exact Or.inr ⟨operands, isLeb_ne_nil hleb, rfl⟩
    · have e : lneOf oldProducer lne = 2 ∨ lneOf oldProducer lne = 128 := by
        obtain ⟨e, h⟩ | ⟨e, -⟩ := lneOf_cases oldProducer lne
        · rw [e]
          obtain h5 | h5 | h5 := h5
          · exact Or.inl h5
          · exact Or.inr h5
          · exact absurd h5 h
        · exact Or.inr e
      refine Or.inl ?_
      obtain e | e := e
      · rw [e]
        exact readInt_fails _ operands rest h6
      · rw [e]
        exact readInt_fails _ operands rest h6

/-! ## the whole walk -/

theorem bytesOf_cons (i : Instr) (is : List Instr) : bytesOf (i :: is) = i.bytes ++ bytesOf is := rfl

theorem bytes_ne_nil (i : Instr) : i.bytes ≠ [] := by
  cases i <;> exact List.cons_ne_nil _ _

theorem bytes_pos (i : Instr) : 0 < i.bytes.length := List.length_pos_of_ne_nil (bytes_ne_nil i)

/-- a turn of the loop in the program -/
theorem walkLoop_turn {w w' : Walk D} {curr curr' : List UInt8} {f finish : Nat}
    (hc : w.cont = true) (hf : finish < curr.length)
    (h : walkOp rdr oldProducer cl w curr = some (w', curr')) :
    walkLoop rdr oldProducer cl finish (f + 1) w curr =
      (walkLoop rdr oldProducer cl finish f w' curr').map fun t => (curr :: t.1, t.2) := by
  show (if w.cont = true ∧ finish < curr.length then _ else _) = _
  rw [if_pos ⟨hc, hf⟩, h]
  rfl

theorem walkLoop_walked (tail : List UInt8) (is : List Instr) : ∀ {w : Walk D} {f : Nat},
    (∀ i ∈ is, WellFormed rdr oldProducer i ∧ ¬ Bad oldProducer i) →
    (bytesOf is ++ tail).length < f →
    Walked tail is (walkLoop rdr oldProducer cl tail.length f w (bytesOf is ++ tail)) := by
  induction is with
  | nil =>
    intro w f _ hf
    obtain ⟨f, rfl⟩ := Nat.exists_eq_add_one_of_ne_zero (Nat.ne_zero_of_lt hf)
    refine ⟨0, [], w, tail, if_neg fun h => absurd h.2 (lt_irrefl _), le_refl 0, rfl, rfl, le_refl _,
      fun h => absurd h (lt_irrefl 0)⟩
  | cons i is ih =>
    intro w f hi hf
    obtain ⟨f, rfl⟩ := Nat.exists_eq_add_one_of_ne_zero (Nat.ne_zero_of_lt hf)
    have hpos := bytes_pos i
    have hlen : (bytesOf (i :: is) ++ tail).length =
        i.bytes.length + (bytesOf is ++ tail).length := by
      rw [bytesOf_cons, List.append_assoc, List.length_append]
    have hin : tail.length < (bytesOf (i :: is) ++ tail).length := by
      rw [hlen, List.length_append]
      omega
    by_cases hc : w.cont = true
    · obtain ⟨hw, hb⟩ := hi i List.mem_cons_self
      obtain ⟨w', hop⟩ := walkOp_passes cl w hw hb (bytesOf is ++ tail)
      rw [← List.append_assoc, ← bytesOf_cons] at hop
      rw [walkLoop_turn hc hin hop]
      obtain ⟨n, visited, w2, curr, h1, h2, h3, h4, h5, h6⟩ :=
        @ih w' f (fun j hj => hi j (List.mem_cons_of_mem i hj)) (by omega)
      rw [h1]
      refine ⟨n + 1, _, w2, curr, rfl, Nat.succ_le_succ h2, ?_, h4, h5,
        fun h => h6 (Nat.lt_of_succ_lt_succ h)⟩
      rw [h3]
      rfl
    · refine ⟨0, [], w, _, if_neg fun h => hc h.1, Nat.zero_le _, rfl, rfl, hin.le, fun _ => ?_⟩
      exact Bool.eq_false_iff.mpr hc

/-- no callback stops the walk -/
def quiet (D : Type) : Client D := ⟨none, none⟩

theorem walkOp_cont {w w' : Walk D} {curr curr' : List UInt8}
    (h : walkOp rdr oldProducer (quiet D) w curr = some (w', curr')) : w'.cont = w.cont := by
  cases curr with
  | nil => cases h
  | cons op curr =>
    rw [walkOp] at h
    split_ifs at h with h1 h2
    · rw [walkExtended, Option.bind_eq_some_iff] at h
      obtain ⟨⟨length, curr2⟩, -, h⟩ := h
      cases curr2 with
      | nil => cases h
      | cons lne curr2 =>
        replace h : extendedBody rdr (quiet D) w (lneOf oldProducer lne) _ curr2 =
          some (w', curr') := h
        unfold extendedBody at h
        split at h
        · cases h
          rfl
        · obtain ⟨v, -, e⟩ := Option.map_eq_some_iff.mp h
          cases e
          rfl
        · cases h
          rfl
        · cases h
          rfl
        · obtain ⟨v, -, e⟩ := Option.map_eq_some_iff.mp h
          cases e
          rfl
        · cases h
          rfl
    · unfold walkStandard at h
      split_ifs at h
      · cases h
        rfl
      · obtain ⟨v, -, e⟩ := Option.map_eq_some_iff.mp h
        cases e
        rfl
    · cases h
      rfl

/-- a walk that decodes in the middle of an instruction is not right -/
theorem not_walked_inside {tail : List UInt8} {i : Instr} {is : List Instr} {part : List UInt8}
    (hpart : part ≠ []) {visited : List (List UInt8)} {r : Walk D × List UInt8} :
    ¬ Walked tail (i :: is)
      (some ((bytesOf (i :: is) ++ tail) :: (part ++ (bytesOf is ++ tail)) :: visited, r)) := by
  have hpl : 0 < part.length := List.length_pos_of_ne_nil hpart
  rintro ⟨n, visited', w, curr, h1, -, h3, -⟩
  cases h1
  cases n with
  | zero => cases h3
  | succ n =>
    have hv : (part ++ (bytesOf is ++ tail)) :: visited = (starts tail is).take n :=
      (List.cons.inj h3).2
    cases is with
    | nil =>
      rw [show starts tail [] = [] from rfl, List.take_nil] at hv
      cases hv
    | cons j js =>
      cases n with
      | zero => cases hv
      | succ n =>
        have e := congrArg List.length (List.cons.inj hv).1
        rw [List.length_append] at e
        omega

/-- behind a bad instruction the walk ends, or decodes in the middle of it -/
theorem not_walked_of_bad {tail : List UInt8} {i : Instr} {is : List Instr} {w : Walk D} {f : Nat}
    (hw : WellFormed rdr oldProducer i) (hc : w.cont = true) (hb : Bad oldProducer i) :
    ¬ Walked tail (i :: is)
      (walkLoop rdr oldProducer cl tail.length (f + 1) w (bytesOf (i :: is) ++ tail)) := by
  have hpos := bytes_pos i
  have hin : tail.length < (bytesOf (i :: is) ++ tail).length := by
    rw [bytesOf_cons, List.length_append, List.length_append]
    omega
  have notNone : ¬ Walked tail (i :: is) (none : Option (List (List UInt8) × Walk D × List UInt8)) := by
    rintro ⟨n, visited, w', curr, h, -⟩
    cases h
  obtain hop | ⟨part, hpart, hop⟩ := walkOp_slips cl w hw hb (bytesOf is ++ tail)
  · have e : walkLoop rdr oldProducer cl tail.length (f + 1) w (bytesOf (i :: is) ++ tail) = none := by
      show (if w.cont = true ∧ tail.length < (bytesOf (i :: is) ++ tail).length then _ else _) = _
      rw [if_pos ⟨hc, hin⟩, bytesOf_cons, List.append_assoc, hop]
      rfl
    rw [e]
    exact notNone
  · rw [← List.append_assoc, ← bytesOf_cons] at hop
    rw [walkLoop_turn hc hin hop]
    cases f with
    | zero => exact notNone
    | succ f =>
      have hpl : 0 < part.length := List.length_pos_of_ne_nil hpart
      have hin2 : tail.length < (part ++ (bytesOf is ++ tail)).length := by
        rw [List.length_append, List.length_append]
        omega
      cases hop2 : walkOp rdr oldProducer cl w (part ++ (bytesOf is ++ tail)) with
      | none =>
        have e : walkLoop rdr oldProducer cl tail.length (f + 1) w
            (part ++ (bytesOf is ++ tail)) = none := by
          show (if w.cont = true ∧ tail.length < (part ++ (bytesOf is ++ tail)).length then _
            else _) = _
          rw [if_pos ⟨hc, hin2⟩, hop2]
          rfl
        rw [e]
        exact notNone
      | some r =>
        rw [walkLoop_turn hc hin2 hop2]
        cases walkLoop rdr oldProducer cl tail.length f r.1 r.2 with
        | none => exact notNone
        | some t => exact not_walked_inside hpart

/-- what is left of a right walk behind its first instruction -/
theorem walked_tail {tail : List UInt8} {i : Instr} {is : List Instr} {c : List UInt8}
    {r : Option (List (List UInt8) × Walk D × List UInt8)}
    (h : Walked tail (i :: is) (r.map fun t => (c :: t.1, t.2))) : Walked tail is r := by
  obtain ⟨n, visited, w, curr, h1, h2, h3, h4, h5, h6⟩ := h
  cases r with
  | none => cases h1
  | some t =>
    obtain ⟨visited', w', curr'⟩ := t
    cases h1
    cases n with
    | zero => cases h3
    | succ n =>
      exact ⟨n, visited', w, curr, rfl, Nat.le_of_succ_le_succ h2, (List.cons.inj h3).2, h4, h5,
        fun h => h6 (Nat.succ_lt_succ h)⟩

/-- a walk that is right does not come to a bad instruction -/
theorem not_bad_of_walked (tail : List UInt8) (is : List Instr) : ∀ {w : Walk D} {f : Nat},
    (∀ i ∈ is, WellFormed rdr oldProducer i) → w.cont = true →
    Walked tail is (walkLoop rdr oldProducer (quiet D) tail.length f w (bytesOf is ++ tail)) →
    ∀ i ∈ is, ¬ Bad oldProducer i := by
  induction is with
  | nil => exact fun _ _ _ i hi => by cases hi
  | cons i is ih =>
    intro w f hw hc h
    have hpos := bytes_pos i
    have hin : tail.length < (bytesOf (i :: is) ++ tail).length := by
      rw [bytesOf_cons, List.length_append, List.length_append]
      omega
    have hwi := hw i List.mem_cons_self
    cases f with
    | zero =>
      obtain ⟨n, visited, w', curr, h1, -⟩ := h
      cases h1
    | succ f =>
      have hb : ¬ Bad oldProducer i := fun hb => not_walked_of_bad hwi hc hb h
      obtain ⟨w', hop⟩ := walkOp_passes (quiet D) w hwi hb (bytesOf is ++ tail)
      have hc' : w'.cont = true := (walkOp_cont hop).trans hc
      rw [← List.append_assoc, ← bytesOf_cons] at hop
      rw [walkLoop_turn hc hin hop] at h
      exact List.forall_mem_cons.mpr
        ⟨hb, ih (fun j hj => hw j (List.mem_cons_of_mem i hj)) hc' (walked_tail h)⟩

end

/-- a well-formed program is walked right by every client exactly when no instruction of it is bad -/
theorem program_walked_iff (rdr : ProgRdr) (oldProducer : Bool) (is : List Instr) (tail : List UInt8)
    (hw : ∀ i ∈ is, WellFormed rdr oldProducer i) :
    (∀ (D : Type) (cl : Client D) (fileIdx : Nat) (data : D),
        Walked tail is (wlkProgram rdr oldProducer cl fileIdx data (bytesOf is) tail)) ↔
      ∀ i ∈ is, ¬ Bad oldProducer i := by
  constructor
  · intro h
    exact not_bad_of_walked tail is hw rfl (h Unit (quiet Unit) 0 ())
  · intro hb D cl fileIdx data
    exact walkLoop_walked tail is (fun i hi => ⟨hw i hi, hb i hi⟩) (Nat.lt_succ_self _)

/-- a row, and the end of the sequence -/
def rowProgram : List Instr := [.standard lnsCopy [], .extended [1] lneEndSequence []]

theorem rowProgram_wellFormed : ∀ i ∈ rowProgram, WellFormed (prologue 0) false i := by
  intro i hi
  rw [rowProgram, List.mem_cons, List.mem_singleton] at hi
  obtain rfl | rfl := hi
  · exact ⟨by decide, by decide, rfl⟩
  · exact ⟨by show (1 : UInt8).toNat < 128; decide, by decide, by decide, rfl⟩

theorem rowProgram_walked :
    Walked [] rowProgram (wlkProgram (prologue 0) false (quiet Unit) 0 () (bytesOf rowProgram) []) :=
  (program_walked_iff (prologue 0) false rowProgram [] rowProgram_wellFormed).mpr
    (fun i hi => by
      rw [rowProgram, List.mem_cons, List.mem_singleton] at hi
      obtain rfl | rfl := hi
      · exact id
      · unfold Bad
        decide) Unit (quiet Unit) 0 ()

/-- the discriminator 5, and a row -/
def discriminatorProgram : List Instr := [.extended [2] 4 [5], .standard lnsCopy []]

/-- the operand of the discriminator is taken for `DW_LNS_set_column`, and the row for its operand -/
theorem discriminatorProgram_wrong :
    (∀ i ∈ discriminatorProgram, WellFormed (prologue 0) false i) ∧
      ¬ Walked [] discriminatorProgram
        (wlkProgram (prologue 0) false (quiet Unit) 0 () (bytesOf discriminatorProgram) []) := by
  have hw : WellFormed (prologue 0) false (.extended [2] 4 [5]) :=
    ⟨by show (2 : UInt8).toNat < 128; decide, by decide, by decide,
      by show (5 : UInt8).toNat < 128; decide⟩
  refine ⟨fun i hi => ?_, not_walked_of_bad hw rfl (Or.inl ⟨rfl, rfl⟩)⟩
  rw [discriminatorProgram, List.mem_cons, List.mem_singleton] at hi
  obtain rfl | rfl := hi
  · exact hw
  · exact ⟨by decide, by decide, rfl⟩

end Dwarf
