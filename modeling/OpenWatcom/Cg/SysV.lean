import Mathlib

/-!
# Parameters and frames of the System V AMD64 ABI: `x64sysv.h`

* `classifyStruct`, `callInit`, `allocParm`, `computeFrame`     the functions of the file
* `Abi.alloc`     where the ABI puts a parameter
* `allocParm_agrees`, `allocParm_differs`     one parameter
* `parms_right_iff`     the parameters of a call are where the ABI has them exactly when no struct that it
  passes in registers has an eightbyte of both kinds
* `frame_never_right`     the stack is never aligned at a call

An `int` is a number that wraps. A field of `sysv_parm_info_t` that is not written is `none`.
-/

namespace SysV

/-- the value that an `int` keeps -/
def wrap (x : ℤ) : ℤ := Int.bmod x (2 ^ 32)

def numIntArgs : ℕ := 6
def numFloatArgs : ℕ := 8

/-! ## the classes of a struct -/

/-- `sysv_class_t` -/
inductive ClassType where
  | noClass | integer | sse | sseup | x87 | x87up | complexX87 | memory
deriving DecidableEq, Repr

/-- `sysv_field_t` -/
structure Field where
  offset : ℕ
  size : ℕ
  isFloat : Bool
deriving DecidableEq, Repr

def Field.fieldClass (f : Field) : ClassType := if f.isFloat then .sse else .integer

/-- a field is merged into the class of its eightbyte -/
def mergeClass (target fieldClass : ClassType) : ClassType :=
  if target = .noClass then fieldClass
  else if target ≠ fieldClass then .memory
  else target

/-- one round of the loop -/
def classifyField (c : ClassType × ClassType) (f : Field) : ClassType × ClassType :=
  if f.offset < 8 then (mergeClass c.1 f.fieldClass, c.2) else (c.1, mergeClass c.2 f.fieldClass)

/-- `class_lo` and `class_hi` -/
def classifyStruct (fields : List Field) (structSize : ℕ) : ClassType × ClassType :=
  if structSize > 16 then (.memory, .memory)
  else
    let c := fields.foldl classifyField (.noClass, .noClass)
    let c := if c.1 = .memory ∨ c.2 = .memory then (.memory, .memory) else c
    if structSize ≤ 8 then (c.1, .noClass) else c

/-! ## the parameters of a call -/

/-- `sysv_call_state_t` -/
structure CallState where
  nextIntReg : ℕ
  nextFloatReg : ℕ
  stackOffset : ℤ
  numStackArgs : ℤ
  isVarargs : Bool
deriving DecidableEq, Repr

def callInit (isVarargs : Bool) : CallState := ⟨0, 0, 0, 0, isVarargs⟩

/-- `sysv_parm_loc_t` -/
inductive ParmLoc where
  | inIntReg | inFloatReg | onStack | byReference
deriving DecidableEq, Repr

/-- `sysv_parm_info_t` -/
structure ParmInfo where
  location : ParmLoc
  regIndex : Option ℕ
  stackOffset : Option ℤ
  size : ℕ
deriving DecidableEq, Repr

/-- the arguments of `sysv_alloc_parm` -/
structure Parm where
  isFloat : Bool
  size : ℕ
  isStruct : Bool
  fields : List Field
deriving DecidableEq, Repr

variable (s : CallState) (p : Parm)

/-- the parameter goes to the stack and takes `bytes` of it -/
def toStack (bytes : ℕ) : ParmInfo × CallState :=
  (⟨.onStack, none, some s.stackOffset, p.size⟩,
    { s with stackOffset := wrap (s.stackOffset + bytes), numStackArgs := wrap (s.numStackArgs + 1) })

def allocIntReg (location : ParmLoc) : ParmInfo × CallState :=
  (⟨location, some s.nextIntReg, none, p.size⟩, { s with nextIntReg := s.nextIntReg + 1 })

def allocFloatReg : ParmInfo × CallState :=
  (⟨.inFloatReg, some s.nextFloatReg, none, p.size⟩, { s with nextFloatReg := s.nextFloatReg + 1 })

/-- the register of the second eightbyte -/
def allocHigh (hi : ClassType) (s : CallState) : CallState :=
  if hi = .integer then { s with nextIntReg := s.nextIntReg + 1 }
  else if hi = .sse then { s with nextFloatReg := s.nextFloatReg + 1 }
  else s

/-- the branch of `sysv_alloc_parm` for a struct of at most 16 bytes -/
def allocStruct : ParmInfo × CallState :=
  let (lo, hi) := classifyStruct p.fields p.size
  if lo = .memory then toStack s p ((p.size + 7) / 8 * 8)
  else
    let neededInt := (if lo = .integer then 1 else 0) + (if hi = .integer then 1 else 0)
    let neededSse := (if lo = .sse then 1 else 0) + (if hi = .sse then 1 else 0)
    if s.nextIntReg + neededInt > numIntArgs ∨ s.nextFloatReg + neededSse > numFloatArgs then
      toStack s p ((p.size + 7) / 8 * 8)
    else
      let r := if lo = .integer then allocIntReg s p .inIntReg else allocFloatReg s p
      (r.1, allocHigh hi r.2)

def allocParm : ParmInfo × CallState :=
  if p.isStruct ∧ p.size > 16 then
    if s.nextIntReg < numIntArgs then allocIntReg s p .byReference else toStack s p 8
  else if p.isStruct then allocStruct s p
  else if p.isFloat then
    if s.nextFloatReg < numFloatArgs then allocFloatReg s p else toStack s p 8
  else if s.nextIntReg < numIntArgs then allocIntReg s p .inIntReg
  else toStack s p 8

/-- a parameter that was allocated, and the state before and after it -/
structure Placement where
  parm : Parm
  before : CallState
  info : ParmInfo
  after : CallState
deriving Repr

def place : Placement := ⟨p, s, (allocParm s p).1, (allocParm s p).2⟩

/-- the parameters of a call, one after the other -/
def allocParms : CallState → List Parm → List Placement
  | _, [] => []
  | s, p :: ps => place s p :: allocParms (place s p).after ps

/-- the state after all of them -/
def afterParms : CallState → List Parm → CallState
  | s, [] => s
  | s, p :: ps => afterParms (place s p).after ps

/-! ## the frame -/

/-- `sysv_frame_t` -/
structure Frame where
  localsSize : ℤ
  calleeSaveSize : ℤ
  outgoingArgsSize : ℤ
  frameSize : ℤ
  numCalleeSaved : ℤ
  useFramePointer : Bool
  isLeaf : Bool
deriving Repr

/-- `x & ~15` -/
def clearLow (x : ℤ) : ℤ := x - x % 16

def computeFrame (localsSize maxOutgoingStackArgs numCalleeSavedUsed : ℤ) (hasCalls : Bool) : Frame :=
  let outgoingArgsSize := wrap (maxOutgoingStackArgs * 8)
  let rawSize := wrap (localsSize + outgoingArgsSize)
  let pushes := wrap (1 + numCalleeSavedUsed)
  let rounded := clearLow (wrap (rawSize + 15))
  let frameSize :=
    if pushes % 2 = 0 then rounded
    else
      let frameSize := wrap (rounded + 8)
      if wrap (frameSize - rawSize) > 15 then wrap (frameSize - 16) else frameSize
  let frameSize := if !hasCalls ∧ rawSize ≤ 128 ∧ rawSize > 0 then 0 else frameSize
  ⟨localsSize, wrap (numCalleeSavedUsed * 8), outgoingArgsSize, frameSize, numCalleeSavedUsed, true,
    !hasCalls⟩

/-! ## what the ABI prescribes -/

/-- the class of an eightbyte that is passed in a register -/
inductive Kind where
  | int | sse
deriving DecidableEq, Repr

inductive Reg where
  | int (i : ℕ)
  | sse (i : ℕ)
deriving DecidableEq, Repr

def Reg.parmLoc : Reg → ParmLoc
  | .int _ => .inIntReg
  | .sse _ => .inFloatReg

def Reg.index : Reg → ℕ
  | .int i => i
  | .sse i => i

/-- an eightbyte with an integer field is INTEGER, one with floating fields only is SSE -/
def kindOf (fields : List Field) : Option Kind :=
  if ∃ f ∈ fields, f.isFloat = false then some .int
  else if fields ≠ [] then some .sse
  else none

namespace Parm

/-- the fields that start in the eightbyte -/
def eightbyte (p : Parm) (k : ℕ) : List Field := p.fields.filter fun f => f.offset / 8 = k

/-- the classes of the eightbytes that have a field -/
def kinds (p : Parm) : List Kind :=
  if p.isStruct then (List.range ((p.size + 7) / 8)).filterMap fun k => kindOf (p.eightbyte k)
  else [if p.isFloat then .sse else .int]

/-- a scalar of at most 8 bytes, or a struct of at most 16 with naturally aligned fields -/
structure Valid (p : Parm) : Prop where
  scalar : p.isStruct = false → 0 < p.size ∧ p.size ≤ 8
  struct : p.isStruct = true → p.size ≤ 16
  fields : ∀ f ∈ p.fields, f.size ∈ [1, 2, 4, 8] ∧ f.offset % f.size = 0 ∧ f.offset + f.size ≤ p.size

/-- an eightbyte of the struct has fields of both kinds -/
def Mixed (p : Parm) : Prop :=
  ∃ f ∈ p.fields, ∃ g ∈ p.fields, f.offset / 8 = g.offset / 8 ∧ f.isFloat ≠ g.isFloat

/-- the first eightbyte has no field -/
def Bare (p : Parm) : Prop := p.eightbyte 0 = []

instance (p : Parm) : Decidable p.Mixed := by unfold Mixed; infer_instance
instance (p : Parm) : Decidable p.Bare := by unfold Bare; infer_instance

end Parm

namespace Abi

/-- the registers that are taken, and the bytes on the stack -/
structure State where
  ints : ℕ
  floats : ℕ
  stack : ℕ

def start : State := ⟨0, 0, 0⟩

inductive Loc where
  | regs (l : List Reg)
  | stack (offset : ℕ)
deriving DecidableEq, Repr

/-- the next registers for the eightbytes -/
def assign : ℕ → ℕ → List Kind → List Reg
  | _, _, [] => []
  | i, f, .int :: ks => .int i :: assign (i + 1) f ks
  | i, f, .sse :: ks => .sse f :: assign i (f + 1) ks

/-- all of a parameter is in registers, or all of it is on the stack -/
def alloc (a : State) (p : Parm) : Loc × State :=
  let ints := a.ints + p.kinds.count .int
  let floats := a.floats + p.kinds.count .sse
  if ints ≤ numIntArgs ∧ floats ≤ numFloatArgs then
    (.regs (assign a.ints a.floats p.kinds), ⟨ints, floats, a.stack⟩)
  else (.stack a.stack, { a with stack := a.stack + (p.size + 7) / 8 * 8 })

end Abi

/-- the registers that a parameter was given: those between the counters -/
def Placement.registers (x : Placement) : List Reg :=
  (List.range' x.before.nextIntReg (x.after.nextIntReg - x.before.nextIntReg)).map .int ++
    (List.range' x.before.nextFloatReg (x.after.nextFloatReg - x.before.nextFloatReg)).map .sse

/-- `info` names the first register, and the counters have passed all of them -/
def Placement.At (x : Placement) : Abi.Loc → Prop
  | .regs l => (∃ r, l.head? = some r ∧ x.info.location = r.parmLoc ∧ x.info.regIndex = some r.index) ∧
      ∀ r, r ∈ x.registers ↔ r ∈ l
  | .stack offset => x.info.location = .onStack ∧ x.info.stackOffset = some (offset : ℤ) ∧
      x.registers = []

/-! ## the classes -/

/-- the class of the fields of an eightbyte -/
def classOf (l : List Field) : ClassType :=
  if l = [] then .noClass
  else if ∀ f ∈ l, f.isFloat = true then .sse
  else if ∀ f ∈ l, f.isFloat = false then .integer
  else .memory

theorem classOf_snoc (l : List Field) (f : Field) :
    classOf (l ++ [f]) = mergeClass (classOf l) f.fieldClass := by
  have hne : l ++ [f] ≠ [] := List.append_ne_nil_of_right_ne_nil l (List.cons_ne_nil f [])
  have hall : ∀ b, (∀ g ∈ l ++ [f], g.isFloat = b) ↔ (∀ g ∈ l, g.isFloat = b) ∧ f.isFloat = b := by
    intro b
    rw [List.forall_mem_append, List.forall_mem_singleton]
  rw [classOf, if_neg hne]
  simp only [hall]
  rw [classOf, Field.fieldClass]
  by_cases hl : l = []
  · rw [hl]
    cases f.isFloat <;> simp [mergeClass]
  · obtain ⟨g, hg⟩ := List.exists_mem_of_ne_nil l hl
    rw [if_neg hl]
    by_cases ht : ∀ g ∈ l, g.isFloat = true
    · have hf : ¬ ∀ g ∈ l, g.isFloat = false := fun h =>
        Bool.noConfusion ((ht g hg).symm.trans (h g hg))
      rw [if_pos ht]
      cases f.isFloat with
      | true => exact if_pos ⟨ht, rfl⟩
      | false => exact (if_neg fun h => Bool.noConfusion h.2).trans (if_neg fun h => hf h.1)
    · rw [if_neg ht, if_neg fun h => ht h.1]
      by_cases hf : ∀ g ∈ l, g.isFloat = false
      · rw [if_pos hf]
        cases f.isFloat with
        | true => exact if_neg fun h => Bool.noConfusion h.2
        | false => exact if_pos ⟨hf, rfl⟩
      · rw [if_neg hf, if_neg fun h => hf h.1]
        cases f.isFloat <;> rfl

/-- MEMORY is the class of fields of both kinds -/
theorem classOf_memory {l : List Field} :
    classOf l = .memory ↔ ∃ f ∈ l, ∃ g ∈ l, f.isFloat ≠ g.isFloat := by
  constructor
  · intro h
    unfold classOf at h
    split_ifs at h with h1 h2 h3
    push Not at h2 h3
    obtain ⟨f, hf, hft⟩ := h2
    obtain ⟨g, hg, hgt⟩ := h3
    exact ⟨f, hf, g, hg, fun e => hft (e.trans (Bool.eq_true_of_not_eq_false hgt))⟩
  · rintro ⟨f, hf, g, hg, hne⟩
    rw [classOf, if_neg (List.ne_nil_of_mem hf), if_neg fun h => hne ((h f hf).trans (h g hg).symm),
      if_neg fun h => hne ((h f hf).trans (h g hg).symm)]

/-- the loop takes the two eightbytes apart -/
theorem foldl_classifyField (fields : List Field) :
    fields.foldl classifyField (.noClass, .noClass) =
      (classOf (fields.filter fun f => f.offset < 8), classOf (fields.filter fun f => ¬ f.offset < 8)) := by
  induction fields using List.reverseRecOn with
  | nil => rfl
  | append_singleton l f ih =>
    rw [List.foldl_append, ih, List.filter_append, List.filter_append]
    show classifyField _ f = _
    rw [classifyField]
    by_cases h : f.offset < 8
    · rw [if_pos h, ← classOf_snoc, List.filter_singleton, List.filter_singleton]
      simp [h]
    · rw [if_neg h, ← classOf_snoc, List.filter_singleton, List.filter_singleton]
      simp [h]

variable {s p}

/-- in a valid struct there are two eightbytes -/
theorem Parm.Valid.offset_lt (hv : p.Valid) (hs : p.isStruct = true) {f : Field} (hf : f ∈ p.fields) :
    f.offset < p.size ∧ f.offset < 16 := by
  obtain ⟨hsize, -, hend⟩ := hv.fields f hf
  have hle := hv.struct hs
  have hpos : 0 < f.size := by
    rcases List.mem_cons.mp hsize with h | h
    · omega
    · rcases List.mem_cons.mp h with h | h
      · omega
      · rcases List.mem_cons.mp h with h | h
        · omega
        · have := List.mem_singleton.mp h
          omega
  omega

theorem low_eq (p : Parm) : p.fields.filter (fun f => f.offset < 8) = p.eightbyte 0 := by
  refine List.filter_congr fun f hf => ?_
  rw [decide_eq_decide]
  omega

theorem high_eq (hv : p.Valid) (hs : p.isStruct = true) :
    p.fields.filter (fun f => ¬ f.offset < 8) = p.eightbyte 1 := by
  refine List.filter_congr fun f hf => ?_
  have := (hv.offset_lt hs hf).2
  rw [decide_eq_decide]
  omega

theorem high_nil (hv : p.Valid) (hs : p.isStruct = true) (h : p.size ≤ 8) : p.eightbyte 1 = [] := by
  refine List.filter_eq_nil_iff.mpr fun f hf => ?_
  have := (hv.offset_lt hs hf).1
  rw [decide_eq_true_eq]
  omega

theorem low_nil (hv : p.Valid) (hs : p.isStruct = true) (h : p.size = 0) : p.eightbyte 0 = [] := by
  refine List.filter_eq_nil_iff.mpr fun f hf => ?_
  have := (hv.offset_lt hs hf).1
  omega

theorem kindOf_nil : kindOf [] = none := by decide

theorem kinds_struct (hv : p.Valid) (hs : p.isStruct = true) :
    p.kinds = (kindOf (p.eightbyte 0)).toList ++ (kindOf (p.eightbyte 1)).toList := by
  have hle := hv.struct hs
  rw [Parm.kinds, if_pos hs]
  obtain h | h | h : (p.size + 7) / 8 = 0 ∨ (p.size + 7) / 8 = 1 ∨ (p.size + 7) / 8 = 2 := by omega
  · rw [h, low_nil hv hs (by omega), high_nil hv hs (by omega), kindOf_nil]
    rfl
  · rw [h, high_nil hv hs (by omega), kindOf_nil]
    show [0].filterMap _ = _
    cases hk : kindOf (p.eightbyte 0) <;> simp [hk]
  · rw [h]
    show [0, 1].filterMap _ = _
    cases hk : kindOf (p.eightbyte 0) <;> cases hk1 : kindOf (p.eightbyte 1) <;> simp [hk, hk1]

theorem mem_eightbyte {k : ℕ} {f : Field} : f ∈ p.eightbyte k ↔ f ∈ p.fields ∧ f.offset / 8 = k := by
  rw [Parm.eightbyte, List.mem_filter, decide_eq_true_eq]

theorem mixed_iff (hv : p.Valid) (hs : p.isStruct = true) :
    p.Mixed ↔ classOf (p.eightbyte 0) = .memory ∨ classOf (p.eightbyte 1) = .memory := by
  rw [classOf_memory, classOf_memory]
  constructor
  · rintro ⟨f, hf, g, hg, heq, hne⟩
    have hlt := (hv.offset_lt hs hf).2
    obtain h | h : f.offset / 8 = 0 ∨ f.offset / 8 = 1 := by omega
    · exact Or.inl ⟨f, mem_eightbyte.mpr ⟨hf, h⟩, g, mem_eightbyte.mpr ⟨hg, heq ▸ h⟩, hne⟩
    · exact Or.inr ⟨f, mem_eightbyte.mpr ⟨hf, h⟩, g, mem_eightbyte.mpr ⟨hg, heq ▸ h⟩, hne⟩
  · rintro (⟨f, hf, g, hg, hne⟩ | ⟨f, hf, g, hg, hne⟩)
    · have hf := mem_eightbyte.mp hf
      have hg := mem_eightbyte.mp hg
      exact ⟨f, hf.1, g, hg.1, hf.2.trans hg.2.symm, hne⟩
    · have hf := mem_eightbyte.mp hf
      have hg := mem_eightbyte.mp hg
      exact ⟨f, hf.1, g, hg.1, hf.2.trans hg.2.symm, hne⟩

/-- the class of an eightbyte whose fields are of one kind -/
def toClass : Option Kind → ClassType
  | none => .noClass
  | some .int => .integer
  | some .sse => .sse

theorem classOf_kindOf {l : List Field} (h : classOf l ≠ .memory) : classOf l = toClass (kindOf l) := by
  unfold classOf kindOf at *
  by_cases hl : l = []
  · rw [hl]
    decide
  · obtain ⟨g, hg⟩ := List.exists_mem_of_ne_nil l hl
    rw [if_neg hl] at h ⊢
    by_cases ht : ∀ f ∈ l, f.isFloat = true
    · rw [if_pos ht, if_neg, if_pos hl]
      · rfl
      · rintro ⟨f, hf, hff⟩
        exact Bool.noConfusion ((ht f hf).symm.trans hff)
    · rw [if_neg ht] at h ⊢
      by_cases hf : ∀ f ∈ l, f.isFloat = false
      · rw [if_pos hf, if_pos ⟨g, hg, hf g hg⟩]
        rfl
      · rw [if_neg hf] at h
        exact absurd rfl h

theorem classifyStruct_eq (hv : p.Valid) (hs : p.isStruct = true) :
    classifyStruct p.fields p.size =
      let c := if p.Mixed then (.memory, .memory)
        else (classOf (p.eightbyte 0), classOf (p.eightbyte 1))
      if p.size ≤ 8 then (c.1, .noClass) else c := by
  have hle := hv.struct hs
  rw [classifyStruct, if_neg (by omega), foldl_classifyField, low_eq, high_eq hv hs]
  simp only [mixed_iff hv hs]

/-- a struct with fields of both kinds in an eightbyte is MEMORY -/
theorem classify_mixed (hv : p.Valid) (hs : p.isStruct = true) (h : p.Mixed) :
    (classifyStruct p.fields p.size).1 = .memory := by
  rw [classifyStruct_eq hv hs]
  dsimp only
  rw [if_pos h]
  split_ifs <;> rfl

theorem classify_plain (hv : p.Valid) (hs : p.isStruct = true) (h : ¬ p.Mixed) :
    classifyStruct p.fields p.size =
      (toClass (kindOf (p.eightbyte 0)), toClass (kindOf (p.eightbyte 1))) := by
  have hm := fun hc => h ((mixed_iff hv hs).mpr hc)
  have h0 := classOf_kindOf fun hc => hm (Or.inl hc)
  have h1 := classOf_kindOf fun hc => hm (Or.inr hc)
  rw [classifyStruct_eq hv hs]
  dsimp only
  rw [if_neg h, h0, h1]
  by_cases h8 : p.size ≤ 8
  · rw [if_pos h8, high_nil hv hs h8, kindOf_nil]
    rfl
  · rw [if_neg h8]

/-! ## one parameter -/

/-- the counters are those of the ABI -/
structure Sync (s : CallState) (a : Abi.State) : Prop where
  ints : s.nextIntReg = a.ints
  floats : s.nextFloatReg = a.floats
  stack : s.stackOffset = wrap a.stack
  ints_le : a.ints ≤ numIntArgs
  floats_le : a.floats ≤ numFloatArgs

/-- a struct in registers has no eightbyte of both kinds and a field in the first one, and an offset on
the stack fits into an `int` -/
def Clear (a : Abi.State) (p : Parm) : Prop :=
  match (Abi.alloc a p).1 with
  | .regs _ => p.isStruct = true → ¬ p.Mixed ∧ ¬ p.Bare
  | .stack offset => offset < 2 ^ 31

theorem wrap_add (x y : ℤ) : wrap (wrap x + y) = wrap (x + y) := Int.bmod_add_bmod

theorem wrap_natCast_iff (n : ℕ) : wrap n = n ↔ n < 2 ^ 31 := by
  rw [wrap, Int.bmod]
  split_ifs with h <;> omega

variable {a : Abi.State}

/-- there are registers for all of the parameter -/
def Fits (a : Abi.State) (p : Parm) : Prop :=
  a.ints + p.kinds.count .int ≤ numIntArgs ∧ a.floats + p.kinds.count .sse ≤ numFloatArgs

theorem alloc_regs (h : Fits a p) : Abi.alloc a p = (.regs (Abi.assign a.ints a.floats p.kinds),
    ⟨a.ints + p.kinds.count .int, a.floats + p.kinds.count .sse, a.stack⟩) := if_pos h

theorem alloc_stack (h : ¬ Fits a p) : Abi.alloc a p =
    (.stack a.stack, { a with stack := a.stack + (p.size + 7) / 8 * 8 }) := if_neg h

theorem clear_regs (h : Fits a p) : Clear a p ↔ (p.isStruct = true → ¬ p.Mixed ∧ ¬ p.Bare) := by
  rw [Clear, alloc_regs h]

theorem clear_stack (h : ¬ Fits a p) : Clear a p ↔ a.stack < 2 ^ 31 := by
  rw [Clear, alloc_stack h]

section stack
variable {n : ℕ} (h : allocParm s p = toStack s p n)
include h

/-- on the stack, at the offset of the state -/
theorem place_toStack (offset : ℕ) : (place s p).At (.stack offset) ↔ s.stackOffset = offset := by
  have hinfo : (place s p).info = (toStack s p n).1 := congrArg Prod.fst h
  have hafter : (place s p).after = (toStack s p n).2 := congrArg Prod.snd h
  have hregs : (place s p).registers = [] := by
    rw [Placement.registers, hafter]
    show (List.range' s.nextIntReg (s.nextIntReg - s.nextIntReg)).map Reg.int ++
      (List.range' s.nextFloatReg (s.nextFloatReg - s.nextFloatReg)).map Reg.sse = []
    rw [Nat.sub_self, Nat.sub_self]
    rfl
  rw [Placement.At, hinfo]
  show ParmLoc.onStack = .onStack ∧ some s.stackOffset = some (offset : ℤ) ∧ _ ↔ _
  rw [Option.some_inj]
  exact ⟨fun h => h.2.1, fun h => ⟨rfl, h, hregs⟩⟩

theorem place_not_regs (l : List Reg) : ¬ (place s p).At (.regs l) := by
  have hinfo : (place s p).info = (toStack s p n).1 := congrArg Prod.fst h
  rintro ⟨⟨r, -, hr, -⟩, -⟩
  rw [hinfo] at hr
  cases r <;> cases hr

/-- where the ABI has no registers left either, the two agree -/
theorem stack_agrees (hsync : Sync s a) (hfit : ¬ Fits a p) (hn : n = (p.size + 7) / 8 * 8) :
    ((place s p).At (Abi.alloc a p).1 ↔ Clear a p) ∧ Sync (place s p).after (Abi.alloc a p).2 := by
  have hafter : (place s p).after = (toStack s p n).2 := congrArg Prod.snd h
  rw [clear_stack hfit, alloc_stack hfit, place_toStack h, hsync.stack, wrap_natCast_iff, hafter]
  refine ⟨Iff.rfl, hsync.ints, hsync.floats, ?_, hsync.ints_le, hsync.floats_le⟩
  show wrap (s.stackOffset + n) = wrap ((a.stack + (p.size + 7) / 8 * 8 : ℕ) : ℤ)
  rw [hsync.stack, wrap_add, hn]
  push_cast
  rfl

end stack

/-- the registers are the next ones -/
theorem mem_assign (r : Reg) (ks : List Kind) : ∀ i f : ℕ,
    (r ∈ (List.range' i (ks.count .int)).map Reg.int ++ (List.range' f (ks.count .sse)).map Reg.sse ↔
      r ∈ Abi.assign i f ks) := by
  induction ks with
  | nil => exact fun i f => Iff.rfl
  | cons k ks ih =>
    intro i f
    cases k with
    | int =>
      rw [Abi.assign, List.mem_cons, ← ih, List.count_cons_self, List.count_cons_of_ne (by decide),
        List.range'_succ, List.map_cons, List.cons_append, List.mem_cons]
    | sse =>
      rw [Abi.assign, List.mem_cons, ← ih, List.count_cons_self, List.count_cons_of_ne (by decide),
        List.range'_succ, List.map_cons, List.mem_append, List.mem_append, List.mem_cons]
      exact or_left_comm

def Kind.reg (a : Abi.State) : Kind → Reg
  | .int => .int a.ints
  | .sse => .sse a.floats

theorem assign_head (a : Abi.State) (k : Kind) (ks : List Kind) :
    (Abi.assign a.ints a.floats (k :: ks)).head? = some (k.reg a) := by
  cases k <;> rfl

/-- the counters go on by the registers that the parameter needs, and the first of them is named -/
theorem regs_agree {k : Kind} {ks : List Kind} (hsync : Sync s a) (hfit : Fits a p)
    (hkinds : p.kinds = k :: ks) (hloc : (place s p).info.location = (k.reg a).parmLoc)
    (hindex : (place s p).info.regIndex = some (k.reg a).index)
    (hints : (place s p).after.nextIntReg = s.nextIntReg + p.kinds.count .int)
    (hfloats : (place s p).after.nextFloatReg = s.nextFloatReg + p.kinds.count .sse)
    (hstack : (place s p).after.stackOffset = s.stackOffset) :
    (place s p).At (Abi.alloc a p).1 ∧ Sync (place s p).after (Abi.alloc a p).2 := by
  rw [alloc_regs hfit]
  refine ⟨⟨⟨k.reg a, ?_, hloc, hindex⟩, fun r => ?_⟩, ?_⟩
  · rw [hkinds]
    exact assign_head a k ks
  · rw [Placement.registers, hints, hfloats]
    show r ∈ (List.range' s.nextIntReg (s.nextIntReg + _ - s.nextIntReg)).map Reg.int ++
      (List.range' s.nextFloatReg (s.nextFloatReg + _ - s.nextFloatReg)).map Reg.sse ↔ _
    rw [Nat.add_sub_cancel_left, Nat.add_sub_cancel_left, hsync.ints, hsync.floats]
    exact mem_assign r p.kinds a.ints a.floats
  · exact ⟨by rw [hints, hsync.ints], by rw [hfloats, hsync.floats], by rw [hstack, hsync.stack],
      hfit.1, hfit.2⟩

/-! ## scalars -/

theorem scalar_agrees (hv : p.Valid) (hs : p.isStruct = false) (hsync : Sync s a) :
    ((place s p).At (Abi.alloc a p).1 ↔ Clear a p) ∧ Sync (place s p).after (Abi.alloc a p).2 := by
  obtain ⟨hpos, h8⟩ := hv.scalar hs
  have hsize : 8 = (p.size + 7) / 8 * 8 := by omega
  have hs' : ¬ p.isStruct = true := fun h => Bool.noConfusion (hs.symm.trans h)
  have hstruct : ¬ (p.isStruct = true ∧ p.size > 16) := fun h => hs' h.1
  have hkinds : p.kinds = [if p.isFloat then .sse else .int] := if_neg hs'
  have hclear (hfit : Fits a p) : Clear a p := (clear_regs hfit).mpr fun h => absurd h hs'
  by_cases hf : p.isFloat = true
  · rw [if_pos hf] at hkinds
    have hfit : Fits a p ↔ s.nextFloatReg < numFloatArgs := by
      rw [Fits, hkinds, hsync.floats]
      exact ⟨fun h => h.2, fun h => ⟨hsync.ints_le, h⟩⟩
    by_cases hlt : s.nextFloatReg < numFloatArgs
    · have hrun : allocParm s p = allocFloatReg s p := by
        rw [allocParm, if_neg hstruct, if_neg hs', if_pos hf, if_pos hlt]
      have hinfo : (place s p).info = (allocFloatReg s p).1 := congrArg Prod.fst hrun
      have hafter : (place s p).after = (allocFloatReg s p).2 := congrArg Prod.snd hrun
      have h := regs_agree hsync (hfit.mpr hlt) hkinds (by rw [hinfo]; rfl)
        (by rw [hinfo]; exact congrArg some hsync.floats) (by rw [hafter, hkinds]; rfl)
        (by rw [hafter, hkinds]; rfl) (by rw [hafter]; rfl)
      exact ⟨iff_of_true h.1 (hclear (hfit.mpr hlt)), h.2⟩
    · have hrun : allocParm s p = toStack s p 8 := by
        rw [allocParm, if_neg hstruct, if_neg hs', if_pos hf, if_neg hlt]
      exact stack_agrees hrun hsync (fun h => hlt (hfit.mp h)) hsize
  · rw [if_neg hf] at hkinds
    have hfit : Fits a p ↔ s.nextIntReg < numIntArgs := by
      rw [Fits, hkinds, hsync.ints]
      exact ⟨fun h => h.1, fun h => ⟨h, hsync.floats_le⟩⟩
    by_cases hlt : s.nextIntReg < numIntArgs
    · have hrun : allocParm s p = allocIntReg s p .inIntReg := by
        rw [allocParm, if_neg hstruct, if_neg hs', if_neg hf, if_pos hlt]
      have hinfo : (place s p).info = (allocIntReg s p .inIntReg).1 := congrArg Prod.fst hrun
      have hafter : (place s p).after = (allocIntReg s p .inIntReg).2 := congrArg Prod.snd hrun
      have h := regs_agree hsync (hfit.mpr hlt) hkinds (by rw [hinfo]; rfl)
        (by rw [hinfo]; exact congrArg some hsync.ints) (by rw [hafter, hkinds]; rfl)
        (by rw [hafter, hkinds]; rfl) (by rw [hafter]; rfl)
      exact ⟨iff_of_true h.1 (hclear (hfit.mpr hlt)), h.2⟩
    · have hrun : allocParm s p = toStack s p 8 := by
        rw [allocParm, if_neg hstruct, if_neg hs', if_neg hf, if_neg hlt]
      exact stack_agrees hrun hsync (fun h => hlt (hfit.mp h)) hsize

/-! ## structs -/

theorem toClass_ne_memory (k : Option Kind) : toClass k ≠ .memory := by
  rcases k with _ | _ | _ <;> decide

theorem bare_iff : p.Bare ↔ kindOf (p.eightbyte 0) = none := by
  unfold Parm.Bare
  constructor
  · intro h
    rw [h, kindOf_nil]
  · intro h
    unfold kindOf at h
    split_ifs at h with h1 h2
    exact not_not.mp h2

/-- the counters go on by what the two eightbytes need -/
theorem allocHigh_counters (k : Kind) (k1 : Option Kind) :
    let t := allocHigh (toClass k1) (if toClass (some k) = .integer then allocIntReg s p .inIntReg
      else allocFloatReg s p).2
    t.nextIntReg = s.nextIntReg + ((some k).toList ++ k1.toList).count .int ∧
      t.nextFloatReg = s.nextFloatReg + ((some k).toList ++ k1.toList).count .sse ∧
      t.stackOffset = s.stackOffset := by
  rcases k with _ | _ <;> rcases k1 with _ | _ | _ <;> exact ⟨rfl, rfl, rfl⟩

section struct
variable (hv : p.Valid) (hs : p.isStruct = true)
include hv hs

theorem allocParm_struct : allocParm s p = allocStruct s p := by
  rw [allocParm, if_neg (by have := hv.struct hs; omega), if_pos hs]

theorem place_mixed (h : p.Mixed) : allocParm s p = toStack s p ((p.size + 7) / 8 * 8) := by
  rw [allocParm_struct hv hs, allocStruct]
  dsimp only
  rw [if_pos (classify_mixed hv hs h)]

/-- the registers that are needed are those of the eightbytes -/
theorem place_plain (h : ¬ p.Mixed) : allocParm s p =
    if s.nextIntReg + p.kinds.count .int > numIntArgs ∨
        s.nextFloatReg + p.kinds.count .sse > numFloatArgs then
      toStack s p ((p.size + 7) / 8 * 8)
    else
      let r := if toClass (kindOf (p.eightbyte 0)) = .integer then allocIntReg s p .inIntReg
        else allocFloatReg s p
      (r.1, allocHigh (toClass (kindOf (p.eightbyte 1))) r.2) := by
  have hcount (k : Kind) (x y : Option Kind) : (x.toList ++ y.toList).count k =
      (if toClass x = toClass (some k) then 1 else 0) + (if toClass y = toClass (some k) then 1 else 0) := by
    rcases k with _ | _ <;> rcases x with _ | _ | _ <;> rcases y with _ | _ | _ <;> decide
  rw [allocParm_struct hv hs, allocStruct, classify_plain hv hs h, kinds_struct hv hs, hcount, hcount]
  dsimp only
  rw [if_neg (toClass_ne_memory _)]
  rfl

/-- a register too many is given to a first eightbyte without a field -/
theorem bare_differs (hsync : Sync s a) (hfit : Fits a p) (hb : p.Bare)
    (hrun : allocParm s p = ((allocFloatReg s p).1,
      allocHigh (toClass (kindOf (p.eightbyte 1))) (allocFloatReg s p).2)) :
    ¬ (place s p).At (Abi.alloc a p).1 := by
  have hinfo : (place s p).info = _ := congrArg Prod.fst hrun
  have hafter : (place s p).after = _ := congrArg Prod.snd hrun
  have hkinds := kinds_struct hv hs
  rw [bare_iff.mp hb] at hkinds
  rw [alloc_regs hfit, hkinds]
  rintro ⟨⟨r, hr, hloc, -⟩, hregs⟩
  rw [hinfo] at hloc
  cases hk : kindOf (p.eightbyte 1) with
  | none =>
    rw [hk] at hr
    cases hr
  | some k =>
    rw [hk] at hr hregs hafter
    cases k with
    | int =>
      cases hr
      cases hloc
    | sse =>
      have hmem : Reg.sse (s.nextFloatReg + 1) ∈ (place s p).registers := by
        rw [Placement.registers, hafter]
        refine List.mem_append_right _ (List.mem_map_of_mem ?_)
        show s.nextFloatReg + 1 ∈ List.range' s.nextFloatReg (s.nextFloatReg + 1 + 1 - s.nextFloatReg)
        rw [List.mem_range'_1]
        omega
      have h := (hregs _).mp hmem
      rw [← hsync.floats] at h
      rcases List.mem_cons.mp h with h | h
      · injection h with h
        omega
      · exact absurd h List.not_mem_nil

theorem struct_spec (hsync : Sync s a) :
    ((place s p).At (Abi.alloc a p).1 ↔ Clear a p) ∧
      (Clear a p → Sync (place s p).after (Abi.alloc a p).2) := by
  by_cases hm : p.Mixed
  · have hrun := place_mixed (s := s) hv hs hm
    by_cases hfit : Fits a p
    · have hclear : ¬ Clear a p := fun h => ((clear_regs hfit).mp h hs).1 hm
      refine ⟨iff_of_false ?_ hclear, fun h => absurd h hclear⟩
      rw [alloc_regs hfit]
      exact place_not_regs hrun _
    · have h := stack_agrees hrun hsync hfit rfl
      exact ⟨h.1, fun _ => h.2⟩
  · have hrun := place_plain (s := s) hv hs hm
    have hcond : (s.nextIntReg + p.kinds.count .int > numIntArgs ∨
        s.nextFloatReg + p.kinds.count .sse > numFloatArgs) ↔ ¬ Fits a p := by
      rw [Fits, hsync.ints, hsync.floats]
      omega
    by_cases hfit : Fits a p
    · rw [if_neg fun h => hcond.mp h hfit] at hrun
      dsimp only at hrun
      cases hk : kindOf (p.eightbyte 0) with
      | none =>
        have hb := bare_iff.mpr hk
        have hclear : ¬ Clear a p := fun h => ((clear_regs hfit).mp h hs).2 hb
        rw [hk, if_neg (by decide)] at hrun
        exact ⟨iff_of_false (bare_differs hv hs hsync hfit hb hrun) hclear,
          fun h => absurd h hclear⟩
      | some k =>
        have hb : ¬ p.Bare := fun h => by
          rw [bare_iff.mp h] at hk
          cases hk
        have hclear : Clear a p := (clear_regs hfit).mpr fun _ => ⟨hm, hb⟩
        have hkinds := kinds_struct hv hs
        rw [hk] at hkinds hrun
        have hinfo : (place s p).info = _ := congrArg Prod.fst hrun
        have hafter : (place s p).after = _ := congrArg Prod.snd hrun
        obtain ⟨h1, h2, h3⟩ := allocHigh_counters (s := s) (p := p) k (kindOf (p.eightbyte 1))
        have h := regs_agree hsync hfit hkinds (by rw [hinfo]; cases k <;> rfl)
          (by rw [hinfo]
              cases k with
              | int => exact congrArg some hsync.ints
              | sse => exact congrArg some hsync.floats)
          (by rw [hafter, hkinds]; exact h1) (by rw [hafter, hkinds]; exact h2)
          (by rw [hafter]; exact h3)
        exact ⟨iff_of_true h.1 hclear, fun _ => h.2⟩
    · rw [if_pos (hcond.mpr hfit)] at hrun
      have h := stack_agrees hrun hsync hfit rfl
      exact ⟨h.1, fun _ => h.2⟩

end struct

theorem place_spec (hv : p.Valid) (hsync : Sync s a) :
    ((place s p).At (Abi.alloc a p).1 ↔ Clear a p) ∧
      (Clear a p → Sync (place s p).after (Abi.alloc a p).2) := by
  cases hs : p.isStruct with
  | true => exact struct_spec hv hs hsync
  | false =>
    have h := scalar_agrees hv hs hsync
    exact ⟨h.1, fun _ => h.2⟩

/-! ## all parameters of a call -/

namespace Abi

/-- where the ABI puts the parameters of a call -/
def allocAll : State → List Parm → List Loc
  | _, [] => []
  | a, p :: ps => (alloc a p).1 :: allocAll (alloc a p).2 ps

end Abi

/-- each of the parameters is clear, as the ABI comes to it -/
def AllClear : Abi.State → List Parm → Prop
  | _, [] => True
  | a, p :: ps => Clear a p ∧ AllClear (Abi.alloc a p).2 ps

/-- the slots on the stack are aligned, in order and apart -/
structure StackInOrder (l : List Placement) : Prop where
  aligned : ∀ x ∈ l, x.info.location = .onStack → ∃ i, x.info.stackOffset = some i ∧ 0 ≤ i ∧ i % 8 = 0
  order : l.Pairwise fun x y => x.info.location = .onStack → y.info.location = .onStack →
    ∀ i j : ℤ, x.info.stackOffset = some i → y.info.stackOffset = some j → i + x.parm.size ≤ j

/-- what is promised of the parameters of a call -/
structure Conforms (s : CallState) (a : Abi.State) (ps : List Parm) : Prop where
  located : List.Forall₂ Placement.At (allocParms s ps) (Abi.allocAll a ps)
  once : ((allocParms s ps).flatMap Placement.registers).Nodup
  stack : StackInOrder (allocParms s ps)

/-- the register was not taken before -/
def Reg.Free (a : Abi.State) : Reg → Prop
  | .int i => a.ints ≤ i
  | .sse i => a.floats ≤ i

/-- a parameter is given registers that were free, and they are taken after it -/
theorem registers_free {x : Placement} {a a' : Abi.State} (hb : Sync x.before a) (ha : Sync x.after a') :
    x.registers.Nodup ∧ ∀ r ∈ x.registers, r.Free a ∧ ¬ r.Free a' := by
  have hnd : ∀ s n, (List.range' s n).Nodup := fun s n => List.nodup_range'
  constructor
  · refine List.Nodup.append ?_ ?_ ?_
    · exact (hnd _ _).map fun i j h => by injection h
    · exact (hnd _ _).map fun i j h => by injection h
    · intro r hi hf
      obtain ⟨i, -, rfl⟩ := List.mem_map.mp hi
      obtain ⟨j, -, hj⟩ := List.mem_map.mp hf
      cases hj
  · intro r hr
    rcases List.mem_append.mp hr with h | h
    · obtain ⟨i, hi, rfl⟩ := List.mem_map.mp h
      rw [List.mem_range'_1, hb.ints, ha.ints] at hi
      show a.ints ≤ i ∧ ¬ a'.ints ≤ i
      omega
    · obtain ⟨i, hi, rfl⟩ := List.mem_map.mp h
      rw [List.mem_range'_1, hb.floats, ha.floats] at hi
      show a.floats ≤ i ∧ ¬ a'.floats ≤ i
      omega

/-- a parameter on the stack is at the end of it -/
theorem stack_grows (h : (place s p).At (Abi.alloc a p).1) (h8 : a.stack % 8 = 0) :
    ((place s p).info.location = .onStack → (place s p).info.stackOffset = some (a.stack : ℤ) ∧
      a.stack + p.size ≤ (Abi.alloc a p).2.stack) ∧
      a.stack ≤ (Abi.alloc a p).2.stack ∧ (Abi.alloc a p).2.stack % 8 = 0 := by
  by_cases hfit : Fits a p
  · rw [alloc_regs hfit] at h ⊢
    refine ⟨fun hloc => ?_, le_refl _, h8⟩
    obtain ⟨⟨r, -, hr, -⟩, -⟩ := h
    rw [hloc] at hr
    cases r <;> cases hr
  · rw [alloc_stack hfit] at h ⊢
    refine ⟨fun _ => ⟨h.2.1, ?_⟩, Nat.le_add_right _ _, ?_⟩
    · show a.stack + p.size ≤ a.stack + (p.size + 7) / 8 * 8
      omega
    · show (a.stack + (p.size + 7) / 8 * 8) % 8 = 0
      omega

theorem Reg.Free.mono {a a' : Abi.State} {r : Reg} (h : r.Free a') (hi : a.ints ≤ a'.ints)
    (hf : a.floats ≤ a'.floats) : r.Free a := by
  cases r with
  | int i => exact le_trans hi h
  | sse i => exact le_trans hf h

theorem alloc_mono (a : Abi.State) (p : Parm) :
    a.ints ≤ (Abi.alloc a p).2.ints ∧ a.floats ≤ (Abi.alloc a p).2.floats := by
  by_cases hfit : Fits a p
  · rw [alloc_regs hfit]
    exact ⟨Nat.le_add_right _ _, Nat.le_add_right _ _⟩
  · rw [alloc_stack hfit]
    exact ⟨le_refl _, le_refl _⟩

/-- what holds of the parameters that are still to come, from the state that the others have left -/
structure Behind (s : CallState) (a : Abi.State) (ps : List Parm) : Prop extends Conforms s a ps where
  free : ∀ x ∈ allocParms s ps, ∀ r ∈ x.registers, r.Free a
  above : ∀ x ∈ allocParms s ps, x.info.location = .onStack → ∀ i, x.info.stackOffset = some i →
    (a.stack : ℤ) ≤ i

theorem run_spec {ps : List Parm} : ∀ {s : CallState} {a : Abi.State}, (∀ p ∈ ps, p.Valid) →
    Sync s a → a.stack % 8 = 0 → AllClear a ps → Behind s a ps := by
  induction ps with
  | nil =>
    intro s a _ _ _ _
    exact ⟨⟨.nil, List.nodup_nil, ⟨fun _ h => absurd h List.not_mem_nil, .nil⟩⟩,
      fun _ h => absurd h List.not_mem_nil, fun _ h => absurd h List.not_mem_nil⟩
  | cons p ps ih =>
    intro s a hv hsync h8 hclear
    have hspec := place_spec (hv p List.mem_cons_self) hsync
    have hat := hspec.1.mpr hclear.1
    have hsync' := hspec.2 hclear.1
    obtain ⟨hstack, hle, h8'⟩ := stack_grows hat h8
    have rest := ih (fun q hq => hv q (List.mem_cons_of_mem p hq)) hsync' h8' hclear.2
    obtain ⟨hnodup, hfree⟩ := registers_free (x := place s p) hsync hsync'
    obtain ⟨hi, hf⟩ := alloc_mono a p
    refine ⟨⟨.cons hat rest.located, ?_, ?_, ?_⟩, ?_, ?_⟩
    · -- no later parameter is given a register that is taken here
      refine List.nodup_append'.mpr ⟨hnodup, rest.once, ?_⟩
      intro r hr hr'
      obtain ⟨x, hx, hrx⟩ := List.mem_flatMap.mp hr'
      exact (hfree r hr).2 (rest.free x hx r hrx)
    · intro x hx hloc
      rcases List.mem_cons.mp hx with rfl | hx
      · exact ⟨_, (hstack hloc).1, by omega, by omega⟩
      · exact rest.stack.aligned x hx hloc
    · refine List.pairwise_cons.mpr ⟨fun y hy hloc hyloc i j hxi hyj => ?_, rest.stack.order⟩
      obtain ⟨hxi', hend⟩ := hstack hloc
      have hj := rest.above y hy hyloc j hyj
      rw [hxi'] at hxi
      injection hxi with hxi
      show i + (p.size : ℤ) ≤ j
      omega
    · intro x hx r hr
      rcases List.mem_cons.mp hx with rfl | hx
      · exact (hfree r hr).1
      · exact (rest.free x hx r hr).mono hi hf
    · intro x hx hloc i hxi
      rcases List.mem_cons.mp hx with rfl | hx
      · rw [(hstack hloc).1] at hxi
        injection hxi with hxi
        omega
      · have := rest.above x hx hloc i hxi
        omega

/-- a parameter that is not clear ends up somewhere else -/
theorem clear_of_located {ps : List Parm} : ∀ {s : CallState} {a : Abi.State}, (∀ p ∈ ps, p.Valid) →
    Sync s a → List.Forall₂ Placement.At (allocParms s ps) (Abi.allocAll a ps) → AllClear a ps := by
  induction ps with
  | nil => exact fun _ _ _ => trivial
  | cons p ps ih =>
    intro s a hv hsync h
    have hspec := place_spec (hv p List.mem_cons_self) hsync
    cases h with
    | cons hat hrest =>
      have hclear := hspec.1.mp hat
      exact ⟨hclear, ih (fun q hq => hv q (List.mem_cons_of_mem p hq)) (hspec.2 hclear) hrest⟩

theorem sync_start (isVarargs : Bool) : Sync (callInit isVarargs) Abi.start :=
  ⟨rfl, rfl, (by decide : (0 : ℤ) = wrap 0), Nat.zero_le _, Nat.zero_le _⟩

/-- the parameters of a call are where the ABI has them exactly when, as it comes to them, no struct that it
passes in registers has an eightbyte of both kinds or none in the first eightbyte -/
theorem parms_right_iff (isVarargs : Bool) (ps : List Parm) (hv : ∀ p ∈ ps, p.Valid) :
    Conforms (callInit isVarargs) Abi.start ps ↔ AllClear Abi.start ps := by
  constructor
  · exact fun h => clear_of_located hv (sync_start isVarargs) h.located
  · exact fun h => (run_spec hv (sync_start isVarargs) rfl h).toConforms

/-- `struct { int a; float b; }`: the ABI has it in RDI -/
def mixedStruct : Parm := ⟨false, 8, true, [⟨0, 4, false⟩, ⟨4, 4, true⟩]⟩

theorem mixedStruct_wrong :
    mixedStruct.Valid ∧ ¬ Conforms (callInit false) Abi.start [mixedStruct] := by
  refine ⟨⟨by decide, by decide, by decide⟩, fun h => ?_⟩
  cases h.located with
  | cons hat _ =>
    obtain ⟨⟨r, hr, hloc, -⟩, -⟩ := hat
    cases hr
    cases hloc

/-- `struct { long a; double b; }` takes a register of each kind, and the `int` behind it the next one -/
theorem longDouble_right :
    Conforms (callInit true) Abi.start
      [⟨false, 16, true, [⟨0, 8, false⟩, ⟨8, 8, true⟩]⟩, ⟨false, 4, false, []⟩] := by
  refine (parms_right_iff true _ ?_).mpr ⟨fun _ => by decide, Bool.noConfusion, trivial⟩
  intro p hp
  rcases List.mem_cons.mp hp with rfl | hp
  · exact ⟨by decide, by decide, by decide⟩
  · obtain rfl := List.mem_singleton.mp hp
    exact ⟨by decide, by decide, by decide⟩

/-! ## the frame -/

/-- what is promised of the frame of a function that makes calls -/
structure FrameRight (rsp localsSize numCalleeSaved : ℤ) (s : CallState) (f : Frame) : Prop where
  /-- behind `push rbp`, the other pushes and `sub rsp` -/
  aligned : (rsp - 8 - 8 * numCalleeSaved - f.frameSize) % 16 = 0
  room : localsSize + s.stackOffset ≤ f.frameSize
  tight : f.frameSize < localsSize + s.stackOffset + 16

theorem wrap_emod (x : ℤ) : wrap x % 16 = x % 16 := by
  rw [wrap, Int.bmod]
  split_ifs <;> omega

theorem wrap_eq_self {x : ℤ} (h1 : -2 ^ 31 ≤ x) (h2 : x < 2 ^ 31) : wrap x = x := by
  rw [wrap, Int.bmod]
  split_ifs <;> omega

theorem clearLow_emod (x : ℤ) : clearLow x % 16 = 0 := by
  unfold clearLow
  omega

variable (localsSize maxArgs numCalleeSaved : ℤ)

/-- an even number of pushes leaves the frame a multiple of 16, and an odd number 8 more -/
theorem frameSize_emod :
    (computeFrame localsSize maxArgs numCalleeSaved true).frameSize % 16 =
      if (1 + numCalleeSaved) % 2 = 0 then 0 else 8 := by
  have hpush : wrap (1 + numCalleeSaved) % 2 = (1 + numCalleeSaved) % 2 := by
    have := wrap_emod (1 + numCalleeSaved)
    omega
  unfold computeFrame
  dsimp only
  rw [if_neg (fun h => Bool.noConfusion h.1), hpush]
  generalize wrap (localsSize + wrap (maxArgs * 8)) = rawSize
  have hround := clearLow_emod (wrap (rawSize + 15))
  by_cases h : (1 + numCalleeSaved) % 2 = 0
  · rw [if_pos h, if_pos h]
    exact hround
  · rw [if_neg h, if_neg h]
    have h8 := wrap_emod (clearLow (wrap (rawSize + 15)) + 8)
    generalize wrap (clearLow (wrap (rawSize + 15)) + 8) = frameSize at h8 ⊢
    have h16 := wrap_emod (frameSize - 16)
    split_ifs <;> omega

/-- the frame holds what it was asked for, with less than 16 bytes to spare -/
theorem frameSize_tight (h1 : 0 ≤ localsSize) (h2 : 0 ≤ maxArgs)
    (h3 : localsSize + maxArgs * 8 < 2 ^ 31 - 24) :
    localsSize + maxArgs * 8 ≤ (computeFrame localsSize maxArgs numCalleeSaved true).frameSize ∧
      (computeFrame localsSize maxArgs numCalleeSaved true).frameSize <
        localsSize + maxArgs * 8 + 16 := by
  unfold computeFrame
  dsimp only
  rw [if_neg (fun h => Bool.noConfusion h.1), wrap_eq_self (x := maxArgs * 8) (by omega) (by omega),
    wrap_eq_self (x := localsSize + maxArgs * 8) (by omega) (by omega)]
  have h0 : 0 ≤ localsSize + maxArgs * 8 := by omega
  generalize localsSize + maxArgs * 8 = rawSize at h0 h3 ⊢
  rw [wrap_eq_self (x := rawSize + 15) (by omega) (by omega), clearLow,
    wrap_eq_self (x := rawSize + 15 - (rawSize + 15) % 16 + 8) (by omega) (by omega),
    wrap_eq_self (x := rawSize + 15 - (rawSize + 15) % 16 + 8 - rawSize) (by omega) (by omega),
    wrap_eq_self (x := rawSize + 15 - (rawSize + 15) % 16 + 8 - 16) (by omega) (by omega)]
  split_ifs <;> omega

/-- the pushes are counted without the return address, so the stack is never aligned at a call -/
theorem frame_never_right (isVarargs : Bool) (ps : List Parm) (rsp : ℤ) (h : rsp % 16 = 8) :
    ¬ FrameRight rsp localsSize numCalleeSaved (afterParms (callInit isVarargs) ps)
      (computeFrame localsSize (afterParms (callInit isVarargs) ps).numStackArgs numCalleeSaved true) := by
  intro hr
  have ha := hr.aligned
  have hm := frameSize_emod localsSize (afterParms (callInit isVarargs) ps).numStackArgs numCalleeSaved
  split_ifs at hm <;> omega

theorem emptyFrame_wrong :
    ¬ FrameRight 4104 0 0 (afterParms (callInit false) [])
      (computeFrame 0 (afterParms (callInit false) []).numStackArgs 0 true) :=
  fun h => absurd h.aligned (by decide)

theorem mixedFrame_never_right :
    (4104 : ℤ) % 16 = 8 ∧ ¬ FrameRight 4104 24 1 (afterParms (callInit false) [mixedStruct])
      (computeFrame 24 (afterParms (callInit false) [mixedStruct]).numStackArgs 1 true) :=
  ⟨by decide, frame_never_right 24 1 false [mixedStruct] 4104 (by decide)⟩

end SysV
