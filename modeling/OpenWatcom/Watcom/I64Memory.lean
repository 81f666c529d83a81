import OpenWatcom.Watcom.I64
import Mathlib.Logic.Function.Basic

/-!
# The 64-bit routines on memory

The routines of `i64.c` take pointers, and their callers pass the same object as operand and as
result.  Here each of them is the sequence of stores that the source makes, half by half, and the
memory it leaves is compared with the arithmetic of `I64`.

* `u64AddM_eq`, `u64SubM_eq`, `u64NegM_eq`, `u64ShiftRM_eq`, ...   a routine is one store of its value;
* `u64MulM_spec`, `u64DivM_spec`   the loops, which end;
* `Returns`           the objects of the caller after a division;
* `i64_aliased`       all of the routines, whatever pointers coincide.
-/

namespace I64

/-- an object: one of the caller, or a local of one of the routines -/
inductive Ptr where
  | caller (n : Nat)
  | subTmp
  | mulA
  | mulB
  | divA
  | divB
  | idivA
  | idivB
  deriving DecidableEq

/-- the value of every object -/
abbrev Mem := Ptr → U64

/-! ## the routines -/

section
variable (m : Mem)

/-- a store to `u._32[L]` -/
def setLo (p : Ptr) (l : BitVec 32) : Mem := Function.update m p (mk (hi (m p)) l)

/-- a store to `u._32[H]` -/
def setHi (p : Ptr) (h : BitVec 32) : Mem := Function.update m p (mk h (lo (m p)))

/-- `U64Not` -/
def u64NotM (res a : Ptr) : Mem :=
  let m := setLo m res (~~~lo (m a))
  setHi m res (~~~hi (m a))

/-- `U64Inc` -/
def u64IncM (res : Ptr) : Mem :=
  let m := setLo m res (lo (m res) + 1)
  if lo (m res) = 0 then setHi m res (hi (m res) + 1) else m

def u64NegM (res a : Ptr) : Mem := u64IncM (u64NotM m res a) res

def u64AddM (res a b : Ptr) : Mem :=
  let m := setHi m res (hi (m a) + hi (m b))
  let newValue := lo (m a) + lo (m b)
  let m := if newValue < lo (m a) then setHi m res (hi (m res) + 1) else m
  setLo m res newValue

def u64SubM (res a b : Ptr) : Mem := u64AddM (u64NegM m .subTmp b) res a .subTmp

def i64ShiftRM (res a : Ptr) (shift : Nat) : Mem :=
  let shift := shift % 64
  if shift < 32 then
    let tmp := hi (m a)
    let save := tmp <<< 1
    let m := setHi m res (tmp.sshiftRight shift)
    let m := setLo m res (lo (m a) >>> shift)
    setLo m res (lo (m res) ||| (save <<< (31 - shift)))
  else
    let tmp := hi (m a)
    let m := setHi m res (if tmp.toInt < 0 then -1 else 0)
    setLo m res (tmp.sshiftRight (shift - 32))

def u64ShiftRM (res a : Ptr) (shift : Nat) : Mem :=
  let shift := shift % 64
  if shift < 32 then
    let save := hi (m a) <<< 1
    let m := setHi m res (hi (m a) >>> shift)
    let m := setLo m res (lo (m a) >>> shift)
    setLo m res (lo (m res) ||| (save <<< (31 - shift)))
  else
    let save := hi (m a)
    let m := setHi m res 0
    setLo m res (save >>> (shift - 32))

def u64ShiftLM (res a : Ptr) (shift : Nat) : Mem :=
  let shift := shift % 64
  if shift < 32 then
    let save := lo (m a) >>> 1
    let m := setLo m res (lo (m a) <<< shift)
    let m := setHi m res (hi (m a) <<< shift)
    setHi m res (hi (m res) ||| (save >>> (31 - shift)))
  else
    let save := lo (m a)
    let m := setLo m res 0
    setHi m res (save <<< (shift - 32))

/-- `*p = *q` -/
def copy (p q : Ptr) : Mem := Function.update m p (m q)

/-- `Set64ValZero` -/
def setZero (p : Ptr) : Mem := setHi (setLo m p 0) p 0

end

/-- the loop of `U64Mul`; `none` is a loop that has not ended -/
def mulLoopM : Nat → Mem → Ptr → Option Mem
  | 0, _, _ => none
  | fuel + 1, m, res =>
    if u64IsntZero (m .mulB) then
      let m := if lo (m .mulB) &&& 1 ≠ 0 then u64AddM m res res .mulA else m
      let m := u64ShiftLM m .mulA .mulA 1
      let m := u64ShiftRM m .mulB .mulB 1
      mulLoopM fuel m res
    else some m

def u64MulM (m : Mem) (res a b : Ptr) : Option Mem :=
  let m := copy m .mulA a
  let m := copy m .mulB b
  let m := setZero m res
  mulLoopM 65 m res

/-- the first loop of `U64Div`: memory and `count` -/
def alignLoopM : Nat → Mem → Nat → Option (Mem × Nat)
  | 0, _, _ => none
  | fuel + 1, m, count =>
    if i64IsNeg (m .divB) then some (m, count)
    else if u64Cmp (m .divA) (m .divB) ≤ 0 then some (m, count)
    else alignLoopM fuel (u64ShiftLM m .divB .divB 1) (count + 1)

/-- the second loop of `U64Div`, with `count + 1` rounds -/
def divLoopM : Nat → Mem → Ptr → Mem
  | 0, m, _ => m
  | n + 1, m, div =>
    let m := u64ShiftLM m div div 1
    let m :=
      if u64Cmp (m .divA) (m .divB) ≥ 0 then
        let m := setLo m div (lo (m div) ||| 1)
        u64SubM m .divA .divA .divB
      else m
    let m := u64ShiftRM m .divB .divB 1
    divLoopM n m div

/-- `U64Div`; `rem` is `none` for `NULL` -/
def u64DivM (m : Mem) (a b div : Ptr) (rem : Option Ptr) : Option Mem :=
  if hi (m a) = 0 ∧ hi (m b) = 0 then
    let tmp := lo (m a) / lo (m b)
    let m := match rem with
      | some rem =>
        let m := setLo m rem (lo (m a) % lo (m b))
        setHi m rem 0
      | none => m
    let m := setLo m div tmp
    some (setHi m div 0)
  else
    let m := copy m .divA a
    let m := copy m .divB b
    match alignLoopM 65 m 0 with
    | none => none
    | some (m, count) =>
      let m := setLo m div 0
      let m := setHi m div 0
      let m := divLoopM (count + 1) m div
      some (match rem with
        | some rem => copy m rem .divA
        | none => m)

/-- `I64Div` -/
def i64DivM (m : Mem) (a b div : Ptr) (rem : Option Ptr) : Option Mem :=
  let remneg := i64IsNeg (m a)
  let neg := remneg
  let m := if i64IsNeg (m a) then u64NegM m .idivA a else copy m .idivA a
  let neg := if i64IsNeg (m b) then !neg else neg
  let m := if i64IsNeg (m b) then u64NegM m .idivB b else copy m .idivB b
  match u64DivM m .idivA .idivB div rem with
  | none => none
  | some m =>
    let m := if neg then u64NegM m div div else m
    some (match rem with
      | some rem => if remneg then u64NegM m rem rem else m
      | none => m)

/-! ## the stores of one routine -/

theorem lo_mk (h l : BitVec 32) : lo (mk h l) = l := by
  apply BitVec.eq_of_toNat_eq
  have hl := l.isLt
  rw [lo_toNat, mk_toNat]
  omega

theorem hi_mk (h l : BitVec 32) : hi (mk h l) = h := by
  apply BitVec.eq_of_toNat_eq
  have hl := l.isLt
  rw [hi_toNat, mk_toNat]
  omega

section
variable (m : Mem) (p q : Ptr) (h h' l l' : BitVec 32)

/-- a store to the other half is not seen, whichever object is read -/
@[simp] theorem lo_setHi : lo (setHi m p h q) = lo (m q) := by
  unfold setHi
  rw [Function.update_apply]
  split
  · next e => rw [e, lo_mk]
  · rfl

@[simp] theorem hi_setLo : hi (setLo m p l q) = hi (m q) := by
  unfold setLo
  rw [Function.update_apply]
  split
  · next e => rw [e, hi_mk]
  · rfl

@[simp] theorem hi_setHi : hi (setHi m p h p) = h := by
  unfold setHi
  rw [Function.update_self, hi_mk]

@[simp] theorem lo_setLo : lo (setLo m p l p) = l := by
  unfold setLo
  rw [Function.update_self, lo_mk]

@[simp] theorem setHi_setHi : setHi (setHi m p h) p h' = setHi m p h' := by
  rw [setHi, lo_setHi, setHi, setHi, Function.update_idem]

/-- both halves stored are the object stored -/
@[simp] theorem setLo_setHi : setLo (setHi m p h) p l = Function.update m p (mk h l) := by
  rw [setLo, hi_setHi, setHi, Function.update_idem]

@[simp] theorem setHi_setLo : setHi (setLo m p l) p h = Function.update m p (mk h l) := by
  rw [setHi, lo_setLo, setLo, Function.update_idem]

@[simp] theorem setLo_update (v : U64) :
    setLo (Function.update m p v) p l = Function.update m p (mk (hi v) l) := by
  rw [setLo, Function.update_self, Function.update_idem]

@[simp] theorem setHi_update (v : U64) :
    setHi (Function.update m p v) p h = Function.update m p (mk h (lo v)) := by
  rw [setHi, Function.update_self, Function.update_idem]

end

section
variable (m : Mem) (res a b : Ptr)

theorem u64NotM_eq : u64NotM m res a = Function.update m res (u64Not (m a)) := by
  unfold u64NotM
  simp only [hi_setLo, setHi_setLo]
  rfl

theorem u64IncM_eq : u64IncM m res = Function.update m res (u64Inc (m res)) := by
  unfold u64IncM u64Inc
  simp only [hi_setLo, lo_setLo, setHi_setLo]
  split
  · rfl
  · rfl

theorem u64NegM_eq : u64NegM m res a = Function.update m res (-(m a)) := by
  unfold u64NegM
  rw [u64IncM_eq, u64NotM_eq, Function.update_self, Function.update_idem, ← u64Neg_eq]
  rfl

theorem u64AddM_eq : u64AddM m res a b = Function.update m res (m a + m b) := by
  unfold u64AddM
  rw [← u64Add_eq]
  unfold u64Add
  simp only [lo_setHi]
  split
  · rw [setHi_setHi, hi_setHi, setLo_setHi]
  · rw [setLo_setHi]

theorem u64SubM_eq (ha : a ≠ .subTmp) : u64SubM m res a b
    = Function.update (Function.update m .subTmp (-(m b))) res (m a - m b) := by
  unfold u64SubM
  rw [u64AddM_eq, u64NegM_eq, Function.update_self, Function.update_of_ne ha,
    BitVec.sub_eq_add_neg]

theorem i64ShiftRM_eq (shift : Nat) :
    i64ShiftRM m res a shift = Function.update m res (i64ShiftR (m a) shift) := by
  unfold i64ShiftRM i64ShiftR
  simp only [lo_setHi, setLo_setHi, setLo_update, Function.update_self, lo_mk, hi_mk]
  split
  · rfl
  · rfl

theorem u64ShiftRM_eq (shift : Nat) :
    u64ShiftRM m res a shift = Function.update m res (u64ShiftR (m a) shift) := by
  unfold u64ShiftRM u64ShiftR
  simp only [lo_setHi, setLo_setHi, setLo_update, Function.update_self, lo_mk, hi_mk]
  split
  · rfl
  · rfl

theorem u64ShiftLM_eq (shift : Nat) :
    u64ShiftLM m res a shift = Function.update m res (u64ShiftL (m a) shift) := by
  unfold u64ShiftLM u64ShiftL
  simp only [hi_setLo, setHi_setLo, setHi_update, Function.update_self, lo_mk, hi_mk]
  split
  · rfl
  · rfl

end

/-! ## the loops -/

theorem mulLoopM_spec {res : Ptr} (ha : res ≠ .mulA) (hb : res ≠ .mulB) (n : Nat) (m : Mem)
    (hlt : (m .mulB).toNat < 2 ^ n) :
    ∃ m', mulLoopM (n + 1) m res = some m' ∧ m' res = mulLoop n (m res) (m .mulA) (m .mulB) ∧
      ∀ p, p ≠ res → p ≠ .mulA → p ≠ .mulB → m' p = m p := by
  induction n generalizing m with
  | zero =>
    have hz : m .mulB = 0 := BitVec.eq_of_toNat_eq (by simpa using hlt)
    refine ⟨m, ?_, rfl, fun _ _ _ _ => rfl⟩
    rw [mulLoopM, u64IsntZero_eq, if_neg (by rw [decide_eq_true_eq]; exact not_not.mpr hz)]
  | succ n ih =>
    rw [mulLoopM, mulLoop]
    by_cases hz : u64IsntZero (m .mulB) = true
    · rw [if_pos hz, if_pos hz]
      -- the sum, as one store
      have hsum : (if lo (m .mulB) &&& 1 ≠ 0 then u64AddM m res res .mulA else m)
          = Function.update m res
              (if lo (m .mulB) &&& 1 ≠ 0 then u64Add (m res) (m .mulA) else m res) := by
        split
        · rw [u64AddM_eq, u64Add_eq]
        · rw [Function.update_eq_self]
      simp only [hsum, u64ShiftLM_eq, u64ShiftRM_eq]
      generalize (if lo (m .mulB) &&& 1 ≠ 0 then u64Add (m res) (m .mulA) else m res) = v
      have hnext : Function.update (Function.update m res v) .mulA (u64ShiftL (m .mulA) 1) .mulB
          = m .mulB := by
        rw [Function.update_of_ne (by decide), Function.update_of_ne hb.symm]
      rw [Function.update_of_ne ha.symm, hnext]
      have hhalf : (u64ShiftR (m .mulB) 1).toNat < 2 ^ n := by
        rw [shr_one_toNat]
        rw [pow_succ] at hlt
        omega
      obtain ⟨m', h1, h2, h3⟩ := ih (Function.update (Function.update (Function.update m res v) .mulA
        (u64ShiftL (m .mulA) 1)) .mulB (u64ShiftR (m .mulB) 1)) (by rwa [Function.update_self])
      refine ⟨m', h1, ?_, fun p h4 h5 h6 => ?_⟩
      · rw [h2, Function.update_self, Function.update_of_ne hb, Function.update_of_ne ha,
          Function.update_self, Function.update_of_ne (by decide), Function.update_self]
      · rw [h3 p h4 h5 h6, Function.update_of_ne h6, Function.update_of_ne h5,
          Function.update_of_ne h4]
    · rw [if_neg hz, if_neg hz]
      exact ⟨m, rfl, rfl, fun _ _ _ _ => rfl⟩

theorem u64MulM_spec (m : Mem) {res a b : Ptr} (hr : res ≠ .mulA ∧ res ≠ .mulB)
    (hb : b ≠ .mulA) :
    ∃ m', u64MulM m res a b = some m' ∧ m' res = m a * m b ∧
      ∀ p, p ≠ res → p ≠ .mulA → p ≠ .mulB → m' p = m p := by
  unfold u64MulM
  have hzero (m : Mem) : setZero m res = Function.update m res 0 := by
    unfold setZero
    rw [setHi_setLo]
    rfl
  have hcopy : copy (copy m .mulA a) .mulB b
      = Function.update (Function.update m .mulA (m a)) .mulB (m b) := by
    unfold copy
    rw [Function.update_of_ne hb]
  simp only [hcopy, hzero]
  obtain ⟨m', h1, h2, h3⟩ := mulLoopM_spec hr.1 hr.2 64
    (Function.update (Function.update (Function.update m .mulA (m a)) .mulB (m b)) res 0)
    (BitVec.isLt _)
  refine ⟨m', h1, ?_, fun p h4 h5 h6 => ?_⟩
  · rw [h2, mulLoop_eq 64 _ _ _ (BitVec.isLt _), Function.update_self,
      Function.update_of_ne hr.1.symm, Function.update_of_ne (by decide), Function.update_self,
      Function.update_of_ne hr.2.symm, Function.update_self, zero_add]
  · rw [h3 p h4 h5 h6, Function.update_of_ne h4, Function.update_of_ne h6,
      Function.update_of_ne h5]

theorem alignLoopM_eq (n : Nat) (m : Mem) (count : Nat)
    (hb : 2 ^ 64 ≤ (m .divB).toNat * 2 ^ n) :
    alignLoopM (n + 1) m count
      = some (Function.update m .divB (alignLoop n (m .divA) (m .divB) count).1,
          (alignLoop n (m .divA) (m .divB) count).2) := by
  induction n generalizing m count with
  | zero =>
    have h := (m .divB).isLt
    omega
  | succ n ih =>
    rw [alignLoopM, alignLoop]
    by_cases h1 : i64IsNeg (m .divB) = true
    · rw [if_pos h1, if_pos h1, Function.update_eq_self]
    · rw [if_neg h1, if_neg h1]
      by_cases h2 : u64Cmp (m .divA) (m .divB) ≤ 0
      · rw [if_pos h2, if_pos h2, Function.update_eq_self]
      · rw [if_neg h2, if_neg h2]
        have hpos := mt (isNeg_iff (m .divB)).mpr h1
        have hs : (u64ShiftL (m .divB) 1).toNat = (m .divB).toNat * 2 := by
          rw [shl_one_toNat]
          omega
        have hn : (m .divB).toNat * 2 ^ (n + 1) = (m .divB).toNat * 2 * 2 ^ n := by ring
        rw [hn, ← hs] at hb
        rw [u64ShiftLM_eq, ih _ _ (by rwa [Function.update_self]), Function.update_self,
          Function.update_of_ne (by decide), Function.update_idem]

/-- the locals of `U64Div` and of the subtraction it makes -/
def Ptr.divLocals : List Ptr := [.divA, .divB, .subTmp]

theorem not_divLocal {p : Ptr} :
    p ∉ Ptr.divLocals ↔ p ≠ .divA ∧ p ≠ .divB ∧ p ≠ .subTmp := by
  unfold Ptr.divLocals
  rw [List.mem_cons, List.mem_cons, List.mem_singleton, not_or, not_or]

theorem divLoopM_spec {div : Ptr} (hd : div ∉ Ptr.divLocals) (n : Nat) (m : Mem) :
    divLoopM n m div div = (divLoop n (m div) (m .divA) (m .divB)).1 ∧
      divLoopM n m div .divA = (divLoop n (m div) (m .divA) (m .divB)).2 ∧
      ∀ p, p ≠ div → p ∉ Ptr.divLocals → divLoopM n m div p = m p := by
  obtain ⟨hA, hB, hS⟩ := not_divLocal.mp hd
  induction n generalizing m with
  | zero => exact ⟨rfl, rfl, fun _ _ _ => rfl⟩
  | succ n ih =>
    rw [divLoopM, divLoop]
    simp only [u64ShiftLM_eq, Function.update_of_ne hA.symm, Function.update_of_ne hB.symm]
    generalize u64ShiftL (m div) 1 = v
    by_cases hc : u64Cmp (m .divA) (m .divB) ≥ 0
    · rw [if_pos hc, if_pos hc, Function.update_self, setLo_update,
        u64SubM_eq _ _ _ _ (by decide), u64ShiftRM_eq, Function.update_of_ne hA.symm,
        Function.update_of_ne hB.symm, Function.update_of_ne (show Ptr.divB ≠ .divA by decide),
        Function.update_of_ne (show Ptr.divB ≠ .subTmp by decide), Function.update_of_ne hB.symm,
        ← u64Sub_eq]
      obtain ⟨h1, h2, h3⟩ := ih (Function.update (Function.update (Function.update
        (Function.update m div (mk (hi v) (lo v ||| 1))) .subTmp (-m .divB)) .divA
        (u64Sub (m .divA) (m .divB))) .divB (u64ShiftR (m .divB) 1))
      rw [Function.update_self, Function.update_of_ne hB, Function.update_of_ne hA,
        Function.update_of_ne hS, Function.update_self, Function.update_of_ne (by decide),
        Function.update_self] at h1 h2
      refine ⟨h1, h2, fun p h4 h5 => ?_⟩
      obtain ⟨pA, pB, pS⟩ := not_divLocal.mp h5
      rw [h3 p h4 h5, Function.update_of_ne pB, Function.update_of_ne pA,
        Function.update_of_ne pS, Function.update_of_ne h4]
    · rw [if_neg hc, if_neg hc, u64ShiftRM_eq, Function.update_of_ne hB.symm]
      obtain ⟨h1, h2, h3⟩ := ih (Function.update (Function.update m div v)
        .divB (u64ShiftR (m .divB) 1))
      rw [Function.update_self, Function.update_of_ne hB, Function.update_self,
        Function.update_of_ne (by decide), Function.update_of_ne hA.symm] at h1 h2
      refine ⟨h1, h2, fun p h4 h5 => ?_⟩
      rw [h3 p h4 h5, Function.update_of_ne (not_divLocal.mp h5).2.1, Function.update_of_ne h4]

/-! ## divisions -/

/-- `q` is left in `*div`, `r` in `*rem` unless that is `NULL`, and nothing else but the objects of
`locals` changes -/
structure Leaves (m m' : Mem) (div : Ptr) (rem : Option Ptr) (locals : List Ptr) (q r : U64) :
    Prop where
  div_eq : m' div = q
  rem_eq : ∀ p, rem = some p → m' p = r
  frame : ∀ p, p ≠ div → rem ≠ some p → p ∉ locals → m' p = m p

theorem u64DivM_spec (m : Mem) {a b div : Ptr} {rem : Option Ptr} (hb : m b ≠ 0)
    (hbA : b ≠ .divA) (hd : div ∉ Ptr.divLocals)
    (hr : ∀ p, rem = some p → p ≠ div ∧ p ∉ Ptr.divLocals) :
    ∃ m', u64DivM m a b div rem = some m' ∧
      Leaves m m' div rem Ptr.divLocals (m a / m b) (m a % m b) := by
  have hval := u64Div_eq (m a) (m b) hb
  unfold u64Div at hval
  unfold u64DivM
  by_cases h32 : hi (m a) = 0 ∧ hi (m b) = 0
  · rw [if_pos h32] at hval ⊢
    obtain ⟨hq, hrem⟩ := Prod.ext_iff.mp hval
    dsimp only at hq hrem
    cases rem with
    | none =>
      simp only [setHi_setLo, hq]
      refine ⟨_, rfl, ⟨Function.update_self _ _ _, fun p h => absurd h (by simp), ?_⟩⟩
      intro p h1 _ _
      rw [Function.update_of_ne h1]
    | some rem =>
      obtain ⟨hne, _⟩ := hr rem rfl
      simp only [setHi_setLo, hq, hrem]
      refine ⟨_, rfl, ⟨Function.update_self _ _ _, fun p h => ?_, fun p h1 h2 _ => ?_⟩⟩
      · obtain rfl := Option.some.inj h
        rw [Function.update_of_ne hne, Function.update_self]
      · rw [Function.update_of_ne h1, Function.update_of_ne (fun e => h2 (by rw [e]))]
  · rw [if_neg h32] at hval ⊢
    obtain ⟨hA, hB, hS⟩ := not_divLocal.mp hd
    have hcopy : copy (copy m .divA a) .divB b
        = Function.update (Function.update m .divA (m a)) .divB (m b) := by
      unfold copy
      rw [Function.update_of_ne hbA]
    have hpos : 0 < (m b).toNat := Nat.pos_of_ne_zero fun h => hb (BitVec.eq_of_toNat_eq h)
    have halign := alignLoopM_eq 64 (Function.update (Function.update m .divA (m a)) .divB (m b)) 0
      (by rw [Function.update_self]; omega)
    rw [Function.update_self, Function.update_of_ne (by decide), Function.update_self,
      Function.update_idem] at halign
    simp only [hcopy, halign, setHi_setLo]
    generalize alignLoop 64 (m a) (m b) 0 = r at hval ⊢
    -- the second loop starts with both operands in the locals and the quotient zero
    obtain ⟨h1, h2, h3⟩ := divLoopM_spec hd (r.2 + 1) (Function.update (Function.update
      (Function.update m .divA (m a)) .divB r.1) div (mk 0 0))
    rw [Function.update_self, Function.update_of_ne hA.symm, Function.update_of_ne hB.symm,
      Function.update_self, Function.update_of_ne (by decide), Function.update_self,
      show mk 0 0 = 0 from rfl, hval] at h1 h2
    have hframe (p : Ptr) (p1 : p ≠ div) (p2 : p ∉ Ptr.divLocals) :
        divLoopM (r.2 + 1) (Function.update (Function.update (Function.update m .divA (m a))
          .divB r.1) div 0) div p = m p := by
      obtain ⟨pA, pB, _⟩ := not_divLocal.mp p2
      rw [show (0 : U64) = mk 0 0 from rfl, h3 p p1 p2, Function.update_of_ne p1,
        Function.update_of_ne pB, Function.update_of_ne pA]
    rw [show mk 0 0 = 0 from rfl]
    cases rem with
    | none =>
      exact ⟨_, rfl, ⟨h1, fun p h => absurd h (by simp), fun p p1 _ p2 => hframe p p1 p2⟩⟩
    | some rem =>
      obtain ⟨hne, _⟩ := hr rem rfl
      dsimp only [copy]
      refine ⟨_, rfl, ⟨?_, fun p h => ?_, fun p p1 p2 p3 => ?_⟩⟩
      · rw [Function.update_of_ne hne.symm, h1]
      · obtain rfl := Option.some.inj h
        rw [Function.update_self, h2]
      · rw [Function.update_of_ne (fun e => p2 (by rw [e])), hframe p p1 p3]

/-- the locals of `I64Div` and of the division it makes -/
def Ptr.idivLocals : List Ptr := [.idivA, .idivB] ++ Ptr.divLocals

theorem not_idivLocal {p : Ptr} :
    p ∉ Ptr.idivLocals ↔ (p ≠ .idivA ∧ p ≠ .idivB) ∧ p ∉ Ptr.divLocals := by
  unfold Ptr.idivLocals
  rw [List.mem_append, not_or, List.mem_cons, List.mem_singleton, not_or]

/-- `*p` negated or left -/
theorem negIf_eq (m : Mem) (p : Ptr) (neg : Bool) :
    (if neg then u64NegM m p p else m)
      = Function.update m p (if neg then u64Neg (m p) else m p) := by
  cases neg with
  | false => exact (Function.update_eq_self p m).symm
  | true =>
    show u64NegM m p p = Function.update m p (u64Neg (m p))
    rw [u64NegM_eq, u64Neg_eq]

/-- the size of an operand in a local -/
theorem absM_eq (m : Mem) (tmp a : Ptr) :
    (if i64IsNeg (m a) then u64NegM m tmp a else copy m tmp a)
      = Function.update m tmp (if i64IsNeg (m a) then u64Neg (m a) else m a) := by
  split
  · rw [u64NegM_eq, u64Neg_eq]
  · rfl

theorem i64DivM_spec (m : Mem) {a b div : Ptr} {rem : Option Ptr} (hb : m b ≠ 0)
    (hbA : b ≠ .idivA) (hd : div ∉ Ptr.idivLocals)
    (hr : ∀ p, rem = some p → p ≠ div ∧ p ∉ Ptr.idivLocals) :
    ∃ m', i64DivM m a b div rem = some m' ∧
      Leaves m m' div rem Ptr.idivLocals ((m a).sdiv (m b)) ((m a).srem (m b)) := by
  obtain ⟨⟨_, _⟩, hdiv⟩ := not_idivLocal.mp hd
  have hval := i64Div_eq (m a) (m b) hb
  have hB0 : (if i64IsNeg (m b) then u64Neg (m b) else m b) ≠ 0 := by
    split
    · rw [u64Neg_eq]
      exact neg_ne_zero.mpr hb
    · exact hb
  simp only [i64Div] at hval
  rw [u64Div_eq _ _ hB0] at hval
  unfold i64DivM
  have hneg : (if i64IsNeg (m b) then !i64IsNeg (m a) else i64IsNeg (m a))
      = decide (i64IsNeg (m a) ≠ i64IsNeg (m b)) := by
    cases i64IsNeg (m a) <;> cases i64IsNeg (m b) <;> rfl
  simp only [absM_eq]
  simp only [Function.update_of_ne hbA, hneg]
  generalize (if i64IsNeg (m a) then u64Neg (m a) else m a) = ta at hval ⊢
  generalize (if i64IsNeg (m b) then u64Neg (m b) else m b) = tb at hB0 hval ⊢
  have hA : Function.update (Function.update m .idivA ta) .idivB tb .idivA = ta := by
    rw [Function.update_of_ne (by decide), Function.update_self]
  have hB : Function.update (Function.update m .idivA ta) .idivB tb .idivB = tb :=
    Function.update_self _ _ _
  obtain ⟨m', h1, ⟨h2, h3, h4⟩⟩ := @u64DivM_spec
    (Function.update (Function.update m .idivA ta) .idivB tb) .idivA .idivB div rem (by rw [hB]; exact hB0) (by decide)
    hdiv (fun p h => ⟨(hr p h).1, (not_idivLocal.mp (hr p h).2).2⟩)
  rw [hA, hB] at h2 h3
  obtain ⟨hq, hrem⟩ := Prod.ext_iff.mp hval
  dsimp only at hq hrem
  have hframe (p : Ptr) (p1 : p ≠ div) (p2 : rem ≠ some p) (p3 : p ∉ Ptr.idivLocals) :
      m' p = m p := by
    obtain ⟨⟨pA, pB⟩, pD⟩ := not_idivLocal.mp p3
    rw [h4 p p1 p2 pD, Function.update_of_ne pB, Function.update_of_ne pA]
  have hneg' : (if decide (i64IsNeg (m a) ≠ i64IsNeg (m b)) then u64Neg (ta / tb) else ta / tb)
      = (m a).sdiv (m b) := by
    rw [← hq]
    simp only [decide_eq_true_eq]
  simp only [h1, negIf_eq, h2, hneg']
  cases rem with
  | none =>
    dsimp only
    refine ⟨_, rfl, ⟨Function.update_self _ _ _, fun p h => absurd h (by simp), fun p p1 p2 p3 => ?_⟩⟩
    rw [Function.update_of_ne p1, hframe p p1 p2 p3]
  | some rem =>
    obtain ⟨hne, _⟩ := hr rem rfl
    dsimp only
    refine ⟨_, rfl, ⟨?_, fun p h => ?_, fun p p1 p2 p3 => ?_⟩⟩
    · rw [Function.update_of_ne hne.symm, Function.update_self]
    · obtain rfl := Option.some.inj h
      rw [Function.update_self, Function.update_of_ne hne, h3 rem rfl, hrem]
    · rw [Function.update_of_ne (fun e => p2 (by rw [e])), Function.update_of_ne p1,
        hframe p p1 p2 p3]

/-! ## the routines as their callers see them -/

/-- the caller finds `v` in `*res` and its other objects as they were -/
def Returns (m m' : Mem) (res : Nat) (v : U64) : Prop :=
  ∀ n, m' (.caller n) = if n = res then v else m (.caller n)

/-- the caller finds `q` in `*div`, `r` in `*rem` and its other objects as they were -/
def ReturnsBoth (m m' : Mem) (div : Nat) (rem : Option Nat) (q r : U64) : Prop :=
  ∀ n, m' (.caller n) = if n = div then q else if rem = some n then r else m (.caller n)

theorem returns_update (m : Mem) (res : Nat) (v : U64) :
    Returns m (Function.update m (.caller res) v) res v := by
  intro n
  rw [Function.update_apply]
  simp only [Ptr.caller.injEq]

theorem Leaves.returns {m m' : Mem} {div : Nat} {rem : Option Nat} {locals : List Ptr} {q r : U64}
    (h : Leaves m m' (.caller div) (rem.map .caller) locals q r)
    (hl : ∀ n, Ptr.caller n ∉ locals) : ReturnsBoth m m' div rem q r := by
  intro n
  by_cases h1 : n = div
  · rw [if_pos h1, h1, h.div_eq]
  · rw [if_neg h1]
    by_cases h2 : rem = some n
    · rw [if_pos h2, h.rem_eq (.caller n) (by rw [h2]; rfl)]
    · rw [if_neg h2]
      refine h.frame _ (fun e => h1 (Ptr.caller.inj e)) (fun e => h2 ?_) (hl n)
      obtain ⟨k, hk, e⟩ := Option.map_eq_some_iff.mp e
      rw [hk, Ptr.caller.inj e]

section
variable (m : Mem) (a b res div : Nat) (rem : Option Nat)

theorem u64SubM_returns :
    Returns m (u64SubM m (.caller res) (.caller a) (.caller b)) res
      (m (.caller a) - m (.caller b)) := by
  intro n
  rw [u64SubM_eq _ _ _ _ (by simp), Function.update_apply, Function.update_of_ne (by simp)]
  simp only [Ptr.caller.injEq]

theorem u64MulM_returns :
    ∃ m', u64MulM m (.caller res) (.caller a) (.caller b) = some m' ∧
      Returns m m' res (m (.caller a) * m (.caller b)) := by
  obtain ⟨m', h1, h2, h3⟩ := @u64MulM_spec m (.caller res) (.caller a) (.caller b) (by simp)
    (by simp)
  refine ⟨m', h1, fun n => ?_⟩
  by_cases hn : n = res
  · rw [if_pos hn, hn, h2]
  · rw [if_neg hn, h3 _ (fun e => hn (Ptr.caller.inj e)) (by simp) (by simp)]

variable (hb : m (.caller b) ≠ 0) (hrem : rem ≠ some div)
include hb hrem

theorem u64DivM_returns :
    ∃ m', u64DivM m (.caller a) (.caller b) (.caller div) (rem.map .caller) = some m' ∧
      ReturnsBoth m m' div rem (m (.caller a) / m (.caller b)) (m (.caller a) % m (.caller b)) := by
  have hl (n : Nat) : Ptr.caller n ∉ Ptr.divLocals := by simp [not_divLocal]
  obtain ⟨m', h1, h2⟩ := @u64DivM_spec m (.caller a) (.caller b) (.caller div)
    (rem.map .caller) hb (by simp) (hl div) (fun p hp => by
      obtain ⟨k, hk, rfl⟩ := Option.map_eq_some_iff.mp hp
      exact ⟨fun e => hrem (by rw [hk, Ptr.caller.inj e]), hl k⟩)
  exact ⟨m', h1, h2.returns hl⟩

theorem i64DivM_returns :
    ∃ m', i64DivM m (.caller a) (.caller b) (.caller div) (rem.map .caller) = some m' ∧
      ReturnsBoth m m' div rem ((m (.caller a)).sdiv (m (.caller b)))
        ((m (.caller a)).srem (m (.caller b))) := by
  have hl (n : Nat) : Ptr.caller n ∉ Ptr.idivLocals := by simp [not_idivLocal, not_divLocal]
  obtain ⟨m', h1, h2⟩ := @i64DivM_spec m (.caller a) (.caller b) (.caller div)
    (rem.map .caller) hb (by simp) (hl div) (fun p hp => by
      obtain ⟨k, hk, rfl⟩ := Option.map_eq_some_iff.mp hp
      exact ⟨fun e => hrem (by rw [hk, Ptr.caller.inj e]), hl k⟩)
  exact ⟨m', h1, h2.returns hl⟩

end

theorem sdiv_eq_ofInt (x y : U64) : x.sdiv y = BitVec.ofInt 64 (x.toInt.tdiv y.toInt) := by
  apply BitVec.eq_of_toInt_eq
  rw [BitVec.toInt_sdiv, BitVec.toInt_ofInt]

theorem srem_eq_ofInt (x y : U64) : x.srem y = BitVec.ofInt 64 (x.toInt.tmod y.toInt) := by
  apply BitVec.eq_of_toInt_eq
  rw [← BitVec.toInt_srem, BitVec.ofInt_toInt]

/-- whatever pointers coincide (but `div` and `rem`), the divisions leave the quotient and the
remainder of their operands, and the other routines the result modulo `2 ^ 64` -/
theorem i64_aliased (m : Mem) (a b res div : Nat) (rem : Option Nat) (shift : Nat)
    (hb : m (.caller b) ≠ 0) (hrem : rem ≠ some div) (hs : shift < 64) :
    (∃ m' q r, u64DivM m (.caller a) (.caller b) (.caller div) (rem.map .caller) = some m' ∧
      ReturnsBoth m m' div rem q r ∧
      (m (.caller a)).toNat = q.toNat * (m (.caller b)).toNat + r.toNat ∧
      r.toNat < (m (.caller b)).toNat) ∧
    (∃ m', i64DivM m (.caller a) (.caller b) (.caller div) (rem.map .caller) = some m' ∧
      ReturnsBoth m m' div rem
        (BitVec.ofInt 64 ((m (.caller a)).toInt.tdiv (m (.caller b)).toInt))
        (BitVec.ofInt 64 ((m (.caller a)).toInt.tmod (m (.caller b)).toInt))) ∧
    (∃ m', u64MulM m (.caller res) (.caller a) (.caller b) = some m' ∧
      Returns m m' res
        (BitVec.ofNat 64 ((m (.caller a)).toNat * (m (.caller b)).toNat))) ∧
    Returns m (u64AddM m (.caller res) (.caller a) (.caller b)) res
      (BitVec.ofNat 64 ((m (.caller a)).toNat + (m (.caller b)).toNat)) ∧
    Returns m (u64SubM m (.caller res) (.caller a) (.caller b)) res
      (BitVec.ofInt 64 ((m (.caller a)).toNat - (m (.caller b)).toNat : Int)) ∧
    Returns m (u64ShiftLM m (.caller res) (.caller a) shift) res
      (BitVec.ofNat 64 ((m (.caller a)).toNat * 2 ^ shift)) ∧
    Returns m (u64ShiftRM m (.caller res) (.caller a) shift) res
      (BitVec.ofNat 64 ((m (.caller a)).toNat / 2 ^ shift)) ∧
    Returns m (i64ShiftRM m (.caller res) (.caller a) shift) res
      (BitVec.ofInt 64 ((m (.caller a)).toInt / 2 ^ shift)) := by
  refine ⟨?_, ?_, ?_, ?_, ?_, ?_, ?_, ?_⟩
  · obtain ⟨m', h1, h2⟩ := u64DivM_returns m a b div rem hb hrem
    have hpos : 0 < (m (.caller b)).toNat :=
      Nat.pos_of_ne_zero fun h => hb (BitVec.eq_of_toNat_eq h)
    refine ⟨m', _, _, h1, h2, ?_, ?_⟩
    · rw [BitVec.toNat_udiv, BitVec.toNat_umod, Nat.mul_comm, Nat.div_add_mod]
    · rw [BitVec.toNat_umod]
      exact Nat.mod_lt _ hpos
  · rw [← sdiv_eq_ofInt, ← srem_eq_ofInt]
    exact i64DivM_returns m a b div rem hb hrem
  · rw [← BitVec.ofNat_mul_ofNat, BitVec.ofNat_toNat, BitVec.ofNat_toNat, BitVec.setWidth_eq,
      BitVec.setWidth_eq]
    exact u64MulM_returns m a b res
  · rw [← BitVec.ofNat_add_ofNat, BitVec.ofNat_toNat, BitVec.ofNat_toNat, BitVec.setWidth_eq,
      BitVec.setWidth_eq, u64AddM_eq]
    exact returns_update m res _
  · have hsub : BitVec.ofInt 64 ((m (.caller a)).toNat - (m (.caller b)).toNat : Int)
        = m (.caller a) - m (.caller b) := by
      apply BitVec.eq_of_toNat_eq
      have h1 := (m (.caller a)).isLt
      have h2 := (m (.caller b)).isLt
      rw [BitVec.toNat_ofInt, BitVec.toNat_sub]
      omega
    rw [hsub]
    exact u64SubM_returns m a b res
  · have hshl : BitVec.ofNat 64 ((m (.caller a)).toNat * 2 ^ shift) = m (.caller a) <<< shift := by
      apply BitVec.eq_of_toNat_eq
      rw [BitVec.toNat_ofNat, BitVec.toNat_shiftLeft, Nat.shiftLeft_eq]
    rw [hshl, u64ShiftLM_eq, u64ShiftL_eq _ hs]
    exact returns_update m res _
  · have hshr : BitVec.ofNat 64 ((m (.caller a)).toNat / 2 ^ shift) = m (.caller a) >>> shift := by
      apply BitVec.eq_of_toNat_eq
      rw [← Nat.shiftRight_eq_div_pow, ← BitVec.toNat_ushiftRight, BitVec.ofNat_toNat,
        BitVec.setWidth_eq]
    rw [hshr, u64ShiftRM_eq, u64ShiftR_eq _ hs]
    exact returns_update m res _
  · have hsar : BitVec.ofInt 64 ((m (.caller a)).toInt / 2 ^ shift)
        = (m (.caller a)).sshiftRight shift := by
      have hpow : ((2 : Int) ^ shift) = ((2 ^ shift : Nat) : Int) := by push_cast; rfl
      rw [hpow, ← Int.shiftRight_eq_div_pow, ← BitVec.toInt_sshiftRight, BitVec.ofInt_toInt]
    rw [hsar, i64ShiftRM_eq, i64ShiftR_eq _ hs]
    exact returns_update m res _

/-- quotient and remainder of `-17` and `5`, left in the operands themselves -/
theorem i64_aliased_minus_seventeen :
    ∃ m', i64DivM (fun p => if p = .caller 0 then -17 else 5) (.caller 0) (.caller 1) (.caller 0)
        (some (.caller 1)) = some m' ∧ m' (.caller 0) = -3 ∧ m' (.caller 1) = -2 := by
  obtain ⟨m', h1, h2⟩ := (i64_aliased (fun p => if p = .caller 0 then -17 else 5) 0 1 0 0 (some 1) 1
    (by decide) (by decide) (by decide)).2.1
  refine ⟨m', h1, ?_, ?_⟩
  · rw [h2 0]
    decide
  · rw [h2 1]
    decide

end I64
