import Mathlib

/-!
# Multiplication by a constant as shifts and adds (`cg/c/multiply.c`)

`Factor` writes the code of a multiplication by `num` into the array `Ops` from its end: first the
factors `2^k - 1` and `2^k + 1` it can divide `num` by, then a chain of shifts, additions and
subtractions for what remains.  `CheckMul` emits the entries from the returned index on.

* `Completes`   what the entries written so far still do to the factor that is left;
* `factorLoop_spec`, `chainLoop_spec`   the two phases end, and keep it;
* `factor_mul`   the entries multiply by `num`, with shift counts below 32;
* `checkMul_mul`   the instructions `CheckMul` emits multiply by its right operand.
-/

namespace Multiply

/-- an entry of `Ops` -/
inductive Op where
  | shl (cnt : Nat)
  | sub
  | add
  | xfr
  deriving Repr, DecidableEq

abbrev Word := BitVec 32

/-- `MAXOPS` -/
def maxOps : Nat := 20

/-- `CountBits` -/
def countBits (value : Word) : Word :=
  let value := value - ((value >>> 1) &&& 0x55555555#32)
  let temp := (value >>> 2) &&& 0x33333333#32
  let value := (value &&& 0x33333333#32) + temp
  let value := (value + (value >>> 4)) &&& 0x0F0F0F0F#32
  let value := value + (value <<< 8)
  let value := value + (value <<< 16)
  value >>> 24

/-- the target's cost estimates -/
structure Costs where
  shiftCost : Nat → Int
  addCost : Int
  subCost : Int
  mulCost : Word → Int

/-! ## Factor -/

/-- `if( --i < 0 ) return( MAXOPS )` and the entry stored at `i`: `ops` are the entries from `i` -/
def push (ops : List Op) (o : Op) : Option (List Op) :=
  if ops.length = maxOps then none else some (o :: ops)

/-- `while( test )`: the power of two above `test` and its exponent -/
def scaleUp : Nat → Word → Word → Nat → Option (Word × Nat)
  | 0, _, _, _ => none
  | fuel + 1, test, pow2, shlcnt =>
    if test = 0 then some (pow2, shlcnt)
    else scaleUp fuel (test >>> 1) (pow2 <<< 1) (shlcnt + 1)

/-- the divisor tried at `pow2`, `0` for none -/
def candidate (num pow2 : Word) : Word :=
  if num % (pow2 - 1) = 0 then pow2 - 1
  else if num % (pow2 + 1) = 0 then pow2 + 1
  else 0

/-- dividing by the candidate saves at least two bits -/
def takes (num pow2 : Word) : Bool :=
  candidate num pow2 ≠ 0
    ∧ countBits (num / candidate num pow2) + 2 ≤ countBits num

structure Divisor where
  test : Word
  pow2 : Word
  shlcnt : Nat

/-- `while( pow2 != 1 )`: the divisor that the loop leaves with -/
def findDivisor : Nat → Word → Word → Nat → Option (Option Divisor)
  | 0, _, _, _ => none
  | fuel + 1, num, pow2, shlcnt =>
    if pow2 = 1 then some none
    else if takes num pow2 then some (some ⟨candidate num pow2, pow2, shlcnt⟩)
    else findDivisor fuel num (pow2 >>> 1) (shlcnt - 1)

/-- the three entries of a divisor -/
def pushDivisor (ops : List Op) (d : Divisor) : Option (List Op) := do
  let ops ← push ops (if d.test = d.pow2 - 1 then .sub else .add)
  let ops ← push ops (.shl d.shlcnt)
  push ops .xfr

/-- the first phase; the outer `none` is a loop that has not ended, the inner one
`return( MAXOPS )` -/
def factorLoop : Nat → Word → Word → List Op → Option (Option (Word × List Op))
  | 0, _, _, _ => none
  | fuel + 1, num, test, ops => do
    let (pow2, shlcnt) ← scaleUp 33 test 1 0
    match ← findDivisor 33 num pow2 shlcnt with
    | none => some (some (num, ops))
    | some d =>
      match pushDivisor ops d with
      | none => some none
      | some ops => factorLoop fuel (num / d.test) d.test ops

/-- `while( (num & 1) == 0 )` -/
def stripZeros : Nat → Word → Nat → Option (Word × Nat)
  | 0, _, _ => none
  | fuel + 1, num, shlcnt =>
    if num &&& 1 = 0 then stripZeros fuel (num >>> 1) (shlcnt + 1) else some (num, shlcnt)

def pushShift (ops : List Op) (shlcnt : Nat) : Option (List Op) :=
  if shlcnt ≠ 0 then push ops (.shl shlcnt) else some ops

/-- the second phase -/
def chainLoop : Nat → Word → Nat → List Op → Option (Option (List Op))
  | 0, _, _, _ => none
  | fuel + 1, num, shlcnt, ops => do
    let (num, shlcnt) ← stripZeros 33 num shlcnt
    match pushShift ops shlcnt with
    | none => some none
    | some ops =>
      if num = 1 then some (some ops)
      else if num &&& 3 = 1 then
        match push ops .add with
        | none => some none
        | some ops => chainLoop fuel (num >>> 1) 1 ops
      else
        match push ops .sub with
        | none => some none
        | some ops => chainLoop fuel (num + 1) 0 ops

/-- the index `i` of the first entry -/
def index (ops : List Op) : Nat := maxOps - ops.length

def opCost (c : Costs) : Op → Int
  | .shl cnt => c.shiftCost cnt
  | .add => c.addCost
  | .sub => c.subCost
  | .xfr => 1

/-- the cost estimate: that of the entries and one for each instruction more -/
def totalCost (c : Costs) (ops : List Op) : Int :=
  (ops.map (opCost c)).sum + ((maxOps - index ops + 1 : Nat) : Int)

/-- what `Factor` leaves: the entries from the returned index on, and `*cost` -/
structure Factored where
  ops : List Op
  cost : Int

/-- `Factor`; `return( MAXOPS )` leaves no entries -/
def factor (c : Costs) (num : Word) : Option Factored :=
  if num = 0 then some ⟨[], 0⟩
  else if num = 0xFFFFFFFF#32 then some ⟨[], 0⟩
  else do
    match ← factorLoop 33 num (num >>> 1) [] with
    | none => some ⟨[], 0⟩
    | some (num, ops) =>
      match ← chainLoop 33 num 0 ops with
      | none => some ⟨[], 0⟩
      | some ops => some ⟨ops, totalCost c ops⟩

/-! ## CheckMul -/

/-- the two temporaries of the emitted code -/
structure Temps (w : Nat) where
  orig : BitVec w
  temp : BitVec w

/-- the instruction `CheckMul` emits for an entry -/
def Op.step {w : Nat} (t : Temps w) : Op → Temps w
  | .xfr => { t with orig := t.temp }
  | .add => { t with temp := t.temp + t.orig }
  | .sub => { t with temp := t.temp - t.orig }
  | .shl cnt => { t with temp := t.temp <<< cnt }

def runOps {w : Nat} (ops : List Op) (t : Temps w) : Temps w := ops.foldl Op.step t

/-- `CheckMul`: `none` inside keeps the instruction, else whether the result is negated and the
entries emitted; `sw` is a signed word instruction -/
def checkMul (c : Costs) (sw : Bool) (rhs : Word) : Option (Option (Bool × List Op)) := do
  let neg := sw && rhs.msb
  let rhs := if neg then -rhs else rhs
  let r ← factor c rhs
  if c.mulCost rhs ≤ r.cost then some none
  else if index r.ops = maxOps then some none
  else some (some (neg, r.ops))

/-- the value of the emitted instructions -/
def emitted {w : Nat} (code : Bool × List Op) (x : BitVec w) : BitVec w :=
  let temp := (runOps code.2 ⟨x, x⟩).temp
  if code.1 then -temp else temp

/-! ## what the entries compute -/

/-- with `x * m` in `temp` the entries end with `x * num`, whatever `orig` holds -/
def Completes (num m : Nat) (ops : List Op) : Prop :=
  ∀ (w : Nat) (o x : BitVec w),
    (runOps ops ⟨o, x * BitVec.ofNat w m⟩).temp = x * BitVec.ofNat w num

/-- the same where `orig` still holds `x` -/
def CompletesFrom (num m : Nat) (ops : List Op) : Prop :=
  ∀ (w : Nat) (x : BitVec w),
    (runOps ops ⟨x, x * BitVec.ofNat w m⟩).temp = x * BitVec.ofNat w num

theorem runOps_cons {w : Nat} (o : Op) (ops : List Op) (t : Temps w) :
    runOps (o :: ops) t = runOps ops (o.step t) := rfl

theorem mul_shiftLeft {w : Nat} (x : BitVec w) (m k : Nat) :
    (x * BitVec.ofNat w m) <<< k = x * BitVec.ofNat w (m * 2 ^ k) := by
  apply BitVec.eq_of_toNat_eq
  rw [BitVec.toNat_shiftLeft, Nat.shiftLeft_eq, BitVec.toNat_mul, BitVec.toNat_mul,
    BitVec.toNat_ofNat, BitVec.toNat_ofNat, Nat.mod_mul_mod, Nat.mul_mod_mod,
    Nat.mul_right_comm, Nat.mul_mod_mod, Nat.mul_right_comm, Nat.mul_assoc]

theorem mul_add_self {w : Nat} (x : BitVec w) (m : Nat) :
    x * BitVec.ofNat w m + x = x * BitVec.ofNat w (m + 1) := by
  rw [← BitVec.ofNat_add_ofNat, BitVec.mul_add, BitVec.mul_one]

theorem mul_sub_self {w : Nat} (x : BitVec w) (m : Nat) :
    x * BitVec.ofNat w (m + 1) - x = x * BitVec.ofNat w m := by
  rw [← mul_add_self, BitVec.add_sub_cancel]

/-- a shift takes the pending power of two -/
theorem CompletesFrom.shl {num m k : Nat} {ops : List Op}
    (h : CompletesFrom num (m * 2 ^ k) ops) : CompletesFrom num m (.shl k :: ops) := by
  intro w x
  rw [runOps_cons]
  show (runOps ops ⟨x, (x * BitVec.ofNat w m) <<< k⟩).temp = _
  rw [mul_shiftLeft]
  exact h w x

theorem CompletesFrom.add {num m : Nat} {ops : List Op}
    (h : CompletesFrom num (m + 1) ops) : CompletesFrom num m (.add :: ops) := by
  intro w x
  rw [runOps_cons]
  show (runOps ops ⟨x, x * BitVec.ofNat w m + x⟩).temp = _
  rw [mul_add_self]
  exact h w x

theorem CompletesFrom.sub {num m : Nat} {ops : List Op}
    (h : CompletesFrom num m ops) : CompletesFrom num (m + 1) (.sub :: ops) := by
  intro w x
  rw [runOps_cons]
  show (runOps ops ⟨x, x * BitVec.ofNat w (m + 1) - x⟩).temp = _
  rw [mul_sub_self]
  exact h w x

theorem Completes.from {num m : Nat} {ops : List Op} (h : Completes num m ops) :
    CompletesFrom num m ops := fun w x => h w x x

theorem mul_ofNat_mul {w : Nat} (x : BitVec w) (a b : Nat) :
    x * BitVec.ofNat w (a * b) = x * BitVec.ofNat w a * BitVec.ofNat w b := by
  rw [BitVec.mul_assoc, BitVec.ofNat_mul_ofNat]

/-- the three entries of the divisor `2^k - 1` -/
theorem Completes.divideSub {num m k : Nat} {ops : List Op}
    (h : Completes num (m * (2 ^ k - 1)) ops) :
    Completes num m (.xfr :: .shl k :: .sub :: ops) := by
  intro w o x
  rw [runOps_cons, runOps_cons, runOps_cons]
  show (runOps ops ⟨x * BitVec.ofNat w m, (x * BitVec.ofNat w m) <<< k - x * BitVec.ofNat w m⟩).temp
    = _
  have hk : 2 ^ k = (2 ^ k - 1) + 1 := (Nat.sub_add_cancel Nat.one_le_two_pow).symm
  rw [mul_shiftLeft, hk, mul_ofNat_mul, mul_sub_self, ← mul_ofNat_mul]
  exact h w _ x

/-- the three entries of the divisor `2^k + 1` -/
theorem Completes.divideAdd {num m k : Nat} {ops : List Op}
    (h : Completes num (m * (2 ^ k + 1)) ops) :
    Completes num m (.xfr :: .shl k :: .add :: ops) := by
  intro w o x
  rw [runOps_cons, runOps_cons, runOps_cons]
  show (runOps ops ⟨x * BitVec.ofNat w m, (x * BitVec.ofNat w m) <<< k + x * BitVec.ofNat w m⟩).temp
    = _
  rw [mul_shiftLeft, mul_ofNat_mul, mul_add_self, ← mul_ofNat_mul]
  exact h w _ x

/-- the entries lie in `Ops` and their shift counts below the width -/
structure Fits (ops : List Op) : Prop where
  length_le : ops.length ≤ maxOps
  cnt_lt : ∀ cnt, Op.shl cnt ∈ ops → cnt < 32

theorem Fits.nil : Fits [] := ⟨Nat.zero_le _, fun _ h => absurd h List.not_mem_nil⟩

theorem push_fits {ops ops' : List Op} {o : Op} (h : push ops o = some ops') (hf : Fits ops)
    (ho : ∀ cnt, o = .shl cnt → cnt < 32) : ops' = o :: ops ∧ Fits ops' := by
  unfold push at h
  split at h
  · exact absurd h (by simp)
  · rename_i hlen
    have hl := hf.length_le
    obtain rfl := Option.some.inj h
    refine ⟨rfl, ⟨?_, ?_⟩⟩
    · rw [List.length_cons]
      omega
    · intro cnt hc
      rcases List.mem_cons.mp hc with hc | hc
      · exact ho cnt hc.symm
      · exact hf.cnt_lt cnt hc

/-! ## the first phase -/

/-- what the first phase keeps: `num` is the factor left of `num0` -/
structure Factoring (num0 num : Nat) (ops : List Op) : Prop where
  pos : 0 < num
  le : num ≤ num0
  fits : Fits ops
  completes : Completes num0 num ops

theorem scaleUp_spec : ∀ (fuel : Nat) (test pow2 : Word) (k : Nat), k ≤ 31 →
    pow2.toNat = 2 ^ k → test.toNat < 2 ^ (31 - k) → 31 - k < fuel →
    ∃ (pow2' : Word) (k' : Nat), scaleUp fuel test pow2 k = some (pow2', k') ∧ k' ≤ 31 ∧
      pow2'.toNat = 2 ^ k' := by
  intro fuel
  induction fuel with
  | zero => intro _ _ k _ _ _ h; exact absurd h (Nat.not_lt_zero _)
  | succ fuel ih =>
    intro test pow2 k hk hp ht hf
    rw [scaleUp]
    split
    · exact ⟨pow2, k, rfl, hk, hp⟩
    · rename_i h0
      have hne : test.toNat ≠ 0 := fun h => h0 (BitVec.eq_of_toNat_eq h)
      have hk' : k ≠ 31 := by
        rintro rfl
        simp only [Nat.sub_self, pow_zero] at ht
        omega
      have hlt : 2 ^ (k + 1) < 2 ^ 32 := Nat.pow_lt_pow_right (by norm_num) (by omega)
      have hsplit : 2 ^ (31 - k) = 2 ^ (31 - (k + 1)) * 2 := by
        rw [← pow_succ]
        congr 1
        omega
      refine ih (test >>> 1) (pow2 <<< 1) (k + 1) (by omega) ?_ ?_ (by omega)
      · rw [BitVec.toNat_shiftLeft, Nat.shiftLeft_eq, hp, ← pow_succ, Nat.mod_eq_of_lt hlt]
      · rw [BitVec.toNat_ushiftRight, Nat.shiftRight_eq_div_pow, pow_one]
        omega

theorem findDivisor_spec (num : Word) : ∀ (fuel : Nat) (pow2 : Word) (k : Nat), k ≤ 31 →
    pow2.toNat = 2 ^ k → k < fuel →
    findDivisor fuel num pow2 k = some none ∨
      ∃ d, findDivisor fuel num pow2 k = some (some d) ∧ d.test = candidate num d.pow2 ∧
        takes num d.pow2 = true ∧ d.pow2.toNat = 2 ^ d.shlcnt ∧ 1 ≤ d.shlcnt ∧ d.shlcnt ≤ 31 := by
  intro fuel
  induction fuel with
  | zero => intro _ k _ _ h; exact absurd h (Nat.not_lt_zero _)
  | succ fuel ih =>
    intro pow2 k hk hp hf
    rw [findDivisor]
    split
    · exact Or.inl rfl
    · rename_i h1
      have hk0 : k ≠ 0 := by
        rintro rfl
        exact h1 (BitVec.eq_of_toNat_eq (by rw [hp]; rfl))
      have hsplit : 2 ^ k = 2 ^ (k - 1) * 2 := by
        rw [← pow_succ, Nat.sub_add_cancel (by omega)]
      split
      · rename_i ht
        exact Or.inr ⟨_, rfl, rfl, ht, hp, by show 1 ≤ k; omega, hk⟩
      · refine ih (pow2 >>> 1) (k - 1) (by omega) ?_ (by omega)
        rw [BitVec.toNat_ushiftRight, Nat.shiftRight_eq_div_pow, pow_one, hp, hsplit,
          Nat.mul_div_cancel _ (by norm_num)]

theorem candidate_cases (num pow2 : Word) (h : candidate num pow2 ≠ 0) :
    num % candidate num pow2 = 0 ∧
      (candidate num pow2 = pow2 - 1 ∨
        (candidate num pow2 = pow2 + 1 ∧ candidate num pow2 ≠ pow2 - 1)) := by
  unfold candidate at h ⊢
  split
  · rename_i h1
    exact ⟨h1, Or.inl rfl⟩
  · rename_i h1
    split
    · rename_i h2
      exact ⟨h2, Or.inr ⟨rfl, fun e => h1 (e ▸ h2)⟩⟩
    · rename_i h2
      rw [if_neg h1, if_neg h2] at h
      exact absurd rfl h

theorem takes_spec {num pow2 : Word} {k : Nat} (hnum : 0 < num.toNat) (hp : pow2.toNat = 2 ^ k)
    (hk1 : 1 ≤ k) (hk : k ≤ 31) (ht : takes num pow2 = true) :
    num.toNat = (num / candidate num pow2).toNat * (candidate num pow2).toNat ∧
      2 ≤ (candidate num pow2).toNat ∧ (candidate num pow2).toNat < 2 ^ 31 ∧
      (((candidate num pow2).toNat = 2 ^ k - 1 ∧ candidate num pow2 = pow2 - 1) ∨
        ((candidate num pow2).toNat = 2 ^ k + 1 ∧ candidate num pow2 ≠ pow2 - 1)) := by
  unfold takes at ht
  obtain ⟨h0, hbits⟩ := of_decide_eq_true ht
  obtain ⟨hmod, hcase⟩ := candidate_cases num pow2 h0
  generalize candidate num pow2 = t at h0 hbits hmod hcase ⊢
  have hpow : 2 ^ k ≤ 2 ^ 31 := Nat.pow_le_pow_right (by norm_num) hk
  have hpow1 : 2 ^ 1 ≤ 2 ^ k := Nat.pow_le_pow_right (by norm_num) hk1
  have hdiv : num.toNat = (num / t).toNat * t.toNat := by
    have hm : num.toNat % t.toNat = 0 := by
      rw [← BitVec.toNat_umod, hmod]
      rfl
    rw [BitVec.toNat_udiv, Nat.div_mul_cancel (Nat.dvd_of_mod_eq_zero hm)]
  -- a quotient that does not lose bits is not taken
  have hone : t ≠ 1 := by
    rintro rfl
    have hq : num / (1 : Word) = num := BitVec.udiv_one
    rw [hq, BitVec.le_def, BitVec.toNat_add] at hbits
    have hc : (countBits num).toNat < 2 ^ 8 := by
      unfold countBits
      rw [BitVec.toNat_ushiftRight, Nat.shiftRight_eq_div_pow]
      exact Nat.div_lt_of_lt_mul (BitVec.isLt _)
    rw [Nat.mod_eq_of_lt (by show _ + 2 < _; omega)] at hbits
    exact absurd hbits (by show ¬ _ + 2 ≤ _; omega)
  have hne1 : t.toNat ≠ 1 := fun h => hone (BitVec.eq_of_toNat_eq h)
  have hne0 : t.toNat ≠ 0 := fun h => h0 (BitVec.eq_of_toNat_eq h)
  rcases hcase with rfl | ⟨rfl, hne⟩
  · have hsub : (pow2 - 1).toNat = 2 ^ k - 1 := by
      rw [BitVec.toNat_sub, hp]
      show (2 ^ 32 - 1 + 2 ^ k) % 2 ^ 32 = _
      omega
    exact ⟨hdiv, by omega, by omega, Or.inl ⟨hsub, rfl⟩⟩
  · have hadd : (pow2 + 1).toNat = 2 ^ k + 1 := by
      rw [BitVec.toNat_add, hp]
      exact Nat.mod_eq_of_lt (by show 2 ^ k + 1 < _; omega)
    -- `2^31 + 1` has two bits: dividing it away saves only one
    have hk30 : k ≠ 31 := by
      rintro rfl
      have hlt := num.isLt
      have hq : (num / (pow2 + 1)).toNat = 1 := by
        rw [hadd] at hdiv
        generalize (num / (pow2 + 1)).toNat = q at hdiv ⊢
        rcases q with _ | _ | q
        · omega
        · rfl
        · exfalso
          have : (q + 2) * (2 ^ 31 + 1) = q * (2 ^ 31 + 1) + 2 * (2 ^ 31 + 1) := by ring
          omega
      have hn : num = 0x80000001#32 := BitVec.eq_of_toNat_eq (by rw [hdiv, hq, hadd]; rfl)
      have hq' : num / (pow2 + 1) = 1 := BitVec.eq_of_toNat_eq hq
      rw [hq', hn] at hbits
      exact absurd hbits (by decide)
    have h30 : 2 ^ k ≤ 2 ^ 30 := Nat.pow_le_pow_right (by norm_num) (by omega)
    exact ⟨hdiv, by omega, by omega, Or.inr ⟨hadd, hne⟩⟩

/-- a divisor's entries undo the division -/
theorem pushDivisor_spec {num0 m k : Nat} {d : Divisor} {ops ops' : List Op}
    (h : pushDivisor ops d = some ops') (hk : d.shlcnt = k) (hlt : k < 32)
    (hd : (d.test.toNat = 2 ^ k - 1 ∧ d.test = d.pow2 - 1) ∨
      (d.test.toNat = 2 ^ k + 1 ∧ d.test ≠ d.pow2 - 1))
    (hf : Fits ops) (hc : Completes num0 (m * d.test.toNat) ops) :
    Fits ops' ∧ Completes num0 m ops' := by
  subst hk
  obtain ⟨ops1, h1, h⟩ := Option.bind_eq_some_iff.mp h
  obtain ⟨ops2, h2, h3⟩ := Option.bind_eq_some_iff.mp h
  obtain ⟨e1, f1⟩ := push_fits h1 hf (fun cnt e => by split at e <;> exact absurd e (by simp))
  obtain ⟨e2, f2⟩ := push_fits h2 f1 (fun cnt e => by cases e; exact hlt)
  obtain ⟨e3, f3⟩ := push_fits h3 f2 (fun cnt e => by cases e)
  refine ⟨f3, ?_⟩
  rw [e3, e2, e1]
  rcases hd with ⟨ht, heq⟩ | ⟨ht, hne⟩
  · rw [if_pos heq]
    rw [ht] at hc
    exact hc.divideSub
  · rw [if_neg hne]
    rw [ht] at hc
    exact hc.divideAdd

theorem factorLoop_spec {num0 : Nat} : ∀ (fuel : Nat) (num test : Word) (ops : List Op),
    Factoring num0 num.toNat ops → num.toNat < 2 ^ fuel → test.toNat < 2 ^ 31 →
    factorLoop fuel num test ops = some none ∨
      ∃ num' ops', factorLoop fuel num test ops = some (some (num', ops')) ∧
        Factoring num0 num'.toNat ops' := by
  intro fuel
  induction fuel with
  | zero =>
    intro num _ _ hi hlt _
    have := hi.pos
    omega
  | succ fuel ih =>
    intro num test ops hi hlt ht
    rw [factorLoop]
    obtain ⟨pow2, k, hs, hk, hp⟩ := scaleUp_spec 33 test 1 0 (by norm_num) rfl ht (by norm_num)
    simp only [hs, Option.bind_eq_bind, Option.bind_some]
    rcases findDivisor_spec num 33 pow2 k hk hp (by omega) with hn | ⟨d, hd, hdt, htk, hdp, h1, h31⟩
    · rw [hn]
      exact Or.inr ⟨num, ops, rfl, hi⟩
    · simp only [hd, Option.bind_some]
      obtain ⟨hdiv, h2, hlt31, hcase⟩ := takes_spec hi.pos hdp h1 h31 htk
      rw [← hdt] at hdiv h2 hlt31 hcase
      cases hpush : pushDivisor ops d with
      | none => exact Or.inl rfl
      | some ops' =>
        have hc := hi.completes
        rw [hdiv] at hc
        obtain ⟨hf', hc'⟩ := pushDivisor_spec hpush rfl (by omega) hcase hi.fits hc
        have hpos := hi.pos
        have hle := hi.le
        have hqpos : 0 < (num / d.test).toNat := by
          rw [hdiv] at hpos
          exact Nat.pos_of_mul_pos_right hpos
        have hq2 : (num / d.test).toNat * 2 ≤ num.toNat :=
          le_of_le_of_eq (Nat.mul_le_mul_left _ h2) hdiv.symm
        rw [pow_succ] at hlt
        exact ih (num / d.test) d.test ops' ⟨hqpos, by omega, hf', hc'⟩ (by omega) hlt31

/-! ## the second phase -/

theorem and_one_eq_zero (num : Word) : num &&& 1 = 0 ↔ num.toNat % 2 = 0 := by
  rw [← BitVec.toNat_inj, BitVec.toNat_and]
  show num.toNat &&& 1 = 0 ↔ _
  rw [Nat.and_one_is_mod]

theorem and_three_eq_one (num : Word) : num &&& 3 = 1 ↔ num.toNat % 4 = 1 := by
  rw [← BitVec.toNat_inj, BitVec.toNat_and]
  show num.toNat &&& (2 ^ 2 - 1) = 1 ↔ _
  rw [Nat.and_two_pow_sub_one_eq_mod]

theorem stripZeros_spec : ∀ (fuel : Nat) (num : Word) (k : Nat), 0 < num.toNat →
    num.toNat < 2 ^ fuel →
    ∃ (num' : Word) (z : Nat), stripZeros fuel num k = some (num', k + z) ∧
      num.toNat = num'.toNat * 2 ^ z ∧ num'.toNat % 2 = 1 := by
  intro fuel
  induction fuel with
  | zero => intro _ _ h0 h1; omega
  | succ fuel ih =>
    intro num k h0 h1
    rw [stripZeros]
    by_cases he : num &&& 1 = 0
    · rw [if_pos he]
      rw [and_one_eq_zero] at he
      have hs : (num >>> 1).toNat = num.toNat / 2 := by
        rw [BitVec.toNat_ushiftRight, Nat.shiftRight_eq_div_pow, pow_one]
      rw [pow_succ] at h1
      obtain ⟨num', z, hr, hm, ho⟩ := ih (num >>> 1) (k + 1) (by omega) (by omega)
      refine ⟨num', z + 1, by rw [hr]; congr 2; omega, ?_, ho⟩
      rw [pow_succ, ← Nat.mul_assoc, ← hm, hs]
      omega
    · rw [if_neg he]
      rw [and_one_eq_zero] at he
      exact ⟨num, 0, rfl, by rw [pow_zero, Nat.mul_one], by omega⟩

theorem pushShift_spec {num0 m k : Nat} {ops ops' : List Op} (h : pushShift ops k = some ops')
    (hk : k < 32) (hf : Fits ops) (hc : CompletesFrom num0 (m * 2 ^ k) ops) :
    Fits ops' ∧ CompletesFrom num0 m ops' := by
  unfold pushShift at h
  split at h
  · obtain ⟨e, f⟩ := push_fits h hf (fun cnt e => by cases e; exact hk)
    refine ⟨f, ?_⟩
    rw [e]
    exact hc.shl
  · rename_i h0
    obtain rfl := not_not.mp h0
    obtain rfl := Option.some.inj h
    rw [pow_zero, Nat.mul_one] at hc
    exact ⟨hf, hc⟩

/-- what the second phase keeps: the shift by `k` is pending -/
structure Chaining (num0 num k : Nat) (ops : List Op) : Prop where
  pos : 0 < num
  lt : num * 2 ^ k < 2 ^ 32
  fits : Fits ops
  completes : CompletesFrom num0 (num * 2 ^ k) ops

/-- each turn takes a bit off the odd part of `num` -/
theorem chainLoop_spec {num0 : Nat} : ∀ (fuel : Nat) (num : Word) (k : Nat) (ops : List Op),
    Chaining num0 num.toNat k ops → num ≠ 0xFFFFFFFF#32 →
    (num.toNat < 2 ^ fuel ∨ (num.toNat % 4 = 0 ∧ num.toNat < 2 ^ (fuel + 2))) →
    chainLoop fuel num k ops = some none ∨
      ∃ ops', chainLoop fuel num k ops = some (some ops') ∧ Fits ops' ∧
        CompletesFrom num0 1 ops' := by
  intro fuel
  induction fuel with
  | zero =>
    intro num _ _ hi _ hlt
    have := hi.pos
    omega
  | succ fuel ih =>
    intro num k ops hi hne hlt
    have h33 : num.toNat < 2 ^ 33 := lt_trans num.isLt (by norm_num)
    obtain ⟨n, z, hs, hm, hodd⟩ := stripZeros_spec 33 num k hi.pos h33
    have hmul : num.toNat * 2 ^ k = n.toNat * 2 ^ (k + z) := by
      rw [hm, Nat.mul_assoc, ← pow_add, Nat.add_comm z k]
    have hlt32 := hi.lt
    have hc := hi.completes
    rw [hmul] at hlt32 hc
    have hkz : k + z < 32 := by
      by_contra hge
      have h1 : 2 ^ 32 ≤ 2 ^ (k + z) := Nat.pow_le_pow_right (by norm_num) (by omega)
      have h2 : 1 * 2 ^ (k + z) ≤ n.toNat * 2 ^ (k + z) := Nat.mul_le_mul_right _ (by omega)
      omega
    have hn : n.toNat < 2 ^ (fuel + 1) := by
      have h1 : 1 ≤ 2 ^ z := Nat.one_le_two_pow
      rcases hlt with hlt | ⟨h4, hlt⟩
      · exact lt_of_le_of_lt (le_of_le_of_eq (Nat.le_mul_of_pos_right _ h1) hm.symm) hlt
      · have hz : z ≠ 0 ∧ z ≠ 1 := by
          constructor <;> rintro rfl <;> omega
        obtain ⟨z, rfl⟩ := Nat.exists_eq_add_of_le (show 2 ≤ z by omega)
        have h2 : num.toNat = n.toNat * 2 ^ z * 4 := by rw [hm, Nat.pow_add]; ring
        have h3 : n.toNat ≤ n.toNat * 2 ^ z := Nat.le_mul_of_pos_right _ Nat.one_le_two_pow
        rw [show fuel + 1 + 2 = (fuel + 1) + 1 + 1 from rfl, pow_succ, pow_succ] at hlt
        omega
    have hn1 : n ≠ 0xFFFFFFFF#32 := by
      rintro rfl
      have hz : z = 0 := by
        by_contra hz
        have h2 : 2 ^ 1 ≤ 2 ^ (k + z) := Nat.pow_le_pow_right (by norm_num) (by omega)
        have h3 := Nat.mul_le_mul_left (0xFFFFFFFF#32).toNat h2
        have h4 : (0xFFFFFFFF#32).toNat = 2 ^ 32 - 1 := rfl
        omega
      subst hz
      rw [pow_zero, Nat.mul_one] at hm
      exact hne (BitVec.eq_of_toNat_eq hm)
    rw [chainLoop]
    simp only [hs, Option.bind_eq_bind, Option.bind_some]
    cases hshift : pushShift ops (k + z) with
    | none => exact Or.inl rfl
    | some ops1 =>
      obtain ⟨f1, c1⟩ := pushShift_spec hshift hkz hi.fits hc
      by_cases hone : n = 1
      · subst hone
        exact Or.inr ⟨ops1, rfl, f1, c1⟩
      · have hne1 : n.toNat ≠ 1 := fun h => hone (BitVec.eq_of_toNat_eq h)
        by_cases h3 : n &&& 3 = 1
        · -- `n` is one more than a multiple of four
          simp only [if_neg hone, if_pos h3]
          rw [and_three_eq_one] at h3
          cases hpush : push ops1 .add with
          | none => exact Or.inl rfl
          | some ops2 =>
            obtain ⟨rfl, f2⟩ := push_fits hpush f1 (fun cnt e => by cases e)
            have hhalf : (n >>> 1).toNat = n.toNat / 2 := by
              rw [BitVec.toNat_ushiftRight, Nat.shiftRight_eq_div_pow, pow_one]
            have hback : (n >>> 1).toNat * 2 ^ 1 + 1 = n.toNat := by omega
            have hnlt := n.isLt
            rw [pow_succ] at hn
            refine ih (n >>> 1) 1 _ ⟨by omega, by omega, f2, ?_⟩ ?_ (Or.inl (by omega))
            · rw [← hback] at c1
              exact c1.add
            · intro h
              rw [h] at hback
              have h4 : (0xFFFFFFFF#32).toNat = 2 ^ 32 - 1 := rfl
              omega
        · -- `n` is one less than a multiple of four
          simp only [if_neg hone, if_neg h3]
          rw [and_three_eq_one] at h3
          cases hpush : push ops1 .sub with
          | none => exact Or.inl rfl
          | some ops2 =>
            obtain ⟨rfl, f2⟩ := push_fits hpush f1 (fun cnt e => by cases e)
            have hmax : n.toNat ≠ 2 ^ 32 - 1 := fun h => hn1 (BitVec.eq_of_toNat_eq h)
            have hnlt := n.isLt
            have hnext : (n + 1).toNat = n.toNat + 1 := by
              rw [BitVec.toNat_add]
              exact Nat.mod_eq_of_lt (by show n.toNat + 1 < _; omega)
            rw [pow_succ] at hn
            refine ih (n + 1) 0 _ ⟨by omega, by omega, f2, ?_⟩ ?_ (Or.inr ⟨by omega, ?_⟩)
            · rw [hnext, pow_zero, Nat.mul_one]
              exact c1.sub
            · intro h
              rw [h] at hnext
              have h4 : (0xFFFFFFFF#32).toNat = 2 ^ 32 - 1 := rfl
              omega
            · rw [hnext, pow_succ, pow_succ]
              omega

/-! ## Factor and CheckMul -/

/-- what `Factor` leaves: entries inside `Ops` that multiply by `num`, or none -/
theorem factor_spec (c : Costs) (num : Word) :
    ∃ r, factor c num = some r ∧ Fits r.ops ∧
      (r.ops ≠ [] → CompletesFrom num.toNat 1 r.ops) := by
  unfold factor
  split
  · exact ⟨_, rfl, Fits.nil, fun h => absurd rfl h⟩
  · rename_i h0
    split
    · exact ⟨_, rfl, Fits.nil, fun h => absurd rfl h⟩
    · rename_i hmax
      have hpos : 0 < num.toNat :=
        Nat.pos_of_ne_zero fun h => h0 (BitVec.eq_of_toNat_eq h)
      have hmaxN : num.toNat ≠ 2 ^ 32 - 1 := fun h => hmax (BitVec.eq_of_toNat_eq h)
      have hlt := num.isLt
      have hhalf : (num >>> 1).toNat < 2 ^ 31 := by
        rw [BitVec.toNat_ushiftRight, Nat.shiftRight_eq_div_pow]
        omega
      have hstart : Factoring num.toNat num.toNat [] :=
        ⟨hpos, le_refl _, Fits.nil, fun _ _ _ => rfl⟩
      rcases factorLoop_spec 33 num (num >>> 1) [] hstart (by omega) hhalf with
        h1 | ⟨num', ops', h1, hi⟩
      · simp only [h1, Option.bind_eq_bind, Option.bind_some]
        exact ⟨_, rfl, Fits.nil, fun h => absurd rfl h⟩
      · have hle := hi.le
        have hpend : num'.toNat * 2 ^ 0 = num'.toNat := by rw [pow_zero, Nat.mul_one]
        have hchain : Chaining num.toNat num'.toNat 0 ops' :=
          ⟨hi.pos, by omega, hi.fits, by rw [hpend]; exact hi.completes.from⟩
        have hne' : num' ≠ 0xFFFFFFFF#32 := by
          rintro rfl
          have h4 : (0xFFFFFFFF#32).toNat = 2 ^ 32 - 1 := rfl
          omega
        rcases chainLoop_spec 33 num' 0 ops' hchain hne' (Or.inl (by omega)) with
          h2 | ⟨ops2, h2, hf2, hc2⟩
        · simp only [h1, h2, Option.bind_eq_bind, Option.bind_some]
          exact ⟨_, rfl, Fits.nil, fun h => absurd rfl h⟩
        · simp only [h1, h2, Option.bind_eq_bind, Option.bind_some]
          exact ⟨_, rfl, hf2, fun _ => hc2⟩

theorem index_lt_iff {ops : List Op} (hf : Fits ops) : index ops < maxOps ↔ ops ≠ [] := by
  have hl := hf.length_le
  cases ops with
  | nil => exact iff_of_false (lt_irrefl _) (fun h => h rfl)
  | cons o ops =>
    refine iff_of_true ?_ (List.cons_ne_nil _ _)
    unfold index
    rw [List.length_cons] at hl ⊢
    omega

theorem CompletesFrom.start {num : Nat} {ops : List Op} (h : CompletesFrom num 1 ops) {w : Nat}
    (x : BitVec w) : (runOps ops ⟨x, x⟩).temp = x * BitVec.ofNat w num := by
  have hx := h w x
  rwa [show x * BitVec.ofNat w 1 = x from BitVec.mul_one x] at hx

/-- `Factor` ends for every constant, and below `MAXOPS` its entries multiply by it -/
theorem factor_mul (c : Costs) (num : Word) :
    ∃ r, factor c num = some r ∧
      (index r.ops < maxOps →
        (∀ x : BitVec 32, (runOps r.ops ⟨x, x⟩).temp = x * num) ∧
          ∀ cnt, Op.shl cnt ∈ r.ops → cnt < 32) := by
  obtain ⟨r, hr, hf, hc⟩ := factor_spec c num
  refine ⟨r, hr, fun hi => ⟨fun x => ?_, hf.cnt_lt⟩⟩
  rw [(hc ((index_lt_iff hf).mp hi)).start x, BitVec.ofNat_toNat, BitVec.setWidth_eq]

example (c : Costs) : (factor c 7).map (·.ops) = some [.shl 3, .sub] := by rfl

/-- the instructions `CheckMul` emits in place of a multiplication multiply by its constant -/
theorem checkMul_mul (c : Costs) (sw : Bool) (rhs : Word) :
    ∃ out, checkMul c sw rhs = some out ∧ ∀ code, out = some code →
      ∀ (w : Nat) (x : BitVec w), w ≤ 32 → emitted code x = x * rhs.setWidth w := by
  unfold checkMul
  simp only [Option.bind_eq_bind]
  generalize (sw && rhs.msb) = neg
  -- both signs multiply by `num`, and the negation is undone at the end
  have hnum : ∀ (w : Nat) (x : BitVec w), w ≤ 32 →
      (if neg then -(x * (if neg then -rhs else rhs).setWidth w)
        else x * (if neg then -rhs else rhs).setWidth w) = x * rhs.setWidth w := by
    intro w x hw
    cases neg with
    | false => rfl
    | true =>
      show -(x * (-rhs).setWidth w) = _
      rw [BitVec.setWidth_neg_of_le hw, BitVec.mul_neg, BitVec.neg_neg]
  generalize (if neg then -rhs else rhs) = num at hnum ⊢
  obtain ⟨r, hr, hf, hc⟩ := factor_spec c num
  simp only [hr, Option.bind_some]
  by_cases hcost : c.mulCost num ≤ r.cost
  · rw [if_pos hcost]
    exact ⟨_, rfl, fun code h => absurd h (by simp)⟩
  · rw [if_neg hcost]
    by_cases hi : index r.ops = maxOps
    · rw [if_pos hi]
      exact ⟨_, rfl, fun code h => absurd h (by simp)⟩
    · rw [if_neg hi]
      refine ⟨_, rfl, fun code h w x hw => ?_⟩
      obtain rfl := Option.some.inj h
      have hne : r.ops ≠ [] := fun h => hi (by rw [h]; rfl)
      have hx := (hc hne).start x
      rw [BitVec.ofNat_toNat] at hx
      have hw := hnum w x hw
      rw [← hx] at hw
      exact hw

end Multiply
