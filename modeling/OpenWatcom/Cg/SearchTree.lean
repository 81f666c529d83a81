import OpenWatcom.Cg.SelOrder
import Mathlib.Logic.Relation

/-!
# The tree of comparisons of a switch

`DoBinarySearch` calls itself on both sides of the middle range, with the bounds of the selector
that the comparisons made so far leave.

* `Call`, `activation`      the arguments of a call, and the code one call generates;
* `binarySearch_succ`       the code of a call is that of its activation;
* `Holds`, `activation_holds`   what is known of a value where a call's code is reached;
* `binarySearch_leads`      the code sends a value to the label of its range;
* `binarySearch_dispatches`   and of all calls: the comparisons left out, and the bounds passed on.
-/

namespace Cg
open Intervals

/-! ## one call -/

/-- the arguments of a call of `DoBinarySearch`; a bound that is not known is `none` -/
structure Call where
  lo : Nat
  hi : Nat
  lobound : Option (BitVec 64)
  hibound : Option (BitVec 64)

/-- the code of one call, with the calls that generate the rest of it -/
inductive Step (L : Type)
  | goto (label : L)
  | ifEq (c : BitVec 64) (label : L) (rest : Option Call)
  | branch (lt le : Test) (label : L) (right left : Option Call)

def Call.mid (c : Call) : Nat := c.lo + (c.hi - c.lo) / 2

section
variable {L : Type} (s : Bool) (list : List (Case L)) (other : L)

/-- the jump to `lt` -/
def lowTest (c : Call) (x : BitVec 64) : Test :=
  if ∀ b ∈ c.lobound, key s b < key s x then
    if ∃ b ∈ c.hibound, key s b < key s x then .always else .compare x
  else .never

/-- the jump to the label of the middle range -/
def highTest (c : Call) (x : BitVec 64) : Test :=
  if ∀ b ∈ c.lobound, key s b ≤ key s x then
    if ∃ b ∈ c.hibound, key s b ≤ key s x then .always else .compare x
  else .never

def Call.right (c : Call) (m : Case L) : Option Call :=
  if c.mid < c.hi then some ⟨c.mid + 1, c.hi, some (m.high + 1), c.hibound⟩ else none

def Call.left (c : Call) (m : Case L) : Option Call :=
  if c.lo < c.mid then some ⟨c.lo, c.mid - 1, c.lobound, some (m.low - 1)⟩ else none

/-- the linear shortcut: the upper bound is tightened only where it is the value compared with -/
def Call.linear (c : Call) (next : Case L) : Call :=
  ⟨c.lo, c.mid, c.lobound, c.hibound.map fun b => if b = next.low then b - 1 else b⟩

def branchAt (c : Call) (m : Case L) : Step L :=
  .branch (lowTest s c m.low) (highTest s c m.high) m.label (c.right m) (c.left m)

/-- the code one call of `DoBinarySearch` generates -/
def activation (c : Call) : Step L :=
  match list[c.mid]? with
  | none => .goto other
  | some m =>
    if c.lo = c.hi then
      if c.lobound = some m.low ∧ c.hibound = some m.high then .goto m.label
      else if m.low = m.high then .ifEq m.low m.label none
      else branchAt s c m
    else match list[c.mid + 1]? with
      | none => branchAt s c m
      | some next =>
        if c.hi = c.mid + 1 ∧ next.low = next.high then
          .ifEq next.low next.label (some (c.linear next))
        else branchAt s c m

/-- the code of a step, given that of the calls it makes -/
def Step.code (sub : Call → IfCode L) : Step L → IfCode L
  | .goto label => .goto label
  | .ifEq c label rest => .ifEq c label ((rest.map sub).getD (.goto other))
  | .branch lt le label right left =>
    .branch lt le label ((right.map sub).getD (.goto other)) ((left.map sub).getD (.goto other))

/-- the calls a step makes -/
def Step.calls : Step L → List Call
  | .goto _ => []
  | .ifEq _ _ rest => rest.toList
  | .branch _ _ _ right left => right.toList ++ left.toList

/-- the code of a call -/
def callCode (f : Nat) (c : Call) : IfCode L :=
  binarySearch s list other f c.lo c.hi c.lobound c.hibound

theorem branchAt_code (sub : Call → IfCode L) (c : Call) (m : Case L) :
    (branchAt s c m).code other sub
      = .branch (lowTest s c m.low) (highTest s c m.high) m.label
          (if c.mid < c.hi then sub ⟨c.mid + 1, c.hi, some (m.high + 1), c.hibound⟩
            else .goto other)
          (if c.lo < c.mid then sub ⟨c.lo, c.mid - 1, c.lobound, some (m.low - 1)⟩
            else .goto other) := by
  have hright : ((c.right m).map sub).getD (.goto other) = if c.mid < c.hi then
      sub ⟨c.mid + 1, c.hi, some (m.high + 1), c.hibound⟩ else .goto other := by
    unfold Call.right
    split <;> rfl
  have hleft : ((c.left m).map sub).getD (.goto other) = if c.lo < c.mid then
      sub ⟨c.lo, c.mid - 1, c.lobound, some (m.low - 1)⟩ else .goto other := by
    unfold Call.left
    split <;> rfl
  unfold branchAt
  rw [← hright, ← hleft]
  rfl

theorem binarySearch_succ (f : Nat) (c : Call) :
    callCode s list other (f + 1) c
      = (activation s list other c).code other (callCode s list other f) := by
  have hcode (m : Case L) := branchAt_code s other (callCode s list other f) c m
  unfold callCode at hcode ⊢
  unfold activation
  rw [binarySearch]
  change (match list[c.mid]? with | none => _ | some m => _) = _
  cases list[c.mid]? with
  | none => rfl
  | some m =>
    dsimp only
    by_cases h1 : c.lo = c.hi
    · rw [if_pos h1, if_pos h1]
      split
      · rfl
      · split
        · rfl
        · exact (hcode m).symm
    · rw [if_neg h1, if_neg h1]
      change (match list[c.mid + 1]? with | none => _ | some next => _) = _
      cases list[c.mid + 1]? with
      | none => exact (hcode m).symm
      | some next =>
        change (if c.hi = c.mid + 1 ∧ next.low = next.high then _ else _) = _
        dsimp only
        by_cases h2 : c.hi = c.mid + 1 ∧ next.low = next.high
        · rw [if_pos h2, if_pos h2]
          rfl
        · rw [if_neg h2, if_neg h2]
          exact (hcode m).symm

end

/-! ## what a call knows -/

section
variable {L : Type} (len : Width) (s : Bool) (list : List (Case L)) (other : L)

/-- the constant or value has the width and the sign of the comparisons -/
def Fits (x : BitVec 64) : Prop := machineKey len s x = key s x

/-- the bounds of a call hold of `v` -/
structure Within (c : Call) (v : BitVec 64) : Prop where
  lower : ∀ b ∈ c.lobound, key s b ≤ key s v
  upper : ∀ b ∈ c.hibound, key s v ≤ key s b

/-- the call is about ranges of the list -/
structure Call.Inside (c : Call) : Prop where
  le : c.lo ≤ c.hi
  lt : c.hi < list.length

/-- what is known of `v` where the code of the call is reached: a range that contains it is one of
those the call is about -/
structure Holds (c : Call) (v : BitVec 64) : Prop where
  inside : c.Inside list
  within : Within s c v
  covers : ∀ i e, list[i]? = some e → e.Has s v → c.lo ≤ i ∧ i ≤ c.hi

/-- where a value goes in the code of a step: to a label, or into the code of a call -/
def Step.take (v : BitVec 64) : Step L → L ⊕ Call
  | .goto label => .inl label
  | .ifEq c label rest =>
    if machineKey len s v = machineKey len s c then .inl label
    else (rest.map .inr).getD (.inl other)
  | .branch lt le label right left =>
    if lt.passes len s (· < ·) v then (left.map .inr).getD (.inl other)
    else if le.passes len s (· ≤ ·) v then .inl label
    else (right.map .inr).getD (.inl other)

theorem run_rest (sub : Call → IfCode L) (v : BitVec 64) (c : Option Call) :
    ((c.map sub).getD (.goto other)).run len s v
      = match ((c.map .inr).getD (.inl other) : L ⊕ Call) with
        | .inl label => label
        | .inr c => (sub c).run len s v := by
  cases c <;> rfl

theorem run_code (sub : Call → IfCode L) (v : BitVec 64) (st : Step L) :
    (st.code other sub).run len s v
      = match st.take len s other v with
        | .inl label => label
        | .inr c => (sub c).run len s v := by
  cases st with
  | goto label => rfl
  | ifEq c label rest =>
    rw [Step.code, IfCode.run, Step.take, run_rest]
    split <;> rfl
  | branch lt le label right left =>
    rw [Step.code, IfCode.run, Step.take, run_rest, run_rest]
    split
    · rfl
    · split <;> rfl

end

section
variable {L : Type} {len : Width} {s : Bool} {list : List (Case L)} {other : L}

/-- ranges further on in the list are above -/
theorem InOrder.get {es : List (Case L)} (h : InOrder s es) {i j : Nat} {a b : Case L}
    (ha : es[i]? = some a) (hb : es[j]? = some b) (hij : i < j) :
    key s a.low < key s b.low ∧ key s a.high < key s b.low := by
  obtain ⟨hi, rfl⟩ := List.getElem?_eq_some_iff.mp ha
  obtain ⟨hj, rfl⟩ := List.getElem?_eq_some_iff.mp hb
  exact List.pairwise_iff_getElem.mp h i j hi hj hij

theorem Call.Inside.mid {c : Call} (h : c.Inside list) :
    c.lo ≤ c.mid ∧ c.mid ≤ c.hi ∧ (c.lo < c.hi → c.mid < c.hi) := by
  have := h.le
  unfold Call.mid
  omega

theorem Call.Inside.get {c : Call} (h : c.Inside list) : ∃ m, list[c.mid]? = some m :=
  ⟨_, List.getElem?_eq_getElem (lt_of_le_of_lt h.mid.2.1 h.lt)⟩

variable {c : Call} {v x : BitVec 64}

/-- a comparison left out has the outcome it would have had -/
theorem lowTest_passes (hw : Within s c v) (hv : Fits len s v) (hx : Fits len s x) :
    (lowTest s c x).passes len s (· < ·) v = decide (key s v < key s x) := by
  unfold lowTest
  split
  · split
    · rename_i _ hhi
      obtain ⟨b, hb, hlt⟩ := hhi
      have := hw.upper b hb
      exact (decide_eq_true (by omega)).symm
    · show decide (machineKey len s v < machineKey len s x) = _
      rw [hv, hx]
  · rename_i hlo
    push_neg at hlo
    obtain ⟨b, hb, hle⟩ := hlo
    have := hw.lower b hb
    exact (decide_eq_false (by omega)).symm

theorem highTest_passes (hw : Within s c v) (hv : Fits len s v) (hx : Fits len s x) :
    (highTest s c x).passes len s (· ≤ ·) v = decide (key s v ≤ key s x) := by
  unfold highTest
  split
  · split
    · rename_i _ hhi
      obtain ⟨b, hb, hle⟩ := hhi
      have := hw.upper b hb
      exact (decide_eq_true (by omega)).symm
    · show decide (machineKey len s v ≤ machineKey len s x) = _
      rw [hv, hx]
  · rename_i hlo
    push_neg at hlo
    obtain ⟨b, hb, hlt⟩ := hlo
    have := hw.lower b hb
    exact (decide_eq_false (by omega)).symm

/-! ## where a value goes -/

/-- where the code of the call `c` may send `v`: to its label, or into a smaller call -/
inductive Arrives (s : Bool) (list : List (Case L)) (other : L) (c : Call) (v : BitVec 64) :
    L ⊕ Call → Prop
  | label {label : L} (h : Leads s other list v label) : Arrives s list other c v (.inl label)
  | call {c' : Call} (h : Holds s list c' v) (hlt : c'.hi - c'.lo < c.hi - c.lo) :
    Arrives s list other c v (.inr c')

theorem leads_case {m : Case L} {i : Nat} (hm : list[i]? = some m) (h : m.Has s v) :
    Leads s other list v m.label := Or.inl ⟨m, List.mem_of_getElem? hm, h, rfl⟩

theorem leads_other (h : ∀ (i : Nat) (e : Case L), list[i]? = some e → ¬ e.Has s v) :
    Leads s other list v other := by
  refine Or.inr ⟨fun e he => ?_, rfl⟩
  obtain ⟨i, hi⟩ := List.mem_iff_getElem?.mp he
  exact h i e hi

/-- below the middle range -/
theorem left_arrives (ho : InOrder s list) (h : Holds s list c v) {m : Case L}
    (hm : list[c.mid]? = some m) (hlt : key s v < key s m.low) :
    Arrives s list other c v (((c.left m).map .inr).getD (.inl other)) := by
  have hmid := h.inside.mid
  have hbelow : ∀ i e, list[i]? = some e → e.Has s v → c.lo ≤ i ∧ i < c.mid := by
    intro i e he hhas
    have h1 : key s e.low ≤ key s v := hhas.1
    refine ⟨(h.covers i e he hhas).1, ?_⟩
    by_contra hge
    rcases Nat.lt_or_eq_of_le (Nat.le_of_not_lt hge) with hgt | heq
    · have := (ho.get hm he hgt).1
      omega
    · rw [← heq, hm] at he
      obtain rfl := Option.some.inj he
      omega
  unfold Call.left
  split
  · rename_i hlo
    have hpred := key_pred hlt
    refine .call ⟨⟨by show c.lo ≤ c.mid - 1; omega, ?_⟩, ⟨h.within.lower, ?_⟩, ?_⟩ ?_
    · have := h.inside.lt
      show c.mid - 1 < list.length
      omega
    · intro b hb
      obtain rfl := Option.some.inj hb
      omega
    · intro i e he hhas
      have := hbelow i e he hhas
      exact ⟨this.1, by show i ≤ c.mid - 1; omega⟩
    · show c.mid - 1 - c.lo < _
      omega
  · refine .label (leads_other fun i e he hhas => ?_)
    have := hbelow i e he hhas
    omega

/-- above the middle range -/
theorem right_arrives (ho : InOrder s list) (h : Holds s list c v) {m : Case L}
    (hm : list[c.mid]? = some m) (hle : key s m.low ≤ key s v) (hlt : key s m.high < key s v) :
    Arrives s list other c v (((c.right m).map .inr).getD (.inl other)) := by
  have hmid := h.inside.mid
  have habove : ∀ i e, list[i]? = some e → e.Has s v → c.mid < i ∧ i ≤ c.hi := by
    intro i e he hhas
    have h1 : key s v ≤ key s e.high := hhas.2
    refine ⟨?_, (h.covers i e he hhas).2⟩
    by_contra hge
    rcases Nat.lt_or_eq_of_le (Nat.le_of_not_lt hge) with hgt | heq
    · have := (ho.get he hm hgt).2
      omega
    · rw [heq, hm] at he
      obtain rfl := Option.some.inj he
      omega
  unfold Call.right
  split
  · rename_i hhi
    have hsucc := key_succ hlt
    refine .call ⟨⟨by show c.mid + 1 ≤ c.hi; omega, h.inside.lt⟩, ⟨?_, h.within.upper⟩, ?_⟩ ?_
    · intro b hb
      obtain rfl := Option.some.inj hb
      omega
    · intro i e he hhas
      have := habove i e he hhas
      exact ⟨by show c.mid + 1 ≤ i; omega, this.2⟩
    · show c.hi - (c.mid + 1) < _
      omega
  · refine .label (leads_other fun i e he hhas => ?_)
    have := habove i e he hhas
    omega

theorem branch_arrives (ho : InOrder s list) (hv : Fits len s v) (h : Holds s list c v)
    {m : Case L} (hm : list[c.mid]? = some m) (hlow : Fits len s m.low) (hhigh : Fits len s m.high) :
    Arrives s list other c v ((branchAt s c m).take len s other v) := by
  rw [branchAt, Step.take, lowTest_passes h.within hv hlow, highTest_passes h.within hv hhigh]
  by_cases h1 : key s v < key s m.low
  · rw [if_pos (decide_eq_true h1)]
    exact left_arrives ho h hm h1
  · rw [if_neg (by rw [decide_eq_true_eq]; exact h1)]
    by_cases h2 : key s v ≤ key s m.high
    · rw [if_pos (decide_eq_true h2)]
      exact .label (leads_case hm ⟨by show key s m.low ≤ _; omega, h2⟩)
    · rw [if_neg (by rw [decide_eq_true_eq]; exact h2)]
      exact right_arrives ho h hm (by omega) (by omega)

/-- behind a comparison for equality with a range of one value -/
theorem equal_arrives {i : Nat} {e : Case L} (he : list[i]? = some e) (hone : e.low = e.high)
    (hv : Fits len s v) (hlow : Fits len s e.low) (rest : Option Call)
    (hrest : ¬ e.Has s v → key s v ≠ key s e.low →
      Arrives s list other c v ((rest.map .inr).getD (.inl other))) :
    Arrives s list other c v ((Step.ifEq e.low e.label rest).take len s other v) := by
  rw [Step.take, hv, hlow]
  split
  · rename_i heq
    exact .label (leads_case he
      ⟨by show key s e.low ≤ _; omega, by show _ ≤ key s e.high; rw [← hone]; omega⟩)
  · rename_i hne
    refine hrest (fun hhas => hne ?_) hne
    have h1 : key s e.low ≤ key s v := hhas.1
    have h2 : key s v ≤ key s e.high := hhas.2
    rw [← hone] at h2
    omega

/-- one call: the value reaches its label, or what is known of it holds in the next call -/
theorem activation_arrives (ho : InOrder s list)
    (hf : ∀ e ∈ list, Fits len s e.low ∧ Fits len s e.high) (hv : Fits len s v)
    (h : Holds s list c v) :
    Arrives s list other c v ((activation s list other c).take len s other v) := by
  obtain ⟨m, hm⟩ := h.inside.get
  obtain ⟨hlow, hhigh⟩ := hf m (List.mem_of_getElem? hm)
  have hmid := h.inside.mid
  have hbranch : Arrives s list other c v ((branchAt s c m).take len s other v) :=
    branch_arrives ho hv h hm hlow hhigh
  unfold activation
  rw [hm]
  dsimp only
  by_cases h1 : c.lo = c.hi
  · rw [if_pos h1]
    split
    · rename_i hb
      exact .label (leads_case hm ⟨h.within.lower _ hb.1, h.within.upper _ hb.2⟩)
    · split
      · rename_i hone
        refine equal_arrives hm hone hv hlow none fun hno _ =>
          .label (leads_other fun i e he hhas => ?_)
        have hi := h.covers i e he hhas
        have hi' : i = c.mid := by omega
        rw [hi', hm] at he
        obtain rfl := Option.some.inj he
        exact hno hhas
      · exact hbranch
  · rw [if_neg h1]
    cases hn : list[c.mid + 1]? with
    | none => exact hbranch
    | some next =>
      dsimp only
      split
      · rename_i hlin
        obtain ⟨hhi, hone⟩ := hlin
        obtain ⟨hnlow, _⟩ := hf next (List.mem_of_getElem? hn)
        refine equal_arrives hn hone hv hnlow _ fun hno hne => ?_
        refine .call ⟨⟨hmid.1, lt_of_le_of_lt hmid.2.1 h.inside.lt⟩, ⟨h.within.lower, ?_⟩, ?_⟩ ?_
        · intro b hb
          obtain ⟨b', hb', rfl⟩ := Option.map_eq_some_iff.mp hb
          have hle := h.within.upper b' hb'
          split
          · rename_i heq
            rw [heq] at hle ⊢
            rw [key_pred (lt_of_le_of_ne hle hne)]
            omega
          · exact hle
        · intro i e he hhas
          have hi := h.covers i e he hhas
          refine ⟨hi.1, ?_⟩
          show i ≤ c.mid
          by_contra hgt
          have hi' : i = c.mid + 1 := by omega
          rw [hi', hn] at he
          obtain rfl := Option.some.inj he
          exact hno hhas
        · show c.mid - c.lo < c.hi - c.lo
          omega
      · exact hbranch

/-- the code of a call sends a value that reaches it to the label of its range -/
theorem callCode_leads (ho : InOrder s list)
    (hf : ∀ e ∈ list, Fits len s e.low ∧ Fits len s e.high) (hv : Fits len s v) :
    ∀ (f : Nat) (c : Call), Holds s list c v → c.hi - c.lo < f →
      Leads s other list v ((callCode s list other f c).run len s v) := by
  intro f
  induction f with
  | zero => intro c _ h; exact absurd h (Nat.not_lt_zero _)
  | succ f ih =>
    intro c h hlt
    have harr : Arrives s list other c v ((activation s list other c).take len s other v) :=
      activation_arrives ho hf hv h
    rw [binarySearch_succ, run_code]
    generalize (activation s list other c).take len s other v = goes at harr ⊢
    cases harr with
    | label h => exact h
    | call h hlt' => exact ih _ h (lt_of_lt_of_le hlt' (Nat.le_of_lt_succ hlt))

end

/-! ## all calls -/

section
variable {L : Type} (len : Width) (s : Bool) (list : List (Case L)) (other : L)

/-- the bounds of `c'` are those of `c`, or one next to a range of the list in the order of
`SelCompare`: the step from the range to the bound does not wrap -/
structure Tightens (c c' : Call) : Prop where
  lower : ∀ b ∈ c'.lobound, b ∈ c.lobound ∨
    ∃ e ∈ list, b = e.high + 1 ∧ key s b = key s e.high + 1
  upper : ∀ b ∈ c'.hibound, b ∈ c.hibound ∨
    ∃ e ∈ list, b = e.low - 1 ∧ key s b = key s e.low - 1

/-- for every value within the bounds of the call, the comparisons that its code leaves out have
the outcome that the code goes on with -/
structure Implied (c : Call) (m : Case L) : Prop where
  goto : ∀ label, activation s list other c = .goto label → ∀ x, Within s c x → m.Has s x
  branch : ∀ lt le label right left, activation s list other c = .branch lt le label right left →
    ∀ x, Within s c x → Fits len s x →
      lt.passes len s (· < ·) x = decide (key s x < key s m.low) ∧
        le.passes len s (· ≤ ·) x = decide (key s x ≤ key s m.high)

/-- the code of the call `c` goes on with that of `c'` -/
def Calls (c c' : Call) : Prop := c' ∈ (activation s list other c).calls

/-- the code of the call `c` sends `v` into that of `c'` -/
def Enters (v : BitVec 64) (c c' : Call) : Prop :=
  (activation s list other c).take len s other v = .inr c'

end

section
variable {L : Type} {len : Width} {s : Bool} {list : List (Case L)} {other : L}
  {c c' : Call} {v : BitVec 64}

theorem right_tightens (ho : InOrder s list) (h : c.Inside list) {m : Case L}
    (hm : list[c.mid]? = some m) (hc : c' ∈ (c.right m).toList) :
    c'.Inside list ∧ Tightens s list c c' := by
  unfold Call.right at hc
  split at hc
  · rename_i hlt
    obtain rfl := List.mem_singleton.mp hc
    have hlast := h.lt
    obtain ⟨next, hnext⟩ : ∃ next, list[c.mid + 1]? = some next :=
      ⟨_, List.getElem?_eq_getElem (by omega)⟩
    have hkey := key_succ (ho.get hm hnext (Nat.lt_succ_self _)).2
    refine ⟨⟨hlt, hlast⟩, ⟨fun b hb => Or.inr ?_, fun b hb => Or.inl hb⟩⟩
    obtain rfl := Option.some.inj hb
    exact ⟨m, List.mem_of_getElem? hm, rfl, hkey⟩
  · exact absurd hc List.not_mem_nil

theorem left_tightens (ho : InOrder s list) (h : c.Inside list) {m : Case L}
    (hm : list[c.mid]? = some m) (hc : c' ∈ (c.left m).toList) :
    c'.Inside list ∧ Tightens s list c c' := by
  have hmid := h.mid
  unfold Call.left at hc
  split at hc
  · rename_i hlt
    obtain rfl := List.mem_singleton.mp hc
    have hlast := h.lt
    obtain ⟨first, hfirst⟩ : ∃ first, list[c.lo]? = some first :=
      ⟨_, List.getElem?_eq_getElem (by omega)⟩
    have hkey := key_pred (ho.get hfirst hm hlt).1
    refine ⟨⟨by show c.lo ≤ c.mid - 1; omega, by show c.mid - 1 < _; omega⟩,
      ⟨fun b hb => Or.inl hb, fun b hb => Or.inr ?_⟩⟩
    obtain rfl := Option.some.inj hb
    exact ⟨m, List.mem_of_getElem? hm, rfl, hkey⟩
  · exact absurd hc List.not_mem_nil

theorem branch_tightens (ho : InOrder s list) (h : c.Inside list) {m : Case L}
    (hm : list[c.mid]? = some m) (hc : c' ∈ (branchAt s c m).calls) :
    c'.Inside list ∧ Tightens s list c c' := by
  rcases List.mem_append.mp hc with hc | hc
  · exact right_tightens ho h hm hc
  · exact left_tightens ho h hm hc

theorem linear_tightens (ho : InOrder s list) (h : c.Inside list) {m next : Case L}
    (hm : list[c.mid]? = some m) (hn : list[c.mid + 1]? = some next) :
    (c.linear next).Inside list ∧ Tightens s list c (c.linear next) := by
  have hmid := h.mid
  refine ⟨⟨hmid.1, lt_of_le_of_lt hmid.2.1 h.lt⟩, ⟨fun b hb => Or.inl hb, fun b hb => ?_⟩⟩
  obtain ⟨b', hb', rfl⟩ := Option.map_eq_some_iff.mp hb
  split
  · rename_i heq
    subst heq
    exact Or.inr ⟨next, List.mem_of_getElem? hn, rfl,
      key_pred (ho.get hm hn (Nat.lt_succ_self _)).1⟩
  · exact Or.inl hb'

/-- the calls that a call makes, with the bounds they get -/
theorem calls_tightens (ho : InOrder s list) (h : c.Inside list)
    (hc : Calls s list other c c') : c'.Inside list ∧ Tightens s list c c' := by
  obtain ⟨m, hm⟩ := h.get
  have hbranch : c' ∈ (branchAt s c m).calls → c'.Inside list ∧ Tightens s list c c' :=
    branch_tightens ho h hm
  unfold Calls activation at hc
  rw [hm] at hc
  dsimp only at hc
  by_cases h1 : c.lo = c.hi
  · rw [if_pos h1] at hc
    split at hc
    · exact absurd hc List.not_mem_nil
    · split at hc
      · exact absurd hc List.not_mem_nil
      · exact hbranch hc
  · rw [if_neg h1] at hc
    cases hn : list[c.mid + 1]? with
    | none =>
      rw [hn] at hc
      exact hbranch hc
    | some next =>
      rw [hn] at hc
      dsimp only at hc
      split at hc
      · obtain rfl := List.mem_singleton.mp hc
        exact linear_tightens ho h hm hn
      · exact hbranch hc

theorem activation_implied (h : c.Inside list)
    (hf : ∀ e ∈ list, Fits len s e.low ∧ Fits len s e.high) :
    ∃ m, list[c.mid]? = some m ∧ Implied len s list other c m := by
  obtain ⟨m, hm⟩ := h.get
  obtain ⟨hlow, hhigh⟩ := hf m (List.mem_of_getElem? hm)
  refine ⟨m, hm, ⟨fun label hgoto x hx => ?_, fun lt le label right left hbr x hx hfx => ?_⟩⟩
  · unfold activation at hgoto
    rw [hm] at hgoto
    dsimp only at hgoto
    split at hgoto
    · split at hgoto
      · rename_i hb
        exact ⟨hx.lower _ hb.1, hx.upper _ hb.2⟩
      · split at hgoto <;> exact absurd hgoto (by simp [branchAt])
    · split at hgoto
      · exact absurd hgoto (by simp [branchAt])
      · split at hgoto <;> exact absurd hgoto (by simp [branchAt])
  · have hbranch : branchAt s c m = .branch lt le label right left := by
      unfold activation at hbr
      rw [hm] at hbr
      dsimp only at hbr
      split at hbr
      · split at hbr
        · exact absurd hbr (by simp)
        · split at hbr
          · exact absurd hbr (by simp)
          · exact hbr
      · split at hbr
        · exact hbr
        · split at hbr
          · exact absurd hbr (by simp)
          · exact hbr
    obtain ⟨rfl, rfl, _⟩ := Step.branch.inj hbranch
    exact ⟨lowTest_passes hx hfx hlow, highTest_passes hx hfx hhigh⟩

/-- every call is about ranges of the list -/
theorem calls_inside (ho : InOrder s list) (h : c.Inside list)
    (hc : Relation.ReflTransGen (Calls s list other) c c') : c'.Inside list := by
  induction hc with
  | refl => exact h
  | tail _ hstep ih => exact (calls_tightens ho ih hstep).1

/-- wherever a value gets, the bounds hold of it -/
theorem enters_holds (ho : InOrder s list)
    (hf : ∀ e ∈ list, Fits len s e.low ∧ Fits len s e.high) (hv : Fits len s v)
    (h : Holds s list c v) (hc : Relation.ReflTransGen (Enters len s list other v) c c') :
    Holds s list c' v := by
  induction hc with
  | refl => exact h
  | tail _ hstep ih =>
    have harr := @activation_arrives L len s list other _ v ho hf hv ih
    rw [hstep] at harr
    cases harr with
    | call h _ => exact h

/-- the first call is about all ranges -/
theorem root_holds (hne : list ≠ []) {lobound hibound : Option (BitVec 64)}
    (hw : Within s ⟨0, list.length - 1, lobound, hibound⟩ v) :
    Holds s list ⟨0, list.length - 1, lobound, hibound⟩ v := by
  have hpos := List.length_pos_of_ne_nil hne
  refine ⟨⟨Nat.zero_le _, by show list.length - 1 < _; omega⟩, hw, fun i e he _ => ?_⟩
  obtain ⟨hi, _⟩ := List.getElem?_eq_some_iff.mp he
  exact ⟨Nat.zero_le _, by show i ≤ list.length - 1; omega⟩

end
end Cg
