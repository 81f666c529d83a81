import OpenWatcom.Lib.WordSets
import Mathlib.Data.Multiset.Count
import Mathlib.Algebra.BigOperators.Group.Finset.Basic

/-!
# Conflicts of the LALR(1) states and how `resolve` settles them

* `resolve`, `conflict`   the routines of `lalr1.c`, over the word sets of `bitsets.c`;
* `survivor`   which of several reductions on one token is left when they are compared one after
               the other, `outcome` what is left of it and of a shift;
* `rrLoop_reduce`, `rrLoop_count`   the first loop leaves the survivor of every token in `reduce[]`,
               and an entry in `work[]` for every comparison that no precedence decided;
* `srLoop_spec`   the second loop settles each shift against the survivor of its token;
* `resolve_resolved`   a state after `resolve`: token by token, the outcome;
* `conflict_resolved`   every state after `Conflict`.
-/

namespace Lalr
open WordSets

/-- `a_word` has 32 bits -/
abbrev Word := BitVec 32

inductive Assoc where
  | nonAssoc
  | lAssoc
  | rAssoc
  deriving DecidableEq

/-- `prec = 0` is no precedence -/
structure Prec where
  assoc : Assoc
  prec : Nat
  deriving DecidableEq

structure Pro where
  pidx : Nat
  prec : Prec
  deriving DecidableEq

structure Sym where
  idx : Nat
  /-- whether there are productions of the symbol -/
  pro : Bool
  prec : Prec
  deriving DecidableEq

structure ShiftAction where
  sym : Sym
  state : Nat
  deriving DecidableEq

structure ReduceAction where
  pro : Pro
  follow : List Word
  deriving DecidableEq

structure State where
  trans : List ShiftAction
  redun : List ReduceAction
  deriving DecidableEq

/-- an element of `redun` by its place: what `reduce[]` points at -/
structure Reduce where
  pro : Pro
  place : Nat
  deriving DecidableEq

/-! ## the routines -/

/-- the first two branches of the r/r comparison -/
def undecided (prev pro : Pro) : Bool :=
  prev.prec.prec = 0 ∨ pro.prec.prec = 0 ∨ prev.prec.prec = pro.prec.prec

/-- `reduce[]` and the entries of `work[]` -/
structure Work where
  reduce : Nat → Option Reduce
  work : List Nat

def rrStep (raction : Reduce) (x : Work) (sym : Nat) : Work :=
  match x.reduce sym with
  | none => { x with reduce := Function.update x.reduce sym (some raction) }
  | some prev =>
    if undecided prev.pro raction.pro then
      -- resolve to the earliest production
      if prev.pro.pidx ≤ raction.pro.pidx then { x with work := x.work ++ [sym] }
      else
        { reduce := Function.update x.reduce sym (some raction)
          work := x.work ++ [sym] }
    else if raction.pro.prec.prec < prev.pro.prec.prec then x
    else { x with reduce := Function.update x.reduce sym (some raction) }

/-- the members of a set are gone through from the last to the first -/
def rrAction (x : Work) (r : ReduceAction × Nat) : Work :=
  (members r.1.follow).reverse.foldl (rrStep ⟨r.1.pro, r.2⟩) x

def rrLoop (reduce : Nat → Option Reduce) (redun : List ReduceAction) : Work :=
  redun.zipIdx.foldl rrAction ⟨reduce, []⟩

def srStep (nterm errstate : Nat) (x : (Nat → Option Reduce) × List ShiftAction)
    (saction : ShiftAction) : (Nat → Option Reduce) × List ShiftAction :=
  let sym := saction.sym
  if nterm ≤ sym.idx then (x.1, x.2 ++ [saction])
  else match x.1 sym.idx with
    | none => (x.1, x.2 ++ [saction])
    | some r =>
      let symprec := sym.prec
      let proprec := r.pro.prec
      if symprec.prec = 0 ∨ proprec.prec = 0 then
        (Function.update x.1 sym.idx none, x.2 ++ [saction])
      else if proprec.prec < symprec.prec then
        (Function.update x.1 sym.idx none, x.2 ++ [saction])
      else if symprec.prec = proprec.prec then
        match symprec.assoc with
        | .rAssoc => (Function.update x.1 sym.idx none, x.2 ++ [saction])
        | .nonAssoc =>
          (Function.update x.1 sym.idx none, x.2 ++ [{ saction with state := errstate }])
        | .lAssoc => x
      else x

def srLoop (nterm errstate : Nat) (reduce : Nat → Option Reduce) (trans : List ShiftAction) :
    (Nat → Option Reduce) × List ShiftAction :=
  trans.foldl (srStep nterm errstate) (reduce, [])

def clear (r : ReduceAction) : ReduceAction := { r with follow := r.follow.map fun _ => 0 }

/-- one round of the last loop -/
def giveBack (x : (Nat → Option Reduce) × List ReduceAction) (sym : Nat) :
    (Nat → Option Reduce) × List ReduceAction :=
  match x.1 sym with
  | none => x
  | some r =>
    (Function.update x.1 sym none,
      x.2.modify r.place fun raction => { raction with follow := setBit raction.follow sym })

/-- `work` has `nterm` elements and entries of it are not taken back in the first loop: `none` when
the loop has run over its end -/
def resolve (nterm errstate : Nat) (reduce : Nat → Option Reduce) (state : State) :
    Option ((Nat → Option Reduce) × State) :=
  let x := rrLoop reduce state.redun
  if nterm < x.work.length then none
  else
    let y := srLoop nterm errstate x.reduce state.trans
    let z := (List.range nterm).foldl giveBack (y.1, state.redun.map clear)
    some (z.1, ⟨y.2, z.2⟩)

/-- the terminals that the state shifts, in a set of `wperset` words -/
def shiftSet (nterm : Nat) (trans : List ShiftAction) : List Word :=
  trans.foldl (fun set saction => if saction.sym.pro then set else setBit set saction.sym.idx)
    (List.replicate ((nterm + 31) / 32) 0)

/-- whether a follow set meets the shifts or an earlier one -/
def clashes : List Word → List ReduceAction → Bool
  | _, [] => false
  | set, raction :: redun =>
    match meets set raction.follow with
    | none => true
    | some set' => clashes set' redun

/-- `Conflict`: `reduce[]` is one array for all states -/
def conflict (nterm errstate : Nat) : (Nat → Option Reduce) → List State → Option (List State)
  | _, [] => some []
  | reduce, state :: states =>
    if clashes (shiftSet nterm state.trans) state.redun then
      match resolve nterm errstate reduce state with
      | none => none
      | some (reduce', state') => (conflict nterm errstate reduce' states).map (state' :: ·)
    else (conflict nterm errstate reduce states).map (state :: ·)

/-! ## one token -/

def shifts (state : State) (sym : Nat) : List ShiftAction :=
  state.trans.filter fun s => s.sym.idx = sym

/-- the reductions on a token, in the order of `redun` -/
def reductionsFrom (l : List (ReduceAction × Nat)) (sym : Nat) : List Reduce :=
  (l.filter fun r => isBitSet r.1.follow sym).map fun r => ⟨r.1.pro, r.2⟩

def reductions (state : State) (sym : Nat) : List Reduce :=
  reductionsFrom state.redun.zipIdx sym

/-- what is left of a reduction and a later one of the list -/
def keep (prev r : Reduce) : Reduce :=
  if undecided prev.pro r.pro then (if prev.pro.pidx ≤ r.pro.pidx then prev else r)
  else if r.pro.prec.prec < prev.pro.prec.prec then prev else r

/-- the reductions are compared one after the other -/
def survivor : List Reduce → Option Reduce
  | [] => none
  | r :: l => some (l.foldl keep r)

/-- comparisons on the way that no precedence decides -/
def undecidedFrom : Reduce → List Reduce → Nat
  | _, [] => 0
  | prev, r :: l => (if undecided prev.pro r.pro then 1 else 0) + undecidedFrom (keep prev r) l

def undecidedOn : List Reduce → Nat
  | [] => 0
  | r :: l => undecidedFrom r l

/-- what is left of a shift and a reduction: shifts and reductions on the token -/
def outcome (errstate : Nat) : Option ShiftAction → Option Reduce →
    List ShiftAction × List Reduce
  | none, r => ([], r.toList)
  | some s, none => ([s], [])
  | some s, some r =>
    if s.sym.prec.prec = 0 ∨ r.pro.prec.prec = 0 ∨ r.pro.prec.prec < s.sym.prec.prec then ([s], [])
    else if s.sym.prec.prec < r.pro.prec.prec then ([], [r])
    else match s.sym.prec.assoc with
      | .lAssoc => ([], [r])
      | .rAssoc => ([s], [])
      | .nonAssoc => ([{ s with state := errstate }], [])

/-! ## the first loop -/

theorem survivor_concat (l : List Reduce) (r : Reduce) :
    survivor (l ++ [r]) = some (match survivor l with
      | none => r
      | some prev => keep prev r) := by
  cases l with
  | nil => rfl
  | cons a l =>
    rw [List.cons_append, survivor, survivor, List.foldl_append]
    rfl

theorem undecidedFrom_concat (prev : Reduce) (l : List Reduce) (r : Reduce) :
    undecidedFrom prev (l ++ [r]) = undecidedFrom prev l +
      if undecided (l.foldl keep prev).pro r.pro then 1 else 0 := by
  induction l generalizing prev with
  | nil => exact (Nat.zero_add _).symm
  | cons a l ih => rw [List.cons_append, undecidedFrom, undecidedFrom, ih, List.foldl_cons, add_assoc]

theorem undecidedOn_concat (l : List Reduce) (r : Reduce) :
    undecidedOn (l ++ [r]) = undecidedOn l + match survivor l with
      | none => 0
      | some prev => if undecided prev.pro r.pro then 1 else 0 := by
  cases l with
  | nil => rfl
  | cons a l =>
    rw [List.cons_append, undecidedOn, undecidedOn, undecidedFrom_concat]
    rfl

/-- what the loop has for a token after the reductions `l` on it -/
structure Holds (x : Work) (sym : Nat) (l : List Reduce) : Prop where
  reduce : x.reduce sym = survivor l
  count : x.work.count sym = undecidedOn l

theorem rrStep_holds {x : Work} {sym : Nat} {l : List Reduce} (h : Holds x sym l) (r : Reduce) :
    Holds (rrStep r x sym) sym (l ++ [r]) := by
  have hr := h.reduce
  have hc := h.count
  cases hs : survivor l with
  | none =>
    rw [hs] at hr
    have he : rrStep r x sym = { x with reduce := Function.update x.reduce sym (some r) } := by
      rw [rrStep, hr]
    refine ⟨?_, ?_⟩
    · rw [he, survivor_concat, hs]
      exact Function.update_self _ _ _
    · rw [he, undecidedOn_concat, hs]
      exact hc
  | some prev =>
    rw [hs] at hr
    rw [rrStep, hr]
    refine ⟨?_, ?_⟩
    · rw [survivor_concat, hs]
      show _ = some (keep prev r)
      rw [keep]
      dsimp only
      split
      · split
        · exact hr
        · exact Function.update_self _ _ _
      · split
        · exact hr
        · exact Function.update_self _ _ _
    · rw [undecidedOn_concat, hs]
      dsimp only
      by_cases hu : undecided prev.pro r.pro
      · rw [if_pos hu, if_pos hu]
        split <;> simp [hc]
      · rw [if_neg hu, if_neg hu]
        split <;> exact hc

theorem rrStep_frame {x : Work} {sym k : Nat} {l : List Reduce} (hk : k ≠ sym) (h : Holds x k l)
    (r : Reduce) : Holds (rrStep r x sym) k l := by
  have hup (v : Option Reduce) : Function.update x.reduce sym v k = x.reduce k :=
    Function.update_of_ne hk _ _
  have hcount : (x.work ++ [sym]).count k = x.work.count k := by
    rw [List.count_append, List.count_eq_zero.mpr (fun hm => hk (List.mem_singleton.mp hm)),
      add_zero]
  rw [rrStep]
  split
  · exact ⟨(hup _).trans h.reduce, h.count⟩
  · split
    · split
      · exact ⟨h.reduce, hcount.trans h.count⟩
      · exact ⟨(hup _).trans h.reduce, hcount.trans h.count⟩
    · split
      · exact h
      · exact ⟨(hup _).trans h.reduce, h.count⟩

theorem rrSteps_holds {ms : List Nat} (hms : ms.Nodup) {x : Work} {k : Nat} {l : List Reduce}
    (h : Holds x k l) (r : Reduce) :
    Holds (ms.foldl (rrStep r) x) k (if k ∈ ms then l ++ [r] else l) := by
  induction ms generalizing x l with
  | nil => exact h
  | cons m ms ih =>
    obtain ⟨hm, hms'⟩ := List.nodup_cons.mp hms
    rw [List.foldl_cons]
    by_cases hk : k = m
    · subst hk
      have := ih hms' (rrStep_holds h r)
      rw [if_neg hm] at this
      rw [if_pos List.mem_cons_self]
      exact this
    · have := ih hms' (rrStep_frame hk h r)
      simpa [hk] using this

theorem reductionsFrom_concat (l : List (ReduceAction × Nat)) (r : ReduceAction × Nat) (k : Nat) :
    reductionsFrom (l ++ [r]) k
      = if isBitSet r.1.follow k then reductionsFrom l k ++ [⟨r.1.pro, r.2⟩]
        else reductionsFrom l k := by
  rw [reductionsFrom, reductionsFrom, List.filter_append, List.map_append]
  by_cases h : isBitSet r.1.follow k <;> simp [h]

theorem rrAction_holds {x : Work} {k : Nat} {l : List (ReduceAction × Nat)}
    (h : Holds x k (reductionsFrom l k)) (r : ReduceAction × Nat) :
    Holds (rrAction x r) k (reductionsFrom (l ++ [r]) k) := by
  have hms : (members r.1.follow).reverse.Nodup := List.nodup_reverse.mpr (members_nodup _)
  have := rrSteps_holds hms h ⟨r.1.pro, r.2⟩
  rw [reductionsFrom_concat]
  simpa [rrAction, mem_members] using this

theorem rrActions_holds (l : List (ReduceAction × Nat)) (k : Nat) :
    Holds (l.foldl rrAction ⟨fun _ => none, []⟩) k (reductionsFrom l k) := by
  induction l using List.reverseRecOn with
  | nil => exact ⟨rfl, rfl⟩
  | append_singleton l r ih =>
    rw [List.foldl_append]
    exact rrAction_holds ih r

theorem rrLoop_reduce (state : State) (k : Nat) :
    (rrLoop (fun _ => none) state.redun).reduce k = survivor (reductions state k) :=
  (rrActions_holds state.redun.zipIdx k).reduce

theorem rrLoop_count (state : State) (k : Nat) :
    (rrLoop (fun _ => none) state.redun).work.count k = undecidedOn (reductions state k) :=
  (rrActions_holds state.redun.zipIdx k).count

/-- what the construction of the states promises -/
structure Ready (nterm : Nat) (state : State) : Prop where
  follow_length : ∀ r ∈ state.redun, r.follow.length = (nterm + 31) / 32
  follow_lt : ∀ r ∈ state.redun, ∀ k, isBitSet r.follow k = true → k < nterm
  /-- the terminals stand first -/
  terminal : ∀ s ∈ state.trans, s.sym.pro = false ↔ s.sym.idx < nterm
  shift_unique : state.trans.Pairwise fun s t => s.sym.idx ≠ t.sym.idx

/-- the comparisons of all tokens that no precedence decides -/
def undecidedAll (nterm : Nat) (state : State) : Nat :=
  ∑ k ∈ Finset.range nterm, undecidedOn (reductions state k)

theorem reductions_eq_nil {nterm : Nat} {state : State} (h : Ready nterm state) {k : Nat}
    (hk : nterm ≤ k) : reductions state k = [] := by
  rw [reductions, reductionsFrom, List.map_eq_nil_iff, List.filter_eq_nil_iff]
  intro r hr hb
  exact absurd (h.follow_lt r.1 (List.fst_mem_of_mem_zipIdx hr) k hb) (by omega)

theorem rrLoop_length {nterm : Nat} {state : State} (h : Ready nterm state) :
    (rrLoop (fun _ => none) state.redun).work.length = undecidedAll nterm state := by
  have hms : ∀ k ∈ ((rrLoop (fun _ => none) state.redun).work : Multiset Nat),
      k ∈ Finset.range nterm := by
    intro k hk
    refine Finset.mem_range.mpr ?_
    by_contra hge
    have hc : 0 < (rrLoop (fun _ => none) state.redun).work.count k :=
      List.count_pos_iff.mpr (Multiset.mem_coe.mp hk)
    rw [rrLoop_count, reductions_eq_nil h (by omega)] at hc
    exact absurd hc (by simp [undecidedOn])
  have hsum := Multiset.sum_count_eq_card hms
  rw [Multiset.coe_card] at hsum
  rw [← hsum, undecidedAll]
  refine Finset.sum_congr rfl fun k _ => ?_
  rw [Multiset.coe_count, rrLoop_count]

/-! ## the second loop -/

/-- what the loop leaves of a token of which it has seen the shifts `ss` -/
structure Settled (errstate : Nat) (reduce : Nat → Option Reduce)
    (x : (Nat → Option Reduce) × List ShiftAction) (k : Nat) (ss : List ShiftAction) : Prop where
  trans : x.2.filter (fun s => s.sym.idx = k) = (outcome errstate ss.head? (reduce k)).1
  reduce : (x.1 k).toList = (outcome errstate ss.head? (reduce k)).2

theorem srStep_other (nterm errstate : Nat) (x : (Nat → Option Reduce) × List ShiftAction)
    {s : ShiftAction} {k : Nat} (hk : s.sym.idx ≠ k) :
    (srStep nterm errstate x s).1 k = x.1 k ∧
    (srStep nterm errstate x s).2.filter (fun s => s.sym.idx = k)
      = x.2.filter fun s => s.sym.idx = k := by
  have hup : Function.update x.1 s.sym.idx none k = x.1 k := Function.update_of_ne (Ne.symm hk) _ _
  have hfil (st : Nat) : (x.2 ++ [{ s with state := st }]).filter (fun s => s.sym.idx = k)
      = x.2.filter (fun s => s.sym.idx = k) := by
    rw [List.filter_append]
    simp [hk]
  rw [srStep]
  dsimp only
  split
  · exact ⟨rfl, hfil s.state⟩
  · split
    · exact ⟨rfl, hfil s.state⟩
    · split
      · exact ⟨hup, hfil s.state⟩
      · split
        · exact ⟨hup, hfil s.state⟩
        · split
          · split
            · exact ⟨hup, hfil s.state⟩
            · exact ⟨hup, hfil errstate⟩
            · exact ⟨rfl, rfl⟩
          · exact ⟨rfl, rfl⟩

theorem srStep_frame {nterm errstate : Nat} {reduce : Nat → Option Reduce}
    {x : (Nat → Option Reduce) × List ShiftAction} {k : Nat} {ss : List ShiftAction}
    {s : ShiftAction} (hk : s.sym.idx ≠ k) (h : Settled errstate reduce x k ss) :
    Settled errstate reduce (srStep nterm errstate x s) k ss := by
  obtain ⟨h1, h2⟩ := srStep_other nterm errstate x hk
  exact ⟨h2.trans h.trans, (congrArg Option.toList h1).trans h.reduce⟩

theorem srStep_settled {nterm errstate : Nat} {reduce : Nat → Option Reduce}
    {x : (Nat → Option Reduce) × List ShiftAction} {s : ShiftAction} (hs : s.sym.idx < nterm)
    (h : Settled errstate reduce x s.sym.idx []) :
    Settled errstate reduce (srStep nterm errstate x s) s.sym.idx [s] := by
  have ht : x.2.filter (fun t => t.sym.idx = s.sym.idx) = [] := h.trans
  have hr : (x.1 s.sym.idx).toList = (reduce s.sym.idx).toList := h.reduce
  have hfil (st : Nat) : (x.2 ++ [{ s with state := st }]).filter (fun t => t.sym.idx = s.sym.idx)
      = [{ s with state := st }] := by
    rw [List.filter_append, ht]
    simp
  have hup : Function.update x.1 s.sym.idx none s.sym.idx = none := Function.update_self _ _ _
  rw [srStep]
  dsimp only
  rw [if_neg (not_le.mpr hs)]
  cases hred : x.1 s.sym.idx with
  | none =>
    have hnone : reduce s.sym.idx = none := by
      rw [hred] at hr
      exact Option.toList_eq_nil_iff.mp hr.symm
    refine ⟨?_, ?_⟩
    · rw [hnone]
      exact hfil s.state
    · rw [hnone]
      exact congrArg Option.toList hred
  | some r =>
    have hsome : reduce s.sym.idx = some r := by
      rw [hred] at hr
      cases hv : reduce s.sym.idx with
      | none => rw [hv] at hr; exact absurd hr (by simp)
      | some r' => rw [hv] at hr; simpa using hr.symm
    -- the token is left to the shift, or to the reduction
    have hshift (st : Nat) (ho : outcome errstate (some s) (some r) = ([{ s with state := st }], [])) :
        Settled errstate reduce (Function.update x.1 s.sym.idx none, x.2 ++ [{ s with state := st }])
          s.sym.idx [s] := by
      refine ⟨?_, ?_⟩
      · rw [hsome, List.head?_cons, ho]
        exact hfil st
      · rw [hsome, List.head?_cons, ho]
        exact congrArg Option.toList hup
    have hreduce (ho : outcome errstate (some s) (some r) = ([], [r])) :
        Settled errstate reduce x s.sym.idx [s] := by
      refine ⟨?_, ?_⟩
      · rw [hsome, List.head?_cons, ho]
        exact ht
      · rw [hsome, List.head?_cons, ho]
        exact congrArg Option.toList hred
    dsimp only
    split
    · exact hshift s.state (by rw [outcome, if_pos (by tauto)])
    · split
      · exact hshift s.state (by rw [outcome, if_pos (by tauto)])
      · have hno : ¬ (s.sym.prec.prec = 0 ∨ r.pro.prec.prec = 0 ∨
            r.pro.prec.prec < s.sym.prec.prec) := by tauto
        split
        · have hnlt : ¬ s.sym.prec.prec < r.pro.prec.prec := by omega
          split
          · rename_i ha
            exact hshift s.state (by rw [outcome, if_neg hno, if_neg hnlt, ha])
          · rename_i ha
            exact hshift errstate (by rw [outcome, if_neg hno, if_neg hnlt, ha])
          · rename_i ha
            exact hreduce (by rw [outcome, if_neg hno, if_neg hnlt, ha])
        · exact hreduce (by rw [outcome, if_neg hno, if_pos (by omega)])

/-- a shift of a non-terminal stays -/
theorem srStep_goto {nterm errstate : Nat} {x : (Nat → Option Reduce) × List ShiftAction}
    {s : ShiftAction} (hs : nterm ≤ s.sym.idx) :
    srStep nterm errstate x s = (x.1, x.2 ++ [s]) := by
  rw [srStep]
  exact if_pos hs

/-- the rest of the shifts does not touch a token that it does not shift -/
theorem srSteps_frame {nterm errstate : Nat} {reduce : Nat → Option Reduce} {k : Nat}
    {ss : List ShiftAction} {l : List ShiftAction} (hl : ∀ s ∈ l, s.sym.idx ≠ k)
    {x : (Nat → Option Reduce) × List ShiftAction} (h : Settled errstate reduce x k ss) :
    Settled errstate reduce (l.foldl (srStep nterm errstate) x) k ss := by
  induction l generalizing x with
  | nil => exact h
  | cons s l ih =>
    exact ih (fun t ht => hl t (List.mem_cons_of_mem _ ht))
      (srStep_frame (hl s List.mem_cons_self) h)

theorem srSteps_settled {nterm errstate : Nat} {reduce : Nat → Option Reduce} {k : Nat}
    (hk : k < nterm) {l : List ShiftAction}
    (hl : l.Pairwise fun s t => s.sym.idx ≠ t.sym.idx)
    {x : (Nat → Option Reduce) × List ShiftAction} (h : Settled errstate reduce x k []) :
    Settled errstate reduce (l.foldl (srStep nterm errstate) x) k
      (l.filter fun s => s.sym.idx = k) := by
  induction l generalizing x with
  | nil => exact h
  | cons s l ih =>
    obtain ⟨hs, hl'⟩ := List.pairwise_cons.mp hl
    rw [List.foldl_cons]
    by_cases hsk : s.sym.idx = k
    · have hrest : l.filter (fun t => t.sym.idx = k) = [] := by
        refine List.filter_eq_nil_iff.mpr fun t ht => ?_
        have := hs t ht
        simp only [decide_eq_true_eq]
        omega
      rw [List.filter_cons, if_pos (by simpa using hsk), hrest]
      subst hsk
      exact srSteps_frame (fun t ht => (hs t ht).symm) (srStep_settled hk h)
    · rw [List.filter_cons, if_neg (by simpa using hsk)]
      exact ih hl' (srStep_frame hsk h)

theorem srLoop_settled {nterm errstate : Nat} {state : State} (hready : Ready nterm state)
    (reduce : Nat → Option Reduce) {k : Nat} (hk : k < nterm) :
    Settled errstate reduce (srLoop nterm errstate reduce state.trans) k (shifts state k) :=
  srSteps_settled hk hready.shift_unique ⟨rfl, rfl⟩

/-- beyond the terminals nothing changes -/
theorem srSteps_goto {nterm errstate k : Nat} (hk : nterm ≤ k) (l : List ShiftAction)
    (x : (Nat → Option Reduce) × List ShiftAction) :
    (l.foldl (srStep nterm errstate) x).1 k = x.1 k ∧
    (l.foldl (srStep nterm errstate) x).2.filter (fun s => s.sym.idx = k)
      = x.2.filter (fun s => s.sym.idx = k) ++ l.filter fun s => s.sym.idx = k := by
  induction l generalizing x with
  | nil => exact ⟨rfl, (List.append_nil _).symm⟩
  | cons s l ih =>
    obtain ⟨h1, h2⟩ := ih (srStep nterm errstate x s)
    rw [List.foldl_cons, h1, h2]
    by_cases hs : nterm ≤ s.sym.idx
    · rw [srStep_goto hs]
      refine ⟨rfl, ?_⟩
      rw [List.filter_append, List.append_assoc, ← List.filter_append]
      rfl
    · have hne : s.sym.idx ≠ k := by omega
      obtain ⟨h3, h4⟩ := srStep_other nterm errstate x hne
      rw [h3, h4, List.filter_cons, if_neg (by simpa using hne)]
      exact ⟨rfl, rfl⟩

/-! ## the last loop -/

theorem mem_reductions {state : State} {k : Nat} {r : Reduce} :
    r ∈ reductions state k ↔ ∃ raction, state.redun[r.place]? = some raction ∧
      raction.pro = r.pro ∧ isBitSet raction.follow k = true := by
  rw [reductions, reductionsFrom, List.mem_map]
  constructor
  · rintro ⟨⟨raction, i⟩, hm, rfl⟩
    obtain ⟨hi, hb⟩ := List.mem_filter.mp hm
    exact ⟨raction, List.mem_zipIdx_iff_getElem?.mp hi, rfl, hb⟩
  · rintro ⟨raction, hi, hp, hb⟩
    refine ⟨(raction, r.place), List.mem_filter.mpr ⟨List.mem_zipIdx_iff_getElem?.mpr hi, hb⟩, ?_⟩
    rw [hp]

theorem reductions_nodup (state : State) (k : Nat) : (reductions state k).Nodup := by
  have hplaces : (state.redun.zipIdx.map Prod.snd).Nodup := by
    rw [List.zipIdx_map_snd]
    exact List.nodup_range'
  have hsub : ((reductions state k).map Reduce.place).Sublist (state.redun.zipIdx.map Prod.snd) := by
    rw [reductions, reductionsFrom, List.map_map]
    exact List.filter_sublist.map Prod.snd
  exact List.Nodup.of_map _ (hplaces.sublist hsub)

/-- what the loop has after the first `n` terminals, when it starts from the choices `reduce` -/
structure GivenBack (reduce : Nat → Option Reduce) (redun : List ReduceAction) (words n : Nat)
    (z : (Nat → Option Reduce) × List ReduceAction) : Prop where
  reduce_lt : ∀ k < n, z.1 k = none
  reduce_ge : ∀ k, n ≤ k → z.1 k = reduce k
  pro : z.2.map ReduceAction.pro = redun.map ReduceAction.pro
  follow_length : ∀ r ∈ z.2, r.follow.length = words
  follow : ∀ i raction, z.2[i]? = some raction → ∀ k,
    isBitSet raction.follow k = true ↔ k < n ∧ (reduce k).map Reduce.place = some i

theorem givenBack_clear (reduce : Nat → Option Reduce) {redun : List ReduceAction} {words : Nat}
    (h : ∀ r ∈ redun, r.follow.length = words) :
    GivenBack reduce redun words 0 (reduce, redun.map clear) where
  reduce_lt _ hk := absurd hk (Nat.not_lt_zero _)
  reduce_ge _ _ := rfl
  pro := by
    rw [List.map_map]
    rfl
  follow_length r hr := by
    obtain ⟨a, ha, rfl⟩ := List.mem_map.mp hr
    rw [clear, List.length_map, h a ha]
  follow i raction hi k := by
    rw [List.getElem?_map] at hi
    obtain ⟨a, _, rfl⟩ := Option.map_eq_some_iff.mp hi
    have hz : (clear a).follow = List.replicate a.follow.length 0 := List.map_const'
    rw [hz, isBitSet_zeros]
    simp

theorem givenBack_step {reduce : Nat → Option Reduce} {redun : List ReduceAction} {words n : Nat}
    {z : (Nat → Option Reduce) × List ReduceAction} (hn : n < words * 32)
    (h : GivenBack reduce redun words n z) : GivenBack reduce redun words (n + 1) (giveBack z n) := by
  have hzn : z.1 n = reduce n := h.reduce_ge n (le_refl n)
  rw [giveBack]
  cases hr : z.1 n with
  | none =>
    rw [hr] at hzn
    refine ⟨?_, fun k hk => h.reduce_ge k (by omega), h.pro, h.follow_length, ?_⟩
    · intro k hk
      rcases Nat.lt_succ_iff_lt_or_eq.mp hk with hlt | rfl
      · exact h.reduce_lt k hlt
      · exact hr
    · intro i raction hi k
      rw [h.follow i raction hi k]
      constructor
      · rintro ⟨hk, hp⟩
        exact ⟨by omega, hp⟩
      · rintro ⟨hk, hp⟩
        rcases Nat.lt_succ_iff_lt_or_eq.mp hk with hlt | rfl
        · exact ⟨hlt, hp⟩
        · rw [← hzn] at hp
          exact absurd hp (by simp)
  | some r =>
    rw [hr] at hzn
    dsimp only
    refine ⟨?_, ?_, ?_, ?_, ?_⟩
    · intro k hk
      rcases Nat.lt_succ_iff_lt_or_eq.mp hk with hlt | rfl
      · exact (Function.update_of_ne (Nat.ne_of_lt hlt) _ _).trans (h.reduce_lt k hlt)
      · exact Function.update_self _ _ _
    · intro k hk
      exact (Function.update_of_ne (by omega) _ _).trans (h.reduce_ge k (by omega))
    · rw [← h.pro]
      refine List.ext_getElem? fun i => ?_
      rw [List.getElem?_map, List.getElem?_map, List.getElem?_modify]
      by_cases hi : r.place = i <;> cases z.2[i]? <;> simp [hi]
    · intro a ha
      obtain ⟨i, hi⟩ := List.mem_iff_getElem?.mp ha
      rw [List.getElem?_modify] at hi
      obtain ⟨b, hb, rfl⟩ := Option.map_eq_some_iff.mp hi
      have hbl := h.follow_length b (List.mem_of_getElem? hb)
      split
      · rw [setBit_length, hbl]
      · exact hbl
    · intro i a ha k
      rw [List.getElem?_modify] at ha
      obtain ⟨b, hb, rfl⟩ := Option.map_eq_some_iff.mp ha
      have hbk := h.follow i b hb k
      have hbl := h.follow_length b (List.mem_of_getElem? hb)
      by_cases hi : r.place = i
      · rw [if_pos hi, isBitSet_setBit (by rw [hbl]; exact hn), Bool.or_eq_true, hbk,
          decide_eq_true_eq]
        constructor
        · rintro (⟨hk, hp⟩ | rfl)
          · exact ⟨by omega, hp⟩
          · exact ⟨by omega, by rw [← hzn, ← hi]; rfl⟩
        · rintro ⟨hk, hp⟩
          rcases Nat.lt_succ_iff_lt_or_eq.mp hk with hlt | rfl
          · exact Or.inl ⟨hlt, hp⟩
          · exact Or.inr rfl
      · rw [if_neg hi, hbk]
        constructor
        · rintro ⟨hk, hp⟩
          exact ⟨by omega, hp⟩
        · rintro ⟨hk, hp⟩
          rcases Nat.lt_succ_iff_lt_or_eq.mp hk with hlt | rfl
          · exact ⟨hlt, hp⟩
          · rw [← hzn] at hp
            exact absurd (Option.some.inj hp) hi

theorem givenBack_range {reduce : Nat → Option Reduce} {redun : List ReduceAction} {words : Nat}
    (h : ∀ r ∈ redun, r.follow.length = words) {n : Nat} (hn : n ≤ words * 32) :
    GivenBack reduce redun words n
      ((List.range n).foldl giveBack (reduce, redun.map clear)) := by
  induction n with
  | zero => exact givenBack_clear reduce h
  | succ n ih =>
    rw [List.range_succ, List.foldl_append]
    exact givenBack_step (by omega) (ih (by omega))

/-! ## one state -/

theorem toList_of_mem {l : List Reduce} (hl : l.Nodup) {o : Option Reduce}
    (h : ∀ r, r ∈ l ↔ o = some r) : l = o.toList := by
  cases o with
  | none =>
    refine List.eq_nil_iff_forall_not_mem.mpr fun r hr => ?_
    exact absurd ((h r).mp hr) (by simp)
  | some a =>
    have ha : a ∈ l := (h a).mpr rfl
    have hall : ∀ r ∈ l, r = a := fun r hr => (Option.some.inj ((h r).mp hr)).symm
    cases l with
    | nil => exact absurd ha (by simp)
    | cons b l =>
      obtain rfl := hall b List.mem_cons_self
      cases l with
      | nil => rfl
      | cons c l =>
        obtain rfl := hall c (by simp)
        exact absurd hl (by simp)

/-- the reductions all have a precedence, or none has -/
def Uniform (l : List Reduce) : Prop :=
  (∀ r ∈ l, r.pro.prec.prec ≠ 0) ∨ ∀ r ∈ l, r.pro.prec.prec = 0

/-- `r` has the highest precedence and is the earliest production that has it -/
def Best (l : List Reduce) (r : Reduce) : Prop :=
  r ∈ l ∧ ∀ c ∈ l, c.pro.prec.prec ≤ r.pro.prec.prec ∧
    (c.pro.prec.prec = r.pro.prec.prec → r.pro.pidx ≤ c.pro.pidx)

/-- the state `q'` that is left of `q` -/
structure Resolved (nterm errstate : Nat) (q q' : State) : Prop where
  /-- every terminal has at most one action -/
  oneAction : ∀ k < nterm, (shifts q' k).length + (reductions q' k).length ≤ 1
  /-- a token without a conflict keeps its actions -/
  kept : ∀ k < nterm, (shifts q k).length + (reductions q k).length ≤ 1 →
    shifts q' k = shifts q k ∧ reductions q' k = reductions q k
  /-- the reductions are compared one after the other, what is left of them with the shift -/
  settled : ∀ k < nterm, (shifts q' k, reductions q' k)
    = outcome errstate (shifts q k).head? (survivor (reductions q k))
  /-- where precedence decides throughout or nowhere, the best reduction is left -/
  best : ∀ k < nterm, Uniform (reductions q k) → ∀ r, survivor (reductions q k) = some r →
    Best (reductions q k) r
  /-- the shifts of non-terminals and the list of productions stay -/
  gotos : ∀ k, nterm ≤ k → shifts q' k = shifts q k
  productions : q'.redun.map ReduceAction.pro = q.redun.map ReduceAction.pro

theorem keep_mem (prev r : Reduce) : keep prev r = prev ∨ keep prev r = r := by
  rw [keep]
  split
  · split
    · exact Or.inl rfl
    · exact Or.inr rfl
  · split
    · exact Or.inl rfl
    · exact Or.inr rfl

theorem survivor_mem {l : List Reduce} {r : Reduce} (h : survivor l = some r) : r ∈ l := by
  induction l using List.reverseRecOn generalizing r with
  | nil => exact absurd h (by simp [survivor])
  | append_singleton l a ih =>
    rw [survivor_concat] at h
    obtain rfl := Option.some.inj h
    cases hs : survivor l with
    | none => simp
    | some prev =>
      show keep prev a ∈ l ++ [a]
      rcases keep_mem prev a with hk | hk
      · rw [hk]
        exact List.mem_append_left _ (ih hs)
      · rw [hk]
        exact List.mem_append_right _ (List.mem_singleton.mpr rfl)

theorem keep_best {l : List Reduce} {prev r : Reduce} (h : Best l prev)
    (hu : Uniform (l ++ [r])) : Best (l ++ [r]) (keep prev r) := by
  obtain ⟨hmem, hall⟩ := h
  have hund : undecided prev.pro r.pro = true ↔ prev.pro.prec.prec = r.pro.prec.prec := by
    have hp := List.mem_append_left [r] hmem
    have hr : r ∈ l ++ [r] := by simp
    simp only [undecided, decide_eq_true_eq]
    rcases hu with hu | hu
    · have h1 := hu _ hp
      have h2 := hu _ hr
      tauto
    · rw [hu _ hp, hu _ hr]
      simp
  rw [keep]
  by_cases he : prev.pro.prec.prec = r.pro.prec.prec
  · rw [if_pos (hund.mpr he)]
    split
    · rename_i hle
      refine ⟨List.mem_append_left _ hmem, fun c hc => ?_⟩
      rcases List.mem_append.mp hc with hc | hc
      · exact hall c hc
      · rw [List.mem_singleton.mp hc]
        exact ⟨by omega, fun _ => hle⟩
    · rename_i hgt
      refine ⟨by simp, fun c hc => ?_⟩
      rcases List.mem_append.mp hc with hc | hc
      · have := hall c hc
        exact ⟨by omega, fun hce => by have := this.2 (by omega); omega⟩
      · rw [List.mem_singleton.mp hc]
        exact ⟨le_refl _, fun _ => le_refl _⟩
  · rw [if_neg (fun hund' => he (hund.mp hund'))]
    split
    · rename_i hlt
      refine ⟨List.mem_append_left _ hmem, fun c hc => ?_⟩
      rcases List.mem_append.mp hc with hc | hc
      · exact hall c hc
      · rw [List.mem_singleton.mp hc]
        exact ⟨by omega, fun hce => absurd hce (by omega)⟩
    · rename_i hge
      refine ⟨by simp, fun c hc => ?_⟩
      rcases List.mem_append.mp hc with hc | hc
      · have := hall c hc
        exact ⟨by omega, fun hce => absurd hce (by omega)⟩
      · rw [List.mem_singleton.mp hc]
        exact ⟨le_refl _, fun _ => le_refl _⟩

theorem uniform_left {l m : List Reduce} (h : Uniform (l ++ m)) : Uniform l := by
  rcases h with h | h
  · exact Or.inl fun r hr => h r (List.mem_append_left _ hr)
  · exact Or.inr fun r hr => h r (List.mem_append_left _ hr)

theorem survivor_best {l : List Reduce} (hu : Uniform l) {r : Reduce} (h : survivor l = some r) :
    Best l r := by
  induction l using List.reverseRecOn generalizing r with
  | nil => exact absurd h (by simp [survivor])
  | append_singleton l a ih =>
    rw [survivor_concat] at h
    obtain rfl := Option.some.inj h
    cases hs : survivor l with
    | none =>
      have hl : l = [] := by
        cases l with
        | nil => rfl
        | cons b l => exact absurd hs (by simp [survivor])
      subst hl
      refine ⟨by simp, fun c hc => ?_⟩
      rw [List.mem_singleton.mp hc]
      exact ⟨le_refl _, fun _ => le_refl _⟩
    | some prev => exact keep_best (ih (uniform_left hu) hs) hu

theorem outcome_reduce {errstate : Nat} {s : Option ShiftAction} {o : Option Reduce} {r : Reduce}
    (h : r ∈ (outcome errstate s o).2) : o = some r := by
  cases s with
  | none => simpa [outcome] using h
  | some s =>
    cases o with
    | none => exact absurd h (by simp [outcome])
    | some a =>
      rw [outcome] at h
      split at h
      · exact absurd h (by simp)
      · split at h
        · rw [List.mem_singleton.mp h]
        · split at h
          · rw [List.mem_singleton.mp h]
          · exact absurd h (by simp)
          · exact absurd h (by simp)

theorem outcome_length (errstate : Nat) (s : Option ShiftAction) (o : Option Reduce) :
    (outcome errstate s o).1.length + (outcome errstate s o).2.length ≤ 1 := by
  cases s with
  | none => cases o <;> simp [outcome]
  | some s =>
    cases o with
    | none => simp [outcome]
    | some a =>
      rw [outcome]
      split
      · simp
      · split
        · simp
        · split <;> simp

/-- without a conflict the outcome is what there was -/
theorem outcome_single (errstate : Nat) {ss : List ShiftAction} {rs : List Reduce}
    (h : ss.length + rs.length ≤ 1) : outcome errstate ss.head? (survivor rs) = (ss, rs) := by
  match ss, rs with
  | [], [] => rfl
  | [], [r] => rfl
  | [s], [] => rfl
  | [], a :: b :: l => simp at h
  | [s], a :: l => simp at h
  | a :: b :: l, rs =>
    simp only [List.length_cons] at h
    omega

theorem resolved_of_settled {nterm errstate : Nat} {q q' : State}
    (h : ∀ k < nterm, (shifts q' k, reductions q' k)
      = outcome errstate (shifts q k).head? (survivor (reductions q k)))
    (hg : ∀ k, nterm ≤ k → shifts q' k = shifts q k)
    (hp : q'.redun.map ReduceAction.pro = q.redun.map ReduceAction.pro) :
    Resolved nterm errstate q q' where
  oneAction k hk := by
    have ho := outcome_length errstate (shifts q k).head? (survivor (reductions q k))
    rw [← h k hk] at ho
    exact ho
  kept k hk h1 := by
    have he := h k hk
    rw [outcome_single errstate h1] at he
    exact Prod.ext_iff.mp he
  settled := h
  best k _ hu r hr := survivor_best hu hr
  gotos := hg
  productions := hp

/-- one state of `resolve`: with room for the undecided comparisons it ends, leaves `reduce[]`
empty for the next state and the outcome on every token -/
theorem resolve_resolved {nterm errstate : Nat} {q : State} (hq : Ready nterm q)
    (hfit : undecidedAll nterm q ≤ nterm) :
    ∃ q', resolve nterm errstate (fun _ => none) q = some (fun _ => none, q') ∧
      Resolved nterm errstate q q' := by
  rw [resolve]
  dsimp only
  rw [if_neg (by rw [rrLoop_length hq]; omega)]
  generalize hx : rrLoop (fun _ => none) q.redun = x
  have hxr (k : Nat) : x.reduce k = survivor (reductions q k) := by rw [← hx, rrLoop_reduce]
  generalize hy : srLoop nterm errstate x.reduce q.trans = y
  have hys {k : Nat} (hk : k < nterm) : Settled errstate x.reduce y k (shifts q k) := by
    rw [← hy]
    exact srLoop_settled hq x.reduce hk
  have hyg {k : Nat} (hk : nterm ≤ k) : y.1 k = x.reduce k ∧
      y.2.filter (fun s => s.sym.idx = k) = shifts q k := by
    rw [← hy]
    exact srSteps_goto hk q.trans (x.reduce, [])
  have hz := @givenBack_range y.1 q.redun _ hq.follow_length nterm (by omega)
  generalize (List.range nterm).foldl giveBack (y.1, q.redun.map clear) = z at hz
  have hnull : z.1 = fun _ => none := by
    funext k
    by_cases hk : k < nterm
    · exact hz.reduce_lt k hk
    · rw [hz.reduce_ge k (by omega), (hyg (by omega)).1, hxr, reductions_eq_nil hq (by omega)]
      rfl
  have hmem {k : Nat} (hk : k < nterm) {r : Reduce} (hr : y.1 k = some r) :
      r ∈ reductions q k := by
    have hto : r ∈ (y.1 k).toList := by simp [hr]
    rw [(hys hk).reduce, hxr] at hto
    exact survivor_mem (outcome_reduce hto)
  have hred {k : Nat} (hk : k < nterm) : reductions ⟨y.2, z.2⟩ k = (y.1 k).toList := by
    refine toList_of_mem (reductions_nodup _ _) fun r => ?_
    -- the productions stand where they stood
    have hpro {i : Nat} : (z.2[i]?).map ReduceAction.pro = (q.redun[i]?).map ReduceAction.pro := by
      rw [← List.getElem?_map, ← List.getElem?_map, hz.pro]
    rw [mem_reductions]
    constructor
    · rintro ⟨a, ha, hap, hb⟩
      obtain ⟨-, hplace⟩ := (hz.follow _ a ha k).mp hb
      obtain ⟨r', hr', hpl⟩ := Option.map_eq_some_iff.mp hplace
      obtain ⟨b, hb', hbp, -⟩ := mem_reductions.mp (hmem hk hr')
      rw [hpl] at hb'
      have he := hpro (i := r.place)
      rw [ha, hb'] at he
      have hsame : a.pro = b.pro := Option.some.inj he
      have hrr : r' = r := by
        cases r
        cases r'
        simp_all
      rw [hr', hrr]
    · intro hr
      obtain ⟨b, hb', hbp, -⟩ := mem_reductions.mp (hmem hk hr)
      have he := hpro (i := r.place)
      rw [hb'] at he
      obtain ⟨a, ha, hab⟩ := Option.map_eq_some_iff.mp he
      refine ⟨a, ha, hab.trans hbp, (hz.follow _ a ha k).mpr ⟨hk, ?_⟩⟩
      rw [hr]
      rfl
  refine ⟨⟨y.2, z.2⟩, by rw [hnull], resolved_of_settled (fun k hk => ?_) (fun k hk => ?_) hz.pro⟩
  · rw [hred hk, (hys hk).reduce, ← hxr]
    exact Prod.ext (hys hk).trans rfl
  · exact (hyg hk).2

/-! ## all states -/

theorem isBitSet_shiftSet {nterm : Nat} {state : State} (h : Ready nterm state) (k : Nat) :
    (shiftSet nterm state.trans).length = (nterm + 31) / 32 ∧
    (isBitSet (shiftSet nterm state.trans) k = true ↔
      ∃ s ∈ state.trans, s.sym.idx < nterm ∧ s.sym.idx = k) := by
  have hrun (l : List ShiftAction) (hl : ∀ s ∈ l, s.sym.pro = false ↔ s.sym.idx < nterm)
      (set : List Word) (hset : set.length = (nterm + 31) / 32) :
      (l.foldl (fun set s => if s.sym.pro then set else setBit set s.sym.idx) set).length
        = (nterm + 31) / 32 ∧
      (isBitSet (l.foldl (fun set s => if s.sym.pro then set else setBit set s.sym.idx) set) k = true
        ↔ isBitSet set k = true ∨ ∃ s ∈ l, s.sym.idx < nterm ∧ s.sym.idx = k) := by
    induction l generalizing set with
    | nil => exact ⟨hset, by simp⟩
    | cons s l ih =>
      have hs := hl s List.mem_cons_self
      have hl' : ∀ t ∈ l, t.sym.pro = false ↔ t.sym.idx < nterm :=
        fun t ht => hl t (List.mem_cons_of_mem _ ht)
      rw [List.foldl_cons]
      cases hp : s.sym.pro with
      | true =>
        have hno : ¬ s.sym.idx < nterm := fun hlt => by
          rw [← hs, hp] at hlt
          exact absurd hlt (by simp)
        obtain ⟨h1, h2⟩ := ih hl' set hset
        refine ⟨by simpa using h1, ?_⟩
        rw [if_pos rfl, h2]
        simp [hno]
      | false =>
        have hlt : s.sym.idx < nterm := hs.mp hp
        obtain ⟨h1, h2⟩ := ih hl' (setBit set s.sym.idx) (by rw [setBit_length, hset])
        refine ⟨by simpa using h1, ?_⟩
        rw [if_neg (by simp), h2, isBitSet_setBit (by rw [hset]; omega)]
        simp only [Bool.or_eq_true, decide_eq_true_eq, List.exists_mem_cons_iff, hlt, true_and]
        constructor
        · rintro ((hb | rfl) | hb)
          · exact Or.inl hb
          · exact Or.inr (Or.inl rfl)
          · exact Or.inr (Or.inr hb)
        · rintro (hb | rfl | hb)
          · exact Or.inl (Or.inl hb)
          · exact Or.inl (Or.inr rfl)
          · exact Or.inr hb
  obtain ⟨h1, h2⟩ := hrun state.trans h.terminal _ (List.length_replicate)
  refine ⟨h1, h2.trans ?_⟩
  rw [isBitSet_zeros]
  simp

/-- when no follow set meets the shifts or an earlier one, a token is in one of them at most -/
theorem single_of_clashes {words : Nat} {redun : List ReduceAction}
    (hl : ∀ r ∈ redun, r.follow.length = words) {set : List Word} (hset : set.length = words)
    (h : clashes set redun = false) (k : Nat) :
    (if isBitSet set k then 1 else 0) + (redun.filter fun r => isBitSet r.follow k).length ≤ 1 := by
  induction redun generalizing set with
  | nil =>
    simp only [List.filter_nil, List.length_nil, add_zero]
    split <;> omega
  | cons r redun ih =>
    have hr : r.follow.length = words := hl r List.mem_cons_self
    have hlen : set.length = r.follow.length := hset.trans hr.symm
    rw [clashes] at h
    cases hm : meets set r.follow with
    | none =>
      rw [hm] at h
      exact absurd h (by simp)
    | some set' =>
      rw [hm] at h
      obtain ⟨hlen', hbits⟩ := isBitSet_meets (by omega) hlen hm
      have hrest := ih (fun a ha => hl a (List.mem_cons_of_mem _ ha)) (hlen'.trans hset) h
      have hnot : ¬ (isBitSet set k = true ∧ isBitSet r.follow k = true) := fun hk => by
        have := (meets_eq_none (by omega) hlen).mpr ⟨k, hk⟩
        rw [hm] at this
        exact absurd this (by simp)
      rw [hbits] at hrest
      rw [List.filter_cons]
      cases hs : isBitSet set k <;> cases hf : isBitSet r.follow k
      · simpa [hs, hf] using hrest
      · simpa [hs, hf, add_comm] using hrest
      · simpa [hs, hf] using hrest
      · exact absurd ⟨hs, hf⟩ hnot

theorem reductions_length (state : State) (k : Nat) :
    (reductions state k).length = (state.redun.filter fun r => isBitSet r.follow k).length := by
  rw [reductions, reductionsFrom, List.length_map]
  have hfst : (state.redun.zipIdx.filter fun r => isBitSet r.1.follow k).map Prod.fst
      = state.redun.filter fun r => isBitSet r.follow k := by
    conv_rhs => rw [← List.zipIdx_map_fst 0 state.redun, List.filter_map]
    rfl
  rw [← hfst, List.length_map]

theorem shifts_length {nterm : Nat} {state : State} (h : Ready nterm state) (k : Nat) :
    (shifts state k).length ≤ 1 := by
  have hp : (shifts state k).Pairwise fun s t => s.sym.idx ≠ t.sym.idx :=
    h.shift_unique.sublist List.filter_sublist
  have hall : ∀ s ∈ shifts state k, s.sym.idx = k := fun s hs => by
    simpa using (List.mem_filter.mp hs).2
  match hs : shifts state k with
  | [] => simp
  | [s] => simp
  | a :: b :: l =>
    rw [hs] at hp hall
    have hab := (List.pairwise_cons.mp hp).1 b (by simp)
    rw [hall a (by simp), hall b (by simp)] at hab
    exact absurd rfl hab

/-- a state that `Conflict` does not hand to `resolve` has no conflicts -/
theorem resolved_self {nterm errstate : Nat} {q : State} (hq : Ready nterm q)
    (h : clashes (shiftSet nterm q.trans) q.redun = false) : Resolved nterm errstate q q := by
  refine resolved_of_settled (fun k hk => ?_) (fun k _ => rfl) rfl
  have hsingle := single_of_clashes hq.follow_length (isBitSet_shiftSet hq k).1 h k
  rw [← reductions_length] at hsingle
  refine (outcome_single errstate ?_).symm
  cases hs : shifts q k with
  | nil =>
    simp only [List.length_nil]
    omega
  | cons s l =>
    have hmem : s ∈ shifts q k := hs ▸ List.mem_cons_self
    obtain ⟨hm, hidx⟩ := List.mem_filter.mp hmem
    have hidx' : s.sym.idx = k := by simpa using hidx
    rw [if_pos ((isBitSet_shiftSet hq k).2.mpr ⟨s, hm, by omega, hidx'⟩)] at hsingle
    have hlen := shifts_length hq k
    rw [hs] at hlen
    omega

theorem conflict_resolved {nterm : Nat} (errstate : Nat) {states : List State}
    (hready : ∀ q ∈ states, Ready nterm q)
    (hfit : ∀ q ∈ states, undecidedAll nterm q ≤ nterm) :
    ∃ states', conflict nterm errstate (fun _ => none) states = some states' ∧
      List.Forall₂ (Resolved nterm errstate) states states' := by
  induction states with
  | nil => exact ⟨[], rfl, List.Forall₂.nil⟩
  | cons q states ih =>
    obtain ⟨states', he, hf⟩ := ih (fun a ha => hready a (List.mem_cons_of_mem _ ha))
      (fun a ha => hfit a (List.mem_cons_of_mem _ ha))
    have hq := hready q List.mem_cons_self
    rw [conflict]
    cases hc : clashes (shiftSet nterm q.trans) q.redun with
    | false =>
      refine ⟨q :: states', ?_, List.Forall₂.cons (resolved_self hq hc) hf⟩
      rw [he]
      rfl
    | true =>
      obtain ⟨q', hq', hres⟩ :=
        @resolve_resolved nterm errstate q hq (hfit q List.mem_cons_self)
      refine ⟨q' :: states', ?_, List.Forall₂.cons hres hf⟩
      rw [if_pos rfl, hq']
      dsimp only
      rw [he]
      rfl

/-- a state with three reductions on token 0, the middle one without a precedence, and a reduction
and a shift of one non-associative precedence on token 1 -/
def mixed : State where
  trans := [⟨⟨1, false, ⟨.nonAssoc, 2⟩⟩, 7⟩]
  redun := [⟨⟨5, ⟨.lAssoc, 2⟩⟩, [3#32]⟩, ⟨⟨3, ⟨.nonAssoc, 0⟩⟩, [1#32]⟩, ⟨⟨1, ⟨.lAssoc, 1⟩⟩, [1#32]⟩]

theorem mixed_ready : Ready 3 mixed where
  follow_length := by decide
  follow_lt r hr k hk := by
    have hall : ∀ r ∈ mixed.redun, ∀ k ∈ members r.follow, k < 3 := by decide +kernel
    exact hall r hr k ((mem_members _ _).mpr hk)
  terminal := by decide
  shift_unique := by decide

theorem conflict_resolved_mixed : ∃ states',
    conflict 3 9 (fun _ => none) [mixed] = some states' ∧
      List.Forall₂ (Resolved 3 9) [mixed] states' :=
  conflict_resolved 9 (fun q hq => List.mem_singleton.mp hq ▸ mixed_ready)
    (fun q hq => List.mem_singleton.mp hq ▸ (by decide +kernel))

/-- of `mixed` the reduction of precedence 1 is left on token 0, not the one of precedence 2 -/
theorem conflict_not_highest : ¬ ∀ nterm errstate states states', (∀ q ∈ states, Ready nterm q) →
    (∀ q ∈ states, undecidedAll nterm q ≤ nterm) →
    conflict nterm errstate (fun _ => none) states = some states' →
    List.Forall₂ (fun q q' => ∀ k < nterm, ∀ r ∈ reductions q' k, r.pro.prec.prec ≠ 0 →
      ∀ c ∈ reductions q k, c.pro.prec.prec ≤ r.pro.prec.prec) states states' := by
  intro h
  have hrun : conflict 3 9 (fun _ => none) [mixed] = some [⟨[⟨⟨1, false, ⟨.nonAssoc, 2⟩⟩, 9⟩],
      [⟨⟨5, ⟨.lAssoc, 2⟩⟩, [0#32]⟩, ⟨⟨3, ⟨.nonAssoc, 0⟩⟩, [0#32]⟩, ⟨⟨1, ⟨.lAssoc, 1⟩⟩, [1#32]⟩]⟩] := by
    decide +kernel
  have hall := h 3 9 [mixed] _ (fun q hq => List.mem_singleton.mp hq ▸ mixed_ready)
    (fun q hq => List.mem_singleton.mp hq ▸ (by decide +kernel)) hrun
  obtain ⟨h0, -⟩ := List.forall₂_cons.mp hall
  have := h0 0 (by omega) ⟨⟨1, ⟨.lAssoc, 1⟩⟩, 2⟩ (by decide +kernel) (by decide)
    ⟨⟨5, ⟨.lAssoc, 2⟩⟩, 0⟩ (by decide +kernel)
  exact absurd this (by decide)

end Lalr
