import Mathlib.Data.List.Basic

/-!
# Conditional directives of the preprocessor: `cmac2.c`

* `preProcTable`, `lookup`       the hash table of directives, with perfect hashing over two letters;
* `Cpp`, `preProcStmt`           the two counters and the stack, and what one directive does to them;
* `Group`, `follow`              the groups that are open, as the rules of C read the same directives;
* `skipLevel_iff`                the line behind a directive is compiled exactly when the rules say so.

A directive comes with what its line can answer: the value of its expression, and for its identifier
whether there is one and whether it is a macro.
-/

namespace PpCond

/-! ## the table of directives -/

/-- the handlers of `PreProcTable` that look at the conditional groups, and the others -/
inductive Directive
  | cIf | cIfDef | cIfNDef | cElif | cElse | cEndif | other
  deriving DecidableEq, Repr

def preProcWeights : List Nat :=
  [2, 0, 0, 9, 1, 4, 3, 0, 5, 0, 0, 7, 0, 0, 0, 10, 0, 11, 0, 13, 12, 0, 14, 0, 0, 0]

/-- names as lists of characters -/
def preProcTable : List (List Char × Directive) :=
  [(['d', 'e', 'f', 'i', 'n', 'e'], .other), (['e', 'r', 'r', 'o', 'r'], .other),
    (['p', 'r', 'a', 'g', 'm', 'a'], .other), ([], .other), ([], .other),
    (['u', 'n', 'd', 'e', 'f'], .other), (['e', 'l', 's', 'e'], .cElse),
    (['i', 'd', 'e', 'n', 't'], .other), (['w', 'a', 'r', 'n', 'i', 'n', 'g'], .other),
    (['e', 'l', 'i', 'f'], .cElif), (['e', 'n', 'd', 'i', 'f'], .cEndif), (['i', 'f'], .cIf),
    (['l', 'i', 'n', 'e'], .other), (['i', 'n', 'c', 'l', 'u', 'd', 'e'], .other),
    (['i', 'f', 'd', 'e', 'f'], .cIfDef), (['i', 'f', 'n', 'd', 'e', 'f'], .cIfNDef)]

def indexLower (c : Char) : Option Nat :=
  if 'a' ≤ c ∧ c ≤ 'z' then some (c.toNat - 'a'.toNat) else none

/-- the entry of `PreProcTable` for a name -/
def lookup (buffer : List Char) : Option Directive :=
  match buffer.head?.bind indexLower, buffer.getLast?.bind indexLower with
  | some c1, some c2 =>
    let hash := (buffer.length + preProcWeights.getD c1 0 + preProcWeights.getD c2 0) % 16
    match preProcTable[hash]? with
    | some (directive, handler) => if directive = buffer then some handler else none
    | none => none
  | _, _ => none

/-- every name of the table is found under its hash -/
theorem lookup_table : ∀ e ∈ preProcTable, e.1 ≠ [] → lookup e.1 = some e.2 := by
  decide

/-- only names of the table are found -/
theorem lookup_sound {buffer : List Char} {d : Directive} (h : lookup buffer = some d) :
    (buffer, d) ∈ preProcTable := by
  rw [lookup] at h
  split at h
  · dsimp only at h
    split at h
    · next he =>
      split at h
      · next e =>
        cases h
        rw [← e]
        exact List.mem_of_getElem? he
      · cases h
    · cases h
  · cases h

/-! ## the counters and the stack -/

/-- `enum pp_types` -/
inductive PpType
  | preIf | preElif | preElse
  deriving DecidableEq, Repr

/-- `NestLevel`, `SkipLevel`, and the types on `CppStack`, the innermost group first -/
structure Cpp where
  nestLevel : Nat
  skipLevel : Nat
  cppStack : List PpType
  deriving DecidableEq, Repr

/-- `CppStackInit` -/
def cppStackInit : Cpp := ⟨0, 0, []⟩

/-- the line of a directive: what its expression yields when it is evaluated, and the identifier
behind its name, if there is one: is it a macro? -/
structure Line where
  directive : List Char
  value : Bool
  ident : Option Bool

inductive PpErr
  | misplacedElif | misplacedElse | misplacedEndif | expectingId
  deriving DecidableEq, Repr

/-- the state behind a directive, whether `PpConstExpr` was called, and the error -/
structure Outcome where
  cpp : Cpp
  evaluated : Bool
  err : Option PpErr

def incLevel (s : Cpp) (value : Bool) : Cpp :=
  { nestLevel := s.nestLevel + 1
    skipLevel := if s.skipLevel = s.nestLevel ∧ value then s.skipLevel + 1 else s.skipLevel
    cppStack := .preIf :: s.cppStack }

def cSkipIf (s : Cpp) : Outcome := ⟨incLevel s false, false, none⟩

def cIfDef (s : Cpp) (l : Line) : Outcome :=
  match l.ident with
  | none => ⟨incLevel s false, false, some .expectingId⟩
  | some mentry => ⟨incLevel s mentry, false, none⟩

def cIfNDef (s : Cpp) (l : Line) : Outcome :=
  match l.ident with
  | none => ⟨incLevel s false, false, some .expectingId⟩
  | some mentry => ⟨incLevel s !mentry, false, none⟩

def cIf (s : Cpp) (l : Line) : Outcome := ⟨incLevel s l.value, true, none⟩

/-- the type of the innermost group -/
def Cpp.setType (s : Cpp) (t : PpType) : Cpp := { s with cppStack := t :: s.cppStack.tail }

def cElif (s : Cpp) (l : Line) : Outcome :=
  if s.nestLevel = 0 ∨ s.cppStack.head? = some .preElse then ⟨s, false, some .misplacedElif⟩
  else if s.skipLevel = s.nestLevel then
    ⟨{ s with skipLevel := s.skipLevel - 1 }.setType .preElif, false, none⟩
  else if s.skipLevel + 1 = s.nestLevel ∧ s.cppStack.head? = some .preIf then
    ⟨if l.value then { s with skipLevel := s.nestLevel }.setType .preElif else s, true, none⟩
  else ⟨s, false, none⟩

def cElse (s : Cpp) : Outcome :=
  if s.nestLevel = 0 ∨ s.cppStack.head? = some .preElse then ⟨s, false, some .misplacedElse⟩
  else
    let skipLevel :=
      if s.skipLevel = s.nestLevel then s.skipLevel - 1
      else if s.skipLevel + 1 = s.nestLevel ∧ s.cppStack.head? = some .preIf then s.nestLevel
      else s.skipLevel
    ⟨{ s with skipLevel := skipLevel }.setType .preElse, false, none⟩

/-- the end of `CEndif` -/
def Cpp.clamp (s : Cpp) : Cpp :=
  if s.skipLevel > s.nestLevel then { s with skipLevel := s.nestLevel } else s

def cEndif (s : Cpp) : Outcome :=
  if s.nestLevel = 0 then ⟨s.clamp, false, some .misplacedEndif⟩
  else ⟨Cpp.clamp { s with nestLevel := s.nestLevel - 1, cppStack := s.cppStack.tail }, false, none⟩

/-- `PreProcStmt`; directives that are not conditional leave the groups alone -/
def preProcStmt (s : Cpp) (l : Line) : Outcome :=
  match lookup l.directive with
  | some .cIf => if s.skipLevel = s.nestLevel then cIf s l else cSkipIf s
  | some .cIfDef => if s.skipLevel = s.nestLevel then cIfDef s l else cSkipIf s
  | some .cIfNDef => if s.skipLevel = s.nestLevel then cIfNDef s l else cSkipIf s
  | some .cElif => cElif s l
  | some .cElse => cElse s
  | some .cEndif => cEndif s
  | some .other => ⟨s, false, none⟩
  | none => ⟨s, false, none⟩

/-- the state behind a sequence of directives -/
def run (ls : List Line) : Cpp := ls.foldl (fun s l => (preProcStmt s l).cpp) cppStackInit

/-! ## the rules of C -/

/-- an open group: the truth values of its conditions up to the current branch, the value of `#if`
first, and whether `#else` was seen -/
structure Group where
  conds : List Bool
  hasElse : Bool
  deriving DecidableEq, Repr

/-- no condition of the group was true -/
def Group.noneTrue (g : Group) : Bool := g.conds.all fun c => !c

/-- the current branch is the first whose condition is true, or the `#else` when none was -/
def Group.current (g : Group) : Bool :=
  if g.hasElse then g.noneTrue
  else g.conds.getLast? == some true && g.conds.dropLast.all fun c => !c

/-- the line behind the directives is active -/
def Active (gs : List Group) : Prop := ∀ g ∈ gs, g.current = true

/-- what a directive says to the groups -/
inductive Rule
  | opens (value : Bool)
  | elif (value : Bool)
  | els
  | endif
  | other

def Line.rule (l : Line) : Rule :=
  if l.directive = ['i', 'f'] then .opens l.value
  else if l.directive = ['i', 'f', 'd', 'e', 'f'] then .opens (l.ident == some true)
  else if l.directive = ['i', 'f', 'n', 'd', 'e', 'f'] then .opens (l.ident == some false)
  else if l.directive = ['e', 'l', 'i', 'f'] then .elif l.value
  else if l.directive = ['e', 'l', 's', 'e'] then .els
  else if l.directive = ['e', 'n', 'd', 'i', 'f'] then .endif
  else .other

/-- the open groups behind a directive, the innermost first; a misplaced one changes nothing -/
def Rule.apply : Rule → List Group → List Group
  | .opens v, gs => ⟨[v], false⟩ :: gs
  | .elif v, g :: outer =>
    (if g.hasElse then g else { g with conds := g.conds ++ [v] }) :: outer
  | .els, g :: outer => (if g.hasElse then g else { g with hasElse := true }) :: outer
  | .endif, _ :: outer => outer
  | _, gs => gs

def follow (gs : List Group) (l : Line) : List Group := l.rule.apply gs

def groups (ls : List Line) : List Group := ls.foldl follow []

/-- the rules ask for the value of the expression -/
def Requires (gs : List Group) (l : Line) : Prop :=
  (l.directive = ['i', 'f'] ∧ Active gs) ∨
    (l.directive = ['e', 'l', 'i', 'f'] ∧ ∃ g outer, gs = g :: outer ∧ g.hasElse = false ∧
      Active outer ∧ g.noneTrue = true)

/-- `#elif` or `#else` outside of a group or behind its `#else`, `#endif` outside of a group -/
def Misplaced (gs : List Group) (l : Line) : Prop :=
  match l.rule with
  | .elif _ => ∀ g ∈ gs.head?, g.hasElse = true
  | .els => ∀ g ∈ gs.head?, g.hasElse = true
  | .endif => gs = []
  | _ => False

/-! ## the counters follow the groups -/

/-- how many groups are active, from the outermost on -/
def depth : List Group → Nat
  | [] => 0
  | g :: outer => if depth outer = outer.length ∧ g.current then outer.length + 1 else depth outer

theorem depth_le (gs : List Group) : depth gs ≤ gs.length := by
  induction gs with
  | nil => exact Nat.le_refl 0
  | cons g outer ih =>
    rw [depth, List.length_cons]
    split <;> omega

theorem depth_eq_iff (gs : List Group) : depth gs = gs.length ↔ Active gs := by
  induction gs with
  | nil => exact iff_of_true rfl fun g hg => absurd hg List.not_mem_nil
  | cons g outer ih =>
    have hle := depth_le outer
    rw [depth, List.length_cons, Active, List.forall_mem_cons]
    by_cases h : depth outer = outer.length ∧ g.current
    · rw [if_pos h]
      exact iff_of_true rfl ⟨h.2, ih.mp h.1⟩
    · rw [if_neg h]
      refine iff_of_false (by omega) fun ha => h ⟨ih.mpr ha.2, ha.1⟩

/-- the types on the stack: below active groups `PRE_IF` says that no branch was taken yet -/
def Types : List PpType → List Group → Prop
  | [], [] => True
  | t :: ts, g :: outer => (t = .preElse ↔ g.hasElse = true) ∧
      (Active outer → g.current = false → (t = .preIf ↔ g.hasElse = false ∧ g.noneTrue = true)) ∧
      Types ts outer
  | _, _ => False

/-- the invariant of a run -/
structure Follows (s : Cpp) (gs : List Group) : Prop where
  nest : s.nestLevel = gs.length
  skip : s.skipLevel = depth gs
  types : Types s.cppStack gs

theorem types_length {ts : List PpType} {gs : List Group} (h : Types ts gs) :
    ts.length = gs.length := by
  induction gs generalizing ts with
  | nil => cases ts with
    | nil => rfl
    | cons t ts => exact h.elim
  | cons g outer ih => cases ts with
    | nil => exact h.elim
    | cons t ts => rw [List.length_cons, List.length_cons, ih h.2.2]

/-! ## a branch that goes on -/

section
variable {g : Group}

/-- a taken branch leaves no other branch to take -/
theorem Group.noneTrue_of_current (h : g.current = true) (he : g.hasElse = false) :
    g.noneTrue = false := by
  rw [Group.current, he, if_neg (by simp), Bool.and_eq_true, beq_iff_eq] at h
  rw [Group.noneTrue, List.all_eq_false]
  exact ⟨true, List.mem_of_getLast? h.1, by simp⟩

theorem Group.current_elif (v : Bool) (he : g.hasElse = false) :
    ({ g with conds := g.conds ++ [v] } : Group).current = (v && g.noneTrue) := by
  rw [Group.current]
  dsimp only
  rw [he, if_neg (by simp), List.getLast?_concat, List.dropLast_concat, Group.noneTrue]
  cases v <;> rfl

theorem Group.noneTrue_elif (v : Bool) :
    ({ g with conds := g.conds ++ [v] } : Group).noneTrue = (g.noneTrue && !v) := by
  rw [Group.noneTrue, Group.noneTrue, List.all_append]
  simp

end

theorem Active.cons {g : Group} {outer : List Group} :
    Active (g :: outer) ↔ g.current = true ∧ Active outer := by
  rw [Active, List.forall_mem_cons]
  rfl

/-! ## one directive -/

section
variable {s : Cpp} {gs : List Group}

theorem Follows.active (h : Follows s gs) : s.skipLevel = s.nestLevel ↔ Active gs := by
  rw [h.skip, h.nest]
  exact depth_eq_iff gs

/-- a group is opened -/
theorem follows_open (h : Follows s gs) (v w : Bool) (hv : Active gs → v = w) :
    Follows (incLevel s v) (⟨[w], false⟩ :: gs) := by
  have hcur : (⟨[w], false⟩ : Group).current = w := by cases w <;> rfl
  refine ⟨congrArg (· + 1) h.nest, ?_, ?_, fun ha hc => ?_, h.types⟩
  · show (if s.skipLevel = s.nestLevel ∧ v then s.skipLevel + 1 else s.skipLevel) = _
    rw [depth, hcur]
    by_cases ha : Active gs
    · rw [hv ha, h.skip, h.nest, (depth_eq_iff gs).mpr ha]
    · have h1 : ¬ s.skipLevel = s.nestLevel := fun e => ha (h.active.mp e)
      have h2 : ¬ depth gs = gs.length := fun e => ha ((depth_eq_iff gs).mp e)
      rw [if_neg fun e => h1 e.1, if_neg fun e => h2 e.1, h.skip]
  · show (PpType.preIf = .preElse ↔ false = true)
    simp
  · rw [hcur] at hc
    rw [hc]
    exact iff_of_true rfl ⟨rfl, rfl⟩

/-- the innermost group of the stack -/
theorem Follows.inner {g : Group} {outer : List Group} (h : Follows s (g :: outer)) :
    s.nestLevel = outer.length + 1 ∧ ∃ t ts, s.cppStack = t :: ts ∧
      (t = .preElse ↔ g.hasElse = true) ∧
      (Active outer → g.current = false → (t = .preIf ↔ g.hasElse = false ∧ g.noneTrue = true)) ∧
      Types ts outer := by
  refine ⟨h.nest, ?_⟩
  have ht := h.types
  cases e : s.cppStack with
  | nil => rw [e] at ht; exact ht.elim
  | cons t ts =>
    rw [e] at ht
    exact ⟨t, ts, rfl, ht⟩

/-- the misplaced `#elif` and `#else` are the ones the source diagnoses -/
theorem Follows.misplaced (h : Follows s gs) :
    (s.nestLevel = 0 ∨ s.cppStack.head? = some .preElse) ↔ ∀ g ∈ gs.head?, g.hasElse = true := by
  cases gs with
  | nil => exact iff_of_true (Or.inl h.nest) (by simp)
  | cons g outer =>
    obtain ⟨h1, t, ts, h2, h3, -, -⟩ := h.inner
    rw [h2, List.head?_cons, List.head?_cons]
    constructor
    · rintro (h0 | h0) g' hg
      · omega
      · cases hg
        exact h3.mp (Option.some.inj h0)
    · intro hg
      exact Or.inr (congrArg some (h3.mpr (hg g rfl)))

/-- where the counters stand for the innermost group -/
theorem Follows.levels {g : Group} {outer : List Group} (h : Follows s (g :: outer)) :
    (Active outer ∧ g.current = true ∧ s.skipLevel = outer.length + 1) ∨
      (Active outer ∧ g.current = false ∧ s.skipLevel = outer.length) ∨
      (¬ Active outer ∧ s.skipLevel = depth outer ∧ s.skipLevel < outer.length) := by
  have hs := h.skip
  rw [depth] at hs
  by_cases ha : Active outer
  · have e := (depth_eq_iff outer).mpr ha
    cases hc : g.current with
    | true =>
      rw [if_pos ⟨e, hc⟩] at hs
      exact Or.inl ⟨ha, rfl, hs⟩
    | false =>
      rw [if_neg (by rw [hc]; simp), e] at hs
      exact Or.inr (Or.inl ⟨ha, rfl, hs⟩)
  · have e : ¬ depth outer = outer.length := fun e => ha ((depth_eq_iff outer).mp e)
    have hle := depth_le outer
    rw [if_neg fun k => e k.1] at hs
    exact Or.inr (Or.inr ⟨ha, hs, by omega⟩)

/-- `#elif` in its place -/
theorem follows_elif {g : Group} {outer : List Group} (h : Follows s (g :: outer)) (l : Line)
    (he : g.hasElse = false) :
    Follows (cElif s l).cpp ({ g with conds := g.conds ++ [l.value] } :: outer) ∧
      (cElif s l).err = none ∧
      ((cElif s l).evaluated = true ↔ Active outer ∧ g.noneTrue = true) := by
  have hm : ¬ (s.nestLevel = 0 ∨ s.cppStack.head? = some .preElse) := by
    rw [h.misplaced]
    intro k
    rw [k g rfl] at he
    cases he
  obtain ⟨hn, t, ts, hst, ht1, ht2, ht3⟩ := h.inner
  have hlen : depth outer ≤ outer.length := depth_le outer
  have hcur := Group.current_elif l.value he
  have hnone := Group.noneTrue_elif (g := g) l.value
  have htype : t ≠ .preElse := fun e => by
    rw [ht1.mp e] at he
    cases he
  have hlevels := h.levels
  rw [cElif, if_neg hm]
  rcases hlevels with ⟨ha, hc, hs⟩ | ⟨ha, hc, hs⟩ | ⟨ha, hs, hlt⟩
  · -- the branch before was taken: the group is skipped from here on
    have hno := Group.noneTrue_of_current hc he
    rw [hno, Bool.and_false] at hcur
    rw [hno, Bool.false_and] at hnone
    rw [if_pos (by omega)]
    refine ⟨⟨hn, ?_, ?_⟩, rfl, ?_⟩
    · show s.skipLevel - 1 = depth _
      rw [depth, hcur, if_neg (by simp), (depth_eq_iff outer).mpr ha]
      omega
    · show Types (.preElif :: s.cppStack.tail) _
      rw [hst]
      refine ⟨by simp [he], fun _ _ => ?_, ht3⟩
      rw [hnone]
      simp
    · rw [hno]
      simp
  · rw [if_neg (by omega)]
    by_cases hif : t = .preIf
    · -- no branch was taken yet
      have hno : g.noneTrue = true := ((ht2 ha hc).mp hif).2
      rw [hno, Bool.and_true] at hcur
      rw [hno, Bool.true_and] at hnone
      rw [if_pos ⟨by omega, by rw [hst, hif]; rfl⟩]
      refine ⟨?_, rfl, by simp [hno, ha]⟩
      cases hv : l.value with
      | true =>
        rw [hv] at hcur hnone
        rw [if_pos rfl]
        refine ⟨hn, ?_, ?_⟩
        · show s.nestLevel = depth _
          rw [depth, hcur, if_pos ⟨(depth_eq_iff outer).mpr ha, rfl⟩, hn]
        · show Types (.preElif :: s.cppStack.tail) _
          rw [hst]
          refine ⟨by simp [he], fun _ k => ?_, ht3⟩
          rw [hcur] at k
          cases k
      | false =>
        rw [hv] at hcur hnone
        rw [if_neg (by simp)]
        refine ⟨hn, ?_, ?_⟩
        · rw [depth, hcur, if_neg (by simp), hs, (depth_eq_iff outer).mpr ha]
        · rw [hst, hif]
          refine ⟨by simp [he], fun _ _ => ?_, ht3⟩
          rw [hnone]
          simp [he]
    · -- a branch was taken before: the expression is not evaluated
      have hno : g.noneTrue = false := by
        cases k : g.noneTrue with
        | false => rfl
        | true => exact absurd ((ht2 ha hc).mpr ⟨he, k⟩) hif
      rw [hno, Bool.and_false] at hcur
      rw [hno, Bool.false_and] at hnone
      rw [if_neg (fun k => hif (by rw [hst] at k; exact Option.some.inj k.2))]
      refine ⟨⟨hn, ?_, ?_⟩, rfl, by simp [hno]⟩
      · rw [depth, hcur, if_neg (by simp), hs, (depth_eq_iff outer).mpr ha]
      · rw [hst]
        refine ⟨by simp [he, htype], fun _ _ => ?_, ht3⟩
        rw [hnone]
        simp [hif]
  · -- an enclosing group is skipped
    rw [if_neg (by omega), if_neg (fun k => by omega)]
    refine ⟨⟨hn, ?_, ?_⟩, rfl, by simp [ha]⟩
    · rw [depth, if_neg fun k => ha ((depth_eq_iff outer).mp k.1), hs]
    · rw [hst]
      exact ⟨by simp [he, htype], fun k => absurd k ha, ht3⟩

/-- `#else` in its place -/
theorem follows_else {g : Group} {outer : List Group} (h : Follows s (g :: outer))
    (he : g.hasElse = false) :
    Follows (cElse s).cpp ({ g with hasElse := true } :: outer) ∧ (cElse s).err = none ∧
      (cElse s).evaluated = false := by
  have hm : ¬ (s.nestLevel = 0 ∨ s.cppStack.head? = some .preElse) := by
    rw [h.misplaced]
    intro k
    rw [k g rfl] at he
    cases he
  obtain ⟨hn, t, ts, hst, ht1, ht2, ht3⟩ := h.inner
  have hlen : depth outer ≤ outer.length := depth_le outer
  have hcur : ({ g with hasElse := true } : Group).current = g.noneTrue := rfl
  have hlevels := h.levels
  rw [cElse, if_neg hm]
  refine ⟨⟨hn, ?_, ?_⟩, rfl, rfl⟩
  · show (if s.skipLevel = s.nestLevel then _ else _) = depth _
    rw [depth, hcur]
    rcases hlevels with ⟨ha, hc, hs⟩ | ⟨ha, hc, hs⟩ | ⟨ha, hs, hlt⟩
    · rw [if_pos (by omega), Group.noneTrue_of_current hc he, if_neg (by simp),
        (depth_eq_iff outer).mpr ha]
      omega
    · rw [if_neg (by omega)]
      by_cases hif : t = .preIf
      · rw [if_pos ⟨by omega, by rw [hst, hif]; rfl⟩,
          if_pos ⟨(depth_eq_iff outer).mpr ha, ((ht2 ha hc).mp hif).2⟩, hn]
      · rw [if_neg (fun k => hif (by rw [hst] at k; exact Option.some.inj k.2)),
          if_neg (fun k => hif ((ht2 ha hc).mpr ⟨he, k.2⟩)), (depth_eq_iff outer).mpr ha, hs]
    · rw [if_neg (by omega), if_neg (fun k => by omega),
        if_neg fun k => ha ((depth_eq_iff outer).mp k.1), hs]
  · show Types (.preElse :: s.cppStack.tail) _
    rw [hst]
    exact ⟨by simp, fun _ _ => by simp, ht3⟩

/-- `#endif` in its place -/
theorem follows_endif {g : Group} {outer : List Group} (h : Follows s (g :: outer)) :
    Follows (cEndif s).cpp outer ∧ (cEndif s).err = none ∧ (cEndif s).evaluated = false := by
  obtain ⟨hn, t, ts, hst, -, -, ht3⟩ := h.inner
  have hlevels := h.levels
  rw [cEndif, if_neg (by omega)]
  refine ⟨⟨?_, ?_, ?_⟩, rfl, rfl⟩
  · rw [Cpp.clamp]
    split <;> show s.nestLevel - 1 = _ <;> omega
  · rw [Cpp.clamp]
    rcases hlevels with ⟨ha, hc, hs⟩ | ⟨ha, hc, hs⟩ | ⟨ha, hs, hlt⟩
    · rw [if_pos (by show s.skipLevel > s.nestLevel - 1; omega), (depth_eq_iff outer).mpr ha]
      show s.nestLevel - 1 = _
      omega
    · rw [if_neg (by show ¬ s.skipLevel > s.nestLevel - 1; omega), (depth_eq_iff outer).mpr ha]
      exact hs
    · rw [if_neg (by show ¬ s.skipLevel > s.nestLevel - 1; omega)]
      exact hs
  · rw [Cpp.clamp]
    split <;> show Types s.cppStack.tail outer <;> rw [hst] <;> exact ht3

/-- `#endif` outside of a group -/
theorem cEndif_nil (h : Follows s []) :
    (cEndif s).cpp = s ∧ (cEndif s).err = some .misplacedEndif ∧ (cEndif s).evaluated = false := by
  have h1 : s.skipLevel = 0 := h.skip
  have h2 : s.nestLevel = 0 := h.nest
  rw [cEndif, if_pos h2, Cpp.clamp, if_neg (by omega)]
  exact ⟨rfl, rfl, rfl⟩

/-! ## any directive -/

/-- a line with one of the six conditional directives, or with none of them -/
theorem Line.cases (l : Line) :
    (l.directive = ['i', 'f'] ∧ lookup l.directive = some .cIf ∧ l.rule = .opens l.value) ∨
    (l.directive ≠ ['i', 'f'] ∧ l.directive ≠ ['e', 'l', 'i', 'f'] ∧
      ((lookup l.directive = some .cIfDef ∧ l.rule = .opens (l.ident == some true)) ∨
        (lookup l.directive = some .cIfNDef ∧ l.rule = .opens (l.ident == some false)) ∨
        (lookup l.directive = some .cElse ∧ l.rule = .els) ∨
        (lookup l.directive = some .cEndif ∧ l.rule = .endif) ∨
        ((lookup l.directive = some .other ∨ lookup l.directive = none) ∧ l.rule = .other))) ∨
    (l.directive = ['e', 'l', 'i', 'f'] ∧ lookup l.directive = some .cElif ∧
      l.rule = .elif l.value) := by
  by_cases h1 : l.directive = ['i', 'f']
  · exact Or.inl ⟨h1, by rw [h1]; rfl, by rw [Line.rule, if_pos h1]⟩
  by_cases h4 : l.directive = ['e', 'l', 'i', 'f']
  · refine Or.inr (Or.inr ⟨h4, by rw [h4]; rfl, ?_⟩)
    rw [Line.rule, h4]
    rfl
  refine Or.inr (Or.inl ⟨h1, h4, ?_⟩)
  by_cases h2 : l.directive = ['i', 'f', 'd', 'e', 'f']
  · refine Or.inl ⟨by rw [h2]; rfl, ?_⟩
    rw [Line.rule, if_neg h1, if_pos h2]
  by_cases h3 : l.directive = ['i', 'f', 'n', 'd', 'e', 'f']
  · refine Or.inr (Or.inl ⟨by rw [h3]; rfl, ?_⟩)
    rw [Line.rule, if_neg h1, if_neg h2, if_pos h3]
  by_cases h5 : l.directive = ['e', 'l', 's', 'e']
  · refine Or.inr (Or.inr (Or.inl ⟨by rw [h5]; rfl, ?_⟩))
    rw [Line.rule, if_neg h1, if_neg h2, if_neg h3, if_neg h4, if_pos h5]
  by_cases h6 : l.directive = ['e', 'n', 'd', 'i', 'f']
  · refine Or.inr (Or.inr (Or.inr (Or.inl ⟨by rw [h6]; rfl, ?_⟩)))
    rw [Line.rule, if_neg h1, if_neg h2, if_neg h3, if_neg h4, if_neg h5, if_pos h6]
  refine Or.inr (Or.inr (Or.inr (Or.inr ⟨?_, ?_⟩)))
  · cases e : lookup l.directive with
    | none => exact Or.inr rfl
    | some d =>
      have hm := lookup_sound e
      simp only [preProcTable, List.mem_cons, Prod.mk.injEq, List.not_mem_nil, or_false, h1, h2, h3,
        h4, h5, h6, false_and, false_or] at hm
      have hd : d = .other := by
        rcases hm with hm | hm | hm | hm | hm | hm | hm | hm | hm | hm <;> exact hm.2
      rw [hd]
      exact Or.inl rfl
  · rw [Line.rule, if_neg h1, if_neg h2, if_neg h3, if_neg h4, if_neg h5, if_neg h6]

/-- the errors about the place of a directive -/
def PpErr.place : PpErr → Bool
  | .misplacedElif | .misplacedElse | .misplacedEndif => true
  | .expectingId => false

/-- the groups follow the rules over one directive -/
structure Step (s : Cpp) (gs : List Group) (l : Line) : Prop where
  follows : Follows (preProcStmt s l).cpp (follow gs l)
  evaluated : (preProcStmt s l).evaluated = true ↔ Requires gs l
  diagnosed : (preProcStmt s l).err.any PpErr.place = true ↔ Misplaced gs l

/-- a group is opened; the expression of `#ifdef` and `#ifndef` is no expression -/
theorem step_open (h : Follows s gs) {l : Line} {w : Bool} {o : Outcome}
    (hpre : preProcStmt s l = if s.skipLevel = s.nestLevel then o else cSkipIf s)
    (hrule : l.rule = .opens w) (hcpp : o.cpp = incLevel s w)
    (herr : o.err.any PpErr.place = false) (heval : Active gs → (o.evaluated = true ↔ Requires gs l))
    (hskip : ¬ Active gs → ¬ Requires gs l) : Step s gs l := by
  have hf : follow gs l = ⟨[w], false⟩ :: gs := by
    rw [follow, hrule]
    rfl
  have hm : ¬ Misplaced gs l := by
    rw [Misplaced, hrule]
    exact id
  by_cases ha : Active gs
  · rw [if_pos (h.active.mpr ha)] at hpre
    refine ⟨?_, ?_, ?_⟩
    · rw [hpre, hcpp, hf]
      exact follows_open h w w fun _ => rfl
    · rw [hpre]
      exact heval ha
    · rw [hpre, herr]
      exact iff_of_false (by simp) hm
  · rw [if_neg fun k => ha (h.active.mp k)] at hpre
    refine ⟨?_, ?_, ?_⟩
    · rw [hpre, hf]
      exact follows_open h false w fun k => absurd k ha
    · rw [hpre]
      exact iff_of_false (by simp [cSkipIf]) (hskip ha)
    · rw [hpre]
      exact iff_of_false (by simp [cSkipIf]) hm

theorem preProcStmt_step (h : Follows s gs) (l : Line) : Step s gs l := by
  rcases l.cases with ⟨hd, hl, hr⟩ | ⟨hif, helif, hl⟩ | ⟨hd, hl, hr⟩
  · have hne : l.directive ≠ ['e', 'l', 'i', 'f'] := by rw [hd]; decide
    refine step_open h (o := cIf s l) (by rw [preProcStmt, hl]) hr rfl rfl (fun ha => ?_)
      (fun ha k => ?_)
    · exact iff_of_true rfl (Or.inl ⟨hd, ha⟩)
    · exact k.elim (fun k => ha k.2) fun k => hne k.1
  · have hreq : ¬ Requires gs l := fun k => k.elim (fun k => hif k.1) fun k => helif k.1
    rcases hl with ⟨hl, hr⟩ | ⟨hl, hr⟩ | ⟨hl, hr⟩ | ⟨hl, hr⟩ | ⟨hl, hr⟩
    · refine step_open h (o := cIfDef s l) (by rw [preProcStmt, hl]) hr ?_ ?_ (fun _ => ?_)
        fun _ => hreq
      · rw [cIfDef]
        rcases l.ident with _ | _ | _ <;> rfl
      · rw [cIfDef]
        rcases l.ident with _ | _ | _ <;> rfl
      · refine iff_of_false ?_ hreq
        rw [cIfDef]
        rcases l.ident with _ | _ | _ <;> simp
    · refine step_open h (o := cIfNDef s l) (by rw [preProcStmt, hl]) hr ?_ ?_ (fun _ => ?_)
        fun _ => hreq
      · rw [cIfNDef]
        rcases l.ident with _ | _ | _ <;> rfl
      · rw [cIfNDef]
        rcases l.ident with _ | _ | _ <;> rfl
      · refine iff_of_false ?_ hreq
        rw [cIfNDef]
        rcases l.ident with _ | _ | _ <;> simp
    · have hp : preProcStmt s l = cElse s := by rw [preProcStmt, hl]
      by_cases hm : ∀ g ∈ gs.head?, g.hasElse = true
      · have ho : cElse s = ⟨s, false, some .misplacedElse⟩ := by
          rw [cElse, if_pos (h.misplaced.mpr hm)]
        have hf : follow gs l = gs := by
          rw [follow, hr]
          cases gs with
          | nil => rfl
          | cons g outer => exact congrArg (· :: outer) (if_pos (hm g rfl))
        refine ⟨?_, ?_, ?_⟩
        · rw [hp, ho, hf]
          exact h
        · rw [hp, ho]
          exact iff_of_false (by simp) hreq
        · rw [hp, ho, Misplaced, hr]
          exact iff_of_true rfl hm
      · cases gs with
        | nil => exact absurd (by simp) hm
        | cons g outer =>
          have he : g.hasElse = false := by
            rw [List.head?_cons] at hm
            simpa using hm
          obtain ⟨h1, h2, h3⟩ := follows_else h he
          refine ⟨?_, ?_, ?_⟩
          · rw [hp, follow, hr]
            show Follows _ ((if g.hasElse then g else { g with hasElse := true }) :: outer)
            rw [if_neg (by rw [he]; simp)]
            exact h1
          · rw [hp, h3]
            exact iff_of_false (by simp) hreq
          · rw [hp, h2, Misplaced, hr]
            exact iff_of_false (by simp) hm
    · have hp : preProcStmt s l = cEndif s := by rw [preProcStmt, hl]
      cases gs with
      | nil =>
        obtain ⟨h1, h2, h3⟩ := cEndif_nil h
        refine ⟨?_, ?_, ?_⟩
        · rw [hp, h1, follow, hr]
          exact h
        · rw [hp, h3]
          exact iff_of_false (by simp) hreq
        · rw [hp, h2, Misplaced, hr]
          exact iff_of_true rfl rfl
      | cons g outer =>
        obtain ⟨h1, h2, h3⟩ := follows_endif h
        refine ⟨?_, ?_, ?_⟩
        · rw [hp, follow, hr]
          exact h1
        · rw [hp, h3]
          exact iff_of_false (by simp) hreq
        · rw [hp, h2, Misplaced, hr]
          exact iff_of_false (by simp) (by simp)
    · have hp : preProcStmt s l = ⟨s, false, none⟩ := by
        rw [preProcStmt]
        rcases hl with hl | hl <;> rw [hl]
      refine ⟨?_, ?_, ?_⟩
      · rw [hp, follow, hr]
        cases gs <;> exact h
      · rw [hp]
        exact iff_of_false (by simp) hreq
      · rw [hp, Misplaced, hr]
        exact iff_of_false (by simp) id
  · have hp : preProcStmt s l = cElif s l := by rw [preProcStmt, hl]
    have hne : l.directive ≠ ['i', 'f'] := by rw [hd]; decide
    by_cases hm : ∀ g ∈ gs.head?, g.hasElse = true
    · have ho : cElif s l = ⟨s, false, some .misplacedElif⟩ := by
        rw [cElif, if_pos (h.misplaced.mpr hm)]
      have hf : follow gs l = gs := by
        rw [follow, hr]
        cases gs with
        | nil => rfl
        | cons g outer => exact congrArg (· :: outer) (if_pos (hm g rfl))
      refine ⟨?_, ?_, ?_⟩
      · rw [hp, ho, hf]
        exact h
      · rw [hp, ho]
        refine iff_of_false (by simp) ?_
        rintro (⟨k, -⟩ | ⟨-, g, outer, rfl, hg, -⟩)
        · exact hne k
        · rw [hm g rfl] at hg
          cases hg
      · rw [hp, ho, Misplaced, hr]
        exact iff_of_true rfl hm
    · cases gs with
      | nil => exact absurd (by simp) hm
      | cons g outer =>
        have he : g.hasElse = false := by
          rw [List.head?_cons] at hm
          simpa using hm
        obtain ⟨h1, h2, h3⟩ := follows_elif h l he
        refine ⟨?_, ?_, ?_⟩
        · rw [hp, follow, hr]
          show Follows _ ((if g.hasElse then g else _) :: outer)
          rw [if_neg (by rw [he]; simp)]
          exact h1
        · rw [hp, h3]
          constructor
          · exact fun k => Or.inr ⟨hd, g, outer, rfl, he, k.1, k.2⟩
          · rintro (⟨k, -⟩ | ⟨-, g', outer', k, -, k1, k2⟩)
            · exact absurd k hne
            · obtain ⟨rfl, rfl⟩ := List.cons_eq_cons.mp k
              exact ⟨k1, k2⟩
        · rw [hp, h2, Misplaced, hr]
          exact iff_of_false (by simp) hm

end

/-! ## runs -/

theorem follows_foldl {s : Cpp} {gs : List Group} (h : Follows s gs) (ls : List Line) :
    Follows (ls.foldl (fun s l => (preProcStmt s l).cpp) s) (ls.foldl follow gs) := by
  induction ls generalizing s gs with
  | nil => exact h
  | cons l ls ih => exact ih (preProcStmt_step h l).follows

theorem run_follows (ls : List Line) : Follows (run ls) (groups ls) :=
  @follows_foldl cppStackInit [] ⟨rfl, rfl, trivial⟩ ls

/-- behind any directives the counters are equal exactly when the next line is active, the stack is as
deep as the groups are nested, and the next directive has its expression evaluated, or is diagnosed
as misplaced, exactly when the rules say so -/
theorem skipLevel_iff (ls : List Line) :
    ((run ls).skipLevel = (run ls).nestLevel ↔ Active (groups ls)) ∧
      (run ls).skipLevel ≤ (run ls).nestLevel ∧
      (run ls).cppStack.length = (run ls).nestLevel ∧
      ∀ l : Line, ((preProcStmt (run ls) l).evaluated = true ↔ Requires (groups ls) l) ∧
        ((preProcStmt (run ls) l).err.any PpErr.place = true ↔ Misplaced (groups ls) l) := by
  have h := run_follows ls
  refine ⟨h.active, ?_, ?_, fun l => ?_⟩
  · rw [h.skip, h.nest]
    exact depth_le _
  · rw [types_length h.types, h.nest]
  · have hs := preProcStmt_step h l
    exact ⟨hs.evaluated, hs.diagnosed⟩

end PpCond
