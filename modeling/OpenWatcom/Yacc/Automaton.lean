import OpenWatcom.Lib.BitRows

/-!
# The parser automaton that the table writers get

* `Automaton`   the states with their shifts, gotos and reductions, and what their construction
                promises: targets and symbols are there, and a state has one action for a symbol;
* `State.explicit`   the action of a state for a terminal, default actions left aside;
* `State.goto`   where a state goes for a non-terminal.
-/

namespace Yacc

/-- shift of a terminal, or goto of a non-terminal; symbols are their numbers in `symtab` -/
structure ShiftAction where
  sym : Nat
  state : Nat
  isDefault : Bool
  deriving DecidableEq

/-- reduction of production number `pro` for the terminals of `follow`, the last first as `Members`
is gone through -/
structure ReduceAction where
  pro : Nat
  follow : List Nat
  deriving DecidableEq

structure State where
  trans : List ShiftAction
  redun : List ReduceAction
  /-- position of the default reduction in `redun` -/
  defaultReduction : Option Nat
  dontOptimize : Bool

structure Pro where
  /-- left hand side -/
  sym : Nat
  unit : Bool

/-- the terminals of `symtab` stand first, `token` gives their values -/
structure Automaton where
  nterm : Nat
  nsym : Nat
  token : Nat → Nat
  protab : List Pro
  states : List State
  terms_le : nterm ≤ nsym
  /-- `sym_n`, `token_n`, `rule_n` and `action_n` are 16 bits wide -/
  nsym_lt : nsym < 2 ^ 16
  token_lt : ∀ sym, token sym < 2 ^ 16
  npro_lt : protab.length < 2 ^ 16
  nstate_lt : states.length < 2 ^ 16
  states_ne : states ≠ []
  sym_lt : ∀ q ∈ states, ∀ s ∈ q.trans, s.sym < nsym
  state_lt : ∀ q ∈ states, ∀ s ∈ q.trans, s.state < states.length
  /-- nothing leads to the start state -/
  state_ne : ∀ q ∈ states, ∀ s ∈ q.trans, s.state ≠ 0
  pro_lt : ∀ q ∈ states, ∀ r ∈ q.redun, r.pro < protab.length
  follow_lt : ∀ q ∈ states, ∀ r ∈ q.redun, ∀ sym ∈ r.follow, sym < nterm
  shift_unique : ∀ q ∈ states, q.trans.Pairwise fun s t => s.sym ≠ t.sym
  reduce_unique : ∀ q ∈ states, q.redun.Pairwise fun r s => ∀ sym ∈ r.follow, sym ∉ s.follow
  /-- no conflicts are left -/
  resolved : ∀ q ∈ states, ∀ s ∈ q.trans, ∀ r ∈ q.redun, s.sym ∉ r.follow

inductive Action where
  | shift (state : Nat)
  /-- `unit`: the driver only replaces the state on top of its stack -/
  | reduce (pro : Nat) (unit : Bool)
  deriving DecidableEq

namespace Automaton
variable (A : Automaton)

def isUnit (q : State) (pro : Nat) : Bool :=
  (A.protab[pro]?.map Pro.unit).getD false && !q.dontOptimize

/-- terminals with their actions in a state, default actions left aside -/
def explicits (q : State) : List (Nat × Action) :=
  (q.trans.filter fun s => s.sym < A.nterm ∧ ¬s.isDefault).map (fun s => (s.sym, .shift s.state))
    ++ (q.redun.zipIdx.filter fun r => q.defaultReduction ≠ some r.2).flatMap fun r =>
      r.1.follow.map fun sym => (sym, .reduce r.1.pro (A.isUnit q r.1.pro))

def explicit (q : State) (sym : Nat) : Option Action :=
  ((A.explicits q).find? fun e => e.1 = sym).map Prod.snd

/-- non-terminals with the states they lead to -/
def gotos (q : State) : List (Nat × Nat) :=
  (q.trans.filter fun s => ¬s.sym < A.nterm).map fun s => (s.sym, s.state)

def goto (q : State) (sym : Nat) : Option Nat :=
  ((A.gotos q).find? fun e => e.1 = sym).map Prod.snd

/-! ## one action for a symbol -/

/-- a list of values by keys, with one value for a key -/
theorem find_key {β : Type} {l : List (Nat × β)} {k : Nat} {b : β}
    (h : ∀ {a b}, (k, a) ∈ l → (k, b) ∈ l → a = b) :
    (l.find? fun e => e.1 = k).map Prod.snd = some b ↔ (k, b) ∈ l := by
  constructor
  · intro hb
    obtain ⟨e, he, rfl⟩ := Option.map_eq_some_iff.mp hb
    have hs : e.1 = k := by simpa using List.find?_some he
    rw [← hs]
    exact List.mem_of_find?_eq_some he
  · intro hb
    cases he : l.find? fun e => e.1 = k with
    | none => exact absurd (decide_eq_true rfl) (List.find?_eq_none.mp he _ hb)
    | some e =>
      have hs : e.1 = k := by simpa using List.find?_some he
      have hm : (k, e.2) ∈ l := hs ▸ List.mem_of_find?_eq_some he
      rw [Option.map_some, h hm hb]

section
variable {A} {q : State} (hq : q ∈ A.states)
include hq

theorem trans_unique {s t : ShiftAction} (hs : s ∈ q.trans) (ht : t ∈ q.trans) (h : s.sym = t.sym) :
    s = t := by
  have : Std.Symm fun s t : ShiftAction => s.sym ≠ t.sym := ⟨fun _ _ h => Ne.symm h⟩
  by_contra hne
  exact (A.shift_unique q hq).forall hs ht hne h

theorem redun_unique {r s : ReduceAction} (hr : r ∈ q.redun) (hs : s ∈ q.redun) {sym : Nat}
    (h1 : sym ∈ r.follow) (h2 : sym ∈ s.follow) : r = s := by
  have : Std.Symm fun r s : ReduceAction => ∀ sym ∈ r.follow, sym ∉ s.follow :=
    ⟨fun _ _ h sym h1 h2 => h sym h2 h1⟩
  by_contra hne
  exact (A.reduce_unique q hq).forall hr hs hne sym h1 h2

/-- what an explicit action comes from -/
theorem explicits_cases {sym : Nat} {a : Action} (h : (sym, a) ∈ A.explicits q) :
    (∃ s ∈ q.trans, s.sym < A.nterm ∧ s.sym = sym ∧ a = .shift s.state) ∨
      ∃ r ∈ q.redun, sym ∈ r.follow ∧ a = .reduce r.pro (A.isUnit q r.pro) := by
  rcases List.mem_append.mp h with h | h
  · obtain ⟨s, hs, e⟩ := List.mem_map.mp h
    obtain ⟨hs, hp⟩ := List.mem_filter.mp hs
    obtain ⟨rfl, rfl⟩ := Prod.mk.inj e
    exact Or.inl ⟨s, hs, (of_decide_eq_true hp).1, rfl, rfl⟩
  · obtain ⟨r, hr, h⟩ := List.mem_flatMap.mp h
    obtain ⟨sym', hs, e⟩ := List.mem_map.mp h
    obtain ⟨rfl, rfl⟩ := Prod.mk.inj e
    have hr := List.mem_of_getElem? (List.mk_mem_zipIdx_iff_getElem?.mp (List.mem_filter.mp hr).1)
    exact Or.inr ⟨r.1, hr, hs, rfl⟩

theorem explicits_det {sym : Nat} {a b : Action} (ha : (sym, a) ∈ A.explicits q)
    (hb : (sym, b) ∈ A.explicits q) : a = b := by
  obtain ⟨s, hs, -, hsym, rfl⟩ | ⟨r, hr, hsym, rfl⟩ := explicits_cases hq ha <;>
    obtain ⟨t, ht, -, htym, rfl⟩ | ⟨u, hu, htym, rfl⟩ := explicits_cases hq hb
  · rw [trans_unique hq hs ht (hsym.trans htym.symm)]
  · exact absurd htym (hsym ▸ A.resolved q hq s hs u hu)
  · exact absurd hsym (htym ▸ A.resolved q hq t ht r hr)
  · rw [redun_unique hq hr hu hsym htym]

theorem explicit_eq_some {sym : Nat} {a : Action} :
    A.explicit q sym = some a ↔ (sym, a) ∈ A.explicits q :=
  find_key (fun h1 h2 => explicits_det hq h1 h2)

theorem gotos_det {sym m n : Nat} (hm : (sym, m) ∈ A.gotos q) (hn : (sym, n) ∈ A.gotos q) : m = n := by
  obtain ⟨s, hs, e1⟩ := List.mem_map.mp hm
  obtain ⟨t, ht, e2⟩ := List.mem_map.mp hn
  have hst : s = t := trans_unique hq (List.mem_filter.mp hs).1 (List.mem_filter.mp ht).1
    ((congrArg Prod.fst e1).trans (congrArg Prod.fst e2).symm)
  have hstate := congrArg ShiftAction.state hst
  exact (congrArg Prod.snd e1).symm.trans (hstate.trans (congrArg Prod.snd e2))

theorem goto_eq_some {sym target : Nat} :
    A.goto q sym = some target ↔ (sym, target) ∈ A.gotos q :=
  find_key (fun h1 h2 => gotos_det hq h1 h2)

theorem explicits_term {sym : Nat} {a : Action} (h : (sym, a) ∈ A.explicits q) : sym < A.nterm := by
  obtain ⟨s, -, hlt, rfl, -⟩ | ⟨r, hr, hsym, -⟩ := explicits_cases hq h
  · exact hlt
  · exact A.follow_lt q hq r hr sym hsym

end
end Automaton
end Yacc
