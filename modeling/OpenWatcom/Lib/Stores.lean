import Mathlib.Logic.Function.Basic

/-!
# Stores with names that may overlap

A store reads and writes values under names; a write may change what other names read.

* `Store`               reading and writing, with the values that fit a name;
* `Keeps`, `Passes`     a command leaves a name alone: it neither changes nor looks at it;
* `Store.Apart`         two names of which neither write touches the other;
* `runAll_keeps`, `runAll_passes`   the same for a list of commands;
* `get_through`, `set_through`   what a write is worth behind a command that leaves the name alone.
-/

/-- names `N` over states `σ` with values in `V` -/
structure Store (N σ V : Type*) where
  get : N → σ → V
  set : N → V → σ → σ
  Fits : N → V → Prop
  get_fits : ∀ n s, Fits n (get n s)
  get_set : ∀ n v s, Fits n v → get n (set n v s) = v
  set_set : ∀ n v w s, set n v (set n w s) = set n v s

namespace Store
variable {N σ V : Type*} (st : Store N σ V)

/-- `f` does not change what `n` reads -/
def Keeps (f : σ → σ) (n : N) : Prop := ∀ s, st.get n (f s) = st.get n s

/-- `f` does the same before and after a write of `n` -/
def Passes (f : σ → σ) (n : N) : Prop := ∀ v s, f (st.set n v s) = st.set n v (f s)

/-- a write of `m` and one of `n` do not touch each other -/
structure Apart (m n : N) : Prop where
  keeps : ∀ v, st.Keeps (st.set n v) m
  passes : ∀ v, st.Passes (st.set n v) m

/-- commands one after the other -/
def runAll {I : Type*} (exec : I → σ → σ) (l : List I) (s : σ) : σ := l.foldl (fun s i => exec i s) s

variable {st} {I : Type*} {exec : I → σ → σ} {l : List I} {n : N}

theorem runAll_append (l m : List I) (s : σ) :
    runAll exec (l ++ m) s = runAll exec m (runAll exec l s) := List.foldl_append

theorem runAll_cons (i : I) (l : List I) (s : σ) :
    runAll exec (i :: l) s = runAll exec l (exec i s) := rfl

theorem runAll_keeps (h : ∀ i ∈ l, st.Keeps (exec i) n) : st.Keeps (runAll exec l) n := by
  induction l with
  | nil => exact fun s => rfl
  | cons i l ih =>
    intro s
    rw [runAll_cons, ih (fun j hj => h j (List.mem_cons_of_mem _ hj))]
    exact h i List.mem_cons_self s

theorem runAll_passes (h : ∀ i ∈ l, st.Passes (exec i) n) : st.Passes (runAll exec l) n := by
  induction l with
  | nil => exact fun v s => rfl
  | cons i l ih =>
    intro v s
    rw [runAll_cons, h i List.mem_cons_self, ih (fun j hj => h j (List.mem_cons_of_mem _ hj)), runAll_cons]

/-- a name holds what was written before a command that leaves it alone -/
theorem get_through {f : σ → σ} (hp : st.Passes f n) {v : V} (hv : st.Fits n v) (s : σ) :
    st.get n (f (st.set n v s)) = v := by
  rw [hp, st.get_set _ _ _ hv]

/-- a second write may as well be the first one -/
theorem set_through {f : σ → σ} (hp : st.Passes f n) (v w : V) (s : σ) :
    st.set n w (f (st.set n v s)) = f (st.set n w s) := by
  rw [hp, st.set_set, hp]

end Store
