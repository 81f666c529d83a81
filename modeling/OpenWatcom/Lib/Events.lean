import Mathlib.Init

/-!
# Runs of a system of events

* `run`     the events one after the other; an event that is not enabled ends the run;
* `Along`     a condition on the events, each in the state it happens in;
* `run_invariant`   what every event keeps under the condition, a run keeps;
* `run_total`     a run does not stop where no event does.
-/

namespace Events
variable {E S : Type*} (step : E → S → Option S)

def run : List E → S → Option S
  | [], s => some s
  | e :: es, s => (step e s).bind (run es)

/-- every event meets `ok` in the state it happens in -/
def Along (ok : E → S → Prop) : List E → S → Prop
  | [], _ => True
  | e :: es, s => ok e s ∧ ∀ s', step e s = some s' → Along ok es s'

variable {step}

theorem run_cons {e : E} {es : List E} {s t : S} :
    run step (e :: es) s = some t ↔ ∃ s', step e s = some s' ∧ run step es s' = some t :=
  Option.bind_eq_some_iff

theorem run_append (es fs : List E) (s : S) : run step (es ++ fs) s = (run step es s).bind (run step fs) := by
  induction es generalizing s with
  | nil => rfl
  | cons e es ih =>
    rw [List.cons_append, run, run]
    cases step e s with
    | none => rfl
    | some s' => exact ih s'

theorem run_invariant {ok : E → S → Prop} {Inv : S → Prop}
    (hstep : ∀ e s s', Inv s → ok e s → step e s = some s' → Inv s') (es : List E) (s t : S)
    (hs : Inv s) (ha : Along step ok es s) (h : run step es s = some t) : Inv t := by
  induction es generalizing s with
  | nil => exact Option.some.inj h ▸ hs
  | cons e es ih =>
    obtain ⟨s', h1, h2⟩ := run_cons.mp h
    exact ih s' (hstep e s s' hs ha.1 h1) (ha.2 s' h1) h2

theorem run_total {ok : E → S → Prop} {Inv : S → Prop}
    (hstep : ∀ e s, Inv s → ok e s → ∃ s', step e s = some s' ∧ Inv s') (es : List E) (s : S)
    (hs : Inv s) (ha : Along step ok es s) : ∃ t, run step es s = some t ∧ Inv t := by
  induction es generalizing s with
  | nil => exact ⟨s, rfl, hs⟩
  | cons e es ih =>
    obtain ⟨s', h1, h2⟩ := hstep e s hs ha.1
    obtain ⟨t, h3, h4⟩ := ih s' h2 (ha.2 s' h1)
    exact ⟨t, run_cons.mpr ⟨s', h1, h3⟩, h4⟩

end Events
