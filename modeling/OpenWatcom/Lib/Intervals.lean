import Mathlib.Data.List.Sort

/-!
# Labelled intervals

Entries with a lower and an upper bound and a label.

* `Covers`, `Reaches`     the entry that contains a value, and the label it has;
* `Reaches.unique`        the label is unique when the entries are apart;
* `Ascending`             each entry lies below the next;
* `labelAt_reaches`       the label of the first entry found.
-/

namespace Intervals

section
variable {ε L : Type} (lo hi : ε → Int) (label : ε → L) (other : L)

def Covers (e : ε) (v : Int) : Prop := lo e ≤ v ∧ v ≤ hi e

instance (e : ε) (v : Int) : Decidable (Covers lo hi e v) := inferInstanceAs (Decidable (_ ∧ _))

/-- `l` is the label of an entry that contains `v`, or `other` if there is none -/
def Reaches (es : List ε) (v : Int) (l : L) : Prop :=
  (∃ e ∈ es, Covers lo hi e v ∧ l = label e) ∨ (∀ e ∈ es, ¬ Covers lo hi e v) ∧ l = other

/-- no two entries overlap -/
def Apart (es : List ε) : Prop := es.Pairwise fun a b => hi a < lo b ∨ hi b < lo a

/-- each entry begins behind the ones before it -/
def Ascending (es : List ε) : Prop := es.Pairwise fun a b => lo a < lo b ∧ hi a < lo b

/-- the label of the first entry that contains `v` -/
def labelAt (es : List ε) (v : Int) : L :=
  match es.find? fun e => Covers lo hi e v with
  | some e => label e
  | none => other

variable {lo hi label other}

theorem labelAt_reaches (es : List ε) (v : Int) :
    Reaches lo hi label other es v (labelAt lo hi label other es v) := by
  rw [labelAt]
  cases h : es.find? fun e => Covers lo hi e v with
  | some e =>
    have hc := List.find?_some h
    exact Or.inl ⟨e, List.mem_of_find?_eq_some h, of_decide_eq_true hc, rfl⟩
  | none =>
    refine Or.inr ⟨fun e he hc => ?_, rfl⟩
    have := List.find?_eq_none.mp h e he
    exact this (decide_eq_true hc)

theorem Apart.covers_unique {es : List ε} (h : Apart lo hi es) {a b : ε} (ha : a ∈ es) (hb : b ∈ es)
    {v : Int} (h1 : Covers lo hi a v) (h2 : Covers lo hi b v) : a = b := by
  induction es with
  | nil => exact absurd ha List.not_mem_nil
  | cons e es ih =>
    obtain ⟨hhead, htail⟩ := List.pairwise_cons.mp h
    rw [Covers] at h1 h2
    rcases List.mem_cons.mp ha with rfl | ha'
    · rcases List.mem_cons.mp hb with rfl | hb'
      · rfl
      · have := hhead b hb'
        omega
    · rcases List.mem_cons.mp hb with rfl | hb'
      · have := hhead a ha'
        omega
      · exact ih htail ha' hb'

theorem Reaches.unique {es : List ε} (h : Apart lo hi es) {v : Int} {l l' : L}
    (h1 : Reaches lo hi label other es v l) (h2 : Reaches lo hi label other es v l') : l = l' := by
  rcases h1 with ⟨e, he, hc, rfl⟩ | ⟨hno, rfl⟩
  · rcases h2 with ⟨e', he', hc', rfl⟩ | ⟨hno, rfl⟩
    · rw [h.covers_unique he he' hc hc']
    · exact absurd hc (hno e he)
  · rcases h2 with ⟨e', he', hc', rfl⟩ | ⟨_, rfl⟩
    · exact absurd hc' (hno e' he')
    · rfl

theorem Ascending.apart {es : List ε} (h : Ascending lo hi es) : Apart lo hi es :=
  h.imp fun h => Or.inl h.2

end
end Intervals
