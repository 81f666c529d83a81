import OpenWatcom.Cg.SelOrder

/-!
# The tables of a switch

`MakeJmpTab` walks the values from the first case to the last, `MakeScanTab` walks the case values
twice: for the values, up or down, and for the labels, up.

* `walkForward_walks`    the walk up visits exactly the case values, in order, with their labels;
* `walkBackward_flip`    the walk down is the walk up under complements;
* `jmpLoop_get`          the jump table has an entry for every value;
* `tables_pair`          both tables: the entries, and the label paired with each value.
-/

namespace Cg
open Intervals

section
variable {L : Type} {s : Bool} {upper : BitVec 64}

/-- the ranges end with `upper` -/
def EndsAt (es : List (Case L)) (upper : BitVec 64) : Prop :=
  es.getLast?.map (·.high) = some upper

theorem EndsAt.tail {a b : Case L} {es : List (Case L)} (h : EndsAt (a :: b :: es) upper) :
    EndsAt (b :: es) upper := by
  unfold EndsAt at h ⊢
  rwa [List.getLast?_cons_cons] at h

theorem EndsAt.single {a : Case L} (h : EndsAt [a] upper) : a.high = upper := Option.some.inj h

/-- no range goes beyond the last bound -/
theorem EndsAt.high_le {es : List (Case L)} (h : EndsAt es upper) (ho : InOrder s es)
    (hv : ∀ e ∈ es, e.Valid s) : ∀ e ∈ es, key s e.high ≤ key s upper := by
  induction es with
  | nil => exact fun e he => absurd he List.not_mem_nil
  | cons a es ih =>
    cases es with
    | nil =>
      intro e he
      rw [List.mem_singleton.mp he, h.single]
    | cons b es =>
      have hrest := ih h.tail ho.cons.2 fun e he => hv e (List.mem_cons_of_mem _ he)
      intro e he
      rcases List.mem_cons.mp he with rfl | he
      · have h1 := (ho.cons.1 b List.mem_cons_self).2
        have h2 : key s b.low ≤ key s b.high := hv b (List.mem_cons_of_mem _ List.mem_cons_self)
        have h3 := hrest b List.mem_cons_self
        omega
      · exact hrest e he

theorem InOrder.has_unique {es : List (Case L)} (ho : InOrder s es) {a b : Case L} (ha : a ∈ es)
    (hb : b ∈ es) {v : BitVec 64} (h1 : a.Has s v) (h2 : b.Has s v) : a = b :=
  Ascending.apart ho |>.covers_unique ha hb h1 h2

/-! ## the walk up -/

/-- `W` are the values of the ranges `es` from `first` on, in order, with the labels of the
ranges -/
structure Walks (s : Bool) (es : List (Case L)) (first : Int) (W : List (BitVec 64 × L)) :
    Prop where
  sorted : W.Pairwise fun a b => key s a.1 < key s b.1
  mem : ∀ v l, (v, l) ∈ W ↔ first ≤ key s v ∧ ∃ e ∈ es, e.Has s v ∧ e.label = l

/-- a value put in front of the walk of the values behind it -/
theorem Walks.cons {es es' : List (Case L)} {curr : BitVec 64} {next : Int} {e : Case L}
    {W : List (BitVec 64 × L)} (h : Walks s es' next W) (ho : InOrder s es) (he : e ∈ es)
    (hhas : e.Has s curr) (hnext : key s curr < next) (hsub : ∀ e' ∈ es', e' ∈ es)
    (hgap : ∀ v, ∀ e' ∈ es, e'.Has s v → key s curr < key s v → next ≤ key s v ∧ e' ∈ es') :
    Walks s es (key s curr) ((curr, e.label) :: W) := by
  constructor
  · refine List.pairwise_cons.mpr ⟨fun p hp => ?_, h.sorted⟩
    have := ((h.mem p.1 p.2).mp hp).1
    show key s curr < key s p.1
    omega
  · intro v l
    rw [List.mem_cons, h.mem v l]
    constructor
    · rintro (heq | ⟨hle, e', he', hhas', rfl⟩)
      · obtain ⟨rfl, rfl⟩ := Prod.mk.inj heq
        exact ⟨Int.le_refl _, e, he, hhas, rfl⟩
      · exact ⟨by omega, e', hsub e' he', hhas', rfl⟩
    · rintro ⟨hle, e', he', hhas', rfl⟩
      rcases Int.lt_or_eq_of_le hle with hlt | heq
      · obtain ⟨hn, hm⟩ := hgap v e' he' hhas' hlt
        exact Or.inr ⟨hn, e', hm, hhas', rfl⟩
      · obtain rfl := key_inj.mp heq
        rw [ho.has_unique he' he hhas' hhas]
        exact Or.inl rfl

theorem walkForward_succ (f : Nat) (e : Case L) (rest : List (Case L)) (curr : BitVec 64) :
    walkForward s upper (f + 1) e rest curr = (curr, e.label) ::
      if key s curr ≥ key s upper then []
      else if key s curr ≥ key s e.high then
        match rest with
        | [] => []
        | next :: rest => walkForward s upper f next rest next.low
      else walkForward s upper f e rest (curr + 1) := by
  cases rest <;> rfl

theorem walkForward_walks : ∀ (f : Nat) (e : Case L) (rest : List (Case L)) (curr : BitVec 64),
    InOrder s (e :: rest) → (∀ a ∈ e :: rest, a.Valid s) → EndsAt (e :: rest) upper →
    e.Has s curr → key s upper - key s curr < f →
    Walks s (e :: rest) (key s curr) (walkForward s upper f e rest curr) := by
  intro f
  induction f with
  | zero =>
    intro e rest curr ho hv hend hhas hlt
    have h1 := hend.high_le ho hv e List.mem_cons_self
    have h2 : key s curr ≤ key s e.high := hhas.2
    omega
  | succ f ih =>
    intro e rest curr ho hv hend hhas hlt
    have hmax := hend.high_le ho hv
    have hcurr : key s curr ≤ key s e.high := hhas.2
    have hnil : ∀ {next : Int}, Walks s ([] : List (Case L)) next [] := fun {next} =>
      ⟨List.Pairwise.nil, fun v l => iff_of_false List.not_mem_nil
        (fun ⟨_, _, he', _⟩ => absurd he' List.not_mem_nil)⟩
    rw [walkForward_succ]
    by_cases h1 : key s curr ≥ key s upper
    · -- the last value
      rw [if_pos h1]
      have hend : Walks s ([] : List (Case L)) (key s curr + 1) [] := hnil
      refine hend.cons ho List.mem_cons_self hhas (by omega)
        (fun e' he' => absurd he' List.not_mem_nil) fun v e' he' hhas' hlt' => ?_
      have h2 := hmax e' he'
      have h3 : key s v ≤ key s e'.high := hhas'.2
      omega
    · rw [if_neg h1]
      by_cases h2 : key s curr ≥ key s e.high
      · -- the end of a range: on to the next one
        rw [if_pos h2]
        cases rest with
        | nil =>
          rw [hend.single] at h2
          exact absurd h2 h1
        | cons next rest =>
          obtain ⟨hbelow, ho'⟩ := ho.cons
          have hnext := hbelow next List.mem_cons_self
          have hvn : key s next.low ≤ key s next.high :=
            hv next (List.mem_cons_of_mem _ List.mem_cons_self)
          have hw := ih next rest next.low ho' (fun a ha => hv a (List.mem_cons_of_mem _ ha))
            hend.tail ⟨Int.le_refl _, hvn⟩ (by omega)
          refine hw.cons ho List.mem_cons_self hhas (by omega)
            (fun e' he' => List.mem_cons_of_mem _ he') fun v e' he' hhas' hlt' => ?_
          have hle : key s v ≤ key s e'.high := hhas'.2
          have hge : key s e'.low ≤ key s v := hhas'.1
          rcases List.mem_cons.mp he' with rfl | he'
          · omega
          · refine ⟨?_, he'⟩
            rcases List.mem_cons.mp he' with rfl | he''
            · exact hge
            · have := (ho'.cons.1 e' he'').1
              omega
      · -- inside a range
        rw [if_neg h2]
        have hkey := key_succ (show key s curr < key s e.high by omega)
        have hlow : key s e.low ≤ key s curr := hhas.1
        have hw := ih e rest (curr + 1) ho hv hend
          ⟨by show key s e.low ≤ _; omega, by show _ ≤ key s e.high; omega⟩ (by omega)
        rw [hkey] at hw
        exact hw.cons ho List.mem_cons_self hhas (by omega) (fun e' he' => he')
          fun v e' he' _ hlt' => ⟨by omega, he'⟩

end

/-! ## the walk down -/

section
variable {L : Type} {s : Bool}

/-- complements reverse the order -/
theorem key_not_le {x y : BitVec 64} : key s (~~~x) ≤ key s (~~~y) ↔ key s y ≤ key s x := by
  have hx := toInt_cases x
  have hy := toInt_cases y
  have hx' := toInt_cases (~~~x)
  have hy' := toInt_cases (~~~y)
  have hxl := x.isLt
  have hyl := y.isLt
  have e1 : (~~~x).toNat = 2 ^ 64 - 1 - x.toNat := BitVec.toNat_not
  have e2 : (~~~y).toNat = 2 ^ 64 - 1 - y.toNat := BitVec.toNat_not
  cases s with
  | true =>
    rw [key_true, key_true, key_true, key_true]
    omega
  | false =>
    rw [key_false, key_false, key_false, key_false]
    omega

theorem key_not_lt {x y : BitVec 64} : key s (~~~x) < key s (~~~y) ↔ key s y < key s x := by
  rw [← Int.not_le, key_not_le, Int.not_le]

theorem not_sub_one (x : BitVec 64) : ~~~(x - 1) = ~~~x + 1 := by
  apply BitVec.eq_of_toNat_eq
  have e1 : (~~~(x - 1)).toNat = 2 ^ 64 - 1 - (x - 1).toNat := BitVec.toNat_not
  have e2 : (x - 1).toNat = (2 ^ 64 - 1 + x.toNat) % 2 ^ 64 := BitVec.toNat_sub x 1
  have e3 : (~~~x + 1).toNat = ((~~~x).toNat + 1) % 2 ^ 64 := BitVec.toNat_add (~~~x) 1
  have e4 : (~~~x).toNat = 2 ^ 64 - 1 - x.toNat := BitVec.toNat_not
  have hx := x.isLt
  omega

theorem not_sub_not (x y : BitVec 64) : ~~~x - ~~~y = y - x := by
  apply BitVec.eq_of_toNat_eq
  have e1 : (~~~x).toNat = 2 ^ 64 - 1 - x.toNat := BitVec.toNat_not
  have e2 : (~~~y).toNat = 2 ^ 64 - 1 - y.toNat := BitVec.toNat_not
  have hx := x.isLt
  have hy := y.isLt
  rw [BitVec.toNat_sub, BitVec.toNat_sub]
  omega

/-- the range of the complements -/
def Case.flip (e : Case L) : Case L := { e with low := ~~~e.high, high := ~~~e.low }

theorem walkBackward_succ {lower : BitVec 64} (f : Nat) (e : Case L) (prev : List (Case L))
    (curr : BitVec 64) :
    walkBackward s lower (f + 1) e prev curr = curr ::
      if key s curr ≤ key s lower then []
      else if key s curr ≤ key s e.low then
        match prev with
        | [] => []
        | p :: prev => walkBackward s lower f p prev p.high
      else walkBackward s lower f e prev (curr - 1) := by
  cases prev <;> rfl

/-- down over the ranges is up over their complements -/
theorem walkBackward_flip (lower : BitVec 64) : ∀ (f : Nat) (e : Case L) (prev : List (Case L))
    (curr : BitVec 64), walkBackward s lower f e prev curr
      = (walkForward s (~~~lower) f e.flip (prev.map Case.flip) (~~~curr)).map fun p => ~~~p.1 := by
  intro f
  induction f with
  | zero => intro e prev curr; rfl
  | succ f ih =>
    intro e prev curr
    rw [walkBackward_succ, walkForward_succ, List.map_cons, BitVec.not_not]
    show curr :: _ = curr :: _
    congr 1
    by_cases h1 : key s curr ≤ key s lower
    · rw [if_pos h1, if_pos (key_not_le.mpr h1)]
      rfl
    · rw [if_neg h1, if_neg (fun h => h1 (key_not_le.mp h))]
      have hend : key s (~~~curr) ≥ key s e.flip.high ↔ key s curr ≤ key s e.low := key_not_le
      by_cases h2 : key s curr ≤ key s e.low
      · rw [if_pos h2, if_pos (hend.mpr h2)]
        cases prev with
        | nil => rfl
        | cons p prev => exact ih p prev p.high
      · rw [if_neg h2, if_neg (fun h => h2 (hend.mp h)), ← not_sub_one]
        exact ih e prev (curr - 1)

theorem flip_has {e : Case L} {v : BitVec 64} : e.flip.Has s (~~~v) ↔ e.Has s v := by
  constructor
  · rintro ⟨h1, h2⟩
    exact ⟨key_not_le.mp h2, key_not_le.mp h1⟩
  · rintro ⟨h1, h2⟩
    exact ⟨key_not_le.mpr h2, key_not_le.mpr h1⟩

/-- the complements of ascending ranges, the last one first, ascend -/
theorem InOrder.flip {es : List (Case L)} (ho : InOrder s es) (hv : ∀ e ∈ es, e.Valid s) :
    InOrder s (es.reverse.map Case.flip) := by
  refine List.pairwise_map.mpr (List.pairwise_reverse.mpr ?_)
  refine List.Pairwise.imp_of_mem (fun {a b} _ hb hab => ?_) ho
  have h1 : key s a.high < key s b.low := hab.2
  have h2 : key s b.low ≤ key s b.high := hv b hb
  exact ⟨key_not_lt.mpr (by omega), key_not_lt.mpr h1⟩

variable {es : List (Case L)} {lower upper : BitVec 64}

/-- the ranges start with `lower` -/
def StartsAt (es : List (Case L)) (lower : BitVec 64) : Prop := es.head?.map (·.low) = some lower

theorem StartsAt.low_le (h : StartsAt es lower) (ho : InOrder s es) :
    ∀ e ∈ es, key s lower ≤ key s e.low := by
  cases es with
  | nil => exact fun e he => absurd he List.not_mem_nil
  | cons a es =>
    obtain rfl : a.low = lower := Option.some.inj h
    intro e he
    rcases List.mem_cons.mp he with rfl | he
    · exact Int.le_refl _
    · have := (ho.cons.1 e he).1
      omega

/-- the bound of the last range is where the search for it stops -/
theorem last_range (ho : InOrder s es) (hv : ∀ e ∈ es, e.Valid s) (hend : EndsAt es upper) :
    ∃ init last, es = init ++ [last] ∧ last.high = upper ∧
      (es.dropWhile fun e => e.high ≠ upper) = [last] ∧
      (es.takeWhile fun e => e.high ≠ upper) = init := by
  have hne : es ≠ [] := by
    rintro rfl
    exact absurd hend (by simp [EndsAt])
  obtain ⟨init, last, rfl⟩ : ∃ init last, es = init ++ [last] :=
    ⟨es.dropLast, es.getLast hne, (List.dropLast_append_getLast hne).symm⟩
  have hlast : last.high = upper := by
    unfold EndsAt at hend
    rw [List.getLast?_concat] at hend
    exact Option.some.inj hend
  have hinit : ∀ e ∈ init, decide (e.high ≠ upper) = true := by
    intro e he
    refine decide_eq_true fun heq => ?_
    have h1 := ((List.pairwise_append.mp ho).2.2 e he last (List.mem_singleton.mpr rfl)).2
    have h2 : key s last.low ≤ key s last.high := hv last (by simp)
    have h3 : key s e.high < key s last.low := h1
    rw [heq, ← hlast] at h3
    omega
  refine ⟨init, last, rfl, hlast, ?_, ?_⟩
  · rw [List.dropWhile_append_of_pos hinit, List.dropWhile_cons_of_neg (by simp [hlast])]
  · rw [List.takeWhile_append_of_pos hinit, List.takeWhile_cons_of_neg (by simp [hlast]),
      List.append_nil]

/-- the values of the walk down are those of the walk up, from the other end -/
theorem genValuesBackward_eq {n : SelNode L} (ho : InOrder s n.list)
    (hv : ∀ e ∈ n.list, e.Valid s) (hstart : StartsAt n.list n.lower)
    (hend : EndsAt n.list n.upper) {W : List (BitVec 64 × L)}
    (hW : Walks s n.list (key s n.lower) W) :
    genValuesBackward s n = (W.map (·.1)).reverse := by
  obtain ⟨init, last, hes, hlast, hdrop, htake⟩ := last_range ho hv hend
  have hflip : n.list.reverse.map Case.flip = last.flip :: (init.reverse.map Case.flip) := by
    rw [hes, List.reverse_append]
    rfl
  have hmem : ∀ e, e ∈ n.list.reverse.map Case.flip ↔ ∃ a ∈ n.list, a.flip = e := by
    intro e
    rw [List.mem_map]
    simp only [List.mem_reverse]
  have hlow := hstart.low_le ho
  have hhigh := hend.high_le ho hv
  have hl : last ∈ n.list := by
    rw [hes]
    simp
  have hvl : key s last.low ≤ key s last.high := hv last hl
  have hlu : key s n.lower ≤ key s n.upper := by
    have h1 := hlow last hl
    have h2 := hhigh last hl
    omega
  have hfuel := key_sub hlu
  -- up over the complements
  have hback : Walks s (last.flip :: init.reverse.map Case.flip) (key s (~~~n.upper))
      (walkForward s (~~~n.lower) ((n.upper - n.lower).toNat + 1) last.flip
        (init.reverse.map Case.flip) (~~~n.upper)) := by
    refine walkForward_walks _ _ _ _ (hflip ▸ ho.flip hv) ?_ ?_ ?_ ?_
    · intro e he
      rw [← hflip] at he
      obtain ⟨a, ha, rfl⟩ := (hmem e).mp he
      exact key_not_le.mpr (hv a ha)
    · unfold EndsAt
      rw [← hflip, List.getLast?_map, List.getLast?_reverse]
      unfold StartsAt at hstart
      cases hh : n.list.head? with
      | none => rw [hh] at hstart; exact absurd hstart (by simp)
      | some a =>
        rw [hh] at hstart
        have hlow' : a.low = n.lower := Option.some.inj hstart
        rw [← hlow']
        rfl
    · rw [← hlast]
      exact flip_has.mpr ⟨hvl, Int.le_refl _⟩
    · have hneg := key_sub (key_not_le.mpr hlu : key s (~~~n.upper) ≤ key s (~~~n.lower))
      rw [not_sub_not] at hneg
      omega
  have hgen : genValuesBackward s n = (walkForward s (~~~n.lower) ((n.upper - n.lower).toNat + 1)
      last.flip (init.reverse.map Case.flip) (~~~n.upper)).map fun p => ~~~p.1 := by
    unfold genValuesBackward
    rw [hdrop, htake]
    exact walkBackward_flip _ _ _ _ _
  rw [hgen]
  generalize walkForward s (~~~n.lower) _ last.flip _ (~~~n.upper) = B at hback
  -- both lists are sorted and have the same members
  have hirr : Std.Irrefl fun a b : BitVec 64 => key s a < key s b := ⟨fun a => lt_irrefl _⟩
  have hanti : Std.Antisymm fun a b : BitVec 64 => key s a < key s b :=
    ⟨fun a b h1 h2 => absurd h1 (by omega)⟩
  rw [← List.reverse_eq_iff]
  refine List.Pairwise.eq_of_mem_iff (r := fun a b => key s a < key s b) ?_ ?_ fun v => ?_
  · rw [← List.map_reverse]
    refine List.pairwise_map.mpr (List.pairwise_reverse.mpr (hback.sorted.imp fun {a b} hab => ?_))
    exact key_not_lt.mpr hab
  · exact List.pairwise_map.mpr hW.sorted
  · rw [List.mem_reverse, List.mem_map, List.mem_map]
    constructor
    · rintro ⟨p, hp, rfl⟩
      obtain ⟨_, e, he, hhas, _⟩ := (hback.mem p.1 p.2).mp hp
      rw [← hflip] at he
      obtain ⟨a, ha, rfl⟩ := (hmem e).mp he
      have hhas' : a.Has s (~~~p.1) := flip_has.mp (by rwa [BitVec.not_not])
      refine ⟨(~~~p.1, a.label), (hW.mem _ _).mpr ⟨?_, a, ha, hhas', rfl⟩, rfl⟩
      have h1 := hlow a ha
      have h2 : key s a.low ≤ key s (~~~p.1) := hhas'.1
      omega
    · rintro ⟨p, hp, rfl⟩
      obtain ⟨_, a, ha, hhas, _⟩ := (hW.mem p.1 p.2).mp hp
      refine ⟨(~~~p.1, a.flip.label), (hback.mem _ _).mpr ⟨key_not_le.mpr ?_, a.flip, ?_,
        flip_has.mpr hhas, rfl⟩, BitVec.not_not⟩
      · have h1 := hhigh a ha
        have h2 : key s p.1 ≤ key s a.high := hhas.2
        omega
      · rw [← hflip]
        exact (hmem _).mpr ⟨a, ha, rfl⟩

end

/-! ## the jump table -/

section
variable {L : Type} {s : Bool} {other : L} {upper : BitVec 64}

theorem jmpLoop_succ (f : Nat) (e : Case L) (rest : List (Case L)) (curr : BitVec 64) :
    jmpLoop s other upper (f + 1) e rest curr =
      (if key s curr < key s e.low then other else e.label) ::
        if key s curr ≥ key s upper then []
        else if key s curr ≥ key s e.high then
          match rest with
          | [] => []
          | next :: rest => jmpLoop s other upper f next rest (curr + 1)
        else jmpLoop s other upper f e rest (curr + 1) := by
  cases rest <;> rfl

theorem Leads.tail {e : Case L} {rest : List (Case L)} {v : BitVec 64} {l : L}
    (h : Leads s other rest v l) (hlt : key s e.high < key s v) :
    Leads s other (e :: rest) v l := by
  rcases h with ⟨a, ha, hc, hl⟩ | ⟨hno, hl⟩
  · exact Or.inl ⟨a, List.mem_cons_of_mem _ ha, hc, hl⟩
  · refine Or.inr ⟨fun a ha hc => ?_, hl⟩
    rcases List.mem_cons.mp ha with rfl | ha
    · have h2 : key s v ≤ key s a.high := hc.2
      omega
    · exact hno a ha hc

/-- an entry for each value from `curr` to the last one -/
theorem jmpLoop_get : ∀ (f : Nat) (e : Case L) (rest : List (Case L)) (curr : BitVec 64),
    InOrder s (e :: rest) → (∀ a ∈ e :: rest, a.Valid s) → EndsAt (e :: rest) upper →
    key s curr ≤ key s e.high → key s upper - key s curr < f →
    ((jmpLoop s other upper f e rest curr).length : Int) = key s upper - key s curr + 1 ∧
      ∀ (i : Nat) (v : BitVec 64), key s v = key s curr + i → key s v ≤ key s upper →
        ∃ l, (jmpLoop s other upper f e rest curr)[i]? = some l ∧
          Leads s other (e :: rest) v l := by
  intro f
  induction f with
  | zero =>
    intro e rest curr ho hv hend hle hlt
    have h1 := hend.high_le ho hv e List.mem_cons_self
    omega
  | succ f ih =>
    intro e rest curr ho hv hend hle hlt
    have hmax := hend.high_le ho hv e List.mem_cons_self
    -- the entry of `curr` itself
    have hfirst : Leads s other (e :: rest) curr
        (if key s curr < key s e.low then other else e.label) := by
      by_cases hgap : key s curr < key s e.low
      · rw [if_pos hgap]
        refine Or.inr ⟨fun a ha hc => ?_, rfl⟩
        have h1 : key s a.low ≤ key s curr := hc.1
        rcases List.mem_cons.mp ha with rfl | ha
        · omega
        · have := (ho.cons.1 a ha).1
          omega
      · rw [if_neg hgap]
        exact Or.inl ⟨e, List.mem_cons_self, ⟨by show key s e.low ≤ _; omega, hle⟩, rfl⟩
    -- the entries behind it, wherever they come from
    have hcons : ∀ tl : List L, key s curr < key s upper →
        ((tl.length : Int) = key s upper - key s (curr + 1) + 1 ∧
          ∀ (i : Nat) (v : BitVec 64), key s v = key s (curr + 1) + i → key s v ≤ key s upper →
            ∃ l, tl[i]? = some l ∧ Leads s other (e :: rest) v l) →
        (((((if key s curr < key s e.low then other else e.label) :: tl).length : Nat) : Int)
            = key s upper - key s curr + 1 ∧
          ∀ (i : Nat) (v : BitVec 64), key s v = key s curr + i → key s v ≤ key s upper →
            ∃ l, ((if key s curr < key s e.low then other else e.label) :: tl)[i]? = some l ∧
              Leads s other (e :: rest) v l) := by
      intro tl hup ⟨hlen, hget⟩
      have hkey := key_succ hup
      refine ⟨by rw [List.length_cons]; omega, fun i v hi hvu => ?_⟩
      cases i with
      | zero =>
        obtain rfl : v = curr := (key_inj (s := s)).mp (by omega)
        exact ⟨_, rfl, hfirst⟩
      | succ i => exact hget i v (by omega) hvu
    rw [jmpLoop_succ]
    by_cases h1 : key s curr ≥ key s upper
    · rw [if_pos h1]
      refine ⟨by rw [List.length_singleton]; omega, fun i v hi hvu => ?_⟩
      obtain rfl : i = 0 := by omega
      obtain rfl : v = curr := (key_inj (s := s)).mp (by omega)
      exact ⟨_, rfl, hfirst⟩
    · rw [if_neg h1]
      have hup : key s curr < key s upper := by omega
      have hkey := key_succ hup
      by_cases h2 : key s curr ≥ key s e.high
      · rw [if_pos h2]
        cases rest with
        | nil =>
          rw [hend.single] at h2
          exact absurd h2 h1
        | cons next rest =>
          have hnext := (ho.cons.1 next List.mem_cons_self).2
          have hvn : key s next.low ≤ key s next.high :=
            hv next (List.mem_cons_of_mem _ List.mem_cons_self)
          obtain ⟨hlen, hget⟩ := ih next rest (curr + 1) ho.cons.2
            (fun a ha => hv a (List.mem_cons_of_mem _ ha)) hend.tail (by omega) (by omega)
          refine hcons _ hup ⟨hlen, fun i v hi hvu => ?_⟩
          obtain ⟨l, hl, hlead⟩ := hget i v hi hvu
          exact ⟨l, hl, hlead.tail (by omega)⟩
      · rw [if_neg h2]
        exact hcons _ hup (ih e rest (curr + 1) ho hv hend (by omega) (by omega))

end

/-! ## both tables -/

section
variable {L : Type} (s : Bool) (n : SelNode L)

/-- the position of the label paired with the `k`th of `count` values scanned; the default has the
position of `k = count` -/
def pairedAt (valueType : Width) (count k : Nat) : Nat :=
  if valueType = .b4 then k else count - k

/-- `vals` are the case values in the order they are scanned -/
structure Scans (valueType : Width) (vals : List (BitVec 64)) : Prop where
  order : vals.Pairwise fun a b =>
    if valueType = .b4 then key s a < key s b else key s b < key s a
  mem : ∀ v, v ∈ vals ↔ ∃ e ∈ n.list, e.Has s v

variable {s n}

theorem walks_scans {W : List (BitVec 64 × L)} (hW : Walks s n.list (key s n.lower) W)
    (hlow : ∀ e ∈ n.list, key s n.lower ≤ key s e.low) :
    ∀ v, v ∈ W.map (·.1) ↔ ∃ e ∈ n.list, e.Has s v := by
  intro v
  rw [List.mem_map]
  constructor
  · rintro ⟨p, hp, rfl⟩
    obtain ⟨_, e, he, hhas, _⟩ := (hW.mem p.1 p.2).mp hp
    exact ⟨e, he, hhas⟩
  · rintro ⟨e, he, hhas⟩
    have h1 := hlow e he
    have h2 : key s e.low ≤ key s v := hhas.1
    exact ⟨(v, e.label), (hW.mem _ _).mpr ⟨by omega, e, he, hhas, rfl⟩, rfl⟩

theorem walks_label {W : List (BitVec 64 × L)} (hW : Walks s n.list (key s n.lower) W) {k : Nat}
    {v : BitVec 64} (hk : (W.map (·.1))[k]? = some v) :
    ∃ e ∈ n.list, e.Has s v ∧ (W.map (·.2))[k]? = some e.label := by
  rw [List.getElem?_map] at hk
  obtain ⟨p, hp, rfl⟩ := Option.map_eq_some_iff.mp hk
  obtain ⟨_, e, he, hhas, hl⟩ := (hW.mem p.1 p.2).mp (List.mem_of_getElem? hp)
  exact ⟨e, he, hhas, by rw [List.getElem?_map, hp, hl]; rfl⟩

/-- the jump table has an entry for every value from the lower to the upper bound, the label of
its range or the default; the scan table has an entry for every case value, and the label paired
with it is that of its range -/
theorem tables_pair (s : Bool) (n : SelNode L) (valueType : Width) (same : Bool)
    (ho : InOrder s n.list) (hv : ∀ e ∈ n.list, e.Valid s) (hstart : StartsAt n.list n.lower)
    (hend : EndsAt n.list n.upper) :
    ((makeJmpTab s n).length = (n.upper - n.lower).toNat + 1 ∧
      ∀ v, key s n.lower ≤ key s v → key s v ≤ key s n.upper →
        ∃ l, (makeJmpTab s n)[(v - n.lower).toNat]? = some l ∧
          Leads s n.otherWise n.list v l) ∧
    ∃ vals, Scans s n valueType vals ∧
      (makeScanTab s n valueType same).values
        = vals.map (fun v => trunc valueType (v - if same then 0 else n.lower)) ∧
      (makeScanTab s n valueType same).labels.length = vals.length + 1 ∧
      (∀ k v, vals[k]? = some v → ∃ e ∈ n.list, e.Has s v ∧
        (makeScanTab s n valueType same).labels[pairedAt valueType vals.length k]?
          = some e.label) ∧
      (makeScanTab s n valueType same).labels[pairedAt valueType vals.length vals.length]?
        = some n.otherWise := by
  cases hlist : n.list with
  | nil =>
    rw [hlist] at hstart
    exact absurd hstart (by simp [StartsAt])
  | cons e rest =>
    have hlow := hstart.low_le ho
    have hhigh := hend.high_le ho hv
    have hle : e ∈ n.list := by rw [hlist]; exact List.mem_cons_self
    have hve : key s e.low ≤ key s e.high := hv e hle
    have hfirst : e.low = n.lower := by
      rw [hlist] at hstart
      exact Option.some.inj hstart
    have hlu : key s n.lower ≤ key s n.upper := by
      have := hlow e hle
      have := hhigh e hle
      omega
    have hspan := key_sub hlu
    have hW : Walks s n.list (key s n.lower)
        (walkForward s n.upper ((n.upper - n.lower).toNat + 1) e rest n.lower) := by
      rw [hlist] at ho hv hend ⊢
      exact walkForward_walks _ _ _ _ ho hv hend (hfirst ▸ ⟨Int.le_refl _, hve⟩) (by omega)
    have hforward : genValuesForward s n = (walkForward s n.upper ((n.upper - n.lower).toNat + 1)
        e rest n.lower).map (·.1) := by
      unfold genValuesForward
      rw [hlist]
    have hbackward := genValuesBackward_eq ho hv hstart hend hW
    have hlabels : (makeScanTab s n valueType same).labels
        = if valueType = .b4 then (walkForward s n.upper ((n.upper - n.lower).toNat + 1)
            e rest n.lower).map (·.2) ++ [n.otherWise]
          else n.otherWise :: (walkForward s n.upper ((n.upper - n.lower).toNat + 1)
            e rest n.lower).map (·.2) := by
      unfold makeScanTab
      rw [hlist]
    have hvalues : (makeScanTab s n valueType same).values
        = (if valueType = .b4 then genValuesForward s n else genValuesBackward s n).map
            fun v => trunc valueType (v - if same then 0 else n.lower) := rfl
    rw [← hlist]
    have hjump := @jmpLoop_get L s n.otherWise n.upper ((n.upper - n.lower).toNat + 1) e rest
      n.lower (hlist ▸ ho) (hlist ▸ hv) (hlist ▸ hend) (by rw [← hfirst]; exact hve) (by omega)
    have hjmp : makeJmpTab s n = jmpLoop s n.otherWise n.upper ((n.upper - n.lower).toNat + 1)
        e rest n.lower := by
      unfold makeJmpTab
      rw [hlist]
    rw [← hjmp, ← hlist] at hjump
    refine ⟨⟨by omega, fun v h1 h2 => ?_⟩, ?_⟩
    · exact hjump.2 (v - n.lower).toNat v (by have := key_sub h1; omega) h2
    · rw [hvalues, hlabels, hforward, hbackward]
      have hmem := walks_scans hW hlow
      have hlab := @walks_label _ _ _ _ hW
      have hsorted := hW.sorted
      generalize walkForward s n.upper _ e rest n.lower = W at hmem hlab hsorted
      by_cases hb4 : valueType = .b4
      · simp only [if_pos hb4, pairedAt]
        refine ⟨_, ⟨?_, hmem⟩, rfl, ?_, fun k v hk => ?_, ?_⟩
        · simp only [if_pos hb4]
          exact List.pairwise_map.mpr hsorted
        · rw [List.length_append, List.length_map, List.length_map, List.length_singleton]
        · obtain ⟨e', he', hhas, hl⟩ := hlab hk
          obtain ⟨hlt, _⟩ := List.getElem?_eq_some_iff.mp hl
          exact ⟨e', he', hhas, by rw [List.getElem?_append_left hlt, hl]⟩
        · rw [List.length_map, List.getElem?_append_right (by rw [List.length_map]),
            List.length_map, Nat.sub_self]
          rfl
      · simp only [if_neg hb4, pairedAt]
        refine ⟨_, ⟨?_, fun v => ?_⟩, rfl, ?_, fun k v hk => ?_, ?_⟩
        · simp only [if_neg hb4]
          exact List.pairwise_reverse.mpr (List.pairwise_map.mpr hsorted)
        · rw [List.mem_reverse, hmem v]
        · rw [List.length_cons, List.length_reverse, List.length_map, List.length_map]
        · obtain ⟨hlt, _⟩ := List.getElem?_eq_some_iff.mp hk
          rw [List.length_reverse] at hlt ⊢
          rw [List.getElem?_reverse hlt] at hk
          obtain ⟨e', he', hhas, hl⟩ := hlab hk
          refine ⟨e', he', hhas, ?_⟩
          have hpos : (W.map (·.1)).length - k = ((W.map (·.1)).length - 1 - k) + 1 := by omega
          rw [hpos, List.getElem?_cons_succ, hl]
        · rw [Nat.sub_self]
          rfl

/-- the tables of the ranges 1 and 3 to 4 -/
theorem tables_pair_gap :
    (makeJmpTab true ⟨3, [newCase 1 1 10, newCase 3 4 20], 0, 1, 4⟩)[((2 : BitVec 64) - 1).toNat]?
      = some 0 := by
  obtain ⟨l, hl, hlead⟩ := (tables_pair true ⟨3, [newCase 1 1 10, newCase 3 4 20], 0, 1, 4⟩ .b1 true
    (by unfold InOrder Ascending; decide) (by unfold Case.Valid; decide) rfl rfl).1.2 2
    (by decide) (by decide)
  have hgap : ∀ e ∈ [newCase 1 1 10, newCase 3 4 20], ¬ e.Has true 2 := by
    unfold Case.Has Covers
    decide
  rw [hl]
  rcases hlead with ⟨e, he, hc, _⟩ | ⟨_, rfl⟩
  · exact absurd hc (hgap e he)
  · rfl

end
end Cg
