import OpenWatcom.Lib.Dominators
import OpenWatcom.Lib.Rounds
import Mathlib

/-!
# Dominators of a flow graph: `dominate.c`

* `DomBitSet`     the bit sets, as `bitset.c` generates them
* `FlowGraph`     the blocks in the order of their list, with their input edges and targets
* `assignDominatorBits`, `calcDominatorInfo`     the functions of the file
* `assignDominatorBits_spec`     the blocks get different bits if and only if they fit and one of them returns
* `refine_good`, `refine_stable`     one update of a set
* `calcDominatorInfo_right`     what the sets are in the end
-/

namespace CgDominate
open Dominators Rounds

/-! ## the bit sets -/

/-- `dbit_size` -/
def dbitSize : ℕ := 256
/-- `_NLONGS( dbit_size )` -/
def nLongs : ℕ := 8

/-- `dom_bit_set` -/
abbrev DomBitSet := Fin nLongs → BitVec 32

def dbitFirst : DomBitSet := fun i => if i.val = 0 then 1 else 0

def dbitInit (val : BitVec 32) : DomBitSet := fun _ => val

def dbitEmpty (s : DomBitSet) : Bool := decide (∀ i, s i = 0)

def dbitSame (a b : DomBitSet) : Bool := decide (∀ i, a i = b i)

def dbitTurnOff (a b : DomBitSet) : DomBitSet := fun i => a i &&& ~~~ b i

def dbitTurnOn (a b : DomBitSet) : DomBitSet := fun i => a i ||| b i

/-- the first long that has its highest bit gives way to the next one; without one all of them are
shifted -/
def dbitNext (s : DomBitSet) : DomBitSet :=
  match (List.finRange nLongs).find? fun i => s i &&& 0x80000000 != 0 with
  | some long => fun i => if i.val = long.val + 1 then 1 else 0
  | none => fun i => s i <<< 1

/-! ## the flow graph -/

/-- a block: whether it has `BLK_RETURN`, the sources of its `input_edges`, the destinations of its edges -/
structure Block where
  isReturn : Bool
  inputs : List ℕ
  targets : List ℕ
deriving Inhabited

/-- the blocks in the order of `next_block`; an edge is in the list of its source and in that of its
destination -/
structure FlowGraph where
  blocks : List Block
  agree : ∀ a b, a ∈ (blocks.getD b default).inputs ↔ b ∈ (blocks.getD a default).targets

def FlowGraph.block (g : FlowGraph) (blk : ℕ) : Block := g.blocks.getD blk default

def headBlock : ℕ := 0

/-- `blk->dom` of every block -/
structure DomInfo where
  id : ℕ → DomBitSet
  dominator : ℕ → DomBitSet
  postDominator : ℕ → DomBitSet

/-- the loop of `AssignDominatorBits`: whether it came to the end, `ReturnBlock` and the bits -/
def assignLoop : List Block → ℕ → Option ℕ → DomBitSet → (ℕ → DomBitSet) →
    Bool × Option ℕ × (ℕ → DomBitSet)
  | [], _, returnBlock, _, ids => (true, returnBlock, ids)
  | b :: bs, blk, returnBlock, id, ids =>
    if b.isReturn && returnBlock.isSome then (false, returnBlock, ids)
    else
      let returnBlock := if b.isReturn then some blk else returnBlock
      let ids := Function.update ids blk id
      if dbitEmpty id then (false, returnBlock, ids)
      else assignLoop bs (blk + 1) returnBlock (dbitNext id) ids

def assignDominatorBits (g : FlowGraph) (ids : ℕ → DomBitSet) : Bool × Option ℕ × (ℕ → DomBitSet) :=
  let r := assignLoop g.blocks 0 none dbitFirst ids
  (r.1 && r.2.1.isSome, r.2)

def fullSet : DomBitSet := dbitInit (~~~ 0)

/-- what all of the sets have in common: `predecessors` or `successors` -/
def common (sets : ℕ → DomBitSet) (blks : List ℕ) : DomBitSet :=
  blks.foldl (fun acc blk => dbitTurnOff acc (dbitTurnOff fullSet (sets blk))) fullSet

/-- the update of the set of a block other than `root`, and whether it has changed -/
def refine (root : ℕ) (blks : List ℕ) (id : DomBitSet) (blk : ℕ) (sets : ℕ → DomBitSet) :
    (ℕ → DomBitSet) × Bool :=
  if blk ≠ root then
    let old := sets blk
    let new := dbitTurnOn (common sets blks) id
    (Function.update sets blk new, !dbitSame new old)
  else (sets, false)

/-- the body of the loop over the blocks -/
def blockStep (g : FlowGraph) (returnBlock blk : ℕ) (d : DomInfo) : DomInfo × Bool :=
  let dom := refine headBlock (g.block blk).inputs (d.id blk) blk d.dominator
  let post := refine returnBlock (g.block blk).targets (d.id blk) blk d.postDominator
  ({ d with dominator := dom.1, postDominator := post.1 }, dom.2 || post.2)

/-- the sets before the first pass -/
def startSets (g : FlowGraph) (root : ℕ) (id : DomBitSet) (sets : ℕ → DomBitSet) : ℕ → DomBitSet :=
  Function.update (fun blk => if blk < g.blocks.length then fullSet else sets blk) root id

/-- `CalcDominatorInfo`: whether there is information, and the sets; nothing when the passes run out -/
def calcDominatorInfo (passes : ℕ) (g : FlowGraph) (d : DomInfo) : Option (Bool × DomInfo) :=
  let r := assignDominatorBits g d.id
  let ids := r.2.2
  match r.1, r.2.1 with
  | true, some returnBlock =>
    let d : DomInfo := {
      id := ids
      dominator := startSets g headBlock (ids headBlock) d.dominator
      postDominator := startSets g returnBlock (ids returnBlock) d.postDominator }
    (untilSame (blockStep g returnBlock) (List.range g.blocks.length) passes d).map fun d => (true, d)
  | _, _ => some (false, { d with id := ids })

/-! ## the members of a set -/

/-- bit `k` of the set -/
def Mem (s : DomBitSet) (k : ℕ) : Prop :=
  ∃ h : k / 32 < nLongs, (s ⟨k / 32, h⟩).getLsbD (k % 32) = true

/-- the set of block `k` alone -/
def idOf (k : ℕ) : DomBitSet := fun i => if i.val = k / 32 then BitVec.twoPow 32 (k % 32) else 0

theorem dbitFirst_eq : dbitFirst = idOf 0 := by decide

theorem dbitNext_idOf {k : ℕ} (h : k < dbitSize) : dbitNext (idOf k) = idOf (k + 1) := by
  have hall : ∀ k : Fin 256, dbitNext (idOf k) = idOf (k + 1) := by decide +kernel
  exact hall ⟨k, h⟩

theorem mem_idOf {k j : ℕ} (hk : k < dbitSize) : Mem (idOf k) j ↔ j = k := by
  unfold Mem idOf
  dsimp only
  constructor
  · rintro ⟨h, hj⟩
    by_cases hw : j / 32 = k / 32
    · rw [if_pos hw, BitVec.getLsbD_twoPow] at hj
      have : k % 32 = j % 32 := by
        have := (Bool.and_eq_true_iff.mp hj).2
        simpa using this
      omega
    · rw [if_neg hw] at hj
      simp at hj
  · rintro rfl
    unfold dbitSize at hk
    refine ⟨by unfold nLongs; omega, ?_⟩
    rw [if_pos rfl, BitVec.getLsbD_twoPow]
    simp only [Bool.and_eq_true, decide_eq_true_eq, and_true]
    omega

theorem dbitEmpty_idOf (k : ℕ) : dbitEmpty (idOf k) = true ↔ dbitSize ≤ k := by
  unfold dbitEmpty
  rw [decide_eq_true_eq]
  constructor
  · intro h
    by_contra hk
    have hk' : k < dbitSize := not_le.mp hk
    obtain ⟨hw, hbit⟩ := (mem_idOf hk').mpr rfl
    rw [h] at hbit
    simp at hbit
  · intro h i
    have hi := i.isLt
    unfold idOf
    rw [if_neg]
    unfold dbitSize nLongs at *
    omega

theorem mem_full {k : ℕ} (hk : k < dbitSize) : Mem fullSet k := by
  unfold dbitSize at hk
  refine ⟨by unfold nLongs; omega, ?_⟩
  show (~~~ 0#32).getLsbD (k % 32) = true
  rw [BitVec.getLsbD_not]
  simp only [BitVec.getLsbD_zero, Bool.not_false, Bool.and_true, decide_eq_true_eq]
  omega

theorem Mem.lt {s : DomBitSet} {k : ℕ} (h : Mem s k) : k < dbitSize := by
  obtain ⟨hw, -⟩ := h
  unfold nLongs at hw
  unfold dbitSize
  omega

theorem mem_turnOn (a b : DomBitSet) (k : ℕ) : Mem (dbitTurnOn a b) k ↔ Mem a k ∨ Mem b k := by
  unfold Mem dbitTurnOn
  constructor
  · rintro ⟨h, hb⟩
    rw [BitVec.getLsbD_or, Bool.or_eq_true] at hb
    exact hb.imp (fun hb => ⟨h, hb⟩) fun hb => ⟨h, hb⟩
  · rintro (⟨h, hb⟩ | ⟨h, hb⟩)
    · exact ⟨h, by rw [BitVec.getLsbD_or, hb, Bool.true_or]⟩
    · exact ⟨h, by rw [BitVec.getLsbD_or, hb, Bool.or_true]⟩

theorem mem_turnOff (a b : DomBitSet) (k : ℕ) : Mem (dbitTurnOff a b) k ↔ Mem a k ∧ ¬ Mem b k := by
  unfold Mem dbitTurnOff
  constructor
  · rintro ⟨h, hb⟩
    rw [BitVec.getLsbD_and, BitVec.getLsbD_not, Bool.and_eq_true, Bool.and_eq_true,
      Bool.not_eq_true'] at hb
    refine ⟨⟨h, hb.1⟩, fun hb' => ?_⟩
    obtain ⟨_, hb'⟩ := hb'
    rw [hb'] at hb
    exact absurd hb.2.2 (by simp)
  · rintro ⟨⟨h, hb⟩, hn⟩
    refine ⟨h, ?_⟩
    have hbf : (b ⟨k / 32, h⟩).getLsbD (k % 32) = false := by
      by_contra hc
      exact hn ⟨h, by simpa using hc⟩
    rw [BitVec.getLsbD_and, BitVec.getLsbD_not, hb, hbf]
    simp only [Bool.not_false, Bool.and_true, Bool.true_and, decide_eq_true_eq]
    omega

/-- two sets with the same members are the same longs -/
theorem dbitSame_iff (a b : DomBitSet) : dbitSame a b = true ↔ ∀ k, Mem a k ↔ Mem b k := by
  unfold dbitSame
  rw [decide_eq_true_eq]
  constructor
  · intro h k
    rw [show a = b from funext h]
  · intro h i
    apply BitVec.eq_of_getLsbD_eq
    intro j hj
    have hi := i.isLt
    have hdiv : (32 * i.val + j) / 32 = i.val := by omega
    have hmod : (32 * i.val + j) % 32 = j := by omega
    have key : ∀ s : DomBitSet, Mem s (32 * i.val + j) ↔ (s i).getLsbD j = true := by
      intro s
      unfold Mem
      constructor
      · rintro ⟨hw, hb⟩
        have hfin : (⟨(32 * i.val + j) / 32, hw⟩ : Fin nLongs) = i := Fin.ext hdiv
        rwa [hfin, hmod] at hb
      · intro hb
        have hw : (32 * i.val + j) / 32 < nLongs := by rw [hdiv]; exact hi
        have hfin : (⟨(32 * i.val + j) / 32, hw⟩ : Fin nLongs) = i := Fin.ext hdiv
        exact ⟨hw, by rw [hfin, hmod]; exact hb⟩
    have hk := h (32 * i.val + j)
    rw [key a, key b] at hk
    exact Bool.eq_iff_iff.mpr hk

theorem mem_common (sets : ℕ → DomBitSet) (blks : List ℕ) {k : ℕ} (hk : k < dbitSize) :
    Mem (common sets blks) k ↔ ∀ a ∈ blks, Mem (sets a) k := by
  have hfold : ∀ (blks : List ℕ) (acc : DomBitSet),
      Mem (blks.foldl (fun acc blk => dbitTurnOff acc (dbitTurnOff fullSet (sets blk))) acc) k ↔
        Mem acc k ∧ ∀ a ∈ blks, Mem (sets a) k := by
    intro blks
    induction blks with
    | nil =>
      intro acc
      simp
    | cons b blks ih =>
      intro acc
      rw [List.foldl_cons, ih, mem_turnOff, mem_turnOff]
      have hfull := mem_full hk
      constructor
      · rintro ⟨⟨hacc, hb⟩, hall⟩
        refine ⟨hacc, fun a ha => ?_⟩
        rcases List.mem_cons.mp ha with rfl | ha
        · by_contra hna
          exact hb ⟨hfull, hna⟩
        · exact hall a ha
      · rintro ⟨hacc, hall⟩
        exact ⟨⟨hacc, fun h => h.2 (hall b List.mem_cons_self)⟩,
          fun a ha => hall a (List.mem_cons_of_mem b ha)⟩
  unfold common
  rw [hfold]
  exact ⟨fun h => h.2, fun h => ⟨mem_full hk, h⟩⟩

/-! ## the bits of the blocks -/

/-- `ReturnBlock` is the block that returns, of those before or of these -/
theorem assignLoop_spec (bs : List Block) :
    ∀ (blk : ℕ) (ret : Option ℕ) (ids : ℕ → DomBitSet), blk ≤ dbitSize →
      ((assignLoop bs blk ret (idOf blk) ids).1 = true ↔
        blk + bs.length ≤ dbitSize ∧ bs.countP Block.isReturn + ret.toList.length ≤ 1) ∧
      ((assignLoop bs blk ret (idOf blk) ids).1 = true →
        (∀ k, (assignLoop bs blk ret (idOf blk) ids).2.2 k =
          if blk ≤ k ∧ k < blk + bs.length then idOf k else ids k) ∧
        (∀ r, (assignLoop bs blk ret (idOf blk) ids).2.1 = some r ↔
          ret = some r ∨ ∃ j b, bs[j]? = some b ∧ b.isReturn = true ∧ r = blk + j)) := by
  induction bs with
  | nil =>
    intro blk ret ids hblk
    refine ⟨?_, fun _ => ⟨fun k => ?_, fun r => ?_⟩⟩
    · cases ret <;> simp [assignLoop, hblk]
    · rw [if_neg (by simp only [List.length_nil]; omega)]
      rfl
    · simp [assignLoop]
  | cons b bs ih =>
    intro blk ret ids hblk
    unfold assignLoop
    by_cases htwo : (b.isReturn && ret.isSome) = true
    · rw [if_pos htwo]
      refine ⟨⟨fun h => absurd h (by simp), fun h => ?_⟩, fun h => absurd h (by simp)⟩
      rw [Bool.and_eq_true] at htwo
      obtain ⟨hb, hret⟩ := htwo
      obtain ⟨r, rfl⟩ := Option.isSome_iff_exists.mp hret
      have := h.2
      rw [List.countP_cons_of_pos hb] at this
      simp at this
    · rw [if_neg htwo]
      dsimp only
      by_cases hempty : dbitEmpty (idOf blk) = true
      · rw [if_pos hempty]
        have := (dbitEmpty_idOf blk).mp hempty
        refine ⟨⟨fun h => absurd h (by simp), fun h => ?_⟩, fun h => absurd h (by simp)⟩
        rw [List.length_cons] at h
        omega
      · rw [if_neg hempty]
        have hlt : blk < dbitSize := by
          by_contra hge
          exact hempty ((dbitEmpty_idOf blk).mpr (not_lt.mp hge))
        rw [dbitNext_idOf hlt]
        obtain ⟨hok, hrest⟩ := ih (blk + 1) (if b.isReturn = true then some blk else ret)
          (Function.update ids blk (idOf blk)) hlt
        refine ⟨?_, fun h => ?_⟩
        · rw [hok, List.length_cons]
          by_cases hb : b.isReturn = true
          · have hret : ret = none := by
              cases ret with
              | none => rfl
              | some r => exact absurd (by rw [hb]; rfl) htwo
            rw [if_pos hb, List.countP_cons_of_pos hb, hret]
            simp only [Option.toList_some, Option.toList_none, List.length_singleton, List.length_nil]
            omega
          · rw [if_neg hb, List.countP_cons_of_neg hb]
            omega
        · obtain ⟨hids, hret⟩ := hrest h
          refine ⟨fun k => ?_, fun r => ?_⟩
          · rw [hids k, List.length_cons]
            by_cases hk : k = blk
            · rw [if_neg (by omega), if_pos (by omega), hk, Function.update_self]
            · rw [Function.update_of_ne hk]
              by_cases hin : blk + 1 ≤ k ∧ k < blk + 1 + bs.length
              · rw [if_pos hin, if_pos (by omega)]
              · rw [if_neg hin, if_neg (by omega)]
          · rw [hret r]
            constructor
            · rintro (hr | ⟨j, c, hj, hc, rfl⟩)
              · by_cases hb : b.isReturn = true
                · rw [if_pos hb, Option.some_inj] at hr
                  exact Or.inr ⟨0, b, rfl, hb, hr.symm⟩
                · rw [if_neg hb] at hr
                  exact Or.inl hr
              · exact Or.inr ⟨j + 1, c, hj, hc, by omega⟩
            · rintro (hr | ⟨j, c, hj, hc, rfl⟩)
              · have hb : ¬ b.isReturn = true := by
                  intro hb
                  rw [hb, hr] at htwo
                  exact htwo rfl
                exact Or.inl (by rw [if_neg hb]; exact hr)
              · cases j with
                | zero =>
                  have hbc : b = c := by simpa using hj
                  rw [← hbc] at hc
                  exact Or.inl (by rw [if_pos hc]; rfl)
                | succ j => exact Or.inr ⟨j, c, hj, hc, by omega⟩

/-- the blocks fit into the bit set, and exactly one of them returns -/
def FlowGraph.Fits (g : FlowGraph) : Prop :=
  g.blocks.length ≤ dbitSize ∧ g.blocks.countP Block.isReturn = 1

theorem assignDominatorBits_spec (g : FlowGraph) (ids : ℕ → DomBitSet) :
    ((assignDominatorBits g ids).1 = true ↔ g.Fits) ∧
      (g.Fits → ∃ r, (assignDominatorBits g ids).2.1 = some r ∧ r < g.blocks.length ∧
        (g.block r).isReturn = true ∧
        ∀ k, k < g.blocks.length → (assignDominatorBits g ids).2.2 k = idOf k) := by
  obtain ⟨hok, hrest⟩ := assignLoop_spec g.blocks 0 none ids (Nat.zero_le _)
  unfold assignDominatorBits
  rw [dbitFirst_eq]
  dsimp only
  generalize hr : assignLoop g.blocks 0 none (idOf 0) ids = res at hok hrest
  have hsome : res.1 = true → (res.2.1.isSome = true ↔ 0 < g.blocks.countP Block.isReturn) := by
    intro h
    rw [List.countP_pos_iff, Option.isSome_iff_exists]
    constructor
    · rintro ⟨r, hr'⟩
      rcases ((hrest h).2 r).mp hr' with hn | ⟨j, b, hj, hb, -⟩
      · exact absurd hn (by simp)
      · exact ⟨b, List.mem_of_getElem? hj, hb⟩
    · rintro ⟨b, hb, hbr⟩
      obtain ⟨j, hj⟩ := List.mem_iff_getElem?.mp hb
      exact ⟨0 + j, ((hrest h).2 _).mpr (Or.inr ⟨j, b, hj, hbr, rfl⟩)⟩
  have hfits : (res.1 && res.2.1.isSome) = true ↔ g.Fits := by
    rw [Bool.and_eq_true]
    unfold FlowGraph.Fits
    constructor
    · rintro ⟨h1, h2⟩
      have h3 := hok.mp h1
      have h4 := (hsome h1).mp h2
      simp only [Option.toList_none, List.length_nil] at h3
      omega
    · rintro ⟨h1, h2⟩
      have h3 : res.1 = true := hok.mpr ⟨by omega, by
        simp only [Option.toList_none, List.length_nil]
        omega⟩
      exact ⟨h3, (hsome h3).mpr (by omega)⟩
  refine ⟨hfits, fun hf => ?_⟩
  obtain ⟨h1, h2⟩ := Bool.and_eq_true_iff.mp (hfits.mpr hf)
  obtain ⟨r, hr'⟩ := Option.isSome_iff_exists.mp h2
  rcases ((hrest h1).2 r).mp hr' with hn | ⟨j, b, hj, hb, hrj⟩
  · exact absurd hn (by simp)
  · rw [Nat.zero_add] at hrj
    refine ⟨r, hr', ?_, ?_, fun k hk => ?_⟩
    · rw [hrj]
      exact (List.getElem?_eq_some_iff.mp hj).1
    · unfold FlowGraph.block
      rw [hrj, List.getD_eq_getElem?_getD, hj]
      exact hb
    · rw [(hrest h1).1 k, if_pos ⟨Nat.zero_le _, by omega⟩]

/-! ## one update -/

/-- the members of the sets of the first `n` blocks -/
noncomputable def weight (n : ℕ) (sets : ℕ → DomBitSet) : ℕ :=
  Set.ncard {p : ℕ × ℕ | p.1 < n ∧ Mem (sets p.1) p.2}

theorem weight_finite (n : ℕ) (sets : ℕ → DomBitSet) :
    {p : ℕ × ℕ | p.1 < n ∧ Mem (sets p.1) p.2}.Finite := by
  refine Set.Finite.subset ((Set.finite_Iio n).prod (Set.finite_Iio dbitSize)) ?_
  intro p hp
  exact ⟨hp.1, hp.2.lt⟩

theorem weight_le (n : ℕ) (sets : ℕ → DomBitSet) : weight n sets ≤ dbitSize * n := by
  have hsub : {p : ℕ × ℕ | p.1 < n ∧ Mem (sets p.1) p.2} ⊆ Set.Iio n ×ˢ Set.Iio dbitSize :=
    fun p hp => ⟨hp.1, hp.2.lt⟩
  refine le_trans (Set.ncard_le_ncard hsub ((Set.finite_Iio n).prod (Set.finite_Iio dbitSize))) ?_
  rw [Set.ncard_prod, Set.ncard_Iio_nat, Set.ncard_Iio_nat, Nat.mul_comm]

/-- what the sets keep on their way down: the root has itself, no set is below its update, and all that
lies on every walk from the root stays -/
structure Good (n root : ℕ) (src : ℕ → List ℕ) (sets : ℕ → DomBitSet) : Prop where
  atRoot : sets root = idOf root
  closed : ∀ b k, b < n → b ≠ root → k < dbitSize → (k = b ∨ ∀ a ∈ src b, Mem (sets a) k) →
    Mem (sets b) k
  above : ∀ b k, b < n → k < dbitSize → OnAll (fun a b => a ∈ src b) root k b → Mem (sets b) k

variable {n root : ℕ} {src : ℕ → List ℕ} {sets : ℕ → DomBitSet}

theorem mem_updated (hn : n ≤ dbitSize) {b k : ℕ} (hb : b < n) (hk : k < dbitSize) :
    Mem (dbitTurnOn (common sets (src b)) (idOf b)) k ↔ k = b ∨ ∀ a ∈ src b, Mem (sets a) k := by
  rw [mem_turnOn, mem_common sets _ hk, mem_idOf (lt_of_lt_of_le hb hn)]
  exact or_comm

theorem refine_good (hn : n ≤ dbitSize) (hsrc : ∀ b, ∀ a ∈ src b, a < n) (h : Good n root src sets)
    {b : ℕ} (hb : b < n) : Good n root src (refine root (src b) (idOf b) b sets).1 := by
  unfold refine
  by_cases hroot : b ≠ root
  · rw [if_pos hroot]
    dsimp only
    have hnew : ∀ k, k < dbitSize → (Mem (dbitTurnOn (common sets (src b)) (idOf b)) k ↔
        k = b ∨ ∀ a ∈ src b, Mem (sets a) k) := fun k hk => mem_updated hn hb hk
    generalize dbitTurnOn (common sets (src b)) (idOf b) = new at hnew
    -- the sets only lose members
    have hdown : ∀ a k, Mem (Function.update sets b new a) k → Mem (sets a) k := by
      intro a k hm
      by_cases ha : a = b
      · rw [ha, Function.update_self] at hm
        rw [ha]
        exact h.closed b k hb hroot hm.lt ((hnew k hm.lt).mp hm)
      · rwa [Function.update_of_ne ha] at hm
    refine ⟨?_, fun c k hc hcr hk hm => ?_, fun c k hc hk hall => ?_⟩
    · rw [Function.update_of_ne (Ne.symm hroot)]
      exact h.atRoot
    · have hm' : k = c ∨ ∀ a ∈ src c, Mem (sets a) k := hm.imp_right fun hm a ha => hdown a k (hm a ha)
      by_cases hcb : c = b
      · rw [hcb, Function.update_self]
        rw [hcb] at hm'
        exact (hnew k hk).mpr hm'
      · rw [Function.update_of_ne hcb]
        exact h.closed c k hc hcr hk hm'
    · by_cases hcb : c = b
      · rw [hcb, Function.update_self]
        rw [hcb] at hall
        refine (hnew k hk).mpr (hall.step.imp_right fun hpre a ha => ?_)
        exact h.above a k (hsrc b a ha) hk (hpre a ha)
      · rw [Function.update_of_ne hcb]
        exact h.above c k hc hk hall
  · rw [if_neg hroot]
    exact h

/-- an update changes nothing, or takes members away -/
theorem refine_weight (hn : n ≤ dbitSize) (h : Good n root src sets) {b : ℕ} (hb : b < n) :
    ((refine root (src b) (idOf b) b sets).2 = false → (refine root (src b) (idOf b) b sets).1 = sets) ∧
      ((refine root (src b) (idOf b) b sets).2 = true →
        weight n (refine root (src b) (idOf b) b sets).1 < weight n sets) := by
  unfold refine
  by_cases hroot : b ≠ root
  · rw [if_pos hroot]
    dsimp only
    have hnew : ∀ k, k < dbitSize → (Mem (dbitTurnOn (common sets (src b)) (idOf b)) k ↔
        k = b ∨ ∀ a ∈ src b, Mem (sets a) k) := fun k hk => mem_updated hn hb hk
    generalize dbitTurnOn (common sets (src b)) (idOf b) = new at hnew
    have hdown : ∀ k, Mem new k → Mem (sets b) k := fun k hm =>
      h.closed b k hb hroot hm.lt ((hnew k hm.lt).mp hm)
    refine ⟨fun hc => ?_, fun hc => ?_⟩
    · rw [Bool.not_eq_false'] at hc
      have heq : new = sets b := by
        funext i
        unfold dbitSame at hc
        exact of_decide_eq_true hc i
      rw [heq, Function.update_eq_self]
    · have hc' : ¬ dbitSame new (sets b) = true := by
        intro hsame
        rw [hsame] at hc
        exact absurd hc (by simp)
      rw [dbitSame_iff] at hc'
      obtain ⟨k, hk⟩ := not_forall.mp hc'
      have hold : Mem (sets b) k ∧ ¬ Mem new k := by
        by_cases hm : Mem new k
        · exact absurd ⟨fun _ => hdown k hm, fun _ => hm⟩ hk
        · by_cases hm' : Mem (sets b) k
          · exact ⟨hm', hm⟩
          · exact absurd ⟨fun h => absurd h hm, fun h => absurd h hm'⟩ hk
      refine Set.ncard_lt_ncard ⟨fun p hp => ⟨hp.1, ?_⟩, fun hsub => ?_⟩ (weight_finite n sets)
      · have hm := hp.2
        by_cases hpb : p.1 = b
        · rw [hpb, Function.update_self] at hm
          rw [hpb]
          exact hdown p.2 hm
        · rwa [Function.update_of_ne hpb] at hm
      · have hm := (hsub (show (b, k) ∈ {p : ℕ × ℕ | p.1 < n ∧ Mem (sets p.1) p.2} from
          ⟨hb, hold.1⟩)).2
        dsimp only at hm
        rw [Function.update_self] at hm
        exact hold.2 hm
  · rw [if_neg hroot]
    exact ⟨fun _ => rfl, fun hc => absurd hc (by simp)⟩

/-- sets that no update changes are those of the walks -/
theorem refine_stable (src : ℕ → List ℕ) (hn : n ≤ dbitSize) (hsrc : ∀ b, ∀ a ∈ src b, a < n ∧ b < n) (hr : root < n)
    (h : Good n root src sets)
    (hst : ∀ b, b < n → (refine root (src b) (idOf b) b sets).1 = sets) {b k : ℕ} (hb : b < n)
    (hk : k < dbitSize) : Mem (sets b) k ↔ OnAll (fun a b => a ∈ src b) root k b := by
  refine ⟨fun hm => ?_, h.above b k hb hk⟩
  refine onAll_of_step (P := fun b => Mem (sets b) k) (fun hm => ?_) (fun a c hac hcr hm => ?_) hm
  · rw [h.atRoot, mem_idOf (lt_of_lt_of_le hr hn)] at hm
    exact hm
  · obtain ⟨-, hc⟩ := hsrc c a hac
    have heq := congrFun (hst c hc) c
    unfold refine at heq
    rw [if_pos hcr] at heq
    dsimp only at heq
    rw [Function.update_self] at heq
    rw [← heq, mem_updated hn hc hk] at hm
    exact hm.imp_right fun hm => hm a hac

/-! ## the whole function -/

theorem good_start (g : FlowGraph) {root : ℕ} (src : ℕ → List ℕ) (sets : ℕ → DomBitSet)
    (hn : g.blocks.length ≤ dbitSize) (hr : root < g.blocks.length) :
    Good g.blocks.length root src (startSets g root (idOf root) sets) := by
  have hfull : ∀ b, b < g.blocks.length → b ≠ root →
      startSets g root (idOf root) sets b = fullSet := by
    intro b hb hbr
    unfold startSets
    rw [Function.update_of_ne hbr, if_pos hb]
  have hroot : startSets g root (idOf root) sets root = idOf root := Function.update_self _ _ _
  refine ⟨hroot, fun b k hb hbr hk _ => ?_, fun b k hb hk hall => ?_⟩
  · rw [hfull b hb hbr]
    exact mem_full hk
  · by_cases hbr : b = root
    · rw [hbr] at hall ⊢
      rw [hroot, mem_idOf (lt_of_lt_of_le hr hn)]
      exact hall.root
    · rw [hfull b hb hbr]
      exact mem_full hk

/-- an edge of the graph -/
def FlowGraph.Edge (g : FlowGraph) (a b : ℕ) : Prop := b ∈ (g.block a).targets

theorem block_of_le (g : FlowGraph) {b : ℕ} (h : g.blocks.length ≤ b) : g.block b = default := by
  unfold FlowGraph.block
  rw [List.getD_eq_getElem?_getD, List.getElem?_eq_none h]
  rfl

theorem FlowGraph.edge_lt {g : FlowGraph} {a b : ℕ} (h : g.Edge a b) :
    a < g.blocks.length ∧ b < g.blocks.length := by
  have hin : a ∈ (g.block b).inputs := (g.agree a b).mpr h
  constructor
  · by_contra ha
    unfold FlowGraph.Edge at h
    rw [block_of_le g (not_lt.mp ha)] at h
    exact absurd h List.not_mem_nil
  · by_contra hb
    rw [block_of_le g (not_lt.mp hb)] at hin
    exact absurd hin List.not_mem_nil

/-- what is kept of both kinds of sets -/
structure BothGood (g : FlowGraph) (ret : ℕ) (d : DomInfo) : Prop where
  ids : ∀ b, b < g.blocks.length → d.id b = idOf b
  dominator : Good g.blocks.length headBlock (fun b => (g.block b).inputs) d.dominator
  postDominator : Good g.blocks.length ret (fun b => (g.block b).targets) d.postDominator

/-- the loop ends with sets that no update changes -/
theorem passes_end (g : FlowGraph) {ret passes : ℕ} {d : DomInfo} (hn : g.blocks.length ≤ dbitSize)
    (h : BothGood g ret d) (hp : 2 * dbitSize * g.blocks.length < passes) :
    ∃ d', untilSame (blockStep g ret) (List.range g.blocks.length) passes d = some d' ∧
      BothGood g ret d' ∧ ∀ b, b < g.blocks.length → (blockStep g ret b d').1 = d' := by
  have hin : ∀ b, ∀ a ∈ (g.block b).inputs, a < g.blocks.length :=
    fun b a ha => (FlowGraph.edge_lt ((g.agree a b).mp ha)).1
  have hout : ∀ b, ∀ a ∈ (g.block b).targets, a < g.blocks.length :=
    fun b a ha => (FlowGraph.edge_lt (a := b) ha).2
  have hweights : ∀ b, b < g.blocks.length → ∀ d, BothGood g ret d →
      ((blockStep g ret b d).2 = false → (blockStep g ret b d).1 = d) ∧
      ((blockStep g ret b d).2 = true →
        weight g.blocks.length (blockStep g ret b d).1.dominator +
          weight g.blocks.length (blockStep g ret b d).1.postDominator <
        weight g.blocks.length d.dominator + weight g.blocks.length d.postDominator) := by
    intro b hb d hd
    have hdom := refine_weight hn hd.dominator hb
    have hpost := refine_weight hn hd.postDominator hb
    unfold blockStep
    rw [hd.ids b hb]
    dsimp only at hdom hpost ⊢
    generalize refine headBlock (g.block b).inputs (idOf b) b d.dominator = x at hdom
    generalize refine ret (g.block b).targets (idOf b) b d.postDominator = y at hpost
    refine ⟨fun hc => ?_, fun hc => ?_⟩
    · rw [Bool.or_eq_false_iff] at hc
      rw [hdom.1 hc.1, hpost.1 hc.2]
    · rw [Bool.or_eq_true] at hc
      cases hx : x.2 with
      | true =>
        cases hy : y.2 with
        | true => exact Nat.add_lt_add (hdom.2 hx) (hpost.2 hy)
        | false =>
          rw [hpost.1 hy]
          exact Nat.add_lt_add_right (hdom.2 hx) _
      | false =>
        rw [hdom.1 hx]
        exact Nat.add_lt_add_left (hpost.2 (hc.resolve_left (by rw [hx]; simp))) _
  obtain ⟨d', hrun, hgood, hst⟩ := untilSame_spec (blockStep g ret) (BothGood g ret)
    (fun d => weight g.blocks.length d.dominator + weight g.blocks.length d.postDominator)
    (List.range g.blocks.length)
    (fun b hb d hd => by
      have hb' := List.mem_range.mp hb
      refine ⟨hd.ids, ?_, ?_⟩
      · have := refine_good hn hin hd.dominator hb'
        rw [← hd.ids b hb'] at this
        exact this
      · have := refine_good hn hout hd.postDominator hb'
        rw [← hd.ids b hb'] at this
        exact this)
    (fun b hb d hd => (hweights b (List.mem_range.mp hb) d hd).1)
    (fun b hb d hd => (hweights b (List.mem_range.mp hb) d hd).2) passes h
    (by
      have h1 := weight_le g.blocks.length d.dominator
      have h2 := weight_le g.blocks.length d.postDominator
      unfold dbitSize at *
      omega)
  exact ⟨d', hrun, hgood, fun b hb => hst b (List.mem_range.mpr hb)⟩

/-- what `CalcDominatorInfo` has to say of a graph with the return block `ret`: the sets of a block that
can be reached are the blocks on all walks to it, those of a block that can return the blocks on all walks
from it -/
structure DominatorsRight (g : FlowGraph) (ret : ℕ) (d : DomInfo) : Prop where
  ids : ∀ b, b < g.blocks.length → ∀ k, Mem (d.id b) k ↔ k = b
  dominator : ∀ b, (∃ l, Walk g.Edge headBlock b l) → ∀ k,
    Mem (d.dominator b) k ↔ ∀ l, Walk g.Edge headBlock b l → k ∈ l
  postDominator : ∀ b, (∃ l, Walk g.Edge b ret l) → ∀ k,
    Mem (d.postDominator b) k ↔ ∀ l, Walk g.Edge b ret l → k ∈ l

theorem walk_lt {g : FlowGraph} {r b : ℕ} {l : List ℕ} (h : Walk g.Edge r b l)
    (hr : r < g.blocks.length) : ∀ k ∈ l, k < g.blocks.length := by
  induction h with
  | start =>
    intro k hk
    rw [List.mem_singleton.mp hk]
    exact hr
  | step _ hab ih =>
    intro k hk
    rcases List.mem_append.mp hk with hk | hk
    · exact ih k hk
    · rw [List.mem_singleton.mp hk]
      exact (FlowGraph.edge_lt hab).2

theorem Walk.mem_last {E : ℕ → ℕ → Prop} {r b : ℕ} {l : List ℕ} (h : Walk E r b l) : b ∈ l := by
  cases h with
  | start => exact List.mem_singleton_self r
  | step _ _ => exact List.mem_append_right _ (List.mem_singleton_self b)

/-- stable sets are those of the walks -/
theorem dominators_of_stable {g : FlowGraph} {ret : ℕ} {d : DomInfo} (hn : g.blocks.length ≤ dbitSize)
    (hr : ret < g.blocks.length) (h : BothGood g ret d)
    (hst : ∀ b, b < g.blocks.length → (blockStep g ret b d).1 = d) : DominatorsRight g ret d := by
  have hhead : headBlock < g.blocks.length := lt_of_le_of_lt (Nat.zero_le ret) hr
  have hstd : ∀ b, b < g.blocks.length →
      (refine headBlock (g.block b).inputs (idOf b) b d.dominator).1 = d.dominator := by
    intro b hb
    have := congrArg DomInfo.dominator (hst b hb)
    rw [← h.ids b hb]
    exact this
  have hstp : ∀ b, b < g.blocks.length →
      (refine ret (g.block b).targets (idOf b) b d.postDominator).1 = d.postDominator := by
    intro b hb
    have := congrArg DomInfo.postDominator (hst b hb)
    rw [← h.ids b hb]
    exact this
  refine ⟨fun b hb k => ?_, fun b hreach k => ?_, fun b hreach k => ?_⟩
  · rw [h.ids b hb]
    exact mem_idOf (lt_of_lt_of_le hb hn)
  · obtain ⟨l0, hl0⟩ := hreach
    have hb := walk_lt hl0 hhead b (Walk.mem_last hl0)
    have hedge : (fun a b => a ∈ (g.block b).inputs) = g.Edge := by
      funext a b
      exact propext (g.agree a b)
    have hkey : ∀ k, k < dbitSize → (Mem (d.dominator b) k ↔
        OnAll (fun a b => a ∈ (g.block b).inputs) headBlock k b) := fun k hk =>
      refine_stable _ hn (fun b a ha => FlowGraph.edge_lt ((g.agree a b).mp ha)) hhead h.dominator hstd
        hb hk
    rw [hedge] at hkey
    refine ⟨fun hm => (hkey k hm.lt).mp hm, fun hall => (hkey k ?_).mpr hall⟩
    exact lt_of_lt_of_le (walk_lt hl0 hhead k (hall l0 hl0)) hn
  · obtain ⟨l0, hl0⟩ := hreach
    have hb0 : b ∈ l0 := by
      have := Walk.mem_last (Walk.reverse hl0)
      rwa [List.mem_reverse] at this
    have hlt : ∀ k ∈ l0, k < g.blocks.length := by
      intro k hk
      by_cases hbr : b < g.blocks.length
      · exact walk_lt hl0 hbr k hk
      · -- a block that is not in the list has no edges, so it can only be the return block
        have hrev := Walk.reverse hl0
        have hend : b = ret := by
          generalize l0.reverse = l' at hrev
          cases hrev with
          | start => rfl
          | step _ hab => exact absurd (FlowGraph.edge_lt hab).1 hbr
        rw [hend] at hbr
        exact absurd hr hbr
    have hb := hlt b hb0
    have hkey : ∀ k, k < dbitSize → (Mem (d.postDominator b) k ↔
        OnAll (fun x y => g.Edge y x) ret k b) := fun k hk =>
      refine_stable (fun b => (g.block b).targets) hn
        (fun b a ha => ⟨(FlowGraph.edge_lt (a := b) ha).2, (FlowGraph.edge_lt (a := b) ha).1⟩) hr
        h.postDominator hstp hb hk
    refine ⟨fun hm => onAll_reverse.mp ((hkey k hm.lt).mp hm), fun hall => (hkey k ?_).mpr
      (onAll_reverse.mpr hall)⟩
    exact lt_of_lt_of_le (hlt k (hall l0 hl0)) hn

/-- for every flow graph: when its blocks fit into the bit set and exactly one of them returns, the
function ends with the dominators and postdominators; else it reports that there is no information -/
theorem calcDominatorInfo_right (g : FlowGraph) (d : DomInfo) (passes : ℕ)
    (hp : 2 * dbitSize * g.blocks.length < passes) :
    (g.Fits → ∃ ret d', ret < g.blocks.length ∧ (g.block ret).isReturn = true ∧
      calcDominatorInfo passes g d = some (true, d') ∧ DominatorsRight g ret d') ∧
    (¬ g.Fits → ∃ d', calcDominatorInfo passes g d = some (false, d')) := by
  obtain ⟨hok, hfits⟩ := assignDominatorBits_spec g d.id
  refine ⟨fun hf => ?_, fun hf => ?_⟩
  · obtain ⟨ret, hret, hrlt, hrr, hids⟩ := hfits hf
    have hhead : headBlock < g.blocks.length := lt_of_le_of_lt (Nat.zero_le ret) hrlt
    have h1 := hok.mpr hf
    unfold calcDominatorInfo
    generalize assignDominatorBits g d.id = res at hret hids h1
    obtain ⟨ok, ret', ids⟩ := res
    dsimp only at hret hids h1 ⊢
    rw [h1, hret]
    dsimp only
    have hstart : BothGood g ret { id := ids
                                   dominator := startSets g headBlock (ids headBlock) d.dominator
                                   postDominator := startSets g ret (ids ret) d.postDominator } := by
      refine ⟨hids, ?_, ?_⟩
      · dsimp only
        rw [hids headBlock hhead]
        exact good_start g _ _ hf.1 hhead
      · dsimp only
        rw [hids ret hrlt]
        exact good_start g _ _ hf.1 hrlt
    obtain ⟨d', hrun, hgood, hst⟩ := passes_end g hf.1 hstart hp
    refine ⟨ret, d', hrlt, hrr, ?_, dominators_of_stable hf.1 hrlt hgood hst⟩
    rw [hrun]
    rfl
  · have h1 : (assignDominatorBits g d.id).1 = false := by
      by_contra hc
      exact hf (hok.mp (by simpa using hc))
    unfold calcDominatorInfo
    dsimp only
    rw [h1]
    exact ⟨_, rfl⟩

/-- lists that agree on the blocks, and lead to blocks only -/
theorem agree_of_lt {blocks : List Block}
    (h : ∀ a, a < blocks.length → ∀ b, b < blocks.length →
      (a ∈ (blocks.getD b default).inputs ↔ b ∈ (blocks.getD a default).targets))
    (hlt : ∀ b ∈ blocks, (∀ a ∈ b.inputs, a < blocks.length) ∧ ∀ a ∈ b.targets, a < blocks.length)
    (a b : ℕ) : a ∈ (blocks.getD b default).inputs ↔ b ∈ (blocks.getD a default).targets := by
  have hlists : ∀ c, (∀ x ∈ (blocks.getD c default).inputs, c < blocks.length ∧ x < blocks.length) ∧
      ∀ x ∈ (blocks.getD c default).targets, c < blocks.length ∧ x < blocks.length := by
    intro c
    by_cases hc : c < blocks.length
    · rw [List.getD_eq_getElem _ _ hc]
      have := hlt _ (List.getElem_mem hc)
      exact ⟨fun x hx => ⟨hc, this.1 x hx⟩, fun x hx => ⟨hc, this.2 x hx⟩⟩
    · rw [List.getD_eq_default _ _ (not_lt.mp hc)]
      exact ⟨fun x hx => absurd hx List.not_mem_nil, fun x hx => absurd hx List.not_mem_nil⟩
  refine ⟨fun hin => ?_, fun hout => ?_⟩
  · obtain ⟨hb, ha⟩ := (hlists b).1 a hin
    exact (h a ha b hb).mp hin
  · obtain ⟨ha, hb⟩ := (hlists a).2 b hout
    exact (h a ha b hb).mpr hout

/-- a loop with two entries, and a block that cannot be reached -/
def twoEntries : FlowGraph where
  blocks := [⟨false, [], [1, 2]⟩, ⟨false, [0, 2], [2]⟩, ⟨false, [0, 1, 4], [1, 3]⟩, ⟨true, [2], []⟩,
    ⟨false, [], [2]⟩]
  agree := agree_of_lt (by decide) (by decide)

theorem twoEntries_right : ∃ ret d', ret < 5 ∧ (twoEntries.block ret).isReturn = true ∧
    calcDominatorInfo 2561 twoEntries ⟨fun _ => dbitFirst, fun _ => dbitFirst, fun _ => dbitFirst⟩ =
      some (true, d') ∧ DominatorsRight twoEntries ret d' :=
  (calcDominatorInfo_right twoEntries _ 2561 (by decide)).1 (by unfold FlowGraph.Fits; decide)

end CgDominate
