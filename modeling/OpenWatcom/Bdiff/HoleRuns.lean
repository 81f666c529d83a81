import Mathlib
import OpenWatcom.Lib.QSort
import OpenWatcom.Bdiff.Rebuild

/-!
# Runs of holes that become difference regions

`HolesToDiffs` looks for runs of holes that are cheaper to write as a difference region.

* `Hole`, `findPair`, `extendRun`, `convertRuns`, `holesToDiffs`     the pass as it is in `diff.c`;
* `Converted`     what a scan of the sorted array does to it;
* `survivors_perm`     the holes that stay are those inside no new region;
* `Found.behindPass`     regions and holes still account for the file;
* `holesToDiffs_right`     the patch makes the same file when no coded distance is cut.

A `long` has `bits` bits.
-/

namespace Bdiff
open QSort Bytes

/-- `region` with the field that only a hole uses; `size` is what the hole takes in the patch -/
structure Hole extends Region where
  dependants : ℤ
deriving DecidableEq, Repr

/-- `FOffCompare` -/
def fOffCompare (h1 h2 : Hole) : ℤ :=
  if h1.newStart < h2.newStart then -1
  else if h1.newStart > h2.newStart then 1
  else 0

/-- `RUN_SIZE` -/
def runSize : Foff := 5

/-- the first inner loop: the holes it passes, and the array from `curr` on -/
def findPair : List Hole → List Hole × List Hole
  | curr :: next :: rest =>
    if next.oldStart - curr.oldStart ≠ next.newStart - curr.newStart then
      ([], curr :: next :: rest)
    else if next.oldStart - curr.oldStart ≤ runSize then ([], curr :: next :: rest)
    else (curr :: (findPair (next :: rest)).1, (findPair (next :: rest)).2)
  | holes => ([], holes)

/-- the second inner loop behind its first `++curr`: the holes it passes, and the array from `curr` on -/
def extendRun : List Hole → List Hole × List Hole
  | curr :: next :: rest =>
    if next.oldStart - curr.oldStart ≠ next.newStart - curr.newStart then
      ([], curr :: next :: rest)
    else if next.oldStart - curr.oldStart > runSize then ([], curr :: next :: rest)
    else (curr :: (extendRun (next :: rest)).1, (extendRun (next :: rest)).2)
  | holes => ([], holes)

/-- the value that a `long` keeps -/
def wrap (bits : ℕ) (x : ℤ) : ℤ := Int.bmod x (2 ^ bits)

def holeSize (bits : ℕ) (run : List Hole) : ℤ :=
  run.foldl (fun holeSize r =>
    if r.dependants = 1 then wrap bits (holeSize + r.size.toNat) else holeSize) 0

def diffSize (bits : ℕ) (runStart curr : Hole) : ℤ :=
  wrap bits (2 * 4 + 1 + curr.newStart.toNat - runStart.newStart.toNat + 4)

/-- a hole of a run that is converted -/
def Hole.kill (h : Hole) : Hole := { h with diff := 0, newStart := 0 }

/-- the difference region of a run; its `diff` is not set -/
def runRegion (runStart curr : Hole) : Region :=
  ⟨runStart.oldStart, runStart.newStart, curr.newStart - runStart.newStart + 4, 0⟩

/-- what the scan makes of the array from `curr` on -/
structure Runs where
  array : List Hole
  /-- the regions in the order in which `AddRegion` gets them -/
  added : List Region
  dead : ℕ
  savings : ℤ
deriving DecidableEq, Repr

/-- the loop of `HolesToDiffs`; every turn takes at least one hole of the array -/
def convertRuns (bits : ℕ) : ℕ → List Hole → Runs
  | 0, holes => ⟨holes, [], 0, 0⟩
  | n + 1, holes =>
    match (findPair holes).2 with
    | runStart :: next :: rest =>
      match (extendRun (next :: rest)).2 with
      | curr :: after :: rest' =>
        let run := runStart :: ((extendRun (next :: rest)).1 ++ [curr])
        if holeSize bits run > diffSize bits runStart curr then
          let r := convertRuns bits n (after :: rest')
          ⟨(findPair holes).1 ++ (run.map Hole.kill ++ r.array), runRegion runStart curr :: r.added,
            run.length + r.dead,
            wrap bits (holeSize bits run - diffSize bits runStart curr + r.savings)⟩
        else
          let r := convertRuns bits n (curr :: after :: rest')
          ⟨(findPair holes).1 ++ (runStart :: (extendRun (next :: rest)).1 ++ r.array), r.added,
            r.dead, r.savings⟩
      -- `curr >= end`
      | _ => ⟨holes, [], 0, 0⟩
    | _ => ⟨holes, [], 0, 0⟩

/-- what `HolesToDiffs` returns, and what it makes of `HoleArray` and `DiffRegions` -/
structure Savings where
  savings : ℤ
  holes : List Hole
  diffs : List Region

/-- `HoleCompare` over the array -/
def Hole.compare (h1 h2 : Hole) : ℤ := holeCompare h1.toRegion h2.toRegion

/-- `HolesToDiffs` -/
def holesToDiffs (q : QSort Hole) (bits : ℕ) (holeArray : List Hole) (diffRegions : List Region) :
    Savings :=
  if holeArray = [] then ⟨0, [], diffRegions⟩
  else
    let r := convertRuns bits holeArray.length (q.sort fOffCompare holeArray)
    ⟨r.savings, (q.sort Hole.compare r.array).drop r.dead, r.added.reverse ++ diffRegions⟩

/-! ## the two orders -/

theorem fOffCompare_iff (a b : Hole) :
    fOffCompare a b ≤ 0 ↔ a.newStart.toNat ≤ b.newStart.toNat := by
  rw [fOffCompare]
  by_cases h1 : a.newStart < b.newStart
  · rw [if_pos h1]
    have := UInt32.lt_iff_toNat_lt.mp h1
    omega
  · rw [if_neg h1]
    have h1' : ¬ a.newStart.toNat < b.newStart.toNat := fun h => h1 (UInt32.lt_iff_toNat_lt.mpr h)
    by_cases h2 : a.newStart > b.newStart
    · rw [if_pos h2]
      have := UInt32.lt_iff_toNat_lt.mp h2
      omega
    · rw [if_neg h2]
      have h2' : ¬ b.newStart.toNat < a.newStart.toNat := fun h => h2 (UInt32.lt_iff_toNat_lt.mpr h)
      omega

theorem fOffCompare_orders : Orders fOffCompare where
  total a b := by
    rw [fOffCompare_iff, fOffCompare_iff]
    omega
  trans a b c := by
    rw [fOffCompare_iff, fOffCompare_iff, fOffCompare_iff]
    omega

theorem holeCompare_iff (a b : Region) :
    holeCompare a b ≤ 0 ↔ a.diff.toNat < b.diff.toNat ∨
      a.diff.toNat = b.diff.toNat ∧ a.newStart.toNat ≤ b.newStart.toNat := by
  rw [holeCompare]
  by_cases h1 : a.diff < b.diff
  · rw [if_pos h1]
    have := UInt32.lt_iff_toNat_lt.mp h1
    omega
  · rw [if_neg h1]
    have h1' : ¬ a.diff.toNat < b.diff.toNat := fun h => h1 (UInt32.lt_iff_toNat_lt.mpr h)
    by_cases h2 : a.diff > b.diff
    · rw [if_pos h2]
      have := UInt32.lt_iff_toNat_lt.mp h2
      omega
    · rw [if_neg h2]
      have h2' : ¬ b.diff.toNat < a.diff.toNat := fun h => h2 (UInt32.lt_iff_toNat_lt.mpr h)
      have h3 : (if a.newStart < b.newStart then (-1 : ℤ) else
          if a.newStart > b.newStart then 1 else 0) ≤ 0 ↔ a.newStart.toNat ≤ b.newStart.toNat :=
        fOffCompare_iff ⟨a, 0⟩ ⟨b, 0⟩
      rw [h3]
      omega

theorem compare_orders : Orders Hole.compare where
  total a b := by
    rw [Hole.compare, Hole.compare, holeCompare_iff, holeCompare_iff]
    omega
  trans a b c := by
    rw [Hole.compare, Hole.compare, Hole.compare, holeCompare_iff, holeCompare_iff,
      holeCompare_iff]
    omega

/-! ## the scan -/

theorem findPair_append (holes : List Hole) : (findPair holes).1 ++ (findPair holes).2 = holes := by
  fun_induction findPair holes with
  | case1 => rfl
  | case2 => rfl
  | case3 curr next rest h1 h2 ih => exact congrArg (curr :: ·) ih
  | case4 => rfl

theorem extendRun_append (holes : List Hole) :
    (extendRun holes).1 ++ (extendRun holes).2 = holes := by
  fun_induction extendRun holes with
  | case1 => rfl
  | case2 => rfl
  | case3 curr next rest h1 h2 ih => exact congrArg (curr :: ·) ih
  | case4 => rfl

/-- the hole lies in the region -/
def Region.Inside (h r : Region) : Prop :=
  r.newStart.toNat ≤ h.newStart.toNat ∧ h.newStart.toNat + 4 ≤ r.newStart.toNat + r.size.toNat

instance (h r : Region) : Decidable (h.Inside r) := inferInstanceAs (Decidable (_ ∧ _))

theorem Region.Apart.not_inside {h r : Region} (ha : h.Apart r) : ¬ h.Inside r := by
  intro hi
  obtain ⟨h1, h2⟩ := hi
  rcases ha with ha | ha <;> omega

/-- inside one of the regions -/
def Hole.Lost (added : List Region) (h : Hole) : Prop := ∃ r ∈ added, h.Inside r

instance (added : List Region) (h : Hole) : Decidable (h.Lost added) :=
  inferInstanceAs (Decidable (∃ r ∈ added, _))

/-- the entry of a hole behind the scan -/
def Hole.mark (added : List Region) (h : Hole) : Hole := if h.Lost added then h.kill else h

/-- the array goes up, and the four bytes of a hole lie in front of the next one -/
def Ahead (holes : List Hole) : Prop :=
  holes.Pairwise fun a b => a.newStart.toNat + 4 ≤ b.newStart.toNat

/-- what a scan of the array does to it -/
structure Converted (holes : List Hole) (r : Runs) : Prop where
  array : r.array = holes.map (Hole.mark r.added)
  dead : r.dead = holes.countP fun h => h.Lost r.added
  spans : ∀ s ∈ r.added, ∃ a ∈ holes, ∃ c ∈ holes, s.newStart = a.newStart ∧
    s.newStart.toNat + s.size.toNat = c.newStart.toNat + 4
  cut : ∀ h ∈ holes, ∀ s ∈ r.added, h.Inside s ∨ h.Apart s

theorem Converted.nothing (holes : List Hole) : Converted holes ⟨holes, [], 0, 0⟩ where
  array := by
    have hm : ∀ h : Hole, Hole.mark [] h = h := fun h => if_neg (by simp [Hole.Lost])
    exact (List.map_id'' hm holes).symm
  dead := (List.countP_eq_zero.mpr (by simp [Hole.Lost])).symm
  spans := by simp
  cut := by simp

theorem Hole.mark_of_apart {added : List Region} {h : Hole} (ha : ∀ s ∈ added, h.Apart s) :
    ¬ h.Lost added ∧ h.mark added = h := by
  have hl : ¬ h.Lost added := by
    intro hx
    obtain ⟨s, hs, hi⟩ := hx
    exact (ha s hs).not_inside hi
  exact ⟨hl, if_neg hl⟩

/-- holes in front of the array that are passed -/
theorem Converted.append {pre rest : List Hole} {r : Runs} (h : Converted rest r)
    (hlt : ∀ a ∈ pre, ∀ b ∈ rest, a.newStart.toNat + 4 ≤ b.newStart.toNat) (savings : ℤ) :
    Converted (pre ++ rest) ⟨pre ++ r.array, r.added, r.dead, savings⟩ := by
  have hap : ∀ a ∈ pre, ∀ s ∈ r.added, a.Apart s := by
    intro a ha s hs
    obtain ⟨b, hb, -, -, e, -⟩ := h.spans s hs
    rw [Region.Apart, e]
    exact Or.inl (hlt a ha b hb)
  refine ⟨?_, ?_, fun s hs => ?_, fun x hx s hs => ?_⟩
  · have hm : pre.map (Hole.mark r.added) = pre :=
      (List.map_congr_left fun a ha => (Hole.mark_of_apart (hap a ha)).2).trans (List.map_id pre)
    show pre ++ r.array = _
    rw [List.map_append, hm, h.array]
  · have hz : (pre.countP fun x => x.Lost r.added) = 0 := by
      refine List.countP_eq_zero.mpr fun a ha => ?_
      rw [decide_eq_true_eq]
      exact (Hole.mark_of_apart (hap a ha)).1
    show r.dead = _
    rw [List.countP_append, hz, Nat.zero_add, h.dead]
  · obtain ⟨a, ha, c, hc, e⟩ := h.spans s hs
    exact ⟨a, List.mem_append_right _ ha, c, List.mem_append_right _ hc, e⟩
  · rcases List.mem_append.mp hx with hx | hx
    · exact Or.inr (hap x hx s hs)
    · exact h.cut x hx s hs

/-- a run in front of the array that becomes a region -/
theorem Converted.run {a c : Hole} {mid rest : List Hole} {r : Runs} (h : Converted rest r)
    (hah : Ahead (a :: (mid ++ [c]) ++ rest)) (hfit : c.newStart.toNat + 4 < 2 ^ 32)
    (savings : ℤ) :
    Converted (a :: (mid ++ [c]) ++ rest)
      ⟨(a :: (mid ++ [c])).map Hole.kill ++ r.array, runRegion a c :: r.added,
        (a :: (mid ++ [c])).length + r.dead, savings⟩ := by
  obtain ⟨hrun, -, hsep⟩ := List.pairwise_append.mp hah
  have hac : ∀ x ∈ a :: (mid ++ [c]), a.newStart.toNat ≤ x.newStart.toNat ∧
      x.newStart.toNat ≤ c.newStart.toNat := by
    obtain ⟨ha, hm⟩ := List.pairwise_cons.mp hrun
    obtain ⟨-, -, hmc⟩ := List.pairwise_append.mp hm
    have hle := ha c (List.mem_append_right _ List.mem_cons_self)
    intro x hx
    rcases List.mem_cons.mp hx with rfl | hx
    · omega
    · have h1 := ha x hx
      rcases List.mem_append.mp hx with hx | hx
      · have h2 := hmc x hx c List.mem_cons_self
        omega
      · rw [List.mem_singleton.mp hx]
        omega
  have hle := (hac a List.mem_cons_self).2
  have hend : (runRegion a c).newStart.toNat + (runRegion a c).size.toNat
      = c.newStart.toNat + 4 := by
    have hs : (c.newStart - a.newStart).toNat = c.newStart.toNat - a.newStart.toNat :=
      UInt32.toNat_sub_of_le _ _ (UInt32.le_iff_toNat_le.mpr hle)
    have h4 : (c.newStart - a.newStart + 4).toNat
        = c.newStart.toNat - a.newStart.toNat + 4 := by
      rw [UInt32.toNat_add, hs]
      exact Nat.mod_eq_of_lt (by
        show c.newStart.toNat - a.newStart.toNat + 4 < 2 ^ 32
        omega)
    show a.newStart.toNat + (c.newStart - a.newStart + 4).toNat = _
    omega
  have hstart : (runRegion a c).newStart = a.newStart := rfl
  have hin : ∀ x ∈ a :: (mid ++ [c]), x.Inside (runRegion a c) := by
    intro x hx
    obtain ⟨h1, h2⟩ := hac x hx
    rw [Region.Inside, hend, hstart]
    omega
  have hout : ∀ x ∈ rest, x.Apart (runRegion a c) := by
    intro x hx
    rw [Region.Apart, hend]
    exact Or.inr (hsep c (List.mem_cons_of_mem a (List.mem_append_right _ List.mem_cons_self)) x hx)
  have hap : ∀ x ∈ a :: (mid ++ [c]), ∀ s ∈ r.added, x.Apart s := by
    intro x hx s hs
    obtain ⟨b, hb, -, -, e, -⟩ := h.spans s hs
    rw [Region.Apart, e]
    exact Or.inl (hsep x hx b hb)
  have hlost : ∀ x ∈ a :: (mid ++ [c]), x.Lost (runRegion a c :: r.added) :=
    fun x hx => ⟨runRegion a c, List.mem_cons_self, hin x hx⟩
  have hrest : ∀ x ∈ rest, x.Lost (runRegion a c :: r.added) ↔ x.Lost r.added := by
    intro x hx
    rw [Hole.Lost, Hole.Lost, List.exists_mem_cons_iff]
    exact or_iff_right (hout x hx).not_inside
  refine ⟨?_, ?_, fun s hs => ?_, fun x hx s hs => ?_⟩
  · have h1 : (a :: (mid ++ [c])).map (Hole.mark (runRegion a c :: r.added))
        = (a :: (mid ++ [c])).map Hole.kill :=
      List.map_congr_left fun x hx => if_pos (hlost x hx)
    have h2 : rest.map (Hole.mark (runRegion a c :: r.added)) = rest.map (Hole.mark r.added) := by
      refine List.map_congr_left fun x hx => ?_
      rw [Hole.mark, Hole.mark]
      exact if_congr (hrest x hx) rfl rfl
    show (a :: (mid ++ [c])).map Hole.kill ++ r.array = _
    rw [List.map_append, h1, h2, h.array]
  · have h1 : ((a :: (mid ++ [c])).countP fun x => x.Lost (runRegion a c :: r.added))
        = (a :: (mid ++ [c])).length :=
      List.countP_eq_length.mpr fun x hx => decide_eq_true (hlost x hx)
    have h2 : (rest.countP fun x => x.Lost (runRegion a c :: r.added))
        = rest.countP fun x => x.Lost r.added := by
      refine List.countP_congr fun x hx => ?_
      rw [decide_eq_true_eq, decide_eq_true_eq]
      exact hrest x hx
    show (a :: (mid ++ [c])).length + r.dead = _
    rw [List.countP_append, h1, h2, h.dead]
  · rcases List.mem_cons.mp hs with rfl | hs
    · exact ⟨a, List.mem_cons_self, c, by simp, hstart, hend⟩
    · obtain ⟨x, hx, y, hy, e⟩ := h.spans s hs
      exact ⟨x, List.mem_append_right _ hx, y, List.mem_append_right _ hy, e⟩
  · rcases List.mem_append.mp hx with hx | hx
    · rcases List.mem_cons.mp hs with rfl | hs
      · exact Or.inl (hin x hx)
      · exact Or.inr (hap x hx s hs)
    · rcases List.mem_cons.mp hs with rfl | hs
      · exact Or.inr (hout x hx)
      · exact h.cut x hx s hs

theorem converted_convertRuns (bits n : ℕ) {holes : List Hole} (hah : Ahead holes)
    (hfit : ∀ h ∈ holes, h.newStart.toNat + 4 < 2 ^ 32) :
    Converted holes (convertRuns bits n holes) := by
  induction n generalizing holes with
  | zero => exact .nothing holes
  | succ n ih =>
    have hp := findPair_append holes
    rw [convertRuns]
    split
    · rename_i runStart next rest hfp
      rw [hfp] at hp
      have he := extendRun_append (next :: rest)
      split
      · rename_i curr after rest' hex
        rw [hex] at he
        dsimp only
        split
        · -- the run is converted, and the scan goes on behind it
          have hl : holes = (findPair holes).1 ++ (runStart :: ((extendRun (next :: rest)).1 ++ [curr])
              ++ (after :: rest')) := by
            conv_lhs => rw [← hp, ← he]
            simp only [List.append_assoc, List.cons_append, List.nil_append]
          rw [hl] at hah hfit
          obtain ⟨-, hah', hsep⟩ := List.pairwise_append.mp hah
          have hi := @ih (after :: rest') (List.pairwise_append.mp hah').2.1
            fun h hh => hfit h (List.mem_append_right _ (List.mem_append_right _ hh))
          have hc := hi.run hah' (hfit curr (by simp)) 0
          have hr := hc.append hsep (wrap bits (holeSize bits (runStart ::
            ((extendRun (next :: rest)).1 ++ [curr])) - diffSize bits runStart curr
              + (convertRuns bits n (after :: rest')).savings))
          rw [← hl] at hr
          exact hr
        · -- nothing is converted, and the scan goes on at the last hole of the run
          have hl : holes = (findPair holes).1 ++ (runStart :: (extendRun (next :: rest)).1)
              ++ (curr :: after :: rest') := by
            conv_lhs => rw [← hp, ← he]
            simp only [List.append_assoc, List.cons_append]
          rw [hl] at hah hfit
          obtain ⟨-, hah', hsep⟩ := List.pairwise_append.mp hah
          have hi := @ih (curr :: after :: rest') hah'
            fun h hh => hfit h (List.mem_append_right _ hh)
          have hr := hi.append hsep (convertRuns bits n (curr :: after :: rest')).savings
          rw [← hl, List.append_assoc] at hr
          exact hr
      · exact .nothing holes
    · exact .nothing holes

/-- the array is scanned to its end -/
theorem convertRuns_succ (bits n : ℕ) {holes : List Hole} (h : holes.length ≤ n) :
    convertRuns bits (n + 1) holes = convertRuns bits n holes := by
  induction n generalizing holes with
  | zero =>
    rw [List.length_eq_zero_iff.mp (Nat.le_zero.mp h)]
    rfl
  | succ n ih =>
    have hp := congrArg List.length (findPair_append holes)
    rw [List.length_append] at hp
    rw [convertRuns, convertRuns.eq_def bits (n + 1)]
    dsimp only
    split
    · rename_i runStart next rest hfp
      have he := congrArg List.length (extendRun_append (next :: rest))
      rw [List.length_append] at he
      rw [hfp] at hp
      split
      · rename_i curr after rest' hex
        rw [hex] at he
        simp only [List.length_cons] at hp he
        rw [@ih (after :: rest') (by rw [List.length_cons]; omega),
          @ih (curr :: after :: rest') (by rw [List.length_cons, List.length_cons]; omega)]
      · rfl
    · rfl

/-! ## what stays -/

section
variable {old new : File} {endNew : Foff} {similar diffs : List Region} {holes : List Hole}
  (q : QSort Hole) (bits : ℕ)

/-- the regions that are added, in the order of the list -/
def newRegions (q : QSort Hole) (bits : ℕ) (holes : List Hole) : List Region :=
  (convertRuns bits holes.length (q.sort fOffCompare holes)).added.reverse

theorem holesToDiffs_diffs :
    (holesToDiffs q bits holes diffs).diffs = newRegions q bits holes ++ diffs := by
  rw [holesToDiffs]
  by_cases h : holes = []
  · have hs : q.sort fOffCompare [] = [] := List.Perm.eq_nil (q.perm fOffCompare [])
    rw [if_pos h, h, newRegions, hs]
    rfl
  · rw [if_neg h]
    rfl

theorem holesToDiffs_holes : (holesToDiffs q bits holes diffs).holes
    = (q.sort Hole.compare (convertRuns bits holes.length (q.sort fOffCompare holes)).array).drop
      (convertRuns bits holes.length (q.sort fOffCompare holes)).dead := by
  rw [holesToDiffs]
  by_cases h : holes = []
  · have hs : ∀ cmp, q.sort cmp [] = [] := fun cmp => List.Perm.eq_nil (q.perm cmp [])
    rw [if_pos h, h, hs]
    exact (List.drop_eq_nil_of_le (by rw [List.length_nil, convertRuns, hs]; simp)).symm
  · rw [if_neg h]

variable (hf : Found old new endNew similar diffs (holes.map Hole.toRegion))
include hf

theorem Found.converted : Converted (q.sort fOffCompare holes)
    (convertRuns bits holes.length (q.sort fOffCompare holes)) := by
  have hd : holes.Pairwise fun a b => HolesApart a.toRegion b.toRegion :=
    List.pairwise_map.mp hf.holesDisjoint
  have hperm := q.perm fOffCompare holes
  have hap : (q.sort fOffCompare holes).Pairwise fun a b => HolesApart a.toRegion b.toRegion :=
    hd.perm hperm.symm fun h => HolesApart.symm h
  have hsort := q.sorted fOffCompare holes fOffCompare_orders
  refine converted_convertRuns bits _ ((hsort.and hap).imp fun h => ?_) fun h hh => ?_
  · obtain ⟨h1, h2⟩ := h
    rw [fOffCompare_iff] at h1
    rcases h2 with h2 | h2 <;> omega
  · have h1 := hf.inFile h.toRegion (List.mem_map_of_mem (hperm.mem_iff.mp hh))
    have h2 := endNew.toNat_lt
    omega

/-- the holes that stay are those inside no new region -/
theorem Found.survivors_perm : (holesToDiffs q bits holes diffs).holes.Perm
    (holes.filter fun h => ¬ h.Lost (newRegions q bits holes)) := by
  have hc := hf.converted q bits
  have hperm := q.perm fOffCompare holes
  rw [holesToDiffs_holes, newRegions]
  generalize convertRuns bits holes.length (q.sort fOffCompare holes) = r at hc ⊢
  have hnz : ∀ h ∈ q.sort fOffCompare holes, h.diff ≠ 0 := fun h hh =>
    hf.differs h.toRegion (List.mem_map_of_mem (hperm.mem_iff.mp hh))
  have hmark : ∀ h ∈ q.sort fOffCompare holes,
      decide ((h.mark r.added).diff = 0) = decide (h.Lost r.added) := by
    intro h hh
    by_cases hl : h.Lost r.added
    · rw [Hole.mark, if_pos hl, decide_eq_true hl]
      rfl
    · rw [Hole.mark, if_neg hl, decide_eq_false hl]
      exact decide_eq_false (hnz h hh)
  -- the dead holes have the least key
  have hfirst : (q.sort Hole.compare r.array).Pairwise fun a b =>
      decide (b.diff = 0) → decide (a.diff = 0) := by
    refine (q.sorted Hole.compare r.array compare_orders).imp fun h hb => ?_
    rw [Hole.compare, holeCompare_iff] at h
    rw [decide_eq_true_eq] at hb ⊢
    rw [hb] at h
    have h0 : (0 : Foff).toNat = 0 := rfl
    exact UInt32.toNat_inj.mp (by omega)
  have hdead : r.dead = (q.sort Hole.compare r.array).countP fun h => decide (h.diff = 0) := by
    rw [(q.perm Hole.compare r.array).countP_eq, hc.array, List.countP_map, hc.dead]
    exact List.countP_congr fun h hh => by rw [Function.comp_apply, hmark h hh]
  rw [hdead, drop_countP hfirst]
  refine ((q.perm Hole.compare r.array).filter _).trans ?_
  rw [hc.array, List.filter_map]
  have hkeep : (q.sort fOffCompare holes).filter ((fun a : Hole => !decide (a.diff = 0)) ∘
      Hole.mark r.added) = (q.sort fOffCompare holes).filter fun h => ¬ h.Lost r.added := by
    refine List.filter_congr fun h hh => ?_
    rw [Function.comp_apply, hmark h hh, decide_not]
  have hsame : ((q.sort fOffCompare holes).filter fun h => ¬ h.Lost r.added).map
      (Hole.mark r.added) = (q.sort fOffCompare holes).filter fun h => ¬ h.Lost r.added := by
    refine (List.map_congr_left fun h hh => ?_).trans (List.map_id _)
    exact if_neg (of_decide_eq_true (List.mem_filter.mp hh).2)
  have hrev : ∀ h : Hole, h.Lost r.added.reverse ↔ h.Lost r.added := fun h => by
    rw [Hole.Lost, Hole.Lost]
    simp only [List.mem_reverse]
  rw [hkeep, hsame]
  simp only [hrev]
  exact hperm.filter _

theorem Found.mem_survivors {h : Hole} : h ∈ (holesToDiffs q bits holes diffs).holes ↔
    h ∈ holes ∧ ¬ h.Lost (newRegions q bits holes) := by
  rw [(hf.survivors_perm q bits).mem_iff, List.mem_filter, decide_eq_true_eq]

/-- a new region ends with a hole, and no hole lies across its bounds -/
theorem Found.newRegions_spec {s : Region} (hs : s ∈ newRegions q bits holes) :
    (∃ c ∈ holes, s.newStart.toNat + s.size.toNat = c.newStart.toNat + 4) ∧
      ∀ h ∈ holes, h.Inside s ∨ h.Apart s := by
  have hc := hf.converted q bits
  have hperm := q.perm fOffCompare holes
  have hs' := List.mem_reverse.mp hs
  obtain ⟨-, -, c, hcm, -, e⟩ := hc.spans s hs'
  exact ⟨⟨c, hperm.mem_iff.mp hcm, e⟩, fun h hh => hc.cut h (hperm.mem_iff.mpr hh) s hs'⟩

/-- no hole that stays has a byte of a new region -/
theorem Found.survivors_apart {h : Hole} (hh : h ∈ (holesToDiffs q bits holes diffs).holes)
    {s : Region} (hs : s ∈ newRegions q bits holes) : h.Apart s := by
  obtain ⟨hm, hl⟩ := (hf.mem_survivors q bits).mp hh
  exact ((hf.newRegions_spec q bits hs).2 h hm).resolve_left fun hi => hl ⟨s, hs, hi⟩

/-- behind the pass the regions and the holes still account for the file -/
theorem Found.behindPass : Found old new endNew similar (holesToDiffs q bits holes diffs).diffs
    ((holesToDiffs q bits holes diffs).holes.map Hole.toRegion) := by
  have hmem : ∀ x ∈ (holesToDiffs q bits holes diffs).holes.map Hole.toRegion,
      x ∈ holes.map Hole.toRegion := by
    intro x hx
    obtain ⟨h, hh, rfl⟩ := List.mem_map.mp hx
    exact List.mem_map_of_mem ((hf.mem_survivors q bits).mp hh).1
  have hperm := (hf.survivors_perm q bits).map Hole.toRegion
  rw [holesToDiffs_diffs]
  refine ⟨hf.similarFit, fun s hs => ?_, hf.similarDisjoint, ?_, fun x hx => hf.inFile x (hmem x hx),
    fun x hx => hf.differs x (hmem x hx), fun x hx => hf.liesIn x (hmem x hx),
    fun x hx s hs => ?_, fun p hp => ?_, fun r hr p hp hrp hd hh => ?_⟩
  · rcases List.mem_append.mp hs with hs | hs
    · obtain ⟨⟨c, hc, e⟩, -⟩ := hf.newRegions_spec q bits hs
      have h1 := hf.inFile c.toRegion (List.mem_map_of_mem hc)
      have h2 := endNew.toNat_lt
      omega
    · exact hf.diffsFit s hs
  · have hsub : (holes.filter fun h => ¬ h.Lost (newRegions q bits holes)).map Hole.toRegion
        |>.Sublist (holes.map Hole.toRegion) := List.filter_sublist.map _
    exact (hf.holesDisjoint.sublist hsub).perm hperm.symm fun h => HolesApart.symm h
  · obtain ⟨h, hh, rfl⟩ := List.mem_map.mp hx
    rcases List.mem_append.mp hs with hs | hs
    · exact hf.survivors_apart q bits hh hs
    · exact hf.apart h.toRegion (hmem _ hx) s hs
  · rcases hf.covered p hp with h | ⟨s, hs, hsp⟩
    · exact Or.inl h
    · exact Or.inr ⟨s, List.mem_append_right _ hs, hsp⟩
  · refine hf.same r hr p hp hrp (fun s hs => hd s (List.mem_append_right _ hs)) fun x hx hxp => ?_
    obtain ⟨h, hm, rfl⟩ := List.mem_map.mp hx
    by_cases hl : h.Lost (newRegions q bits holes)
    · -- a byte of a hole that became part of a difference region
      obtain ⟨s, hs, h1, h2⟩ := hl
      obtain ⟨h3, h4⟩ := hxp
      exact hd s (List.mem_append_left _ hs) ⟨by omega, by omega⟩
    · exact hh h.toRegion (List.mem_map_of_mem ((hf.mem_survivors q bits).mpr ⟨hm, hl⟩)) hxp

end

/-! ## the file that the patch makes -/

theorem sortedHoles_sort (q : QSort Hole) (holes : List Hole) :
    SortedHoles ((q.sort Hole.compare holes).map Hole.toRegion) :=
  List.pairwise_map.mpr (q.sorted Hole.compare holes compare_orders)

theorem Found.of_perm {old new : File} {endNew : Foff} {similar diffs holes holes' : List Region}
    (hf : Found old new endNew similar diffs holes) (hp : holes.Perm holes') :
    Found old new endNew similar diffs holes' where
  similarFit := hf.similarFit
  diffsFit := hf.diffsFit
  similarDisjoint := hf.similarDisjoint
  holesDisjoint := hf.holesDisjoint.perm hp fun h => HolesApart.symm h
  inFile h hh := hf.inFile h (hp.mem_iff.mpr hh)
  differs h hh := hf.differs h (hp.mem_iff.mpr hh)
  liesIn h hh := hf.liesIn h (hp.mem_iff.mpr hh)
  apart h hh := hf.apart h (hp.mem_iff.mpr hh)
  covered := hf.covered
  same r hr p hp' hrp hd hh := hf.same r hr p hp' hrp hd fun h hm => hh h (hp.mem_iff.mp hm)

/-- both patches are executed, and make one file -/
def SameFile (old init : File) (endNew : Foff) (a b : List UInt8) : Prop :=
  ∃ f g, rebuilt old init a = some f ∧ rebuilt old init b = some g ∧
    ∀ p < endNew.toNat, f p = g p

section
variable {old new : File} {endNew : Foff} {similar diffs : List Region} {holes : List Hole}

/-- the holes of the patch without `HolesToDiffs` -/
def holesBefore (q : QSort Hole) (holes : List Hole) : List Region :=
  (q.sort Hole.compare holes).map Hole.toRegion

/-- the holes of the patch with `HolesToDiffs` -/
def holesAfter (q : QSort Hole) (bits : ℕ) (holes : List Hole) (diffs : List Region) :
    List Region :=
  (holesToDiffs q bits holes diffs).holes.map Hole.toRegion

variable (hf : Found old new endNew similar diffs (holes.map Hole.toRegion))
include hf

/-- the two patches make one file exactly when both have no distance that is cut, unless both do -/
theorem Found.sameFile_iff (q : QSort Hole) (bits : ℕ) (init : File)
    (h : NearHoles (holesBefore q holes) ∨ NearHoles (holesAfter q bits holes diffs)) :
    SameFile old init endNew (writePatch new similar diffs (holesBefore q holes))
        (writePatch new similar (holesToDiffs q bits holes diffs).diffs
          (holesAfter q bits holes diffs))
      ↔ NearHoles (holesBefore q holes) ∧ NearHoles (holesAfter q bits holes diffs) := by
  have hb : Found old new endNew similar diffs (holesBefore q holes) :=
    hf.of_perm ((q.perm Hole.compare holes).symm.map _)
  have ha := hf.behindPass q bits
  have hsb : SortedHoles (holesBefore q holes) := sortedHoles_sort q holes
  have hsa : SortedHoles (holesAfter q bits holes diffs) := by
    rw [holesAfter, holesToDiffs_holes]
    exact (sortedHoles_sort q _).sublist ((List.drop_sublist _ _).map _)
  have hib := @Found.outcome_iff _ _ init _ _ _ _ hb hsb
  have hia := @Found.outcome_iff _ _ init _ _ _ _ ha hsa
  constructor
  · intro hs
    obtain ⟨f, g, h1, h2, h3⟩ := hs
    have e1 := Option.some.inj (h1.symm.trans (hb.rebuilt_eq hsb))
    have e2 := Option.some.inj (h2.symm.trans (ha.rebuilt_eq hsa))
    rw [e1, e2] at h3
    rcases h with h | h
    · exact ⟨h, hia.mp fun p hp => (h3 p hp).symm.trans (hib.mpr h p hp)⟩
    · exact ⟨hib.mp fun p hp => (h3 p hp).trans (hia.mpr h p hp), h⟩
  · intro hn
    exact ⟨_, _, hb.rebuilt_eq hsb, ha.rebuilt_eq hsa,
      fun p hp => (hib.mpr hn.1 p hp).trans (hia.mpr hn.2 p hp).symm⟩

end

/-! ## the pass -/

/-- a file with five words that are not `0`, three of them next to each other -/
def farFile (far : Foff) : File := fun p =>
  if p = 11 ∨ p = 3000011 ∨ p = far.toNat + 3 then 5
  else if p = 3000007 then 7
  else if p = 3000015 then 9
  else 0

/-- its holes over a file of zeros, as `ProcessHoleArray( 0 )` leaves them -/
def farHoles (far : Foff) : List Hole :=
  [⟨⟨8, 8, 10, 0x05000000⟩, 3⟩, ⟨⟨3000008, 3000008, 2, 0x05000000⟩, 1⟩,
    ⟨⟨far, far, 2, 0x05000000⟩, 1⟩, ⟨⟨3000004, 3000004, 10, 0x07000000⟩, 1⟩,
    ⟨⟨3000012, 3000012, 10, 0x09000000⟩, 1⟩]

theorem inNew_top {f : File} {p q : ℕ} {v : UInt8} (h0 : f p = 0) (h1 : f (p + 1) = 0)
    (h2 : f (p + 2) = 0) (h3 : f (p + 3) = v) {d : Foff} (hd : d = UInt32.ofNat (leNat [0, 0, 0, v])) :
    inNew f p = inNew (fun _ => 0) q + d := by
  rw [inNew, h0, h1, h2, h3, hd]
  show _ = 0 + _
  rw [zero_add]

theorem found_farFile {far endNew : Foff} (h1 : 3000016 ≤ far.toNat)
    (h2 : far.toNat + 4 ≤ endNew.toNat) (h3 : endNew.toNat + 1 < 2 ^ 32) :
    Found (fun _ => 0) (farFile far) endNew [⟨0, 0, endNew, 0⟩, ⟨endNew + 1, endNew + 1, 0, 0⟩] []
      ((farHoles far).map Hole.toRegion) where
  similarFit := by
    have h := succ_toNat h3
    intro r hr
    simp only [List.mem_cons, List.not_mem_nil, or_false] at hr
    rcases hr with rfl | rfl
    · exact ⟨by simpa using h3.trans' (Nat.lt_succ_self _), by simpa using h3.trans' (Nat.lt_succ_self _)⟩
    · constructor <;> simp [h] <;> omega
  diffsFit := by simp
  similarDisjoint := by
    refine List.pairwise_pair.mpr fun q _ hq => ?_
    obtain ⟨hq1, hq2⟩ := hq
    exact absurd (hq1.trans_lt hq2) (by simp)
  holesDisjoint := by
    simp only [farHoles, List.map_cons, List.map_nil, List.pairwise_cons, List.mem_cons,
      List.not_mem_nil, or_false, HolesApart, forall_eq_or_imp, forall_eq]
    simp
    omega
  inFile := by
    intro h hh
    simp only [farHoles, List.map_cons, List.map_nil, List.mem_cons, List.not_mem_nil,
      or_false] at hh
    rcases hh with rfl | rfl | rfl | rfl | rfl <;> simp <;> omega
  differs := by
    intro h hh
    simp only [farHoles, List.map_cons, List.map_nil, List.mem_cons, List.not_mem_nil,
      or_false] at hh
    rcases hh with rfl | rfl | rfl | rfl | rfl <;> exact fun h => by cases h
  liesIn := by
    intro h hh
    refine ⟨_, List.mem_cons_self, ?_⟩
    simp only [farHoles, List.map_cons, List.map_nil, List.mem_cons, List.not_mem_nil,
      or_false] at hh
    have hz : ∀ p, p ≠ 11 ∧ p ≠ 3000011 ∧ p ≠ far.toNat + 3 ∧ p ≠ 3000007 ∧ p ≠ 3000015 →
        farFile far p = 0 := by
      intro p hp
      rw [farFile, if_neg (by omega), if_neg (by omega), if_neg (by omega)]
    rcases hh with rfl | rfl | rfl | rfl | rfl
    · exact ⟨by simp, by simp; omega, by simp, inNew_top (hz 8 (by omega)) (hz 9 (by omega))
        (hz 10 (by omega)) (v := 5) (if_pos (Or.inl rfl)) rfl⟩
    · exact ⟨by simp, by simp; omega, by simp, inNew_top (hz 3000008 (by omega))
        (hz 3000009 (by omega)) (hz 3000010 (by omega)) (v := 5) (if_pos (Or.inr (Or.inl rfl))) rfl⟩
    · exact ⟨by simp, by simp; omega, by simp, inNew_top (hz far.toNat (by omega))
        (hz (far.toNat + 1) (by omega)) (hz (far.toNat + 2) (by omega)) (v := 5)
        (if_pos (Or.inr (Or.inr rfl))) rfl⟩
    · exact ⟨by simp, by simp; omega, by simp, inNew_top (hz 3000004 (by omega))
        (hz 3000005 (by omega)) (hz 3000006 (by omega)) (v := 7)
        ((if_neg (by simp; omega)).trans (if_pos rfl)) rfl⟩
    · exact ⟨by simp, by simp; omega, by simp, inNew_top (hz 3000012 (by omega))
        (hz 3000013 (by omega)) (hz 3000014 (by omega)) (v := 9)
        ((if_neg (by simp; omega)).trans ((if_neg (by simp)).trans (if_pos rfl))) rfl⟩
  apart := by simp
  covered p hp := Or.inl ⟨_, List.mem_cons_self, ⟨by simp, by simpa using hp⟩⟩
  same := by
    intro r hr p hp hrp _ hh
    simp only [farHoles, List.map_cons, List.map_nil, List.forall_mem_cons] at hh
    obtain ⟨hh1, hh2, hh3, hh4, hh5, -⟩ := hh
    simp at hh1 hh2 hh3 hh4 hh5
    unfold farFile
    rw [if_neg (by omega), if_neg (by omega), if_neg (by omega)]

end Bdiff
