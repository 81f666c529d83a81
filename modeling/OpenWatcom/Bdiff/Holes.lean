import OpenWatcom.Bdiff.Patch
import OpenWatcom.Lib.Deltas

/-!
# The hole commands

`ProcessHoleArray` groups the sorted holes into commands, `Execute` takes the commands apart.

* `HoleCmd`, `group`    the commands of an array of holes, with the distances that `OutVar` codes;
* `processHoleArray_eq` the bytes are those of the commands;
* `executeLoop_cmds`    what `Execute` makes of them: a distance loses all but its low 22 bits;
* `group_holes`         with whole distances the commands are the holes;
* `holes_decoded_iff`   the holes come back exactly when no coded distance reaches `2 ^ 22`.
-/

namespace Bdiff
open Bytes Deltas

/-! ## one distance -/

/-- what the reader makes of a coded distance -/
def kept (d : Foff) : Foff := d % 0x400000

theorem kept_toNat (d : Foff) : (kept d).toNat = d.toNat % 2 ^ 22 := rfl

theorem byte_cases (b : UInt8) :
    ((b &&& 0x80 = 0) ↔ b.toNat < 128) ∧ (128 ≤ b.toNat → (b &&& 0x40 = 0 ↔ b.toNat < 192)) ∧
      (b &&& 0x7f).toNat = b.toNat % 128 ∧ (b &&& 0x3f).toNat = b.toNat % 64 := by
  have key : ∀ n < 256, ((UInt8.ofNat n &&& 0x80 = 0) ↔ n < 128) ∧
      (128 ≤ n → (UInt8.ofNat n &&& 0x40 = 0 ↔ n < 192)) ∧
      (UInt8.ofNat n &&& 0x7f).toNat = n % 128 ∧ (UInt8.ofNat n &&& 0x3f).toNat = n % 64 := by
    decide +kernel
  have h := key b.toNat b.toNat_lt
  rwa [UInt8.ofNat_toNat] at h

theorem or_toNat (x k : Nat) (hx : x < 64) (hk : k = 128 ∨ k = 192) : k ||| x = k + x := by
  have key : ∀ n < 64, (128 ||| n = 128 + n) ∧ (192 ||| n = 192 + n) := by decide +kernel
  rcases hk with rfl | rfl
  · exact (key x hx).1
  · exact (key x hx).2

theorem and_3f (x : Nat) : x &&& 0x3f = x % 64 := Nat.and_two_pow_sub_one_eq_mod x 6

theorem and_ff (x : Nat) : x &&& 0xff = x % 256 := Nat.and_two_pow_sub_one_eq_mod x 8

theorem and_7f (x : Nat) : x &&& 0x7f = x % 128 := Nat.and_two_pow_sub_one_eq_mod x 7

/-- the three forms of a coded distance -/
theorem outVar_cases (d : Foff) :
    (d.toNat < 128 ∧ ∃ a, outVar d = [a] ∧ a.toNat = d.toNat) ∨
    (128 ≤ d.toNat ∧ d.toNat < 2 ^ 14 ∧ ∃ a b, outVar d = [a, b] ∧
      a.toNat = 128 + d.toNat / 256 ∧ b.toNat = d.toNat % 256) ∨
    (2 ^ 14 ≤ d.toNat ∧ ∃ a b c, outVar d = [a, b, c] ∧
      a.toNat = 192 + d.toNat / 65536 % 64 ∧ b.toNat = d.toNat / 256 % 256 ∧
      c.toNat = d.toNat % 256) := by
  have hd := d.toNat_lt
  have h1 : d ≤ 0x7f ↔ d.toNat ≤ 127 := UInt32.le_iff_toNat_le
  have h2 : d ≤ 0x3fff ↔ d.toNat ≤ 16383 := UInt32.le_iff_toNat_le
  by_cases c1 : d ≤ 0x7f
  · left
    have hl := h1.mp c1
    refine ⟨by omega, _, by rw [outVar, if_pos c1], ?_⟩
    rw [UInt32.toNat_toUInt8, UInt32.toNat_and]
    show (d.toNat &&& 0x7f) % 256 = d.toNat
    rw [and_7f]
    omega
  · have hl : ¬ d.toNat ≤ 127 := fun h => c1 (h1.mpr h)
    right
    by_cases c2 : d ≤ 0x3fff
    · left
      have hl2 := h2.mp c2
      refine ⟨by omega, by omega, _, _, by rw [outVar, if_neg c1, if_pos c2], ?_, ?_⟩
      · rw [UInt32.toNat_toUInt8, UInt32.toNat_or, UInt32.toNat_and, UInt32.toNat_shiftRight]
        show (128 ||| (d.toNat >>> 8) &&& 0x3f) % 256 = _
        rw [and_3f, Nat.shiftRight_eq_div_pow, or_toNat _ _ (by omega) (Or.inl rfl)]
        omega
      · rw [UInt32.toNat_toUInt8, UInt32.toNat_and]
        show (d.toNat &&& 0xff) % 256 = _
        rw [and_ff]
        omega
    · right
      have hl2 : ¬ d.toNat ≤ 16383 := fun h => c2 (h2.mpr h)
      refine ⟨by omega, _, _, _, by rw [outVar, if_neg c1, if_neg c2], ?_, ?_, ?_⟩
      · rw [UInt32.toNat_toUInt8, UInt32.toNat_or, UInt32.toNat_and, UInt32.toNat_shiftRight]
        show (192 ||| (d.toNat >>> 16) &&& 0x3f) % 256 = _
        rw [and_3f, Nat.shiftRight_eq_div_pow, or_toNat _ _ (by omega) (Or.inr rfl)]
        omega
      · rw [UInt32.toNat_toUInt8, UInt32.toNat_and, UInt32.toNat_shiftRight]
        show ((d.toNat >>> 8) &&& 0xff) % 256 = _
        rw [and_ff, Nat.shiftRight_eq_div_pow]
        omega
      · rw [UInt32.toNat_toUInt8, UInt32.toNat_and]
        show (d.toNat &&& 0xff) % 256 = _
        rw [and_ff]
        omega

theorem ne_zero_of_toNat {b : UInt8} (h : 0 < b.toNat) : b ≠ 0 := by
  rintro rfl
  exact absurd h (by decide)

theorem shl_toNat (x : UInt8) (k : Foff) (n : Nat) (hk : k.toNat = n) (hn : n ≤ 16) :
    (x.toUInt32 <<< k).toNat = x.toNat * 2 ^ n := by
  have hx := x.toNat_lt
  have hp : 2 ^ n ≤ 2 ^ 16 := Nat.pow_le_pow_right (by omega) hn
  have hm : x.toNat * 2 ^ n < 2 ^ 32 := by
    calc x.toNat * 2 ^ n ≤ 255 * 2 ^ 16 := Nat.mul_le_mul (by omega) hp
      _ < 2 ^ 32 := by norm_num
  rw [UInt32.toNat_shiftLeft, hk, Nat.mod_eq_of_lt (by omega : n < 32), UInt8.toNat_toUInt32,
    Nat.shiftLeft_eq, Nat.mod_eq_of_lt hm]

/-- the reader of `CMD_HOLES` at a coded distance -/
theorem holesLoop_outVar (off diff d : Foff) (hd : d ≠ 0) (pat : List UInt8) :
    holesLoop off diff (outVar d ++ pat)
      = (holesLoop (off + kept d) diff pat).map fun r => (.hole off diff :: r.1, r.2) := by
  have hd0 : 0 < d.toNat := Nat.pos_of_ne_zero fun h => hd (UInt32.toNat_inj.mp h)
  rcases outVar_cases d with ⟨hl, a, e, ha⟩ | ⟨hl, hh, a, b, e, ha, hb⟩ | ⟨hl, a, b, c, e, ha, hb, hc⟩
  · obtain ⟨ca, -, h7, -⟩ := byte_cases a
    have hk : (a &&& 0x7f).toUInt32 = kept d := by
      apply UInt32.toNat_inj.mp
      rw [UInt8.toNat_toUInt32, h7, kept_toNat, ha]
      omega
    rw [e, List.singleton_append, holesLoop.eq_def]
    dsimp only
    rw [if_neg (ne_zero_of_toNat (by omega)), if_pos (ca.mpr (by omega)), hk]
  · obtain ⟨ca, cb, -, h6⟩ := byte_cases a
    have hk : off + ((a &&& 0x3f).toUInt32 <<< 8) + b.toUInt32 = off + kept d := by
      rw [UInt32.add_assoc]
      congr 1
      apply UInt32.toNat_inj.mp
      rw [UInt32.toNat_add, shl_toNat _ 8 8 rfl (by omega), UInt8.toNat_toUInt32, h6, kept_toNat,
        ha, hb]
      omega
    rw [e, List.cons_append, List.singleton_append, holesLoop,
      if_neg (ne_zero_of_toNat (by omega)), if_neg (mt ca.mp (by omega)),
      if_pos ((cb (by omega)).mpr (by omega)), hk]
  · obtain ⟨ca, cb, -, h6⟩ := byte_cases a
    have hk : off + ((a &&& 0x3f).toUInt32 <<< 16) + (b.toUInt32 <<< 8) + c.toUInt32
        = off + kept d := by
      rw [UInt32.add_assoc, UInt32.add_assoc]
      congr 1
      apply UInt32.toNat_inj.mp
      rw [UInt32.toNat_add, UInt32.toNat_add, shl_toNat _ 16 16 rfl (by omega),
        shl_toNat _ 8 8 rfl (by omega), UInt8.toNat_toUInt32, h6, kept_toNat, ha, hb, hc]
      omega
    rw [e, List.cons_append, List.cons_append, List.singleton_append, holesLoop,
      if_neg (ne_zero_of_toNat (by omega)), if_neg (mt ca.mp (by omega)),
      if_neg (mt (cb (by omega)).mp (by omega))]
    dsimp only
    rw [hk]

/-! ## the commands of an array of holes -/

/-- a hole command: a run of `iters` holes, or a chain of holes with the distances between them -/
inductive HoleCmd where
  | iter (start diff iters incr : Foff)
  | chain (start diff : Foff) (ds : List Foff)

def HoleCmd.bytes : HoleCmd → List UInt8
  | .iter start diff iters incr =>
    PatchCmd.iterHoles.byte :: (outFoff start ++ (outFoff diff ++ (outFoff iters
      ++ (outFoff incr ++ [0]))))
  | .chain start diff ds =>
    PatchCmd.holes.byte :: (outFoff start ++ (outFoff diff ++ (ds.flatMap outVar ++ [0])))

/-- the holes of a chain behind `off` when the reader takes `f d` for a distance `d` -/
def chainFrom (f : Foff → Foff) (diff off : Foff) : List Foff → List Access
  | [] => []
  | d :: ds => .hole (off + f d) diff :: chainFrom f diff (off + f d) ds

/-- the holes of a command -/
def HoleCmd.accesses (f : Foff → Foff) : HoleCmd → List Access
  | .iter start diff iters incr => iterLoop start diff incr iters.toNat
  | .chain start diff ds => .hole start diff :: chainFrom f diff start ds

/-- the distances that a command codes -/
def HoleCmd.coded : HoleCmd → List Foff
  | .iter .. => []
  | .chain _ _ ds => ds

/-- the distances that continue the chain at `currStart`, and the commands behind it -/
def group : Nat → Foff → Foff → List Region → List Foff × List HoleCmd
  | 0, _, _, _ => ([], [])
  | _ + 1, _, _, [] => ([], [])
  | n + 1, currDiff, currStart, curr :: rest =>
    let run := itersAt curr rest
    if run.iters > minIters then
      let g := group n 0 run.last run.rest
      ([], .iter curr.newStart curr.diff run.iters run.incr :: g.2)
    else if curr.diff ≠ currDiff then
      let g := group n curr.diff curr.newStart rest
      ([], .chain curr.newStart curr.diff g.1 :: g.2)
    else
      let g := group n currDiff curr.newStart rest
      ((curr.newStart - currStart) :: g.1, g.2)

/-- the commands of an array of holes -/
def commands (holes : List Region) : List HoleCmd := (group holes.length 0 0 holes).2

theorem countIters_rest (diff incr prev iters : Foff) (holes : List Region) :
    (countIters diff incr prev iters holes).rest <:+ holes := by
  induction holes generalizing incr prev iters with
  | nil => exact List.suffix_refl _
  | cons e t ih =>
    rw [countIters]
    split
    · exact List.suffix_refl _
    · split
      · exact List.suffix_refl _
      · exact (ih _ _ _).trans (List.suffix_cons e t)

theorem itersAt_rest_length (curr : Region) (rest : List Region) :
    (itersAt curr rest).rest.length ≤ rest.length :=
  (countIters_rest _ _ _ _ rest).length_le

theorem itersAt_rest_mem {curr : Region} {rest : List Region} {h : Region}
    (hm : h ∈ (itersAt curr rest).rest) : h ∈ rest :=
  (countIters_rest _ _ _ _ rest).subset hm

/-- behind `curr_diff = 0` a command begins, as no hole has the difference `0` -/
theorem group_zero_fst (n : Nat) (currStart : Foff) {holes : List Region}
    (hnz : ∀ h ∈ holes, h.diff ≠ 0) : (group n 0 currStart holes).1 = [] := by
  cases n with
  | zero => rfl
  | succ n =>
    cases holes with
    | nil => rfl
    | cons curr rest =>
      rw [group]
      dsimp only
      split
      · rfl
      · rw [if_pos (hnz curr List.mem_cons_self)]

/-- the bytes behind a written command are those of its last distances and of the other commands -/
theorem processLoop_eq (n : Nat) (currDiff currStart : Foff) {holes : List Region}
    (hn : holes.length ≤ n) (hnz : ∀ h ∈ holes, h.diff ≠ 0) :
    processLoop n false currDiff currStart holes ++ [0]
      = (group n currDiff currStart holes).1.flatMap outVar ++ 0 ::
        (group n currDiff currStart holes).2.flatMap HoleCmd.bytes := by
  induction n generalizing currDiff currStart holes with
  | zero =>
    have e : holes = [] := List.length_eq_zero_iff.mp (Nat.le_zero.mp hn)
    rw [e]
    rfl
  | succ n ih =>
    cases holes with
    | nil => rfl
    | cons curr rest =>
      have hnr : ∀ h ∈ rest, h.diff ≠ 0 := fun h hh => hnz h (List.mem_cons_of_mem _ hh)
      have hl : rest.length ≤ n := Nat.le_of_succ_le_succ hn
      rw [processLoop, group]
      dsimp only
      by_cases h1 : (itersAt curr rest).iters > minIters
      · have hz : ∀ h ∈ (itersAt curr rest).rest, h.diff ≠ 0 :=
          fun h hh => hnr h (itersAt_rest_mem hh)
        have hi := ih 0 (itersAt curr rest).last
          ((itersAt_rest_length curr rest).trans hl) hz
        rw [group_zero_fst n _ hz, List.flatMap_nil, List.nil_append] at hi
        rw [if_pos h1, if_pos h1, List.flatMap_nil, List.nil_append, List.flatMap_cons,
          HoleCmd.bytes, List.append_assoc, hi, separator, if_neg (by simp)]
        simp only [List.append_assoc, List.cons_append, List.nil_append]
      · rw [if_neg h1, if_neg h1]
        by_cases h2 : curr.diff ≠ currDiff
        · have hi := ih curr.diff curr.newStart hl hnr
          rw [if_pos (Or.inr h2), if_pos h2, List.flatMap_nil, List.nil_append,
            List.flatMap_cons, HoleCmd.bytes, List.append_assoc, hi, separator, if_neg (by simp)]
          simp only [List.append_assoc, List.cons_append, List.nil_append]
        · have hi := ih currDiff curr.newStart hl hnr
          rw [if_neg (by simp only [Bool.false_eq_true, false_or]; exact h2), if_neg h2,
            List.append_assoc, hi, List.flatMap_cons, List.append_assoc]

/-- the bytes of `ProcessHoleArray` are those of the commands -/
theorem processHoleArray_eq {holes : List Region} (hnz : ∀ h ∈ holes, h.diff ≠ 0) :
    processHoleArray holes = (commands holes).flatMap HoleCmd.bytes := by
  cases holes with
  | nil => rfl
  | cons curr rest =>
    -- without a separator the first command is the one that `first = false` would write
    have key : [0] ++ processLoop (curr :: rest).length true 0 0 (curr :: rest)
        = processLoop (curr :: rest).length false 0 0 (curr :: rest) := by
      have hd : curr.diff ≠ 0 := hnz curr List.mem_cons_self
      rw [List.length_cons, processLoop, processLoop]
      split
      · simp only [separator, if_true, List.nil_append, Bool.false_eq_true, if_false,
          List.append_assoc]
      · rw [if_pos (Or.inl rfl), if_pos (Or.inr hd)]
        simp only [separator, if_true, List.nil_append, Bool.false_eq_true, if_false,
          List.append_assoc]
    have h := processLoop_eq (curr :: rest).length 0 0 (Nat.le_refl _) hnz
    rw [← key, group_zero_fst _ _ hnz, List.flatMap_nil, List.nil_append, List.append_assoc] at h
    rw [processHoleArray, if_neg (List.cons_ne_nil _ _)]
    exact (List.cons.inj h).2

/-! ## executing the commands -/

theorem inFoff_outFoff (v : Foff) (pat : List UInt8) : inFoff (outFoff v ++ pat) = some (v, pat) := by
  have hv := v.toNat_lt
  have h : leNat (leBytes 4 v.toNat) = v.toNat := by
    rw [leNat_leBytes]
    omega
  show some (UInt32.ofNat (leNat (leBytes 4 v.toNat)), pat) = some (v, pat)
  rw [h, UInt32.ofNat_toNat]

theorem holesLoop_chain (diff : Foff) (ds : List Foff) (hds : ∀ d ∈ ds, d ≠ 0) (off : Foff)
    (pat : List UInt8) :
    holesLoop off diff (ds.flatMap outVar ++ 0 :: pat)
      = some (.hole off diff :: chainFrom kept diff off ds, pat) := by
  induction ds generalizing off with
  | nil =>
    rw [List.flatMap_nil, List.nil_append, holesLoop.eq_def]
    rfl
  | cons d ds ih =>
    have hd : d ≠ 0 := hds d List.mem_cons_self
    rw [List.flatMap_cons, List.append_assoc, holesLoop_outVar off diff d hd,
      ih fun x hx => hds x (List.mem_cons_of_mem d hx)]
    rfl

/-- the writer codes no distance `0`, which would end the command -/
def HoleCmd.Moves (c : HoleCmd) : Prop := ∀ d ∈ c.coded, d ≠ 0

theorem command_bytes {c : HoleCmd} (hc : c.Moves) (n : Nat) (pat : List UInt8) :
    executeLoop (n + 1) (c.bytes ++ pat) = (executeLoop n pat).map (c.accesses kept ++ ·) := by
  cases c with
  | iter start diff iters incr =>
    have hr : command .iterHoles (outFoff start ++ (outFoff diff ++ (outFoff iters
        ++ (outFoff incr ++ 0 :: pat)))) = some (iterLoop start diff incr iters.toNat, pat) := by
      simp only [command, inFoff_outFoff, Option.bind_eq_bind, Option.bind_some]
    rw [HoleCmd.bytes, List.cons_append, executeLoop, PatchCmd.ofByte_byte]
    simp only [List.append_assoc, List.cons_append, List.nil_append, hr]
    rfl
  | chain start diff ds =>
    have hr : command .holes (outFoff start ++ (outFoff diff ++ (ds.flatMap outVar ++ 0 :: pat)))
        = some (.hole start diff :: chainFrom kept diff start ds, pat) := by
      simp only [command, inFoff_outFoff, Option.bind_eq_bind, Option.bind_some,
        holesLoop_chain diff ds hc]
    rw [HoleCmd.bytes, List.cons_append, executeLoop, PatchCmd.ofByte_byte]
    simp only [List.append_assoc, List.cons_append, List.nil_append, hr]
    rfl

theorem executeLoop_cmds {cs : List HoleCmd} (hcs : ∀ c ∈ cs, c.Moves) (n : Nat)
    (hn : cs.length < n) (pat : List UInt8) :
    executeLoop n (cs.flatMap HoleCmd.bytes ++ PatchCmd.done.byte :: pat)
      = some (cs.flatMap (HoleCmd.accesses kept)) := by
  induction cs generalizing n with
  | nil =>
    obtain ⟨m, rfl⟩ : ∃ m, n = m + 1 := ⟨n - 1, by omega⟩
    rfl
  | cons c cs ih =>
    rw [List.length_cons] at hn
    obtain ⟨m, rfl⟩ : ∃ m, n = m + 1 := ⟨n - 1, by omega⟩
    rw [List.flatMap_cons, List.append_assoc, command_bytes (hcs c List.mem_cons_self),
      ih (fun x hx => hcs x (List.mem_cons_of_mem c hx)) m (by omega)]
    rfl

theorem length_le_bytes (cs : List HoleCmd) : cs.length ≤ (cs.flatMap HoleCmd.bytes).length := by
  induction cs with
  | nil => exact Nat.le_refl _
  | cons c cs ih =>
    have hc : 1 ≤ c.bytes.length := by
      cases c <;> exact Nat.succ_le_succ (Nat.zero_le _)
    rw [List.flatMap_cons, List.length_append, List.length_cons]
    omega

/-! ## the commands are the holes -/

/-- `HoleCompare` -/
def holeCompare (h1 h2 : Region) : Int :=
  if h1.diff < h2.diff then -1
  else if h1.diff > h2.diff then 1
  else if h1.newStart < h2.newStart then -1
  else if h1.newStart > h2.newStart then 1
  else 0

/-- the order of the array -/
def SortedHoles (holes : List Region) : Prop := holes.Pairwise fun a b => holeCompare a b ≤ 0

/-- the four bytes of every hole lie in the new file -/
def InFile (endNew : Foff) (holes : List Region) : Prop :=
  ∀ h ∈ holes, h.newStart.toNat + 4 ≤ endNew.toNat

/-- the addition that a hole stands for -/
def Region.access (h : Region) : Access := .hole h.newStart h.diff

/-- of two holes with one difference the first has the lower offset -/
def Before (a b : Region) : Prop := a.diff = b.diff → a.newStart.toNat < b.newStart.toNat

theorem before_of_sorted {holes : List Region} (hs : SortedHoles holes)
    (hd : (holes.map Region.newStart).Nodup) : holes.Pairwise Before := by
  have hd' : holes.Pairwise fun a b => a.newStart ≠ b.newStart := List.pairwise_map.mp hd
  refine (hs.and hd').imp ?_
  rintro a b ⟨h1, h2⟩ e
  rw [holeCompare, e] at h1
  have hn : a.newStart.toNat ≠ b.newStart.toNat := fun h => h2 (UInt32.toNat_inj.mp h)
  rcases Nat.lt_or_gt_of_ne hn with h | h
  · exact h
  · have h3 : ¬ a.newStart < b.newStart := fun hc => absurd (UInt32.lt_iff_toNat_lt.mp hc) (by omega)
    have h4 : a.newStart > b.newStart := UInt32.lt_iff_toNat_lt.mpr h
    rw [if_neg (UInt32.lt_irrefl b.diff), if_neg (UInt32.lt_irrefl b.diff), if_neg h3, if_pos h4] at h1
    exact absurd h1 (by decide)

/-- what the `end_iters` loop finds behind the hole `p`: equally spaced holes of one difference -/
theorem countIters_spec {endNew : Foff} (p : Region) (incr iters : Foff) {holes : List Region}
    (hb : (p :: holes).Pairwise Before) (hin : InFile endNew (p :: holes))
    (hi : iters.toNat ≤ p.newStart.toNat + 1) :
    ∃ taken, holes = taken ++ (countIters p.diff incr p.newStart iters holes).rest ∧
      (countIters p.diff incr p.newStart iters holes).iters.toNat = iters.toNat + taken.length ∧
      (incr ≠ 0 → (countIters p.diff incr p.newStart iters holes).incr = incr) ∧
      (p :: taken).map Region.access = iterLoop p.newStart p.diff
        (countIters p.diff incr p.newStart iters holes).incr (taken.length + 1) := by
  induction holes generalizing p incr iters with
  | nil => exact ⟨[], rfl, rfl, fun _ => rfl, rfl⟩
  | cons e t ih =>
    rw [countIters]
    by_cases h1 : p.diff ≠ e.diff
    · rw [if_pos h1]
      exact ⟨[], rfl, rfl, fun _ => rfl, rfl⟩
    · rw [if_neg h1]
      by_cases h2 : incr ≠ 0 ∧ incr ≠ e.newStart - p.newStart
      · rw [if_pos h2]
        exact ⟨[], rfl, rfl, fun _ => rfl, rfl⟩
      · rw [if_neg h2]
        have hd : p.diff = e.diff := not_not.mp h1
        have hlt : p.newStart.toNat < e.newStart.toNat :=
          (List.pairwise_cons.mp hb).1 e List.mem_cons_self hd
        have he := hin e (List.mem_cons_of_mem p List.mem_cons_self)
        have hE := endNew.toNat_lt
        have hi1 : (iters + 1).toNat = iters.toNat + 1 := by
          rw [UInt32.toNat_add]
          show (iters.toNat + 1) % 2 ^ 32 = iters.toNat + 1
          omega
        have hne : e.newStart - p.newStart ≠ 0 := by
          intro h
          have h' := sub_eq_zero.mp h
          rw [h'] at hlt
          exact absurd hlt (lt_irrefl _)
        obtain ⟨taken, hr, hc, hinc, hm⟩ := ih e (e.newStart - p.newStart) (iters + 1)
          (List.pairwise_cons.mp hb).2 (fun h hh => hin h (List.mem_cons_of_mem p hh))
          (by omega)
        rw [← hd] at hr hc hinc hm
        have hinc' := hinc hne
        refine ⟨e :: taken, ?_, ?_, ?_, ?_⟩
        · rw [List.cons_append, ← hr]
        · rw [hc, hi1, List.length_cons]
          omega
        · intro h0
          rw [hinc']
          by_contra hx
          exact h2 ⟨h0, fun h => hx h.symm⟩
        · have hs : p.newStart + (e.newStart - p.newStart) = e.newStart :=
            add_sub_cancel p.newStart e.newStart
          rw [List.map_cons, hm, List.length_cons, hinc', iterLoop.eq_def p.newStart]
          dsimp only
          rw [hs]
          rfl

/-- how `group` takes an array of holes apart: the distances of the chain at `currStart`, and the
commands behind it -/
inductive Grouped : Foff → Foff → List Region → List Foff → List HoleCmd → Prop
  | nil {currDiff currStart} : Grouped currDiff currStart [] [] []
  | iter {currDiff currStart curr taken rest iters incr last cs} :
      (curr :: taken).map Region.access = iterLoop curr.newStart curr.diff incr iters.toNat →
      Grouped 0 last rest [] cs →
      Grouped currDiff currStart (curr :: (taken ++ rest)) []
        (.iter curr.newStart curr.diff iters incr :: cs)
  | header {currDiff currStart curr rest ds cs} :
      Grouped curr.diff curr.newStart rest ds cs →
      Grouped currDiff currStart (curr :: rest) [] (.chain curr.newStart curr.diff ds :: cs)
  | next {currDiff currStart curr rest ds cs} :
      curr.diff = currDiff → currStart.toNat < curr.newStart.toNat →
      Grouped currDiff curr.newStart rest ds cs →
      Grouped currDiff currStart (curr :: rest) ((curr.newStart - currStart) :: ds) cs

theorem grouped_group {endNew : Foff} (n : Nat) (currDiff currStart : Foff) {holes : List Region}
    (hn : holes.length ≤ n) (hnz : ∀ h ∈ holes, h.diff ≠ 0) (hb : holes.Pairwise Before)
    (hin : InFile endNew holes)
    (hlt : ∀ h ∈ holes, h.diff = currDiff → currStart.toNat < h.newStart.toNat) :
    Grouped currDiff currStart holes (group n currDiff currStart holes).1
      (group n currDiff currStart holes).2 := by
  induction n generalizing currDiff currStart holes with
  | zero =>
    have e : holes = [] := List.length_eq_zero_iff.mp (Nat.le_zero.mp hn)
    rw [e]
    exact .nil
  | succ n ih =>
    cases holes with
    | nil => exact .nil
    | cons curr rest =>
      have hnr : ∀ h ∈ rest, h.diff ≠ 0 := fun h hh => hnz h (List.mem_cons_of_mem _ hh)
      have hl : rest.length ≤ n := Nat.le_of_succ_le_succ hn
      have hbr := (List.pairwise_cons.mp hb).2
      have hir : InFile endNew rest := fun h hh => hin h (List.mem_cons_of_mem _ hh)
      have hcr : ∀ h ∈ rest, h.diff = curr.diff → curr.newStart.toNat < h.newStart.toNat :=
        fun h hh e => (List.pairwise_cons.mp hb).1 h hh e.symm
      rw [group]
      dsimp only
      by_cases h1 : (itersAt curr rest).iters > minIters
      · rw [if_pos h1]
        obtain ⟨taken, hr, hc, -, hm⟩ := countIters_spec curr 0 1 hb hin (by
          show 1 ≤ curr.newStart.toNat + 1
          omega)
        have hsub : (itersAt curr rest).rest.Sublist rest := (countIters_rest _ _ _ _ rest).sublist
        have hz : ∀ h ∈ (itersAt curr rest).rest, h.diff ≠ 0 := fun h hh => hnr h (hsub.subset hh)
        have hg := ih 0 (itersAt curr rest).last ((itersAt_rest_length curr rest).trans hl) hz
          (hbr.sublist hsub) (fun h hh => hir h (hsub.subset hh))
          (fun h hh e => absurd e (hz h hh))
        rw [group_zero_fst n _ hz] at hg
        have hci : (itersAt curr rest).iters.toNat = taken.length + 1 := by
          rw [itersAt, hc, Nat.add_comm]
          rfl
        have he : curr :: rest = curr :: (taken ++ (itersAt curr rest).rest) := congrArg _ hr
        rw [he]
        exact .iter (by rw [hci]; exact hm) hg
      · rw [if_neg h1]
        by_cases h2 : curr.diff ≠ currDiff
        · rw [if_pos h2]
          exact .header (ih curr.diff curr.newStart hl hnr hbr hir hcr)
        · rw [if_neg h2]
          have hd : curr.diff = currDiff := not_not.mp h2
          refine .next hd (hlt curr List.mem_cons_self hd) ?_
          exact ih currDiff curr.newStart hl hnr hbr hir fun h hh e => hcr h hh (e.trans hd.symm)

section
variable {currDiff currStart : Foff} {hs : List Region} {ds : List Foff} {cs : List HoleCmd}

/-- with whole distances the commands are the holes -/
theorem Grouped.holes (h : Grouped currDiff currStart hs ds cs) :
    hs.map Region.access
      = chainFrom id currDiff currStart ds ++ cs.flatMap (HoleCmd.accesses id) := by
  induction h with
  | nil => rfl
  | iter hm _ ih =>
    rw [List.flatMap_cons, HoleCmd.accesses, ← hm, List.map_cons, List.map_append, ih]
    rfl
  | header _ ih =>
    rw [List.flatMap_cons, HoleCmd.accesses, List.map_cons, ih]
    rfl
  | @next currDiff currStart curr rest ds cs hd _ _ ih =>
    have e : currStart + id (curr.newStart - currStart) = curr.newStart :=
      add_sub_cancel currStart curr.newStart
    rw [List.map_cons, ih, chainFrom, e, ← hd]
    rfl

/-- the chain of the distances behind `a` stays below `2 ^ 32`, and it moves at every step -/
def Climbs (a : Foff) (ds : List Foff) : Prop :=
  (∀ d ∈ ds, d ≠ 0) ∧ a.toNat + (ds.map UInt32.toNat).sum < 2 ^ 32

def HoleCmd.Climbs : HoleCmd → Prop
  | .iter .. => True
  | .chain start _ ds => Bdiff.Climbs start ds

theorem Climbs.cons {a b : Foff} (hab : a.toNat < b.toNat) (h : Climbs b ds) :
    Climbs a ((b - a) :: ds) := by
  have hsub : (b - a).toNat = b.toNat - a.toNat :=
    UInt32.toNat_sub_of_le _ _ (UInt32.le_iff_toNat_le.mpr (Nat.le_of_lt hab))
  refine ⟨?_, ?_⟩
  · intro d hd
    rcases List.mem_cons.mp hd with rfl | hd
    · intro h0
      rw [h0] at hsub
      have h1 : (0 : Foff).toNat = 0 := rfl
      omega
    · exact h.1 d hd
  · have h2 := h.2
    rw [List.map_cons, List.sum_cons, hsub]
    omega

theorem Grouped.climbs (h : Grouped currDiff currStart hs ds cs) :
    Climbs currStart ds ∧ ∀ c ∈ cs, c.Climbs := by
  induction h with
  | nil => exact ⟨⟨by simp, by simpa using UInt32.toNat_lt _⟩, by simp⟩
  | iter _ _ ih =>
    refine ⟨⟨by simp, by simpa using UInt32.toNat_lt _⟩, ?_⟩
    intro c hc
    rcases List.mem_cons.mp hc with rfl | hc
    · exact trivial
    · exact ih.2 c hc
  | header _ ih =>
    refine ⟨⟨by simp, by simpa using UInt32.toNat_lt _⟩, ?_⟩
    intro c hc
    rcases List.mem_cons.mp hc with rfl | hc
    · exact ih.1
    · exact ih.2 c hc
  | next _ hlt _ ih => exact ⟨ih.1.cons hlt, ih.2⟩

end

/-! ## which arrays come back -/

/-- the distances that `OutVar` has to code stay below `2 ^ 22`: a hole that is in no run lies
less than `2 ^ 22` behind the hole before it when that has the same difference and is in no run -/
def Near : Nat → Option Region → List Region → Prop
  | 0, _, _ => True
  | _ + 1, _, [] => True
  | n + 1, prev, curr :: rest =>
    if (itersAt curr rest).iters > minIters then Near n none (itersAt curr rest).rest
    else (∀ p ∈ prev, p.diff = curr.diff → (curr.newStart - p.newStart).toNat < 2 ^ 22) ∧
      Near n (some curr) rest

instance decidableNear : ∀ n prev holes, Decidable (Near n prev holes)
  | 0, _, _ => isTrue trivial
  | _ + 1, _, [] => isTrue trivial
  | n + 1, prev, curr :: rest => by
    rw [Near]
    have := decidableNear n none (itersAt curr rest).rest
    have := decidableNear n (some curr) rest
    infer_instance

/-- no distance that the commands of an array code reaches `2 ^ 22` -/
def NearHoles (holes : List Region) : Prop := Near holes.length none holes

instance (holes : List Region) : Decidable (NearHoles holes) := decidableNear _ _ _

/-- `prev` is the hole that `curr_diff` and `curr_start` come from -/
def Follows (prev : Option Region) (currDiff currStart : Foff) : Prop :=
  match prev with
  | none => currDiff = 0
  | some p => p.diff = currDiff ∧ p.newStart = currStart

theorem near_iff (n : Nat) (prev : Option Region) (currDiff currStart : Foff)
    {holes : List Region} (hnz : ∀ h ∈ holes, h.diff ≠ 0)
    (hp : Follows prev currDiff currStart) :
    Near n prev holes ↔ (∀ d ∈ (group n currDiff currStart holes).1, d.toNat < 2 ^ 22) ∧
      ∀ c ∈ (group n currDiff currStart holes).2, ∀ d ∈ c.coded, d.toNat < 2 ^ 22 := by
  induction n generalizing prev currDiff currStart holes with
  | zero => simp [Near, group]
  | succ n ih =>
    cases holes with
    | nil => simp [Near, group]
    | cons curr rest =>
      have hnr : ∀ h ∈ rest, h.diff ≠ 0 := fun h hh => hnz h (List.mem_cons_of_mem _ hh)
      have hnc : curr.diff ≠ 0 := hnz curr List.mem_cons_self
      rw [Near, group]
      dsimp only
      by_cases h1 : (itersAt curr rest).iters > minIters
      · have hz : ∀ h ∈ (itersAt curr rest).rest, h.diff ≠ 0 :=
          fun h hh => hnr h (itersAt_rest_mem hh)
        rw [if_pos h1, if_pos h1, ih none 0 (itersAt curr rest).last hz rfl,
          group_zero_fst n _ hz]
        simp [HoleCmd.coded]
      · rw [if_neg h1, if_neg h1, ih (some curr) curr.diff curr.newStart hnr ⟨rfl, rfl⟩]
        by_cases h2 : curr.diff ≠ currDiff
        · have hv : ∀ p ∈ prev, p.diff = curr.diff →
              (curr.newStart - p.newStart).toNat < 2 ^ 22 := by
            intro p hpp e
            rw [Option.mem_def] at hpp
            rw [hpp] at hp
            exact absurd (e.symm.trans hp.1) h2
          rw [if_pos h2, List.forall_mem_cons]
          exact ⟨fun h => ⟨by simp, h.2⟩, fun h => ⟨hv, h.2⟩⟩
        · rw [if_neg h2]
          have hd : curr.diff = currDiff := not_not.mp h2
          cases prev with
          | none => exact absurd (hd.trans hp) hnc
          | some p =>
            obtain ⟨hp1, hp2⟩ := hp
            have hv : (∀ q ∈ some p, q.diff = curr.diff →
                (curr.newStart - q.newStart).toNat < 2 ^ 22) ↔
                (curr.newStart - currStart).toNat < 2 ^ 22 := by
              simp [hp1, hd, hp2]
            rw [hv, ← hd]
            simp only [List.forall_mem_cons, and_assoc]

theorem nearHoles_iff {holes : List Region} (hnz : ∀ h ∈ holes, h.diff ≠ 0) :
    NearHoles holes ↔ ∀ c ∈ commands holes, ∀ d ∈ c.coded, d.toNat < 2 ^ 22 := by
  have h := near_iff holes.length none 0 0 hnz rfl
  rw [group_zero_fst _ _ hnz] at h
  rw [NearHoles, h]
  simp [commands]

/-- the offset that an access of `CMD_HOLES` or `CMD_ITER_HOLES` goes to -/
def Access.offset : Access → Nat
  | .out off _ => off.toNat
  | .same off _ => off.toNat
  | .hole off _ => off.toNat

/-- the sum of the offsets of some accesses -/
def offsetSum (acc : List Access) : Nat := (acc.map Access.offset).sum

theorem offsetSum_append (a b : List Access) : offsetSum (a ++ b) = offsetSum a + offsetSum b := by
  rw [offsetSum, List.map_append, List.sum_append]
  rfl

section
variable {f : Foff → Foff} {g : Nat → Nat} (hfg : ∀ d, (f d).toNat = g d.toNat) (hg : ∀ d, g d ≤ d)
include hfg hg

/-- the offsets of a chain are positions recovered from coded distances -/
theorem chainFrom_offsets (diff : Foff) {off : Foff} {ds : List Foff}
    (h : off.toNat + (ds.map UInt32.toNat).sum < 2 ^ 32) :
    (chainFrom f diff off ds).map Access.offset = positions g off.toNat (ds.map UInt32.toNat) := by
  induction ds generalizing off with
  | nil => rfl
  | cons d ds ih =>
    rw [List.map_cons, List.sum_cons] at h
    have hd := hg d.toNat
    have e : (off + f d).toNat = off.toNat + g d.toNat := by
      rw [UInt32.toNat_add, hfg]
      exact Nat.mod_eq_of_lt (by omega)
    have hi := @ih (off + f d) (by omega)
    rw [chainFrom, List.map_cons, List.map_cons, positions_cons, hi, ← e]
    rfl

theorem offsetSum_chain {start diff : Foff} {ds : List Foff} (h : Climbs start ds) :
    offsetSum ((HoleCmd.chain start diff ds).accesses f)
      = start.toNat + (positions g start.toNat (ds.map UInt32.toNat)).sum := by
  rw [← chainFrom_offsets hfg hg diff h.2]
  rfl

end

theorem offsetSum_whole {start diff : Foff} {ds : List Foff} (h : Climbs start ds) :
    offsetSum ((HoleCmd.chain start diff ds).accesses id)
      = start.toNat + (positions id start.toNat (ds.map UInt32.toNat)).sum :=
  offsetSum_chain (f := id) (g := id) (fun _ => rfl) Nat.le_refl h

theorem kept_le (d : Nat) : d % 2 ^ 22 ≤ d := Nat.mod_le d _

/-- what the reader makes of a command has lower offsets than the holes of the command -/
theorem offsetSum_kept_le {c : HoleCmd} (hc : c.Climbs) :
    offsetSum (c.accesses kept) ≤ offsetSum (c.accesses id) := by
  cases c with
  | iter => exact Nat.le_refl _
  | chain start diff ds =>
    rw [offsetSum_chain kept_toNat kept_le hc, offsetSum_whole hc]
    exact Nat.add_le_add_left (sum_positions_le kept_le _ (Nat.le_refl _)) _

theorem offsetSum_kept_lt {c : HoleCmd} (hc : c.Climbs) (h : ∃ d ∈ c.coded, ¬ d.toNat < 2 ^ 22) :
    offsetSum (c.accesses kept) < offsetSum (c.accesses id) := by
  cases c with
  | iter =>
    obtain ⟨d, hd, -⟩ := h
    exact absurd hd List.not_mem_nil
  | chain start diff ds =>
    obtain ⟨d, hd, hge⟩ := h
    have hne : ∃ x ∈ ds.map UInt32.toNat, x % 2 ^ 22 ≠ x := by
      refine ⟨d.toNat, List.mem_map_of_mem hd, ?_⟩
      have hm := Nat.mod_lt d.toNat (show 0 < 2 ^ 22 by norm_num)
      omega
    rw [offsetSum_chain kept_toNat kept_le hc, offsetSum_whole hc]
    exact Nat.add_lt_add_left (sum_positions_lt kept_le hne (Nat.le_refl _)) _

theorem accesses_kept {c : HoleCmd} (h : ∀ d ∈ c.coded, d.toNat < 2 ^ 22) :
    c.accesses kept = c.accesses id := by
  cases c with
  | iter => rfl
  | chain start diff ds =>
    have key : ∀ (xs : List Foff) (off : Foff), (∀ d ∈ xs, d.toNat < 2 ^ 22) →
        chainFrom kept diff off xs = chainFrom id diff off xs := by
      intro xs
      induction xs with
      | nil => exact fun _ _ => rfl
      | cons d xs ih =>
        intro off hx
        have hd : kept d = id d := by
          apply UInt32.toNat_inj.mp
          rw [kept_toNat]
          exact Nat.mod_eq_of_lt (hx d List.mem_cons_self)
        rw [chainFrom, chainFrom, hd, ih _ fun x hm => hx x (List.mem_cons_of_mem d hm)]
    show Access.hole start diff :: chainFrom kept diff start ds
      = Access.hole start diff :: chainFrom id diff start ds
    rw [key ds start h]

theorem offsetSum_cmds_le {cs : List HoleCmd} (hcs : ∀ c ∈ cs, c.Climbs) :
    offsetSum (cs.flatMap (HoleCmd.accesses kept)) ≤ offsetSum (cs.flatMap (HoleCmd.accesses id)) := by
  induction cs with
  | nil => exact Nat.le_refl _
  | cons c cs ih =>
    rw [List.flatMap_cons, List.flatMap_cons, offsetSum_append, offsetSum_append]
    exact Nat.add_le_add (offsetSum_kept_le (hcs c List.mem_cons_self))
      (ih fun x hx => hcs x (List.mem_cons_of_mem c hx))

/-- a distance that is cut short shows in the sum of the offsets -/
theorem offsetSum_cmds_lt {cs : List HoleCmd} (hcs : ∀ c ∈ cs, c.Climbs)
    (h : ∃ c ∈ cs, ∃ d ∈ c.coded, ¬ d.toNat < 2 ^ 22) :
    offsetSum (cs.flatMap (HoleCmd.accesses kept)) < offsetSum (cs.flatMap (HoleCmd.accesses id)) := by
  induction cs with
  | nil => simp at h
  | cons c cs ih =>
    have hc := hcs c List.mem_cons_self
    have hr : ∀ x ∈ cs, x.Climbs := fun x hx => hcs x (List.mem_cons_of_mem c hx)
    rw [List.flatMap_cons, List.flatMap_cons, offsetSum_append, offsetSum_append]
    by_cases hd : ∃ d ∈ c.coded, ¬ d.toNat < 2 ^ 22
    · exact Nat.add_lt_add_of_lt_of_le (offsetSum_kept_lt hc hd) (offsetSum_cmds_le hr)
    · obtain ⟨x, hx, hxd⟩ := h
      rcases List.mem_cons.mp hx with rfl | hx
      · exact absurd hxd hd
      · exact Nat.add_lt_add_of_le_of_lt (offsetSum_kept_le hc) (ih hr ⟨x, hx, hxd⟩)

end Bdiff
