import Mathlib
import OpenWatcom.Lib.Events
import OpenWatcom.Lib.SeekFile

/-!
# The spill file: `spillio.c`

* `spillAlloc`, `spillNull`, `spillWrite`, `spillRead`     the functions of the file
* `Event`, `World.step`     what the linker does with its allocations, and what it wrote to them last
* `Right`     what is promised of them
* `Kept`, `Kept.step`     what every call keeps
* `spill_right`     all of it holds as long as the byte in front of the file is not asked for

`virt_mem_size` has 32 bits, and a `long` 32 or 64. The temporary file can be opened, and to read and to
write does not fail.
-/

namespace SpillIo
open SeekFile

/-- the bits of a `long` -/
inductive LongSize where
  | long32 | long64
deriving DecidableEq, Repr

def LongSize.bits : LongSize → ℕ
  | .long32 => 32
  | .long64 => 64

def sectorSize : ℕ := 512
/-- `sizeof( NullArray )` -/
def nullArraySize : ℕ := 64

/-- `__ROUND_UP_SIZE_SECTOR` in 32 bits -/
def roundUpSizeSector (x : ℕ) : ℕ := (x + (sectorSize - 1)) % 2 ^ 32 / sectorSize * sectorSize

/-- `tmp_filesize` and `tmp_fp` -/
structure Spill where
  tmpFilesize : ℕ
  tmpFp : Option File

def initSpillFile : Spill := ⟨0, none⟩

def spillAlloc (s : Spill) (amt : ℕ) : ℕ × Spill :=
  let fp := s.tmpFp.getD SeekFile.empty
  let stg := roundUpSizeSector s.tmpFilesize
  (stg, ⟨(stg + amt) % 2 ^ 32, some fp⟩)

section
variable (long : LongSize)

/-- `base + (unsigned long)off - 1`, as the `long` that `tmp_seek` takes -/
def seekOffset (base off : ℕ) : ℤ := Int.bmod ((base : ℤ) + off - 1) (2 ^ long.bits)

def tmpWriteNulls (len : ℕ) (f : File) : File :=
  if nullArraySize < len then
    tmpWriteNulls (len - nullArraySize) (write f (List.replicate nullArraySize 0))
  else if 0 < len then write f (List.replicate len 0)
  else f
termination_by len
decreasing_by unfold nullArraySize at *; omega

/-- a function on the open file -/
def Spill.update (s : Spill) (g : File → File) : Spill := { s with tmpFp := s.tmpFp.map g }

def spillNull (s : Spill) (base off size : ℕ) : Spill :=
  s.update fun f => tmpWriteNulls size (seek f (seekOffset long base off))

def spillWrite (s : Spill) (base off : ℕ) (mem : List UInt8) : Spill :=
  s.update fun f => write (seek f (seekOffset long base off)) mem

/-- the bytes that are read, and the file behind them -/
def spillRead (s : Spill) (base off size : ℕ) : List UInt8 × Spill :=
  match s.tmpFp with
  | none => ([], s)
  | some f =>
    let r := read (seek f (seekOffset long base off)) size
    (r.1, { s with tmpFp := some r.2 })

end

/-! ## runs -/

/-- a call; the allocations are numbered as they were made -/
inductive Event where
  | alloc (amt : ℕ)
  | write (k off : ℕ) (mem : List UInt8)
  | null (k off size : ℕ)
  | read (k off size : ℕ)
deriving DecidableEq, Repr

/-- the file, and what was done with it: the allocations with their amounts, the bytes that were written
last, the offsets that were sought, and what every read should have found and did find -/
structure World where
  spill : Spill
  allocs : List (ℕ × ℕ)
  written : ℕ → ℕ → Option UInt8
  seeks : List ℤ
  reads : List (List (Option UInt8) × List UInt8)

def World.init : World := ⟨initSpillFile, [], fun _ _ => none, [], []⟩

/-- the bytes of a write -/
def stored (written : ℕ → ℕ → Option UInt8) (k off : ℕ) (mem : List UInt8) : ℕ → ℕ → Option UInt8 :=
  fun k' off' =>
    if k' = k ∧ off ≤ off' ∧ off' < off + mem.length then mem[off' - off]? else written k' off'

/-- the base of an allocation, when the bytes are inside of it -/
def World.base (w : World) (k off size : ℕ) : Option ℕ :=
  w.allocs[k]?.bind fun a => if off + size ≤ a.2 then some a.1 else none

/-- a call that stays inside of the allocated amounts; another is not a step -/
def World.step (long : LongSize) : Event → World → Option World
  | .alloc amt, w =>
    if amt < 2 ^ 32 then
      let r := spillAlloc w.spill amt
      some { w with spill := r.2, allocs := w.allocs ++ [(r.1, amt)] }
    else none
  | .write k off mem, w => (w.base k off mem.length).map fun base =>
    { w with
      spill := spillWrite long w.spill base off mem
      written := stored w.written k off mem
      seeks := w.seeks ++ [seekOffset long base off] }
  | .null k off size, w => (w.base k off size).map fun base =>
    { w with
      spill := spillNull long w.spill base off size
      written := stored w.written k off (List.replicate size 0)
      seeks := w.seeks ++ [seekOffset long base off] }
  | .read k off size, w => (w.base k off size).map fun base =>
    let r := spillRead long w.spill base off size
    { w with
      spill := r.2
      seeks := w.seeks ++ [seekOffset long base off]
      reads := w.reads ++ [((List.range size).map fun i => w.written k (off + i), r.1)] }

/-- the places of an allocation in the file -/
def places (long : LongSize) (a : ℕ × ℕ) : Set ℤ := {x | ∃ off < a.2, x = seekOffset long a.1 off}

/-- what is promised -/
structure Right (long : LongSize) (w : World) : Prop where
  seeks : ∀ x ∈ w.seeks, 0 ≤ x
  apart : w.allocs.Pairwise fun a b => Disjoint (places long a) (places long b)
  reads : ∀ r ∈ w.reads, ∀ (i : ℕ) (v : UInt8), r.1[i]? = some (some v) → r.2[i]? = some v

/-- the position is in the file, and the `long` holds it -/
def Reachable (long : LongSize) (w : World) (k off : ℕ) : Prop :=
  ∀ a, w.allocs[k]? = some a → 1 ≤ a.1 + off ∧ a.1 + off ≤ 2 ^ (long.bits - 1)

/-- the first byte of the first allocation is not used, and `tmp_filesize` holds what is allocated -/
def Clear (long : LongSize) : Event → World → Prop
  | .alloc amt, w => w.spill.tmpFilesize + (sectorSize - 1) < 2 ^ 32 ∧
      roundUpSizeSector w.spill.tmpFilesize + amt < 2 ^ 32
  | .write k off _, w => Reachable long w k off
  | .null k off _, w => Reachable long w k off
  | .read k off _, w => Reachable long w k off

/-! ## what every call keeps -/

theorem tmpWriteNulls_eq (len : ℕ) (f : File) : tmpWriteNulls len f = write f (List.replicate len 0) := by
  induction len using Nat.strongRecOn generalizing f with
  | ind len ih =>
    rw [tmpWriteNulls]
    by_cases h : nullArraySize < len
    · rw [if_pos h, ih _ (by unfold nullArraySize at *; omega), write_append, List.replicate_append_replicate,
        Nat.add_sub_cancel' (le_of_lt h)]
    · rw [if_neg h]
      by_cases h0 : 0 < len
      · rw [if_pos h0]
      · rw [if_neg h0, show len = 0 by omega]
        rfl

variable {long : LongSize} {w w' : World}

/-- nulls are written like other bytes -/
theorem step_null (k off size : ℕ) :
    World.step long (.null k off size) w = World.step long (.write k off (List.replicate size 0)) w := by
  have h (base : ℕ) : spillNull long w.spill base off size =
      spillWrite long w.spill base off (List.replicate size 0) := by
    unfold spillNull spillWrite
    simp only [tmpWriteNulls_eq]
  show (w.base k off size).map _ = (w.base k off (List.replicate size 0).length).map _
  rw [List.length_replicate]
  simp only [h]

theorem seekOffset_eq {base off : ℕ} (h1 : 1 ≤ base + off) (h2 : base + off ≤ 2 ^ (long.bits - 1)) :
    seekOffset long base off = ((base + off - 1 : ℕ) : ℤ) := by
  unfold seekOffset Int.bmod
  cases long with
  | long32 =>
    simp only [LongSize.bits] at *
    split_ifs <;> omega
  | long64 =>
    simp only [LongSize.bits] at *
    split_ifs <;> omega

theorem base_eq_some {k off size base : ℕ} (h : w.base k off size = some base) :
    ∃ amt, w.allocs[k]? = some (base, amt) ∧ off + size ≤ amt := by
  obtain ⟨a, ha, h⟩ := Option.bind_eq_some_iff.mp h
  split_ifs at h with hle
  injection h with h
  exact ⟨a.2, by rw [ha, ← h], hle⟩

/-- what holds of the file and of the allocations -/
structure Kept (w : World) : Prop where
  lt : w.spill.tmpFilesize < 2 ^ 32
  below : ∀ a ∈ w.allocs, a.1 + a.2 ≤ w.spill.tmpFilesize
  sorted : w.allocs.Pairwise fun a b => a.1 + a.2 ≤ b.1
  opened : w.allocs ≠ [] → ∃ f, w.spill.tmpFp = some f
  stored : ∀ k off v, w.written k off = some v → ∃ a f, w.allocs[k]? = some a ∧
    w.spill.tmpFp = some f ∧ off < a.2 ∧ 1 ≤ a.1 + off ∧ a.1 + off - 1 < f.length ∧
    f.data (a.1 + off - 1) = v
  seeks : ∀ x ∈ w.seeks, 0 ≤ x
  reads : ∀ r ∈ w.reads, ∀ (i : ℕ) (v : UInt8), r.1[i]? = some (some v) → r.2[i]? = some v

/-- two different allocations have no byte of the file in common -/
theorem Kept.apart_places (h : Kept w) {k k' : ℕ} {a a' : ℕ × ℕ} (ha : w.allocs[k]? = some a)
    (ha' : w.allocs[k']? = some a') (hne : k ≠ k') : a.1 + a.2 ≤ a'.1 ∨ a'.1 + a'.2 ≤ a.1 := by
  obtain ⟨hk, rfl⟩ := List.getElem?_eq_some_iff.mp ha
  obtain ⟨hk', rfl⟩ := List.getElem?_eq_some_iff.mp ha'
  have hs := List.pairwise_iff_getElem.mp h.sorted
  obtain hlt | hlt := Nat.lt_or_gt_of_ne hne
  · exact Or.inl (hs k k' hk hk' hlt)
  · exact Or.inr (hs k' k hk' hk hlt)

theorem Kept.init : Kept World.init where
  lt := by decide
  below := fun _ h => absurd h List.not_mem_nil
  sorted := .nil
  opened := fun h => absurd rfl h
  stored := fun _ _ _ h => by cases h
  seeks := fun _ h => absurd h List.not_mem_nil
  reads := fun _ h => absurd h List.not_mem_nil

theorem Kept.alloc (h : Kept w) {amt : ℕ} (hc : Clear long (.alloc amt) w)
    (hs : World.step long (.alloc amt) w = some w') : Kept w' := by
  obtain ⟨hround, hend⟩ := hc
  have hamt : amt < 2 ^ 32 := by
    by_contra hn
    rw [World.step, if_neg hn] at hs
    cases hs
  rw [World.step, if_pos hamt] at hs
  injection hs with hs
  subst hs
  have hle : w.spill.tmpFilesize ≤ roundUpSizeSector w.spill.tmpFilesize := by
    rw [roundUpSizeSector, Nat.mod_eq_of_lt hround]
    unfold sectorSize
    omega
  have hsize : (spillAlloc w.spill amt).2.tmpFilesize = roundUpSizeSector w.spill.tmpFilesize + amt :=
    Nat.mod_eq_of_lt hend
  refine ⟨by rw [hsize]; exact hend, ?_, ?_, fun _ => ⟨_, rfl⟩, ?_, h.seeks, h.reads⟩
  · intro a ha
    rw [hsize]
    rcases List.mem_append.mp ha with ha | ha
    · have := h.below a ha
      omega
    · rw [List.mem_singleton.mp ha]
      exact le_refl _
  · refine List.pairwise_append.mpr ⟨h.sorted, List.pairwise_singleton _ _, fun a ha b hb => ?_⟩
    rw [List.mem_singleton.mp hb]
    exact le_trans (h.below a ha) hle
  · intro k off v hv
    obtain ⟨a, f, ha, hf, hrest⟩ := h.stored k off v hv
    refine ⟨a, f, ?_, ?_, hrest⟩
    · rw [List.getElem?_append_left (List.getElem?_eq_some_iff.mp ha).1]
      exact ha
    · show some (w.spill.tmpFp.getD _) = some f
      rw [hf]
      rfl

theorem Kept.write (h : Kept w) {k off : ℕ} {mem : List UInt8} (hc : Clear long (.write k off mem) w)
    (hs : World.step long (.write k off mem) w = some w') : Kept w' := by
  obtain ⟨base, hb, rfl⟩ := Option.map_eq_some_iff.mp hs
  obtain ⟨amt, ha, hle⟩ := base_eq_some hb
  obtain ⟨h1, h2⟩ := hc _ ha
  obtain ⟨f, hf⟩ := h.opened (List.ne_nil_of_mem (List.mem_of_getElem? ha))
  have hseek := seekOffset_eq h1 h2
  have hfile : (spillWrite long w.spill base off mem).tmpFp =
      some (SeekFile.write { f with pos := base + off - 1 } mem) := by
    rw [spillWrite, hseek]
    show w.spill.tmpFp.map _ = _
    rw [hf, Option.map_some, seek_natCast]
  refine ⟨h.lt, h.below, h.sorted, fun _ => ⟨_, hfile⟩, ?_, ?_, h.reads⟩
  · intro k' off' v hv
    replace hv : SpillIo.stored w.written k off mem k' off' = some v := hv
    by_cases hin : k' = k ∧ off ≤ off' ∧ off' < off + mem.length
    · rw [SpillIo.stored, if_pos hin] at hv
      obtain ⟨rfl, hlo, hhi⟩ := hin
      have hi : off' - off < mem.length := by omega
      have hp : base + off' - 1 = base + off - 1 + (off' - off) := by omega
      have hne : mem ≠ [] := fun e => by
        rw [e] at hi
        exact absurd hi (Nat.not_lt_zero _)
      refine ⟨(base, amt), _, ha, hfile, by omega, by omega, ?_, ?_⟩
      · have := end_le_write { f with pos := base + off - 1 } mem hne
        show base + off' - 1 < _
        refine lt_of_lt_of_le ?_ this
        show base + off' - 1 < base + off - 1 + mem.length
        omega
      · show (SeekFile.write { f with pos := base + off - 1 } mem).data (base + off' - 1) = v
        have := write_data_inside { f with pos := base + off - 1 } mem hi
        rw [hp, this]
        rw [List.getElem?_eq_getElem hi] at hv
        exact Option.some.inj hv
    · rw [SpillIo.stored, if_neg hin] at hv
      obtain ⟨a, f', ha', hf', hoff, hone, hlen, hdata⟩ := h.stored k' off' v hv
      obtain rfl : f = f' := Option.some.inj (hf.symm.trans hf')
      refine ⟨a, _, ha', hfile, hoff, hone, lt_of_lt_of_le hlen
        (length_le_write { f with pos := base + off - 1 } mem), ?_⟩
      rw [write_data_outside _ mem, ← hdata]
      show a.1 + off' - 1 < base + off - 1 ∨ base + off - 1 + mem.length ≤ a.1 + off' - 1
      by_cases hk : k' = k
      · subst hk
        obtain rfl : (base, amt) = a := Option.some.inj (ha.symm.trans ha')
        show base + off' - 1 < base + off - 1 ∨ base + off - 1 + mem.length ≤ base + off' - 1
        omega
      · have := h.apart_places ha' ha hk
        dsimp only at this
        omega
  · intro x hx
    rcases List.mem_append.mp hx with hx | hx
    · exact h.seeks x hx
    · rw [List.mem_singleton.mp hx, hseek]
      exact Int.natCast_nonneg _

theorem Kept.read (h : Kept w) {k off size : ℕ} (hc : Clear long (.read k off size) w)
    (hs : World.step long (.read k off size) w = some w') : Kept w' := by
  obtain ⟨base, hb, rfl⟩ := Option.map_eq_some_iff.mp hs
  obtain ⟨amt, ha, hle⟩ := base_eq_some hb
  obtain ⟨h1, h2⟩ := hc _ ha
  obtain ⟨f, hf⟩ := h.opened (List.ne_nil_of_mem (List.mem_of_getElem? ha))
  have hseek := seekOffset_eq h1 h2
  have hread : spillRead long w.spill base off size =
      ((SeekFile.read { f with pos := base + off - 1 } size).1,
        { w.spill with tmpFp := some (SeekFile.read { f with pos := base + off - 1 } size).2 }) := by
    rw [spillRead, hseek, hf]
    dsimp only
    rw [seek_natCast]
  rw [hread]
  refine ⟨h.lt, h.below, h.sorted, fun _ => ⟨_, rfl⟩, ?_, ?_, ?_⟩
  · intro k' off' v hv
    obtain ⟨a, f', ha', hf', hrest⟩ := h.stored k' off' v hv
    obtain rfl : f = f' := Option.some.inj (hf.symm.trans hf')
    exact ⟨a, _, ha', rfl, hrest⟩
  · intro x hx
    rcases List.mem_append.mp hx with hx | hx
    · exact h.seeks x hx
    · rw [List.mem_singleton.mp hx, hseek]
      exact Int.natCast_nonneg _
  · intro r hr i v hv
    rcases List.mem_append.mp hr with hr | hr
    · exact h.reads r hr i v hv
    · rw [List.mem_singleton.mp hr] at hv ⊢
      dsimp only at hv ⊢
      rw [List.getElem?_map] at hv
      obtain ⟨j, hj, hv⟩ := Option.map_eq_some_iff.mp hv
      obtain ⟨hi, hij⟩ := List.getElem?_eq_some_iff.mp hj
      rw [List.getElem_range] at hij
      subst hij
      rw [List.length_range] at hi
      obtain ⟨a, f', ha', hf', hoff, hone, hlen, hdata⟩ := h.stored k (off + i) v hv
      obtain rfl : f = f' := Option.some.inj (hf.symm.trans hf')
      obtain rfl : (base, amt) = a := Option.some.inj (ha.symm.trans ha')
      have hp : base + (off + i) - 1 = base + off - 1 + i := by omega
      dsimp only at hlen hdata
      rw [hp] at hlen hdata
      rw [read_get { f with pos := base + off - 1 } hi hlen]
      exact congrArg some hdata

theorem Kept.step (e : Event) (w w' : World) (h : Kept w) (hc : Clear long e w)
    (hs : World.step long e w = some w') : Kept w' := by
  cases e with
  | alloc amt => exact h.alloc hc hs
  | write k off mem => exact h.write hc hs
  | null k off size =>
    rw [step_null] at hs
    have hc' : Clear long (.write k off (List.replicate size 0)) w := hc
    exact h.write hc' hs
  | read k off size => exact h.read hc hs

/-- the places of two allocations are apart, though the first one starts in front of the file -/
theorem places_disjoint {a b : ℕ × ℕ} (hab : a.1 + a.2 ≤ b.1) (hb : b.1 + b.2 < 2 ^ 32) :
    Disjoint (places long a) (places long b) := by
  refine Set.disjoint_left.mpr ?_
  rintro x ⟨i, hi, hx⟩ ⟨j, hj, hx'⟩
  rw [hx] at hx'
  unfold seekOffset Int.bmod at hx'
  cases long with
  | long32 =>
    simp only [LongSize.bits] at hx'
    split_ifs at hx' <;> omega
  | long64 =>
    simp only [LongSize.bits] at hx'
    split_ifs at hx' <;> omega

theorem Kept.right (h : Kept w) : Right long w where
  seeks := h.seeks
  apart := h.sorted.imp_of_mem fun _ hb hab => places_disjoint hab (lt_of_le_of_lt (h.below _ hb) h.lt)
  reads := h.reads

/-- in every run that asks for no byte in front of the file and allocates less than 4G, every position that
is sought is in the file, allocations are apart, and what was written last is read -/
theorem spill_right (long : LongSize) (es : List Event) (w : World)
    (hc : Events.Along (World.step long) (Clear long) es World.init)
    (h : Events.run (World.step long) es World.init = some w) : Right long w :=
  (Events.run_invariant (fun e w w' => Kept.step e w w') es World.init w Kept.init hc h).right

/-- the first allocation is written from its start -/
theorem firstWrite_wrong :
    ∃ w, Events.run (World.step .long64) [.alloc 10, .write 0 0 [7]] World.init = some w ∧
      ¬ Right .long64 w := by
  refine ⟨_, rfl, fun h => ?_⟩
  have := h.seeks _ List.mem_cons_self
  exact absurd this (by decide)

/-- the second allocation, written and read in part -/
theorem secondWrite_right : ∃ w, Events.run (World.step .long32)
    [.alloc 10, .alloc 600, .write 1 0 [7, 8, 9], .null 1 1 1, .read 1 0 3] World.init = some w ∧
      Right .long32 w := by
  refine ⟨_, rfl, spill_right .long32
    [.alloc 10, .alloc 600, .write 1 0 [7, 8, 9], .null 1 1 1, .read 1 0 3] _ ?_ rfl⟩
  refine ⟨⟨by decide, by decide⟩, fun w1 h1 => ?_⟩
  obtain rfl := Option.some.inj h1
  refine ⟨⟨by decide, by decide⟩, fun w2 h2 => ?_⟩
  obtain rfl := Option.some.inj h2
  refine ⟨fun a ha => ?_, fun w3 h3 => ?_⟩
  · obtain rfl := Option.some.inj ha
    decide
  obtain rfl := Option.some.inj h3
  refine ⟨fun a ha => ?_, fun w4 h4 => ?_⟩
  · obtain rfl := Option.some.inj ha
    decide
  obtain rfl := Option.some.inj h4
  refine ⟨fun a ha => ?_, fun _ _ => trivial⟩
  obtain rfl := Option.some.inj ha
  decide

end SpillIo
