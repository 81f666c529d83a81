import Mathlib
import OpenWatcom.Lib.Events

/-!
# String tables of the linker: `strtab.c`

* `StringBlock`, `StringTable`     blocks of 4K, and the base of the last one with a flag in bit 0
* `addToStringTable`     the loop that splits an item, or starts a block for it
* `Addition`, `Addition.run`     one of the additions
* `Stream.add`     the byte stream that a table stands for
* `addToStringTable_spec`     what an addition does to it
* `table_right`     in every run of additions the table is that stream

The ring of the blocks is its last block and those before it, and `size_t` has 64 bits. What a call does
when it goes out of the data of a block, or out of the item, is `none`.
-/

namespace StrTab

/-- `STR_BLOCK_SIZE` -/
def strBlockSize : ℕ := 4096

/-- `stringblock` -/
structure StringBlock where
  size : ℕ
  data : ℕ → UInt8

/-- `stringtable` -/
structure StringTable where
  before : List StringBlock
  last : StringBlock
  currbase : ℕ

/-- where a block has its data, and how far into it -/
structure Pointer where
  block : ℕ
  offset : ℕ
deriving DecidableEq, Repr

namespace StringBlock

/-- `memcpy( blk->data + blk->size, bytes, .. )`, and the size behind it -/
def put (b : StringBlock) (bytes : List UInt8) : StringBlock :=
  ⟨b.size + bytes.length,
    fun i => if b.size ≤ i then bytes.getD (i - b.size) (b.data i) else b.data i⟩

def contents (b : StringBlock) : List UInt8 := (List.range b.size).map b.data

end StringBlock

namespace StringTable
variable (t : StringTable)

/-- `TableNoSplitItems` -/
def noSplitItems : Bool := t.currbase % 2 = 1

/-- `GetTableLastBlkStart`: the mask `~1U` has 32 bits -/
def lastBlkStart : ℕ := t.currbase % 2 ^ 32 / 2 * 2

def blocks : List StringBlock := t.before ++ [t.last]

/-- what the ring is given to read: memory that was not written -/
def allocNewBlock (junk : ℕ → ℕ → UInt8) : StringTable :=
  ⟨t.blocks, ⟨0, junk t.blocks.length⟩, t.currbase⟩

end StringTable

section
variable (junk : ℕ → ℕ → UInt8)

def initStringTable (dontsplit : Bool) : StringTable := ⟨[], ⟨0, junk 0⟩, if dontsplit then 1 else 0⟩

/-- the loop of `AddToStringTable`: what is left of the item and of its length, and `start` -/
def addLoop : ℕ → StringTable → List UInt8 → ℕ → Option ℕ →
    Option (StringTable × List UInt8 × ℕ × Option ℕ)
  | 0, _, _, _, _ => none
  | rounds + 1, t, data, len, start =>
    if t.last.size + len > strBlockSize then
      let start := start.getD
        (t.lastBlkStart + if t.noSplitItems then strBlockSize else t.last.size)
      let diff := strBlockSize - t.last.size
      if t.noSplitItems then
        addLoop rounds (StringTable.allocNewBlock
          ⟨t.before, t.last.put (List.replicate diff 0), (t.currbase + strBlockSize) % 2 ^ 64⟩ junk)
          data len (some start)
      else if data.length < diff then none
      else
        addLoop rounds (StringTable.allocNewBlock
          ⟨t.before, t.last.put (data.take diff), (t.currbase + strBlockSize) % 2 ^ 64⟩ junk)
          (data.drop diff) (len - diff) (some start)
    else some (t, data, len, start)

/-- the pointer, `*offs`, and the table -/
def addToStringTable (t : StringTable) (data : List UInt8) (addnullchar : Bool) :
    Option (Pointer × ℕ × StringTable) :=
  let len := if addnullchar then data.length + 1 else data.length
  let len := if t.noSplitItems ∧ len > strBlockSize then strBlockSize else len
  (addLoop junk (len + 2) t data len none).bind fun (t, data, len, start) =>
    let start := start.getD (t.lastBlkStart + t.last.size)
    let dest := Pointer.mk t.before.length t.last.size
    let copied := if addnullchar then len - 1 else len
    if data.length < copied then none
    else
      let bytes := data.take copied ++ if addnullchar then [0] else []
      some (dest, start, { t with last := t.last.put bytes })

/-- the assertion holds, and then the zeros are inside of the block -/
def zeroStringTable (t : StringTable) (len : ℕ) : Option StringTable :=
  if t.last.size + len ≤ strBlockSize then
    some { t with last := t.last.put (List.replicate len 0) }
  else none

end

/-- what the function of the caller is handed, block by block -/
def writeStringTable (t : StringTable) : List UInt8 := t.blocks.flatMap StringBlock.contents

def getStringTableSize (t : StringTable) : ℕ := t.lastBlkStart + t.last.size

/-! ## the additions -/

/-- a string in memory ends with its first null character -/
def cString (s : List UInt8) : List UInt8 := s.takeWhile (· ≠ 0) ++ [0]

inductive Addition where
  | char (c : UInt8)
  | string (s : List UInt8)
  | stringOffs (s : List UInt8)
  | buffer (data : List UInt8)
  | symbol (data : List UInt8)
  | zero (len : ℕ)
deriving DecidableEq, Repr

/-- the bytes that are added -/
def Addition.item : Addition → List UInt8
  | .char c => [c]
  | .string s => cString s
  | .stringOffs s => cString s
  | .buffer data => data
  | .symbol data => data ++ [0]
  | .zero len => List.replicate len 0

/-- what a call returns: the pointer to the item, and the offset -/
structure Returned where
  pointer : Option Pointer
  offset : Option ℕ
deriving DecidableEq, Repr

/-- the `Add..StringTable` functions and `ZeroStringTable` -/
def Addition.run (junk : ℕ → ℕ → UInt8) (t : StringTable) : Addition → Option (Returned × StringTable)
  | .char c => (addToStringTable junk t [c] false).map fun r => (⟨none, none⟩, r.2.2)
  | .string s => (addToStringTable junk t (cString s) false).map fun r => (⟨some r.1, none⟩, r.2.2)
  | .stringOffs s => (addToStringTable junk t (cString s) false).map fun r => (⟨none, some r.2.1⟩, r.2.2)
  | .buffer data => (addToStringTable junk t data false).map fun r => (⟨some r.1, none⟩, r.2.2)
  | .symbol data => (addToStringTable junk t data true).map fun r => (⟨some r.1, none⟩, r.2.2)
  | .zero len => (zeroStringTable t len).map fun t => (⟨none, none⟩, t)

/-! ## the stream -/

namespace Stream
variable (noSplit : Bool) (s item : List UInt8)

/-- an item that is not split starts a block when the last one has no room for it -/
def place : ℕ :=
  if noSplit ∧ s.length % strBlockSize + item.length > strBlockSize then
    (s.length / strBlockSize + 1) * strBlockSize
  else s.length

def add : List UInt8 := s ++ List.replicate (place noSplit s item - s.length) 0 ++ item

theorem le_place : s.length ≤ place noSplit s item := by
  unfold place strBlockSize
  split_ifs <;> omega

theorem take_place : (add noSplit s item).drop (place noSplit s item) = item := by
  have hle := le_place noSplit s item
  rw [add, List.drop_left']
  rw [List.length_append, List.length_replicate]
  omega

end Stream

/-- the items one behind the other; only where none is split, zeros may stand in front of one -/
inductive InOrder (noSplit : Bool) : List (List UInt8) → List UInt8 → Prop
  | nil : InOrder noSplit [] []
  | snoc {items : List (List UInt8)} {s item : List UInt8} {gap : ℕ} : InOrder noSplit items s →
      (noSplit = false → gap = 0) →
      InOrder noSplit (items ++ [item]) (s ++ List.replicate gap 0 ++ item)

/-- the item is in the data of the block -/
def PointsTo (t : StringTable) (p : Pointer) (item : List UInt8) : Prop :=
  ∃ b, t.blocks[p.block]? = some b ∧ p.offset + item.length ≤ b.size ∧
    ∀ i (h : i < item.length), b.data (p.offset + i) = item[i]

/-! ## blocks -/

theorem contents_length (b : StringBlock) : b.contents.length = b.size := by
  rw [StringBlock.contents, List.length_map, List.length_range]

theorem put_data_inside (b : StringBlock) {bytes : List UInt8} {i : ℕ} (h : i < bytes.length) :
    (b.put bytes).data (b.size + i) = bytes[i] := by
  show (if b.size ≤ b.size + i then _ else _) = _
  rw [if_pos (Nat.le_add_right _ _), Nat.add_sub_cancel_left, List.getD_eq_getElem _ _ h]

theorem put_data_before (b : StringBlock) (bytes : List UInt8) {i : ℕ} (h : i < b.size) :
    (b.put bytes).data i = b.data i := if_neg (Nat.not_le.mpr h)

theorem put_contents (b : StringBlock) (bytes : List UInt8) :
    (b.put bytes).contents = b.contents ++ bytes := by
  refine List.ext_getElem ?_ fun i h1 h2 => ?_
  · rw [contents_length, List.length_append, contents_length]
    rfl
  · rw [contents_length] at h1
    replace h1 : i < b.size + bytes.length := h1
    have e : (b.put bytes).contents[i] = (b.put bytes).data i := by
      simp only [StringBlock.contents, List.getElem_map, List.getElem_range]
    rw [e]
    by_cases hi : i < b.size
    · rw [put_data_before b bytes hi, List.getElem_append_left (by rw [contents_length]; exact hi)]
      simp only [StringBlock.contents, List.getElem_map, List.getElem_range]
    · obtain ⟨j, rfl⟩ : ∃ j, i = b.size + j := ⟨i - b.size, by omega⟩
      rw [put_data_inside b (by omega : j < bytes.length),
        List.getElem_append_right (by rw [contents_length]; omega)]
      simp only [contents_length, Nat.add_sub_cancel_left]

/-- what was written stays where it is -/
def Extends (t t' : StringTable) : Prop := ∀ (k : ℕ) (b : StringBlock), t.blocks[k]? = some b →
  ∃ b', t'.blocks[k]? = some b' ∧ b.size ≤ b'.size ∧ ∀ i < b.size, b'.data i = b.data i

theorem Extends.refl (t : StringTable) : Extends t t := fun _ b h => ⟨b, h, le_refl _, fun _ _ => rfl⟩

theorem Extends.trans {t t' t'' : StringTable} (h : Extends t t') (h' : Extends t' t'') :
    Extends t t'' := by
  intro k b hb
  obtain ⟨b', hb', hle, hdata⟩ := h k b hb
  obtain ⟨b'', hb'', hle', hdata'⟩ := h' k b' hb'
  exact ⟨b'', hb'', le_trans hle hle',
    fun i hi => (hdata' i (lt_of_lt_of_le hi hle)).trans (hdata i hi)⟩

theorem Extends.put (t : StringTable) (bytes : List UInt8) (currbase : ℕ) :
    Extends t ⟨t.before, t.last.put bytes, currbase⟩ := by
  intro k b hb
  by_cases hk : k < t.before.length
  · refine ⟨b, ?_, le_refl _, fun _ _ => rfl⟩
    rw [StringTable.blocks, List.getElem?_append_left hk] at hb ⊢
    exact hb
  · rw [StringTable.blocks, List.getElem?_append_right (Nat.not_lt.mp hk)] at hb
    obtain ⟨hlt, hb⟩ := List.getElem?_eq_some_iff.mp hb
    have hz : k - t.before.length = 0 := Nat.lt_one_iff.mp hlt
    have hb : t.last = b := by
      rw [← hb]
      simp only [hz, List.getElem_cons_zero]
    subst hb
    refine ⟨t.last.put bytes, ?_, Nat.le_add_right _ _, fun i hi => put_data_before _ _ hi⟩
    rw [StringTable.blocks, List.getElem?_append_right (Nat.not_lt.mp hk), hz]
    rfl

theorem Extends.alloc (junk : ℕ → ℕ → UInt8) (t : StringTable) : Extends t (t.allocNewBlock junk) := by
  intro k b hb
  refine ⟨b, ?_, le_refl _, fun _ _ => rfl⟩
  show (t.blocks ++ [_])[k]? = some b
  rw [List.getElem?_append_left (List.getElem?_eq_some_iff.mp hb).1]
  exact hb

theorem PointsTo.extends {t t' : StringTable} {p : Pointer} {item : List UInt8}
    (h : PointsTo t p item) (he : Extends t t') : PointsTo t' p item := by
  obtain ⟨b, hb, hle, hdata⟩ := h
  obtain ⟨b', hb', hle', hdata'⟩ := he _ b hb
  exact ⟨b', hb', le_trans hle hle', fun i hi => (hdata' _ (by omega)).trans (hdata i hi)⟩

/-! ## one addition -/

/-- the table is the stream: every block but the last is full, and `currbase` is the start of the last -/
structure Holds (noSplit : Bool) (t : StringTable) (s : List UInt8) : Prop where
  base : t.currbase = strBlockSize * t.before.length + if noSplit then 1 else 0
  full : ∀ b ∈ t.before, b.size = strBlockSize
  fits : t.last.size ≤ strBlockSize
  written : writeStringTable t = s

section
variable {noSplit : Bool} {t : StringTable} {s : List UInt8} (h : Holds noSplit t s)
include h

theorem Holds.length : s.length = strBlockSize * t.before.length + t.last.size := by
  have hsum : ∀ l : List StringBlock, (∀ b ∈ l, b.size = strBlockSize) →
      (l.flatMap StringBlock.contents).length = strBlockSize * l.length := by
    intro l hl
    induction l with
    | nil => rfl
    | cons b l ih =>
      rw [List.flatMap_cons, List.length_append, contents_length, hl b List.mem_cons_self,
        ih fun c hc => hl c (List.mem_cons_of_mem b hc), List.length_cons]
      ring
  rw [← h.written, writeStringTable, StringTable.blocks, List.flatMap_append, List.length_append,
    hsum _ h.full, List.flatMap_singleton, contents_length]

theorem Holds.noSplitItems : t.noSplitItems = noSplit := by
  rw [StringTable.noSplitItems, h.base]
  unfold strBlockSize
  cases noSplit with
  | true => exact decide_eq_true (by rw [if_pos rfl]; omega)
  | false => exact decide_eq_false (by rw [if_neg Bool.false_ne_true]; omega)

theorem Holds.lastBlkStart (hlt : s.length < 2 ^ 32) :
    t.lastBlkStart = strBlockSize * t.before.length := by
  have hlen := h.length
  rw [StringTable.lastBlkStart, h.base]
  unfold strBlockSize at *
  split_ifs <;> omega

theorem Holds.getStringTableSize (hlt : s.length < 2 ^ 32) :
    (writeStringTable t).length = StrTab.getStringTableSize t := by
  rw [StrTab.getStringTableSize, h.lastBlkStart hlt, h.written, h.length]

theorem Holds.put (bytes : List UInt8) (hfits : t.last.size + bytes.length ≤ strBlockSize) :
    Holds noSplit { t with last := t.last.put bytes } (s ++ bytes) := by
  refine ⟨h.base, h.full, hfits, ?_⟩
  rw [← h.written, writeStringTable, writeStringTable, StringTable.blocks, StringTable.blocks,
    List.flatMap_append, List.flatMap_append, List.flatMap_singleton, List.flatMap_singleton,
    put_contents, List.append_assoc]

/-- the last block is filled up, and there is a new one -/
theorem Holds.turn (junk : ℕ → ℕ → UInt8) (bytes : List UInt8)
    (hfill : t.last.size + bytes.length = strBlockSize) (hlt : s.length + bytes.length < 2 ^ 32) :
    Holds noSplit (StringTable.allocNewBlock
      ⟨t.before, t.last.put bytes, (t.currbase + strBlockSize) % 2 ^ 64⟩ junk) (s ++ bytes) := by
  have hput := h.put bytes (le_of_eq hfill)
  have hlen := h.length
  refine ⟨?_, ?_, Nat.zero_le _, ?_⟩
  · show (t.currbase + strBlockSize) % 2 ^ 64 = strBlockSize * (t.before ++ [_]).length + _
    rw [h.base, List.length_append, List.length_singleton]
    unfold strBlockSize at *
    split_ifs <;> omega
  · intro b hb
    rcases List.mem_append.mp hb with hb | hb
    · exact h.full b hb
    · rw [List.mem_singleton.mp hb]
      exact hfill
  · rw [← hput.written]
    show ((t.before ++ [t.last.put bytes]) ++ [_]).flatMap StringBlock.contents =
      (t.before ++ [t.last.put bytes]).flatMap StringBlock.contents
    rw [List.flatMap_append, List.flatMap_singleton]
    exact List.append_nil _

end

section
variable (junk : ℕ → ℕ → UInt8)

/-- where items are split: what does not fit into the last blocks has been written to them -/
theorem addLoop_split : ∀ (rounds : ℕ) {t : StringTable} {s : List UInt8} (data : List UInt8) (len : ℕ)
    (start : Option ℕ), Holds false t s → data.length ≤ len → len ≤ data.length + 1 →
    s.length + len < 2 ^ 32 → len + t.last.size / strBlockSize < rounds →
    ∃ t' first rest start', addLoop junk rounds t data len start =
        some (t', rest, len - first.length, start') ∧ data = first ++ rest ∧
      Holds false t' (s ++ first) ∧ t'.last.size + (len - first.length) ≤ strBlockSize ∧
      Extends t t' ∧ start'.getD (t'.lastBlkStart + t'.last.size) = start.getD s.length := by
  intro rounds
  induction rounds with
  | zero => exact fun _ _ _ _ _ _ _ h => absurd h (Nat.not_lt_zero _)
  | succ rounds ih =>
    intro t s data len start h hd1 hd2 hlt hrounds
    have hsize := h.length
    have hstart := h.lastBlkStart (by omega)
    rw [addLoop]
    by_cases hc : t.last.size + len > strBlockSize
    · have hfits := h.fits
      have hdiff : strBlockSize - t.last.size ≤ data.length := by omega
      have htake : (data.take (strBlockSize - t.last.size)).length = strBlockSize - t.last.size :=
        List.length_take_of_le hdiff
      have hturn := h.turn junk (data.take (strBlockSize - t.last.size)) (by omega) (by omega)
      rw [if_pos hc, h.noSplitItems, if_neg Bool.false_ne_true, if_neg Bool.false_ne_true,
        if_neg (by omega)]
      -- an empty last block takes 4096 of the bytes, a full one none
      obtain ⟨t', first, rest, start', hrun, hdata, hholds, hfit, hext, hgetD⟩ := ih
        (data.drop (strBlockSize - t.last.size)) (len - (strBlockSize - t.last.size))
        (some (start.getD (t.lastBlkStart + t.last.size))) hturn
        (by rw [List.length_drop]; omega) (by rw [List.length_drop]; omega)
        (by rw [List.length_append, htake]; omega)
        (by
          show len - (strBlockSize - t.last.size) + 0 / strBlockSize < rounds
          unfold strBlockSize at *
          omega)
      refine ⟨t', data.take (strBlockSize - t.last.size) ++ first, rest, start', ?_, ?_, ?_, ?_, ?_, ?_⟩
      · rw [hrun, List.length_append, htake, Nat.sub_sub]
      · rw [List.append_assoc, ← hdata, List.take_append_drop]
      · rw [← List.append_assoc]
        exact hholds
      · rw [List.length_append, htake, ← Nat.sub_sub]
        exact hfit
      · exact ((Extends.put t _ _).trans (Extends.alloc junk _)).trans hext
      · rw [hgetD, hstart, hsize]
        rfl
    · rw [if_neg hc]
      refine ⟨t, [], data, start, rfl, rfl, ?_, ?_, Extends.refl t, ?_⟩
      · rw [List.append_nil]
        exact h
      · exact Nat.not_lt.mp hc
      · rw [hstart, hsize]

/-- where items are not split there is at most one new block, behind zeros -/
theorem addLoop_noSplit (rounds : ℕ) {t : StringTable} {s : List UInt8} (data : List UInt8) {len : ℕ}
    (h : Holds true t s) (hlen : len ≤ strBlockSize)
    (hlt : (if s.length % strBlockSize + len > strBlockSize then
      (s.length / strBlockSize + 1) * strBlockSize else s.length) < 2 ^ 32) :
    ∃ t' start' gap, addLoop junk (rounds + 2) t data len none = some (t', data, len, start') ∧
      Holds true t' (s ++ List.replicate gap 0) ∧ t'.last.size + len ≤ strBlockSize ∧
      Extends t t' ∧ start'.getD (t'.lastBlkStart + t'.last.size) = s.length + gap ∧
      s.length + gap = if s.length % strBlockSize + len > strBlockSize then
        (s.length / strBlockSize + 1) * strBlockSize else s.length := by
  have hsize := h.length
  have hfits := h.fits
  have hslt : s.length < 2 ^ 32 := by
    unfold strBlockSize at hlt
    split_ifs at hlt <;> omega
  have hstart := h.lastBlkStart hslt
  rw [addLoop]
  by_cases hc : t.last.size + len > strBlockSize
  · have hturn := h.turn junk (List.replicate (strBlockSize - t.last.size) 0)
      (by rw [List.length_replicate]; omega)
      (by rw [List.length_replicate]; unfold strBlockSize at *; split_ifs at hlt <;> omega)
    rw [if_pos hc, h.noSplitItems, if_pos rfl, if_pos rfl, addLoop, if_neg (by
      show ¬ 0 + len > strBlockSize
      omega)]
    refine ⟨_, _, strBlockSize - t.last.size, rfl, hturn, ?_,
      (Extends.put t _ _).trans (Extends.alloc junk _), ?_, ?_⟩
    · show 0 + len ≤ strBlockSize
      omega
    · show t.lastBlkStart + strBlockSize = _
      rw [hstart, hsize]
      omega
    · unfold strBlockSize at *
      split_ifs <;> omega
  · rw [if_neg hc]
    refine ⟨t, none, 0, rfl, ?_, Nat.not_lt.mp hc, Extends.refl t, ?_, ?_⟩
    · rw [List.replicate_zero, List.append_nil]
      exact h
    · show t.lastBlkStart + t.last.size = s.length + 0
      rw [hstart, hsize, Nat.add_zero]
    · unfold strBlockSize at *
      split_ifs <;> omega

/-- what is put behind the last bytes of a block is found there -/
theorem put_pointsTo (t : StringTable) (item : List UInt8) :
    PointsTo { t with last := t.last.put item } ⟨t.before.length, t.last.size⟩ item := by
  refine ⟨t.last.put item, ?_, le_refl _, fun i hi => put_data_inside _ hi⟩
  show (t.before ++ [t.last.put item])[t.before.length]? = _
  rw [List.getElem?_append_right (le_refl _), Nat.sub_self]
  rfl

/-- the stream grows by the item, which stands at the offset that is returned -/
theorem addToStringTable_spec {noSplit : Bool} {t : StringTable} {s : List UInt8} (data : List UInt8)
    (nul : Bool) (h : Holds noSplit t s) {item : List UInt8}
    (hitem : item = data ++ if nul then [0] else [])
    (hfit : noSplit = true → item.length ≤ strBlockSize)
    (hlt : Stream.place noSplit s item + item.length < 2 ^ 32) :
    ∃ p t', addToStringTable junk t data nul = some (p, Stream.place noSplit s item, t') ∧
      Holds noSplit t' (Stream.add noSplit s item) ∧ Extends t t' ∧
      (noSplit = true → PointsTo t' p item) := by
  have hlen : item.length = if nul then data.length + 1 else data.length := by
    rw [hitem, List.length_append]
    cases nul <;> rfl
  cases noSplit with
  | false =>
    have hplace : Stream.place false s item = s.length := if_neg fun h => Bool.noConfusion h.1
    rw [hplace] at hlt ⊢
    have hadd : Stream.add false s item = s ++ item := by
      rw [Stream.add, hplace, Nat.sub_self, List.replicate_zero, List.append_nil]
    have hd : data.length ≤ item.length ∧ item.length ≤ data.length + 1 := by
      rw [hlen]
      cases nul with
      | true => exact ⟨Nat.le_succ _, le_refl _⟩
      | false => exact ⟨le_refl _, Nat.le_succ _⟩
    obtain ⟨t', first, rest, start', hrun, hdata, hholds, hroom, hext, hgetD⟩ :=
      addLoop_split junk (item.length + 2) data item.length none h hd.1 hd.2 hlt (by
        have := h.fits
        unfold strBlockSize at *
        omega)
    have hrest : data.length = first.length + rest.length := by rw [hdata, List.length_append]
    have hcopied : (if nul then item.length - first.length - 1 else item.length - first.length) =
        rest.length := by
      rw [hlen]
      cases nul with
      | true =>
        show data.length + 1 - first.length - 1 = _
        omega
      | false =>
        show data.length - first.length = _
        omega
    rw [addToStringTable]
    dsimp only
    rw [h.noSplitItems, ← hlen, if_neg (fun h => Bool.noConfusion h.1), hrun, Option.bind_some]
    dsimp only
    rw [hcopied, if_neg (Nat.lt_irrefl _), List.take_length, hgetD]
    refine ⟨_, _, rfl, ?_, hext.trans (Extends.put t' _ _), fun h => Bool.noConfusion h⟩
    rw [hadd, hitem, hdata, List.append_assoc, ← List.append_assoc]
    refine hholds.put _ ?_
    have : (rest ++ if nul then [0] else []).length = item.length - first.length := by
      rw [List.length_append, hlen]
      cases nul with
      | true =>
        show rest.length + 1 = data.length + 1 - first.length
        omega
      | false =>
        show rest.length + 0 = data.length - first.length
        omega
    rw [this]
    exact hroom
  | true =>
    have hle := hfit rfl
    have hplace : Stream.place true s item = if s.length % strBlockSize + item.length > strBlockSize then
        (s.length / strBlockSize + 1) * strBlockSize else s.length := by
      unfold Stream.place
      simp only [true_and]
    rw [hplace] at hlt
    obtain ⟨t', start', gap, hrun, hholds, hroom, hext, hgetD, hgap⟩ :=
      addLoop_noSplit junk item.length data h hle (by omega)
    have hcopied : (if nul then item.length - 1 else item.length) = data.length := by
      rw [hlen]
      cases nul <;> rfl
    rw [addToStringTable]
    dsimp only
    rw [h.noSplitItems, ← hlen, if_neg (fun h => absurd h.2 (by omega)), hrun, Option.bind_some]
    dsimp only
    rw [hcopied, if_neg (Nat.lt_irrefl _), List.take_length, ← hitem, hgetD, hgap, ← hplace]
    refine ⟨_, _, rfl, ?_, hext.trans (Extends.put t' _ _), fun _ => put_pointsTo t' item⟩
    have hz : Stream.place true s item - s.length = gap := by
      rw [hplace, ← hgap]
      omega
    rw [Stream.add, hz]
    exact hholds.put _ hroom

end

/-! ## runs -/

/-- an item that was added, and what the call returned -/
structure Entry where
  item : List UInt8
  returned : Returned

/-- a table, and what was added to it -/
structure World where
  table : StringTable
  entries : List Entry

def World.init (junk : ℕ → ℕ → UInt8) (dontsplit : Bool) : World := ⟨initStringTable junk dontsplit, []⟩

def World.step (junk : ℕ → ℕ → UInt8) (a : Addition) (w : World) : Option World :=
  (a.run junk w.table).map fun r => ⟨r.2, w.entries ++ [⟨a.item, r.1⟩]⟩

/-- what is promised of a table -/
structure Right (noSplit : Bool) (w : World) : Prop where
  size : (writeStringTable w.table).length = getStringTableSize w.table
  order : InOrder noSplit (w.entries.map Entry.item) (writeStringTable w.table)
  offsets : ∀ e ∈ w.entries, ∀ o, e.returned.offset = some o →
    ((writeStringTable w.table).drop o).take e.item.length = e.item
  pointers : noSplit = true → ∀ e ∈ w.entries, ∀ p, e.returned.pointer = some p →
    PointsTo w.table p e.item

/-- no item is longer than a block where items are not split, zeros fit into the last block, and the table
stays below 4G -/
structure Clear (noSplit : Bool) (a : Addition) (w : World) : Prop where
  short : noSplit = true → a.item.length ≤ strBlockSize
  zero : ∀ len, a = .zero len → w.table.last.size + len ≤ strBlockSize
  below : Stream.place noSplit (writeStringTable w.table) a.item + a.item.length < 2 ^ 32

/-- what an addition keeps -/
structure Kept (noSplit : Bool) (w : World) : Prop extends Right noSplit w where
  holds : Holds noSplit w.table (writeStringTable w.table)
  below : (writeStringTable w.table).length < 2 ^ 32

theorem stands_append {s item : List UInt8} {o : ℕ} (h : (s.drop o).take item.length = item)
    (more : List UInt8) : ((s ++ more).drop o).take item.length = item := by
  have hlen := congrArg List.length h
  rw [List.length_take] at hlen
  rw [List.drop_append, List.take_append_of_le_length (by omega)]
  exact h

theorem holds_init (junk : ℕ → ℕ → UInt8) (dontsplit : Bool) :
    Holds dontsplit (initStringTable junk dontsplit) [] :=
  ⟨(Nat.zero_add _).symm, fun _ h => absurd h List.not_mem_nil, Nat.zero_le _, rfl⟩

theorem Kept.init (junk : ℕ → ℕ → UInt8) (dontsplit : Bool) : Kept dontsplit (World.init junk dontsplit) where
  size := (holds_init junk dontsplit).getStringTableSize (Nat.two_pow_pos 32)
  order := .nil
  offsets := fun _ h => absurd h List.not_mem_nil
  pointers := fun _ _ h => absurd h List.not_mem_nil
  holds := holds_init junk dontsplit
  below := Nat.two_pow_pos 32

section
variable {junk : ℕ → ℕ → UInt8} {noSplit : Bool} {w : World}

/-- an item is added to the stream, and nothing that was there is moved -/
theorem Kept.added (h : Kept noSplit w) (t' : StringTable) (e : Entry)
    (hlt : Stream.place noSplit (writeStringTable w.table) e.item + e.item.length < 2 ^ 32)
    (hholds : Holds noSplit t' (Stream.add noSplit (writeStringTable w.table) e.item))
    (hext : Extends w.table t')
    (hoffset : ∀ o, e.returned.offset = some o → o = Stream.place noSplit (writeStringTable w.table) e.item)
    (hpointer : noSplit = true → ∀ p, e.returned.pointer = some p → PointsTo t' p e.item) :
    Kept noSplit ⟨t', w.entries ++ [e]⟩ := by
  have hlen : (Stream.add noSplit (writeStringTable w.table) e.item).length =
      Stream.place noSplit (writeStringTable w.table) e.item + e.item.length := by
    have := Stream.le_place noSplit (writeStringTable w.table) e.item
    rw [Stream.add, List.length_append, List.length_append, List.length_replicate]
    omega
  refine ⟨⟨?_, ?_, ?_, ?_⟩, ?_, ?_⟩
  · exact hholds.getStringTableSize (by omega)
  · show InOrder noSplit ((w.entries ++ [e]).map Entry.item) (writeStringTable t')
    rw [hholds.written, List.map_append]
    refine h.order.snoc fun hn => ?_
    rw [hn, Stream.place, if_neg (fun h => Bool.noConfusion h.1), Nat.sub_self]
  · intro e' he' o ho
    show ((writeStringTable t').drop o).take e'.item.length = e'.item
    rw [hholds.written]
    rcases List.mem_append.mp he' with he' | he'
    · rw [Stream.add, List.append_assoc]
      exact stands_append (h.offsets e' he' o ho) _
    · rw [List.mem_singleton.mp he'] at ho ⊢
      rw [hoffset o ho, Stream.take_place, List.take_length]
  · intro hn e' he' p hp
    rcases List.mem_append.mp he' with he' | he'
    · exact (h.pointers hn e' he' p hp).extends hext
    · rw [List.mem_singleton.mp he'] at hp ⊢
      exact hpointer hn p hp
  · show Holds noSplit t' (writeStringTable t')
    rw [hholds.written]
    exact hholds
  · show (writeStringTable t').length < 2 ^ 32
    rw [hholds.written, hlen]
    exact hlt

/-- the additions that go through `AddToStringTable` -/
theorem Kept.item (h : Kept noSplit w) {a : Addition} (hc : Clear noSplit a w) (data : List UInt8)
    (nul : Bool) (hitem : a.item = data ++ if nul then [0] else []) (ret : Pointer → ℕ → Returned)
    (hoffset : ∀ p o o', (ret p o).offset = some o' → o' = o)
    (hpointer : ∀ p o p', (ret p o).pointer = some p' → p' = p)
    (hrun : a.run junk w.table =
      (addToStringTable junk w.table data nul).map fun r => (ret r.1 r.2.1, r.2.2)) :
    ∃ w', World.step junk a w = some w' ∧ Kept noSplit w' := by
  obtain ⟨p, t', hadd, hholds, hext, hp⟩ :=
    addToStringTable_spec junk data nul h.holds hitem hc.short hc.below
  refine ⟨⟨t', w.entries ++ [⟨a.item, ret p (Stream.place noSplit (writeStringTable w.table) a.item)⟩]⟩,
    ?_, ?_⟩
  · rw [World.step, hrun, hadd]
    rfl
  · refine h.added _ _ hc.below hholds hext (fun o ho => hoffset _ _ _ ho) fun hn q hq => ?_
    rw [hpointer _ _ _ hq]
    exact hp hn

theorem Kept.zero (h : Kept noSplit w) {len : ℕ} (hc : Clear noSplit (.zero len) w) :
    ∃ w', World.step junk (.zero len) w = some w' ∧ Kept noSplit w' := by
  have hfit := hc.zero len rfl
  have hlen := h.holds.length
  have hplace : Stream.place noSplit (writeStringTable w.table) (List.replicate len 0) =
      (writeStringTable w.table).length := by
    refine if_neg fun hs => ?_
    rw [List.length_replicate, hlen] at hs
    unfold strBlockSize at *
    omega
  refine ⟨_, ?_, h.added { w.table with last := w.table.last.put (List.replicate len 0) }
    ⟨List.replicate len 0, ⟨none, none⟩⟩ hc.below ?_
    (Extends.put w.table _ _) (fun _ h => by cases h) fun _ _ h => by cases h⟩
  · rw [World.step, Addition.run, zeroStringTable, if_pos hfit]
    rfl
  · show Holds noSplit _ (Stream.add noSplit (writeStringTable w.table) (List.replicate len 0))
    rw [Stream.add, hplace, Nat.sub_self, List.replicate_zero, List.append_nil]
    refine h.holds.put _ ?_
    rw [List.length_replicate]
    exact hfit

theorem Kept.step (a : Addition) (w : World) (h : Kept noSplit w) (hc : Clear noSplit a w) :
    ∃ w', World.step junk a w = some w' ∧ Kept noSplit w' := by
  cases a with
  | char c =>
    exact h.item hc [c] false rfl (fun _ _ => ⟨none, none⟩) (fun _ _ _ h => by cases h)
      (fun _ _ _ h => by cases h) rfl
  | string s =>
    exact h.item hc (cString s) false (List.append_nil _).symm (fun p _ => ⟨some p, none⟩)
      (fun _ _ _ h => by cases h) (fun _ _ _ h => (Option.some.inj h).symm) rfl
  | stringOffs s =>
    exact h.item hc (cString s) false (List.append_nil _).symm (fun _ o => ⟨none, some o⟩)
      (fun _ _ _ h => (Option.some.inj h).symm) (fun _ _ _ h => by cases h) rfl
  | buffer data =>
    exact h.item hc data false (List.append_nil _).symm (fun p _ => ⟨some p, none⟩)
      (fun _ _ _ h => by cases h) (fun _ _ _ h => (Option.some.inj h).symm) rfl
  | symbol data =>
    exact h.item hc data true rfl (fun p _ => ⟨some p, none⟩)
      (fun _ _ _ h => by cases h) (fun _ _ _ h => (Option.some.inj h).symm) rfl
  | zero len => exact h.zero hc

end

/-- every run of additions goes through, and the table is what was added to it -/
theorem table_right (junk : ℕ → ℕ → UInt8) (dontsplit : Bool) (es : List Addition)
    (hc : Events.Along (World.step junk) (Clear dontsplit) es (World.init junk dontsplit)) :
    ∃ w, Events.run (World.step junk) es (World.init junk dontsplit) = some w ∧ Right dontsplit w := by
  obtain ⟨w, hrun, hw⟩ := Events.run_total (fun e w h hc => Kept.step e w h hc) es _
    (Kept.init junk dontsplit) hc
  exact ⟨w, hrun, hw.toRight⟩

/-- two symbols in a table whose items are not split -/
theorem symbols_right : ∃ w, Events.run (World.step fun _ _ => 0xCC)
    [.symbol [65, 66], .stringOffs [67]] (World.init (fun _ _ => 0xCC) true) = some w ∧ Right true w := by
  refine table_right (fun _ _ => 0xCC) true [.symbol [65, 66], .stringOffs [67]] ?_
  refine ⟨⟨by decide, fun _ h => Addition.noConfusion h, by decide⟩, fun w1 h1 => ?_⟩
  obtain rfl := Option.some.inj h1
  exact ⟨⟨by decide, fun _ h => Addition.noConfusion h, by decide⟩, fun _ _ => trivial⟩

/-- zeros for more than a block -/
theorem longZero_wrong : ¬ ∃ w, Events.run (World.step fun _ _ => 0xCC) [.zero 5000]
    (World.init (fun _ _ => 0xCC) false) = some w ∧ Right false w := by
  have hlong : strBlockSize < 5000 := by
    unfold strBlockSize
    omega
  have hnone (t : StringTable) : zeroStringTable t 5000 = none :=
    if_neg (Nat.not_le.mpr (lt_of_lt_of_le hlong (Nat.le_add_left _ _)))
  rintro ⟨w, h, -⟩
  obtain ⟨w', h', -⟩ := Events.run_cons.mp h
  rw [World.step, Addition.run, hnone] at h'
  cases h'

end StrTab
