import Mathlib

/-!
# The table of code lengths: `encode.c`, `decode.c`

* `writeCodes`     the bytes that `WriteCodes` writes
* `makeShannonTrie`     `MakeShannonTrie`, up to its call of `AssignCodes`
* `runs`     the stretches of equal lengths that both loops cut a table into
* `codes_recovered_iff`     the table is read back exactly when it has at most 256 of them and `len` has
  nothing else where no code is assigned
-/

namespace Wpack

/-- `NUM_CHARS` -/
def numChars : ℕ := 314

/-- `MAX_CODE_BITS` -/
def maxCodeBits : UInt8 := 16

/-! ## writing -/

structure Count where
  num : ℕ
  prevlen : UInt8
  runlen : UInt8

/-- one turn of the loop that counts -/
def countStep (s : Count) (l : UInt8) : Count :=
  if l ≠ s.prevlen ∨ (s.prevlen = 0 ∧ s.runlen = 128) ∨ (s.prevlen ≠ 0 ∧ s.runlen = 8) then
    ⟨s.num + 1, l, 1⟩
  else { s with runlen := s.runlen + 1 }

/-- the byte of a run -/
def entryByte (prevlen : UInt8) (num : ℕ) : UInt8 :=
  if prevlen = 0 then UInt8.ofNat (0x80 + num - 1)
  else UInt8.ofNat ((num - 1) * 16 + prevlen.toNat - 1)

/-- the loop that writes the runs, and the last one -/
def emitLoop : List UInt8 → UInt8 → ℕ → List UInt8
  | [], prevlen, num => [entryByte prevlen num]
  | l :: lens, prevlen, num =>
    if l ≠ prevlen ∨ (prevlen ≠ 0 ∧ num = 8) ∨ (prevlen = 0 ∧ num = 128) then
      entryByte prevlen num :: emitLoop lens l 1
    else emitLoop lens prevlen (num + 1)

/-- `none` is the exit where a length is too long -/
def writeCodes (lens : List UInt8) : Option (List UInt8) :=
  if ∃ l ∈ lens, maxCodeBits < l then none
  else
    let num := (lens.foldl countStep ⟨0, 0xFF, 0⟩).num
    some (UInt8.ofNat (num - 1) :: emitLoop lens (lens.headD 0) 0)

/-! ## reading -/

/-- `len`, the part of `indicies` that is filled, and the character that is next -/
structure Trie where
  curr : ℕ
  len : List UInt8
  indicies : List ℕ

/-- the inner loop; `none` is a write outside of the arrays -/
def setRun (entrylen : UInt8) : ℕ → Trie → Option Trie
  | 0, t => some t
  | entrynum + 1, t =>
    if t.curr < numChars ∧ t.indicies.length < numChars then
      setRun entrylen entrynum ⟨t.curr + 1, t.len.set t.curr entrylen, t.indicies ++ [t.curr]⟩
    else none

def readEntry (entry : UInt8) (t : Trie) : Option Trie :=
  if entry &&& 0x80 ≠ 0 then some { t with curr := t.curr + ((entry &&& 0x7F).toNat + 1) }
  else setRun ((entry &&& 0xF) + 1) ((entry >>> 4).toNat + 1) t

def readEntries : ℕ → Trie → List UInt8 → Option (Trie × List UInt8)
  | 0, t, data => some (t, data)
  | _ + 1, _, [] => none
  | numcoded + 1, t, entry :: data => (readEntry entry t).bind fun t => readEntries numcoded t data

/-- `len` is what the table before has left there -/
def makeShannonTrie (len : List UInt8) : List UInt8 → Option (Trie × List UInt8)
  | [] => none
  | numcoded :: data => readEntries (numcoded.toNat + 1) ⟨0, len, []⟩ data

/-! ## runs -/

/-- the rest of a table behind `num` entries `prevlen` -/
def runsFrom : UInt8 → ℕ → List UInt8 → List (UInt8 × ℕ)
  | prevlen, num, [] => [(prevlen, num)]
  | prevlen, num, l :: lens =>
    if l ≠ prevlen ∨ (prevlen ≠ 0 ∧ num = 8) ∨ (prevlen = 0 ∧ num = 128) then
      (prevlen, num) :: runsFrom l 1 lens
    else runsFrom prevlen (num + 1) lens

/-- the stretches of equal lengths, at most 128 zeros or 8 others in one -/
def runs : List UInt8 → List (UInt8 × ℕ)
  | [] => []
  | l :: lens => runsFrom l 1 lens

/-- the entries of a run -/
def spread (rs : List (UInt8 × ℕ)) : List UInt8 := rs.flatMap fun r => List.replicate r.2 r.1

/-- a run that has a byte -/
structure Fits (r : UInt8 × ℕ) : Prop where
  some : 1 ≤ r.2
  most : r.2 ≤ if r.1 = 0 then 128 else 8
  short : r.1 ≤ maxCodeBits

theorem runsFrom_ne_nil (prevlen : UInt8) (num : ℕ) (lens : List UInt8) : runsFrom prevlen num lens ≠ [] := by
  induction lens generalizing prevlen num with
  | nil => exact List.cons_ne_nil _ _
  | cons l lens ih =>
    rw [runsFrom]
    split
    · exact List.cons_ne_nil _ _
    · exact ih _ _

theorem spread_runsFrom (prevlen : UInt8) (num : ℕ) (lens : List UInt8) :
    spread (runsFrom prevlen num lens) = List.replicate num prevlen ++ lens := by
  induction lens generalizing prevlen num with
  | nil => simp [runsFrom, spread]
  | cons l lens ih =>
    rw [runsFrom]
    by_cases hc : l ≠ prevlen ∨ (prevlen ≠ 0 ∧ num = 8) ∨ (prevlen = 0 ∧ num = 128)
    · rw [if_pos hc, spread, List.flatMap_cons, ← spread, ih]
      rfl
    · rw [if_neg hc, ih]
      have hl : l = prevlen := not_not.mp (not_or.mp hc).1
      rw [hl, List.replicate_succ', List.append_assoc]
      rfl

theorem spread_runs (lens : List UInt8) : spread (runs lens) = lens := by
  cases lens with
  | nil => rfl
  | cons l lens =>
    rw [runs, spread_runsFrom]
    rfl

theorem runsFrom_fits {prevlen : UInt8} {num : ℕ} {lens : List UInt8} (h : Fits (prevlen, num))
    (hl : ∀ l ∈ lens, l ≤ maxCodeBits) : ∀ r ∈ runsFrom prevlen num lens, Fits r := by
  induction lens generalizing prevlen num with
  | nil =>
    intro r hr
    rw [List.mem_singleton.mp hr]
    exact h
  | cons l lens ih =>
    have hrest := fun x hx => hl x (List.mem_cons_of_mem l hx)
    rw [runsFrom]
    by_cases hc : l ≠ prevlen ∨ (prevlen ≠ 0 ∧ num = 8) ∨ (prevlen = 0 ∧ num = 128)
    · rw [if_pos hc]
      have hone : Fits (l, 1) := by
        refine ⟨le_refl _, ?_, hl l List.mem_cons_self⟩
        split <;> omega
      intro r hr
      rcases List.mem_cons.mp hr with rfl | hr
      · exact h
      · exact ih hone hrest r hr
    · rw [if_neg hc]
      refine ih ⟨Nat.le_add_left 1 num, ?_, h.short⟩ hrest
      obtain ⟨-, hc2⟩ := not_or.mp hc
      obtain ⟨hc8, hc128⟩ := not_or.mp hc2
      have hm := h.most
      dsimp only at hm ⊢
      by_cases h0 : prevlen = 0
      · rw [if_pos h0] at hm ⊢
        have : num ≠ 128 := fun e => hc128 ⟨h0, e⟩
        omega
      · rw [if_neg h0] at hm ⊢
        have : num ≠ 8 := fun e => hc8 ⟨h0, e⟩
        omega

theorem runs_fits {lens : List UInt8} (hl : ∀ l ∈ lens, l ≤ maxCodeBits) : ∀ r ∈ runs lens, Fits r := by
  cases lens with
  | nil => exact fun r hr => absurd hr List.not_mem_nil
  | cons l lens =>
    refine runsFrom_fits ⟨le_refl _, ?_, hl l List.mem_cons_self⟩ fun x hx => hl x (List.mem_cons_of_mem l hx)
    dsimp only
    split <;> omega

/-! ## what is written -/

theorem emitLoop_eq (lens : List UInt8) (prevlen : UInt8) (num : ℕ) :
    emitLoop lens prevlen num = (runsFrom prevlen num lens).map fun r => entryByte r.1 r.2 := by
  induction lens generalizing prevlen num with
  | nil => rfl
  | cons l lens ih =>
    rw [emitLoop, runsFrom]
    split
    · rw [List.map_cons, ih]
    · exact ih _ _

/-- the loop that counts cuts the table where the other one does -/
theorem count_eq (lens : List UInt8) (num : ℕ) (prevlen : UInt8) {n : ℕ} (hn : n ≤ 128) (hp : prevlen ≠ 0 → n ≤ 8) :
    (lens.foldl countStep ⟨num, prevlen, UInt8.ofNat n⟩).num + 1 = num + (runsFrom prevlen n lens).length := by
  induction lens generalizing num prevlen n with
  | nil => rfl
  | cons l lens ih =>
    have heq : ∀ k < 256, UInt8.ofNat n = UInt8.ofNat k ↔ n = k := fun k hk => by
      rw [← UInt8.toNat_inj, UInt8.toNat_ofNat', UInt8.toNat_ofNat', Nat.mod_eq_of_lt (by omega),
        Nat.mod_eq_of_lt hk]
    have h8 : UInt8.ofNat n = 8 ↔ n = 8 := heq 8 (by omega)
    have h128 : UInt8.ofNat n = 128 ↔ n = 128 := heq 128 (by omega)
    have hcond : (l ≠ prevlen ∨ (prevlen = 0 ∧ UInt8.ofNat n = 128) ∨ (prevlen ≠ 0 ∧ UInt8.ofNat n = 8)) ↔
        (l ≠ prevlen ∨ (prevlen ≠ 0 ∧ n = 8) ∨ (prevlen = 0 ∧ n = 128)) := by
      rw [h8, h128]
      exact or_congr_right or_comm
    rw [List.foldl_cons, countStep, runsFrom]
    dsimp only
    by_cases hc : l ≠ prevlen ∨ (prevlen ≠ 0 ∧ n = 8) ∨ (prevlen = 0 ∧ n = 128)
    · rw [if_pos (hcond.mpr hc), if_pos hc, List.length_cons]
      have := @ih (num + 1) l 1 (by omega) (by omega)
      rw [show UInt8.ofNat 1 = 1 from rfl] at this
      omega
    · rw [if_neg fun h => hc (hcond.mp h), if_neg hc]
      obtain ⟨-, hc2⟩ := not_or.mp hc
      obtain ⟨hc8, hc128⟩ := not_or.mp hc2
      have hn' : n ≠ 128 := by
        intro e
        by_cases h0 : prevlen = 0
        · exact hc128 ⟨h0, e⟩
        · have := hp h0
          omega
      have := @ih num prevlen (n + 1) (by omega) (fun h0 => by
        have h1 := hp h0
        have h2 : n ≠ 8 := fun e => hc8 ⟨h0, e⟩
        omega)
      rw [UInt8.ofNat_add] at this
      exact this

theorem count_runs {lens : List UInt8} (h0 : lens ≠ []) (hl : ∀ l ∈ lens, l ≤ maxCodeBits) :
    (lens.foldl countStep ⟨0, 0xFF, 0⟩).num = (runs lens).length := by
  obtain ⟨l, rest, rfl⟩ := List.exists_cons_of_ne_nil h0
  have hne : l ≠ 0xFF := by
    intro e
    exact absurd (e ▸ hl l List.mem_cons_self) (by decide)
  have h := @count_eq rest 1 l 1 (by omega) (by omega)
  rw [List.foldl_cons, countStep, if_pos (Or.inl hne), runs]
  rw [show UInt8.ofNat 1 = 1 from rfl] at h
  dsimp only
  rw [Nat.zero_add]
  omega

/-- the bytes of a table are the number of its runs and then the runs -/
theorem writeCodes_eq {lens : List UInt8} (h0 : lens ≠ []) (hl : ∀ l ∈ lens, l ≤ maxCodeBits) :
    writeCodes lens = some (UInt8.ofNat ((runs lens).length - 1) ::
      (runs lens).map fun r => entryByte r.1 r.2) := by
  have hno : ¬ ∃ l ∈ lens, maxCodeBits < l := fun ⟨l, hm, hlt⟩ => UInt8.not_lt.mpr (hl l hm) hlt
  rw [writeCodes, if_neg hno]
  dsimp only
  rw [count_runs h0 hl]
  obtain ⟨l, rest, rfl⟩ := List.exists_cons_of_ne_nil h0
  rw [List.headD_cons, emitLoop, if_neg (by simp), emitLoop_eq]
  rfl

/-! ## what is read back -/

/-- the characters of a stretch of the table that have a code, from position `i` on -/
def usedFrom (i : ℕ) (lens : List UInt8) : List ℕ := ((lens.zipIdx i).filter fun p => p.1 ≠ 0).map Prod.snd

/-- `len` after a table was read: an entry of an unused character is left -/
def merge (lens old : List UInt8) : List UInt8 := List.zipWith (fun l o => if l = 0 then o else l) lens old

theorem usedFrom_append (i : ℕ) (a b : List UInt8) :
    usedFrom i (a ++ b) = usedFrom i a ++ usedFrom (i + a.length) b := by
  rw [usedFrom, List.zipIdx_append, List.filter_append, List.map_append]
  rfl

theorem usedFrom_cons (i : ℕ) (l : UInt8) (a : List UInt8) :
    usedFrom i (l :: a) = (if l = 0 then [] else [i]) ++ usedFrom (i + 1) a := by
  rw [usedFrom, List.zipIdx_cons]
  by_cases h : l = 0
  · rw [List.filter_cons_of_neg (by simp [h]), if_pos h]
    rfl
  · rw [List.filter_cons_of_pos (by simp [h]), if_neg h]
    rfl

theorem usedFrom_length_le (i : ℕ) (a : List UInt8) : (usedFrom i a).length ≤ a.length := by
  rw [usedFrom, List.length_map]
  refine le_trans (List.length_filter_le _ _) ?_
  rw [List.length_zipIdx]

/-- the trie after the entries `lens` of a table that follows `before` -/
def Trie.after (before lens old : List UInt8) (used : List ℕ) : Trie :=
  ⟨before.length + lens.length, before ++ merge lens (old.take lens.length) ++ old.drop lens.length,
    used ++ usedFrom before.length lens⟩

theorem setRun_spec (l : UInt8) (hl : l ≠ 0) (n : ℕ) : ∀ (before old : List UInt8) (used : List ℕ),
    n ≤ old.length → before.length + n ≤ numChars → used.length ≤ before.length →
    setRun l n ⟨before.length, before ++ old, used⟩ = some (Trie.after before (List.replicate n l) old used) := by
  induction n with
  | zero =>
    intro before old used _ _ _
    simp [setRun, Trie.after, merge, usedFrom]
  | succ n ih =>
    intro before old used hn hin hused
    obtain ⟨o, old, rfl⟩ := List.exists_cons_of_length_pos (Nat.lt_of_lt_of_le (Nat.succ_pos n) hn)
    rw [List.length_cons] at hn
    have hset : (before ++ o :: old).set before.length l = (before ++ [l]) ++ old := by
      rw [List.set_append_right _ _ (le_refl _), Nat.sub_self, List.set_cons_zero, List.append_assoc]
      rfl
    have hlen : (before ++ [l]).length = before.length + 1 := List.length_append
    have hrest := ih (before ++ [l]) old (used ++ [before.length]) (by omega) (by omega) (by
      rw [List.length_append, hlen]
      exact Nat.succ_le_succ hused)
    rw [hlen] at hrest
    rw [setRun, if_pos ⟨by dsimp only; omega, by dsimp only; omega⟩]
    dsimp only
    rw [hset, hrest]
    simp only [Trie.after, hlen, List.replicate_succ, List.length_cons, List.take_succ_cons, List.drop_succ_cons,
      merge, List.zipWith_cons_cons, if_neg hl, usedFrom_cons, List.length_replicate, List.append_assoc,
      List.cons_append, List.nil_append]
    congr 2
    omega

theorem merge_length (lens old : List UInt8) (h : lens.length ≤ old.length) :
    (merge lens (old.take lens.length)).length = lens.length := by
  rw [merge, List.length_zipWith, List.length_take, Nat.min_eq_left h, Nat.min_self]

theorem merge_zeros (n : ℕ) (old : List UInt8) (h : n ≤ old.length) :
    merge (List.replicate n 0) (old.take n) = old.take n := by
  apply List.ext_getElem
  · rw [merge, List.length_zipWith, List.length_replicate, List.length_take, Nat.min_eq_left h, Nat.min_self]
  · intro i h1 h2
    simp [merge]

theorem usedFrom_zeros (i n : ℕ) : usedFrom i (List.replicate n 0) = [] := by
  induction n generalizing i with
  | zero => rfl
  | succ n ih =>
    rw [List.replicate_succ, usedFrom_cons, if_pos rfl, ih]
    rfl

theorem merge_append (a b old : List UInt8) (h : a.length ≤ old.length) :
    merge (a ++ b) (old.take (a ++ b).length) =
      merge a (old.take a.length) ++ merge b ((old.drop a.length).take b.length) := by
  rw [List.length_append, List.take_add, merge, List.zipWith_append]
  · rfl
  · rw [List.length_take, Nat.min_eq_left h]

/-- the entries of two stretches are the second ones after the first ones -/
theorem Trie.after_append (before a b old : List UInt8) (used : List ℕ) (h : a.length ≤ old.length) :
    Trie.after before (a ++ b) old used =
      Trie.after (before ++ merge a (old.take a.length)) b (old.drop a.length)
        (used ++ usedFrom before.length a) := by
  have hlen : (before ++ merge a (old.take a.length)).length = before.length + a.length := by
    rw [List.length_append, merge_length a old h]
  rw [Trie.after, Trie.after, merge_append a b old h, usedFrom_append, hlen]
  simp only [List.append_assoc, List.length_append, List.drop_drop, Nat.add_assoc]

/-- the two kinds of bytes -/
theorem entryByte_zeros : ∀ n < 128, UInt8.ofNat (0x80 + (n + 1) - 1) &&& 0x80 ≠ 0 ∧
    (UInt8.ofNat (0x80 + (n + 1) - 1) &&& 0x7F).toNat = n := by decide +kernel

theorem entryByte_lens : ∀ l < 16, ∀ n < 8, UInt8.ofNat (n * 16 + (l + 1) - 1) &&& 0x80 = 0 ∧
    (UInt8.ofNat (n * 16 + (l + 1) - 1) >>> 4).toNat = n ∧
    (UInt8.ofNat (n * 16 + (l + 1) - 1) &&& 0xF) + 1 = UInt8.ofNat (l + 1) := by decide +kernel

/-- a byte of a run gives back its entries -/
theorem readEntry_spec {r : UInt8 × ℕ} (hr : Fits r) {before old : List UInt8} {used : List ℕ}
    (hn : r.2 ≤ old.length) (hin : before.length + r.2 ≤ numChars) (hused : used.length ≤ before.length) :
    readEntry (entryByte r.1 r.2) ⟨before.length, before ++ old, used⟩ =
      some (Trie.after before (List.replicate r.2 r.1) old used) := by
  obtain ⟨l, n⟩ := r
  obtain ⟨h1, hmost, hshort⟩ := hr
  dsimp only at *
  obtain ⟨n, rfl⟩ := Nat.exists_eq_succ_of_ne_zero (Nat.one_le_iff_ne_zero.mp h1)
  by_cases h0 : l = 0
  · rw [if_pos h0] at hmost
    obtain ⟨hbit, hnum⟩ := entryByte_zeros n hmost
    rw [readEntry, entryByte, if_pos h0, if_pos hbit, hnum, h0, Trie.after, List.length_replicate,
      merge_zeros _ _ hn, usedFrom_zeros, List.append_assoc, List.take_append_drop, List.append_nil]
  · rw [if_neg h0] at hmost
    have hl16 : l.toNat ≤ 16 := UInt8.le_iff_toNat_le.mp hshort
    have hl0 : l.toNat ≠ 0 := fun e => h0 (UInt8.toNat_inj.mp e)
    obtain ⟨k, hk⟩ := Nat.exists_eq_succ_of_ne_zero hl0
    have hof : UInt8.ofNat (k + 1) = l := by
      rw [← Nat.succ_eq_add_one, ← hk, UInt8.ofNat_toNat]
    obtain ⟨hbit, hnum, hlen⟩ := entryByte_lens k (by omega) n hmost
    rw [hof] at hlen
    rw [readEntry, entryByte, if_neg h0, hk, Nat.succ_sub_one, Nat.succ_eq_add_one, if_neg (not_not.mpr hbit),
      hlen, hnum]
    exact setRun_spec l h0 (n + 1) before old used hn hin hused

/-- the bytes of the runs give back the table -/
theorem readEntries_spec (rs : List (UInt8 × ℕ)) : ∀ (before old : List UInt8) (used : List ℕ) (data : List UInt8),
    (∀ r ∈ rs, Fits r) → (spread rs).length ≤ old.length → before.length + (spread rs).length ≤ numChars →
    used.length ≤ before.length →
    readEntries rs.length ⟨before.length, before ++ old, used⟩ ((rs.map fun r => entryByte r.1 r.2) ++ data) =
      some (Trie.after before (spread rs) old used, data) := by
  induction rs with
  | nil =>
    intro before old used data _ _ _ _
    simp [readEntries, Trie.after, spread, merge, usedFrom]
  | cons r rs ih =>
    intro before old used data hr hn hin hused
    have hsp : spread (r :: rs) = List.replicate r.2 r.1 ++ spread rs := List.flatMap_cons
    have hlen : (List.replicate r.2 r.1).length = r.2 := List.length_replicate
    rw [hsp, List.length_append, hlen] at hn hin
    have hle : (List.replicate r.2 r.1).length ≤ old.length := by omega
    have hb : (before ++ merge (List.replicate r.2 r.1) (old.take (List.replicate r.2 r.1).length)).length
        = before.length + r.2 := by
      rw [List.length_append, merge_length _ _ hle, hlen]
    have hrest := ih (before ++ merge (List.replicate r.2 r.1) (old.take (List.replicate r.2 r.1).length))
      (old.drop r.2) (used ++ usedFrom before.length (List.replicate r.2 r.1)) data
      (fun x hx => hr x (List.mem_cons_of_mem r hx)) (by rw [List.length_drop]; omega) (by omega) (by
        have := usedFrom_length_le before.length (List.replicate r.2 r.1)
        rw [List.length_append, hb]
        omega)
    have hone := readEntry_spec (hr r List.mem_cons_self) (by omega : r.2 ≤ old.length)
      (by omega : before.length + r.2 ≤ numChars) hused
    have hstate : Trie.after before (List.replicate r.2 r.1) old used =
        ⟨before.length + r.2, before ++ merge (List.replicate r.2 r.1) (old.take (List.replicate r.2 r.1).length)
          ++ old.drop r.2, used ++ usedFrom before.length (List.replicate r.2 r.1)⟩ := by
      rw [Trie.after, hlen]
    rw [List.map_cons, List.cons_append, List.length_cons, readEntries, hone, Option.bind_some, hsp,
      Trie.after_append _ _ _ _ _ hle, hstate, hlen]
    rw [hb, hlen] at hrest
    exact hrest

/-- reading takes the bytes that the first one counts -/
theorem readEntries_length (n : ℕ) : ∀ (t : Trie) (data : List UInt8) (r : Trie × List UInt8),
    readEntries n t data = some r → n + r.2.length = data.length := by
  induction n with
  | zero =>
    intro t data r h
    rw [readEntries, Option.some_inj] at h
    rw [← h, Nat.zero_add]
  | succ n ih =>
    intro t data r h
    cases data with
    | nil => exact absurd h (by rw [readEntries]; exact (Option.some_ne_none r).symm)
    | cons b data =>
      rw [readEntries] at h
      obtain ⟨t', -, h'⟩ := Option.bind_eq_some_iff.mp h
      have := ih t' data r h'
      rw [List.length_cons]
      omega

/-! ## a table and what comes of it -/

/-- the table comes back, with the characters that have a code, and nothing more is read -/
def Recovered (lens old rest : List UInt8) : Prop :=
  ∃ bytes, writeCodes lens = some bytes ∧
    makeShannonTrie old (bytes ++ rest) = some (⟨numChars, lens, usedFrom 0 lens⟩, rest)

/-- `len` is right where no code is assigned before the table is read -/
def Clear (lens old : List UInt8) : Prop := ∀ i < numChars, lens[i]? = some 0 → old[i]? = some 0

theorem merge_eq_iff {lens old : List UInt8} (h : lens.length = numChars) (h' : old.length = numChars) :
    merge lens old = lens ↔ Clear lens old := by
  constructor
  · intro he i hi h0
    have hl : i < lens.length := by omega
    have ho : i < old.length := by omega
    have hi' := congrArg (fun l => l[i]?) he
    rw [List.getElem?_eq_getElem hl, Option.some_inj] at h0
    simp only [merge, List.getElem?_zipWith, List.getElem?_eq_getElem hl, List.getElem?_eq_getElem ho, h0,
      if_pos] at hi'
    rw [List.getElem?_eq_getElem ho]
    simpa using hi'
  · intro hc
    refine List.ext_getElem (by rw [merge, List.length_zipWith, h, h', Nat.min_self]) fun i h1 h2 => ?_
    have ho : i < old.length := by omega
    simp only [merge, List.getElem_zipWith]
    by_cases h0 : lens[i] = 0
    · have hz := hc i (by omega) (by rw [List.getElem?_eq_getElem h2, h0])
      rw [List.getElem?_eq_getElem ho, Option.some_inj] at hz
      rw [if_pos h0, hz, h0]
    · rw [if_neg h0]

section
variable {lens old : List UInt8} (rest : List UInt8) (hlen : lens.length = numChars)
  (hl : ∀ l ∈ lens, l ≤ maxCodeBits)

include hlen in
theorem ne_nil_of_length : lens ≠ [] := by
  intro e
  rw [e] at hlen
  exact absurd hlen (by decide)

include hlen hl in
/-- the count fits, and all runs are read -/
theorem trie_of_few (hold : old.length = numChars) (h256 : (runs lens).length ≤ 256) :
    makeShannonTrie old ((UInt8.ofNat ((runs lens).length - 1) ::
      (runs lens).map fun r => entryByte r.1 r.2) ++ rest) =
      some (⟨numChars, merge lens old, usedFrom 0 lens⟩, rest) := by
  have hpos : 1 ≤ (runs lens).length := by
    obtain ⟨l, ls, rfl⟩ := List.exists_cons_of_ne_nil (ne_nil_of_length hlen)
    exact List.length_pos_of_ne_nil (runsFrom_ne_nil l 1 ls)
  have hcount : (UInt8.ofNat ((runs lens).length - 1)).toNat + 1 = (runs lens).length := by
    rw [UInt8.toNat_ofNat', Nat.mod_eq_of_lt (by omega)]
    omega
  have hread := readEntries_spec (runs lens) [] old [] rest (runs_fits hl)
    (by rw [spread_runs, hlen, hold]) (by rw [spread_runs, hlen]; exact le_refl _) (le_refl _)
  have hafter : Trie.after [] (spread (runs lens)) old [] = ⟨numChars, merge lens old, usedFrom 0 lens⟩ := by
    rw [spread_runs, Trie.after, hlen, ← hold, List.take_length, List.drop_length, List.append_nil]
    simp
  rw [List.cons_append, makeShannonTrie, hcount, ← hafter]
  exact hread

include hlen hl in
/-- the count wraps, and fewer runs are read than were written -/
theorem not_recovered_of_many (h256 : 256 < (runs lens).length) : ¬ Recovered lens old rest := by
  rintro ⟨bytes, hb, hr⟩
  rw [writeCodes_eq (ne_nil_of_length hlen) hl, Option.some_inj] at hb
  rw [← hb, List.cons_append, makeShannonTrie] at hr
  have hcount := readEntries_length _ _ _ _ hr
  rw [List.length_append, List.length_map] at hcount
  have := (UInt8.ofNat ((runs lens).length - 1)).toNat_lt
  dsimp only at hcount
  omega

/-- a table is recovered exactly when its runs can be counted in a byte, and `len` has nothing else -/
theorem codes_recovered_iff (hlen : lens.length = numChars) (hl : ∀ l ∈ lens, l ≤ maxCodeBits)
    (hold : old.length = numChars) :
    Recovered lens old rest ↔ (runs lens).length ≤ 256 ∧ Clear lens old := by
  by_cases h256 : (runs lens).length ≤ 256
  · have hw := writeCodes_eq (ne_nil_of_length hlen) hl
    have htrie := trie_of_few rest hlen hl hold h256
    rw [and_iff_right h256, ← merge_eq_iff hlen hold]
    constructor
    · rintro ⟨bytes, hb, hr⟩
      rw [hw, Option.some_inj] at hb
      rw [← hb, htrie, Option.some_inj] at hr
      exact congrArg (fun r => r.1.len) hr
    · intro hm
      rw [hm] at htrie
      exact ⟨_, hw, htrie⟩
  · exact iff_of_false (not_recovered_of_many rest hlen hl (Nat.lt_of_not_le h256)) fun h => h256 h.1

end

/-! ## two tables -/

/-- equal lengths up to the limit make one run -/
theorem runsFrom_same {prevlen : UInt8} (rest : List UInt8) (k : ℕ) : ∀ {num : ℕ},
    num + k ≤ (if prevlen = 0 then 128 else 8) →
    runsFrom prevlen num (List.replicate k prevlen ++ rest) = runsFrom prevlen (num + k) rest := by
  induction k with
  | zero =>
    intro num _
    rfl
  | succ k ih =>
    intro num h
    have hno : ¬ (prevlen ≠ prevlen ∨ (prevlen ≠ 0 ∧ num = 8) ∨ (prevlen = 0 ∧ num = 128)) := by
      rintro (hne | ⟨h0, h8⟩ | ⟨h0, h128⟩)
      · exact hne rfl
      · rw [if_neg h0] at h
        omega
      · rw [if_pos h0] at h
        omega
    rw [List.replicate_succ, List.cons_append, runsFrom, if_neg hno, ih (by omega)]
    congr 1
    omega

/-- runs of eight equal lengths behind one of them -/
theorem runsFrom_eights {l : UInt8} (hl : l ≠ 0) (rest : List UInt8) (m : ℕ) :
    runsFrom l 8 (List.replicate (8 * m) l ++ rest) = List.replicate m (l, 8) ++ runsFrom l 8 rest := by
  induction m with
  | zero => rfl
  | succ m ih =>
    have e : List.replicate (8 * (m + 1)) l
        = l :: (List.replicate 7 l ++ List.replicate (8 * m) l) := by
      rw [List.replicate_append_replicate, ← List.replicate_succ]
      congr 1
      omega
    rw [e, List.cons_append, runsFrom, if_pos (Or.inr (Or.inl ⟨hl, rfl⟩)), List.append_assoc,
      runsFrom_same _ 7 (by rw [if_neg hl]), ih]
    rfl

/-- where no two lengths side by side are equal, each is a run of its own -/
theorem runsFrom_apart (lens : List UInt8) : ∀ {prevlen : UInt8} {num : ℕ},
    (prevlen :: lens).IsChain (· ≠ ·) → (runsFrom prevlen num lens).length = lens.length + 1 := by
  induction lens with
  | nil =>
    intro prevlen num _
    rfl
  | cons l lens ih =>
    intro prevlen num h
    obtain ⟨hne, h⟩ := List.isChain_cons_cons.mp h
    rw [runsFrom, if_pos (Or.inl hne.symm), List.length_cons, ih h]
    rfl

/-- a table of literals only -/
theorem literals_recovered : Recovered (List.replicate 256 8 ++ List.replicate 58 0) (List.replicate 314 0) [7] := by
  have hruns : runs (List.replicate 256 8 ++ List.replicate 58 0)
      = List.replicate 31 (8, 8) ++ [(8, 8), (0, 58)] := by
    have e : List.replicate 256 (8 : UInt8) ++ List.replicate 58 0
        = 8 :: (List.replicate 7 8 ++ (List.replicate (8 * 31) 8 ++ List.replicate 58 0)) := rfl
    rw [e, runs, runsFrom_same _ 7 (by decide), runsFrom_eights (by decide),
      show List.replicate 58 (0 : UInt8) = 0 :: (List.replicate 57 0 ++ []) from rfl, runsFrom,
      if_pos (Or.inl (by decide)), runsFrom_same [] 57 (by decide), runsFrom]
  refine (codes_recovered_iff [7] ?_ ?_ ?_).mpr ⟨?_, fun i hi _ => ?_⟩
  · rw [List.length_append, List.length_replicate, List.length_replicate]
    rfl
  · intro l hl
    obtain hl | hl := List.mem_append.mp hl
    · rw [List.eq_of_mem_replicate hl]
      decide
    · rw [List.eq_of_mem_replicate hl]
      decide
  · exact List.length_replicate
  · rw [hruns, List.length_append, List.length_replicate]
    decide
  · rw [List.getElem?_replicate, if_pos (show i < 314 from hi)]

/-- where lengths 8 and 9 take turns there are 314 runs -/
theorem alternating_lost :
    ¬ Recovered ((List.range 314).map fun i => if i % 2 = 0 then 8 else 9) (List.replicate 314 0) [] := by
  have hchain : ((List.range 314).map fun i => if i % 2 = 0 then (8 : UInt8) else 9).IsChain
      (· ≠ ·) := by
    refine List.isChain_map _ |>.mpr ((List.isChain_range _ 314).mpr fun i _ => ?_)
    by_cases h : i % 2 = 0
    · rw [if_pos h, if_neg (by omega)]
      decide
    · rw [if_neg h, if_pos (by omega)]
      decide
  refine not_recovered_of_many [] ?_ ?_ ?_
  · rw [List.length_map, List.length_range]
    rfl
  · intro l hl
    obtain ⟨i, -, rfl⟩ := List.mem_map.mp hl
    split <;> decide
  · have hlen : ((List.range 314).map fun i => if i % 2 = 0 then (8 : UInt8) else 9).length
        = 314 := by
      rw [List.length_map, List.length_range]
    generalize ((List.range 314).map fun i => if i % 2 = 0 then (8 : UInt8) else 9) = lens
      at hchain hlen ⊢
    cases lens with
    | nil => exact absurd hlen (by decide)
    | cons l lens =>
      rw [runs, runsFrom_apart lens hchain]
      rw [List.length_cons] at hlen
      omega

end Wpack
