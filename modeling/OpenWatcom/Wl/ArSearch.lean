import OpenWatcom.Wl.ArDict
import Mathlib

/-!
# The dictionary of an archive is searched right

* `Table`, `FileTable`, `Archive`     what the archive lists, and its bytes
* `readDicts_spec`     reading gets the entries back
* `sortARDict_spec`     after the sort the symbols are in order and the pairs are the same
* `dict_searched`     a name is found exactly when it is listed, with an offset that is listed for it
-/

namespace ArDict
open Bytes Nwlib InPlace

/-! ## comparing names -/

/-- the characters that are compared -/
def nameKey (caseFlag : Bool) (s : Name) : List ℕ :=
  (if caseFlag then s.bytes else s.bytes.map toLower).map UInt8.toNat

def compareNames (caseFlag : Bool) (s t : Name) : ℤ :=
  if caseFlag then strcmp s.bytes t.bytes else stricmp s.bytes t.bytes

theorem strcmp_neg {s t : List UInt8} (hs : (0 : UInt8) ∉ s) (ht : (0 : UInt8) ∉ t) :
    strcmp s t < 0 ↔ s.map UInt8.toNat < t.map UInt8.toNat := by
  induction s generalizing t with
  | nil =>
    cases t with
    | nil => simp [strcmp]
    | cons d t =>
      have hd : d ≠ 0 := fun e => ht (e ▸ List.mem_cons_self)
      have hv : charValue d ≠ 0 := fun e => hd (charValue_eq_zero.mp e)
      have hlt : strcmp [] (d :: t) < 0 := by
        rw [strcmp]
        unfold charValue at *
        omega
      exact iff_of_true hlt (List.nil_lt_cons _ _)
  | cons c s ih =>
    cases t with
    | nil =>
      have hge : ¬ strcmp (c :: s) [] < 0 := by
        rw [strcmp]
        unfold charValue
        omega
      exact iff_of_false hge (List.not_lt_nil _)
    | cons d t =>
      rw [strcmp, List.map_cons, List.map_cons, List.cons_lt_cons_iff]
      by_cases h : c = d
      · rw [if_pos h, ih (fun m => hs (List.mem_cons_of_mem c m)) fun m => ht (List.mem_cons_of_mem d m), h]
        simp
      · have hne : c.toNat ≠ d.toNat := fun e => h (UInt8.toNat_inj.mp e)
        rw [if_neg h]
        unfold charValue
        omega

variable (caseFlag : Bool)

theorem compareNames_neg (s t : Name) :
    compareNames caseFlag s t < 0 ↔ nameKey caseFlag s < nameKey caseFlag t := by
  unfold compareNames nameKey
  cases caseFlag with
  | true => exact strcmp_neg s.noNul t.noNul
  | false => exact strcmp_neg (noNul_lower s.noNul) (noNul_lower t.noNul)

theorem compareNames_eq_zero (s t : Name) :
    compareNames caseFlag s t = 0 ↔ nameKey caseFlag s = nameKey caseFlag t := by
  have hinj : Function.Injective (List.map UInt8.toNat) :=
    List.map_injective_iff.mpr fun a b h => UInt8.toNat_inj.mp h
  unfold compareNames nameKey
  rw [hinj.eq_iff]
  cases caseFlag with
  | true => exact strcmp_eq_zero s.noNul t.noNul
  | false => exact strcmp_eq_zero (noNul_lower s.noNul) (noNul_lower t.noNul)

theorem compareNames_pos (s t : Name) :
    0 < compareNames caseFlag s t ↔ nameKey caseFlag t < nameKey caseFlag s := by
  have h1 := compareNames_neg caseFlag s t
  have h2 := compareNames_eq_zero caseFlag s t
  rcases lt_trichotomy (nameKey caseFlag s) (nameKey caseFlag t) with h | h | h
  · have := h1.mpr h
    exact iff_of_false (by omega) (lt_asymm h)
  · have := h2.mpr h
    exact iff_of_false (by omega) (by rw [h]; exact lt_irrefl _)
  · have hn : ¬ compareNames caseFlag s t < 0 := fun hc => lt_asymm h (h1.mp hc)
    have hz : compareNames caseFlag s t ≠ 0 := fun hc => ne_of_gt h (h2.mp hc)
    exact iff_of_true (by omega) h

theorem compareNames_le (s t : Name) :
    compareNames caseFlag s t ≤ 0 ↔ nameKey caseFlag s ≤ nameKey caseFlag t := by
  rw [← not_lt, compareNames_pos, not_lt]

theorem compareNames_orders : Orders fun i j : Name => compareNames caseFlag i j where
  total s t := by
    rw [compareNames_le, compareNames_le]
    exact le_total _ _
  trans s t u := by
    rw [compareNames_le, compareNames_le, compareNames_le]
    exact le_trans

/-! ## what an archive lists -/

/-- a dictionary of one table: every symbol with the offset of its file -/
structure Table where
  syms : List (Name × UInt32)
  count : syms.length < 2 ^ 32
  rest : List UInt8

def Table.bytes (t : Table) : List UInt8 :=
  (leBytes 4 t.syms.length).reverse ++ (t.syms.flatMap (fun s => (leBytes 4 s.2.toNat).reverse) ++
    (t.syms.flatMap (fun s => s.1.bytes ++ [0]) ++ t.rest))

/-- a dictionary of files and symbols: every symbol with the number of its file -/
structure FileTable where
  files : List UInt32
  syms : List (Name × UInt16)
  filesCount : files.length < 2 ^ 32
  count : syms.length < 2 ^ 32
  inside : ∀ s ∈ syms, s.2 ≠ 0 ∧ s.2.toNat ≤ files.length
  rest : List UInt8

def FileTable.bytes (t : FileTable) : List UInt8 :=
  leBytes 4 t.files.length ++ (t.files.flatMap (fun f => leBytes 4 f.toNat) ++
    (leBytes 4 t.syms.length ++ (t.syms.flatMap (fun s => leBytes 2 s.2.toNat) ++
      (t.syms.flatMap (fun s => s.1.bytes ++ [0]) ++ t.rest))))

/-- both dictionaries of an archive list its symbols -/
structure Archive where
  first : Table
  second : Option FileTable
  same : ∀ t ∈ second, t.syms.length ≤ first.syms.length

namespace Archive

def dicts (a : Archive) : List (List UInt8) :=
  match a.second with
  | none => [a.first.bytes]
  | some t => [a.first.bytes, t.bytes]

/-- the symbols with the offsets of their files, as the last dictionary has them -/
def listed (a : Archive) : List (Name × UInt32) :=
  match a.second with
  | none => a.first.syms
  | some t => t.syms.map fun s => (s.1, byteAt t.files (s.2.toNat - 1))

end Archive

/-! ## reading -/

theorem mgetLeU32_bytes (v : ℕ) (rest : List UInt8) :
    mgetLeU32 (leBytes 4 v ++ rest) = some (UInt32.ofNat (v % 2 ^ 32), rest) := by
  have h := leNat_leBytes 4 v
  rw [show 256 ^ 4 = 2 ^ 32 from rfl] at h
  show some (UInt32.ofNat (leNat (leBytes 4 v)), rest) = _
  rw [h]

theorem mgetBeU32_bytes (v : ℕ) (rest : List UInt8) :
    mgetBeU32 ((leBytes 4 v).reverse ++ rest) = some (UInt32.ofNat (v % 2 ^ 32), rest) := by
  have h := leNat_leBytes 4 v
  rw [show 256 ^ 4 = 2 ^ 32 from rfl] at h
  show some (UInt32.ofNat (leNat (leBytes 4 v)), rest) = _
  rw [h]

theorem mgetLeU16_bytes (v : ℕ) (rest : List UInt8) :
    mgetLeU16 (leBytes 2 v ++ rest) = some (UInt16.ofNat (v % 2 ^ 16), rest) := by
  have h := leNat_leBytes 2 v
  rw [show 256 ^ 2 = 2 ^ 16 from rfl] at h
  show some (UInt16.ofNat (leNat (leBytes 2 v)), rest) = _
  rw [h]

theorem getName_bytes (s : Name) (rest : List UInt8) : getName (s.bytes ++ [0] ++ rest) = some (s, rest) := by
  obtain ⟨bytes, noNul⟩ := s
  induction bytes with
  | nil => rfl
  | cons c bytes ih =>
    have hc : c ≠ 0 := fun e => noNul (e ▸ List.mem_cons_self)
    have hr := ih fun m => noNul (List.mem_cons_of_mem c m)
    rw [List.cons_append, List.cons_append, getName, dif_neg hc, hr]
    rfl

/-- a table reads back when each of its entries does -/
theorem getEach_bytes {α β : Type} {get : List UInt8 → Option (β × List UInt8)} (put : α → List UInt8)
    (f : α → β) (l : List α) (h : ∀ x ∈ l, ∀ rest, get (put x ++ rest) = some (f x, rest))
    (rest : List UInt8) : getEach get l.length (l.flatMap put ++ rest) = some (l.map f, rest) := by
  induction l with
  | nil => rfl
  | cons x l ih =>
    have hx := h x List.mem_cons_self (l.flatMap put ++ rest)
    rw [List.length_cons, List.flatMap_cons, List.append_assoc, getEach, hx, Option.bind_some,
      ih fun y hy => h y (List.mem_cons_of_mem x hy)]
    rfl

theorem u32_mod (v : UInt32) : UInt32.ofNat (v.toNat % 2 ^ 32) = v := by
  rw [Nat.mod_eq_of_lt v.toNat_lt, UInt32.ofNat_toNat]

theorem u16_mod (v : UInt16) : UInt16.ofNat (v.toNat % 2 ^ 16) = v := by
  rw [Nat.mod_eq_of_lt v.toNat_lt, UInt16.ofNat_toNat]

theorem count_toNat {n : ℕ} (h : n < 2 ^ 32) : (UInt32.ofNat (n % 2 ^ 32)).toNat = n := by
  rw [Nat.mod_eq_of_lt h, UInt32.toNat_ofNat', Nat.mod_eq_of_lt h]

/-- the symbols as the search sees them, each with what it would store -/
def pairs (d : ARDictEntry) : List (Name × Option UInt32) :=
  (List.range d.numEntries.toNat).map fun i => (d.symbol i, fileOffset d i)

/-- the tables have the entries that they are to have -/
structure Loaded (d : ARDictEntry) : Prop where
  symbols : ∀ i < d.numEntries.toNat, i < (d.symbtab.getD []).length
  offsets : ∀ i < d.numEntries.toNat, i < (d.offsettab.elim d.filepostab.length List.length)

/-- the strings that are behind the tables are stored -/
theorem setSymbols_bytes {dict : ARDictEntry} (names : List Name) (rest : List UInt8)
    (hnum : dict.numEntries.toNat = names.length) (hcells : names.length ≤ (dict.symbtab.getD []).length) :
    ∃ d, setSymbols dict (names.flatMap (fun s => s.bytes ++ [0]) ++ rest) = some d ∧
      d.filepostab = dict.filepostab ∧ d.offsettab = dict.offsettab ∧ d.numEntries = dict.numEntries ∧
      (d.symbtab.getD []).length = (dict.symbtab.getD []).length ∧
      ∀ i < names.length, d.symbol i = byteAt names i := by
  have hread := getEach_bytes (fun s : Name => s.bytes ++ [0]) id names
    (fun s _ rest => getName_bytes s rest) rest
  rw [setSymbols, hnum, hread, Option.bind_some, List.map_id]
  cases hs : dict.symbtab with
  | none =>
    rw [hs] at hcells
    have hnil : names = [] := List.eq_nil_of_length_eq_zero (Nat.le_zero.mp hcells)
    refine ⟨dict, ?_, rfl, rfl, rfl, by rw [hs], fun i hi => ?_⟩
    · dsimp only
      rw [if_pos hnil]
    · rw [hnil] at hi
      exact absurd hi (Nat.not_lt_zero i)
  | some cells =>
    rw [hs] at hcells
    have hle : names.length ≤ cells.length := hcells
    refine ⟨{ dict with symbtab := some (writeBytes cells 0 names) }, ?_, rfl, rfl, rfl, ?_, fun i hi => ?_⟩
    · dsimp only
      rw [if_pos hle]
    · exact writeBytes_length cells 0 names
    · have h := byteAt_writeBytes cells 0 names i hi (by rw [Nat.zero_add]; exact hle)
      rw [Nat.zero_add] at h
      exact h

theorem readFirst (junk : ℕ → Name) (dict : ARDictEntry) (t : Table) :
    ∃ d, readARDictData junk dict t.bytes 1 = some d ∧ d.filepostab = t.syms.map Prod.snd ∧
      d.offsettab = none ∧ d.numEntries.toNat = t.syms.length ∧
      (d.symbtab.getD []).length = t.syms.length ∧
      ∀ i < t.syms.length, d.symbol i = byteAt (t.syms.map Prod.fst) i := by
  have hnum := count_toNat t.count
  have hfiles := getEach_bytes (fun s : Name × UInt32 => (leBytes 4 s.2.toNat).reverse) Prod.snd
    t.syms (fun s _ rest => (mgetBeU32_bytes s.2.toNat rest).trans (by rw [u32_mod]))
  have hcells : ((if 0 < UInt32.ofNat (t.syms.length % 2 ^ 32) then
      some (allocSymbtab junk (UInt32.ofNat (t.syms.length % 2 ^ 32))) else none).getD []).length
        = t.syms.length := by
    by_cases h0 : 0 < UInt32.ofNat (t.syms.length % 2 ^ 32)
    · rw [if_pos h0, Option.getD_some, allocSymbtab, List.length_map, List.length_range, hnum]
    · rw [if_neg h0, Option.getD_none, List.length_nil, ← hnum]
      rw [UInt32.lt_iff_toNat_lt, not_lt] at h0
      exact (Nat.le_zero.mp h0).symm
  obtain ⟨d, hd, hfp, hot, hne, hlen, hsym⟩ := @setSymbols_bytes
    ⟨t.syms.map Prod.snd, none, _, UInt32.ofNat (t.syms.length % 2 ^ 32)⟩ (t.syms.map Prod.fst) t.rest
    (by rw [hnum, List.length_map]) (by rw [hcells, List.length_map])
  rw [List.flatMap_map] at hd
  rw [List.length_map] at hsym
  refine ⟨d, ?_, hfp, hot, by rw [hne, hnum], by rw [hlen, hcells], hsym⟩
  rw [readARDictData, if_pos rfl, Table.bytes, mgetBeU32_bytes, Option.bind_some]
  dsimp only
  rw [hnum, hfiles, Option.bind_some]
  exact hd

theorem readSecond (junk : ℕ → Name) (dict : ARDictEntry) (t : FileTable)
    (hfit : t.syms.length ≤ (dict.symbtab.getD []).length) :
    ∃ d, readARDictData junk dict t.bytes 2 = some d ∧ d.filepostab = t.files ∧
      d.offsettab = some (t.syms.map Prod.snd) ∧ d.numEntries.toNat = t.syms.length ∧
      t.syms.length ≤ (d.symbtab.getD []).length ∧
      ∀ i < t.syms.length, d.symbol i = byteAt (t.syms.map Prod.fst) i := by
  have hnum := count_toNat t.count
  have hfiles := getEach_bytes (fun f : UInt32 => leBytes 4 f.toNat) id
    t.files (fun f _ rest => (mgetLeU32_bytes f.toNat rest).trans (by rw [u32_mod]; rfl))
  have hoffs := getEach_bytes (fun s : Name × UInt16 => leBytes 2 s.2.toNat) Prod.snd
    t.syms (fun s _ rest => (mgetLeU16_bytes s.2.toNat rest).trans (by rw [u16_mod]))
  have hcells : t.syms.length ≤ ((if 0 < UInt32.ofNat (t.syms.length % 2 ^ 32) ∧ dict.symbtab = none then
      some (allocSymbtab junk (UInt32.ofNat (t.syms.length % 2 ^ 32))) else dict.symbtab).getD []).length := by
    by_cases h0 : 0 < UInt32.ofNat (t.syms.length % 2 ^ 32) ∧ dict.symbtab = none
    · rw [if_pos h0, Option.getD_some, allocSymbtab, List.length_map, List.length_range, hnum]
    · rw [if_neg h0]
      exact hfit
  obtain ⟨d, hd, hfp, hot, hne, hlen, hsym⟩ := @setSymbols_bytes
    ⟨t.files, some (t.syms.map Prod.snd), _, UInt32.ofNat (t.syms.length % 2 ^ 32)⟩ (t.syms.map Prod.fst) t.rest
    (by rw [hnum, List.length_map]) (by rw [List.length_map]; exact hcells)
  rw [List.flatMap_map] at hd
  rw [List.length_map] at hsym
  refine ⟨d, ?_, hfp, hot, by rw [hne, hnum], by rw [hlen]; exact hcells, hsym⟩
  rw [readARDictData, if_neg (by decide), FileTable.bytes, mgetLeU32_bytes, Option.bind_some]
  dsimp only
  rw [count_toNat t.filesCount, hfiles, Option.bind_some, List.map_id]
  dsimp only
  rw [mgetLeU32_bytes, Option.bind_some]
  dsimp only
  rw [hnum, hoffs, Option.bind_some]
  exact hd

theorem byteAt_map {α β : Type} [Inhabited α] [Inhabited β] (f : α → β) (l : List α) (i : ℕ)
    (h : i < l.length) : byteAt (l.map f) i = f (byteAt l i) := by
  rw [byteAt_eq_getElem _ _ (by rw [List.length_map]; exact h), byteAt_eq_getElem _ _ h, List.getElem_map]

/-- after the dictionaries are read, the tables have what the archive lists -/
theorem readDicts_spec (junk : ℕ → Name) (dict : ARDictEntry) (a : Archive) :
    ∃ d, readDicts junk a.dicts 0 dict = some d ∧ Loaded d ∧
      pairs d = a.listed.map fun s => (s.1, some s.2) := by
  obtain ⟨d, hd, hfp, hot, hnum, hlen, hsym⟩ := readFirst junk dict a.first
  cases hsec : a.second with
  | none =>
    have hdicts : a.dicts = [a.first.bytes] := by rw [Archive.dicts, hsec]
    have hlisted : a.listed = a.first.syms := by rw [Archive.listed, hsec]
    refine ⟨d, ?_, ⟨?_, ?_⟩, ?_⟩
    · rw [hdicts, readDicts, hd]
      rfl
    · rw [hnum, hlen]
      exact fun i hi => hi
    · rw [hnum, hot, hfp]
      intro i hi
      rw [Option.elim_none, List.length_map]
      exact hi
    · rw [pairs, hnum, hlisted]
      refine List.ext_getElem (by simp) fun i h1 h2 => ?_
      rw [List.length_map, List.length_range] at h1
      rw [List.getElem_map, List.getElem_range, List.getElem_map, hsym i h1, fileOffset, hot, hfp,
        byteAt_map _ _ _ h1, byteAt_eq_getElem _ _ h1]
      simp [h1]
  | some t =>
    have hdicts : a.dicts = [a.first.bytes, t.bytes] := by rw [Archive.dicts, hsec]
    have hlisted : a.listed = t.syms.map fun s => (s.1, byteAt t.files (s.2.toNat - 1)) := by
      rw [Archive.listed, hsec]
    obtain ⟨d', hd', hfp', hot', hnum', hlen', hsym'⟩ := readSecond junk d t (by
      rw [hlen]
      exact a.same t hsec)
    refine ⟨d', ?_, ⟨?_, ?_⟩, ?_⟩
    · rw [hdicts, readDicts, hd, Option.bind_some, readDicts, hd']
      rfl
    · rw [hnum']
      exact fun i hi => Nat.lt_of_lt_of_le hi hlen'
    · rw [hnum', hot']
      intro i hi
      rw [Option.elim_some, List.length_map]
      exact hi
    · rw [pairs, hnum', hlisted, List.map_map]
      refine List.ext_getElem (by simp) fun i h1 h2 => ?_
      rw [List.length_map, List.length_range] at h1
      obtain ⟨hne, hle⟩ := t.inside _ (List.getElem_mem h1)
      have hpos : (t.syms[i]).2.toNat ≠ 0 := fun e => hne (UInt16.toNat_inj.mp e)
      have hlt : (t.syms[i]).2.toNat - 1 < t.files.length := by omega
      rw [List.getElem_map, List.getElem_range, List.getElem_map, hsym' i h1, fileOffset, hot', hfp',
        Function.comp_apply, byteAt_map _ _ _ h1, byteAt_eq_getElem _ _ h1]
      dsimp only
      rw [byteAt_map _ _ _ h1, byteAt_eq_getElem _ _ h1, if_neg hne, List.getElem?_eq_getElem hlt,
        byteAt_eq_getElem _ _ hlt]

/-! ## sorting -/

/-- what the moves leave alone -/
structure Kept (d s : ARDictEntry) : Prop where
  numEntries : s.numEntries = d.numEntries
  loaded : Loaded s
  indexed : s.offsettab.isSome = d.offsettab.isSome
  files : d.offsettab.isSome → s.filepostab = d.filepostab

/-- the offset that goes with the entry of a symbol -/
def locate (d : ARDictEntry) (entry : UInt32) : Option UInt32 :=
  match d.offsettab with
  | none => some entry
  | some _ => if entry = 0 then none else d.filepostab[entry.toNat - 1]?

theorem Kept.fileOffset_eq {d s : ARDictEntry} (h : Kept d s) {i : ℕ} (hi : i < d.numEntries.toNat) :
    fileOffset s i = locate d (s.offsetSave i) := by
  have hin := h.loaded.offsets i (by rw [h.numEntries]; exact hi)
  have hix := h.indexed
  have hfiles := h.files
  cases hs : s.offsettab with
  | none =>
    rw [hs] at hix hin
    have hd : d.offsettab = none := by
      rw [← Option.not_isSome_iff_eq_none, ← hix]
      exact Bool.false_ne_true
    rw [fileOffset, locate, ARDictEntry.offsetSave, hs, hd]
    dsimp only
    rw [List.getElem?_eq_getElem hin, byteAt_eq_getElem _ _ hin]
  | some offs =>
    rw [hs] at hix
    obtain ⟨offs', hd⟩ := Option.isSome_iff_exists.mp hix.symm
    rw [fileOffset, locate, ARDictEntry.offsetSave, hs, hd, hfiles hix.symm]
    dsimp only
    have hz : (byteAt offs i).toUInt32 = 0 ↔ byteAt offs i = 0 := by
      rw [← UInt32.toNat_inj, ← UInt16.toNat_inj, UInt16.toNat_toUInt32]
      rfl
    by_cases h0 : byteAt offs i = 0
    · rw [if_pos h0, if_pos (hz.mpr h0)]
    · rw [if_neg h0, if_neg fun e => h0 (hz.mp e), UInt16.toNat_toUInt32]

/-- a cell is changed in both tables -/
theorem Kept.set {d s : ARDictEntry} (h : Kept d s) (a : ℕ) (v : Name × UInt32) :
    Kept d (s.put a v) := by
  have hsym : ∀ t : ARDictEntry, t.symbtab = s.symbtab.map (fun (l : List Name) => l.set a v.1) →
      (t.symbtab.getD []).length = (s.symbtab.getD []).length := by
    intro t ht
    rw [ht]
    cases s.symbtab with
    | none => rfl
    | some l => exact List.length_set
  have hix := h.indexed
  rw [ARDictEntry.put]
  cases hs : s.offsettab with
  | none =>
    rw [hs] at hix
    refine ⟨h.numEntries, ⟨?_, ?_⟩, hix, fun hd => ?_⟩
    · intro i hi
      rw [hsym _ rfl]
      exact h.loaded.symbols i hi
    · intro i hi
      have := h.loaded.offsets i hi
      rw [hs] at this
      show i < (s.filepostab.set a v.2).length
      rw [List.length_set]
      exact this
    · rw [← hix] at hd
      exact Bool.noConfusion hd
  | some offs =>
    rw [hs] at hix
    refine ⟨h.numEntries, ⟨?_, ?_⟩, hix, h.files⟩
    · intro i hi
      rw [hsym _ rfl]
      exact h.loaded.symbols i hi
    · intro i hi
      have := h.loaded.offsets i hi
      rw [hs] at this
      show i < (offs.set a v.2.toUInt16).length
      rw [List.length_set]
      exact this

theorem byteAt_set_ite {α : Type} [Inhabited α] (l : List α) (a i : ℕ) (v : α) (ha : a < l.length) :
    byteAt (l.set a v) i = if i = a then v else byteAt l i := by
  by_cases h : i = a
  · rw [if_pos h, h, byteAt_set_self _ _ _ ha]
  · rw [if_neg h, byteAt_set_ne _ _ _ _ h]

theorem symbol_put {d s : ARDictEntry} (h : Kept d s) {a : ℕ} (ha : a < d.numEntries.toNat)
    (v : Name × UInt32) (i : ℕ) : (s.put a v).symbol i = if i = a then v.1 else s.symbol i := by
  have hin := h.loaded.symbols a (by rw [h.numEntries]; exact ha)
  have hput : (s.put a v).symbtab.getD [] = (s.symbtab.getD []).set a v.1 := by
    rw [ARDictEntry.put]
    cases hs : s.symbtab with
    | none =>
      rw [hs] at hin
      exact absurd hin (Nat.not_lt_zero a)
    | some l => cases s.offsettab <;> rfl
  rw [ARDictEntry.symbol, hput, byteAt_set_ite _ _ _ _ hin]
  rfl

/-- a table of 16-bit numbers gets back what was read from one -/
theorem offsetSave_put {d s s' : ARDictEntry} (h : Kept d s) (h' : Kept d s') {a b : ℕ}
    (ha : a < d.numEntries.toNat) (name : Name) (i : ℕ) :
    (s.put a (name, s'.offsetSave b)).offsetSave i = if i = a then s'.offsetSave b else s.offsetSave i := by
  have hin := h.loaded.offsets a (by rw [h.numEntries]; exact ha)
  have hix := h.indexed
  have hix' := h'.indexed
  cases hs : s.offsettab with
  | none =>
    rw [hs] at hin
    rw [ARDictEntry.put, hs]
    have hcell := byteAt_set_ite s.filepostab a i (s'.offsetSave b) hin
    simpa only [ARDictEntry.offsetSave, hs] using hcell
  | some offs =>
    rw [hs] at hin hix
    obtain ⟨offs', hs'⟩ := Option.isSome_iff_exists.mp (hix'.trans hix.symm)
    have hsave : s'.offsetSave b = (byteAt offs' b).toUInt32 := by rw [ARDictEntry.offsetSave, hs']
    rw [ARDictEntry.put, hs, hsave]
    have hcell := byteAt_set_ite offs a i (byteAt offs' b) hin
    simp only [ARDictEntry.offsetSave, hs, UInt16.toUInt16_toUInt32]
    rw [hcell]
    by_cases hia : i = a
    · rw [if_pos hia, if_pos hia]
    · rw [if_neg hia, if_neg hia]

/-- copying a cell is writing back what was read -/
theorem move_eq_put (s : ARDictEntry) (a b : ℕ) (hs : s.symbtab ≠ none) :
    s.move a b = s.put a (s.symbol b, s.offsetSave b) := by
  obtain ⟨l, hl⟩ := Option.ne_none_iff_exists'.mp hs
  rw [ARDictEntry.move, ARDictEntry.put, ARDictEntry.symbol, ARDictEntry.offsetSave, hl]
  cases s.offsettab with
  | none => rfl
  | some offs => simp

theorem entryMoves_lawful (d : ARDictEntry) : entryMoves.Lawful d.numEntries.toNat (Kept d) := by
  have hsym : ∀ s a, Kept d s → a < d.numEntries.toNat → s.symbtab ≠ none := by
    intro s a h ha hs
    have hin := h.loaded.symbols a (by rw [h.numEntries]; exact ha)
    rw [hs] at hin
    exact Nat.not_lt_zero a hin
  have hput : ∀ s s' a b i, Kept d s → Kept d s' → a < d.numEntries.toNat →
      entryMoves.cell (s.put a (entryMoves.cell s' b)) i
        = if i = a then entryMoves.cell s' b else entryMoves.cell s i := by
    intro s s' a b i h h' ha
    show ((s.put a (s'.symbol b, s'.offsetSave b)).symbol i, (s.put a (s'.symbol b, s'.offsetSave b)).offsetSave i)
      = if i = a then (s'.symbol b, s'.offsetSave b) else (s.symbol i, s.offsetSave i)
    rw [symbol_put h ha, offsetSave_put h h' ha]
    by_cases hia : i = a
    · rw [if_pos hia, if_pos hia, if_pos hia]
    · rw [if_neg hia, if_neg hia, if_neg hia]
  constructor
  · intro s a b h ha _
    show Kept d (s.move a b)
    rw [move_eq_put s a b (hsym s a h ha)]
    exact h.set a _
  · exact fun s a v h _ => h.set a v
  · intro s a b i h ha _
    show entryMoves.cell (s.move a b) i = _
    rw [move_eq_put s a b (hsym s a h ha)]
    exact hput s s a b i h h ha
  · exact fun s s' a b i h h' ha _ => hput s s' a b i h h' ha

/-- the symbols are in the order of the search -/
def Sorted (d : ARDictEntry) : Prop :=
  (List.range d.numEntries.toNat).Pairwise fun i j => compareNames caseFlag (d.symbol i) (d.symbol j) ≤ 0

theorem map_byteAt_range {tab : List ℕ} {n : ℕ} (h : tab.length = n) : (List.range n).map (byteAt tab) = tab := by
  refine List.ext_getElem (by rw [List.length_map, List.length_range, h]) fun i h1 h2 => ?_
  rw [List.getElem_map, List.getElem_range, byteAt_eq_getElem _ _ h2]

/-- after the sort the symbols are in order, and every one has its offset -/
theorem sortARDict_spec (q : QSort ℕ) {d : ARDictEntry} (h : Loaded d) :
    Loaded (sortARDict q caseFlag d) ∧ Sorted caseFlag (sortARDict q caseFlag d) ∧
      (pairs (sortARDict q caseFlag d)).Perm (pairs d) := by
  rw [sortARDict]
  by_cases h2 : d.numEntries < 2
  · rw [if_pos h2]
    refine ⟨h, ?_, List.Perm.refl _⟩
    have hlt : d.numEntries.toNat < 2 := UInt32.lt_iff_toNat_lt.mp h2
    rw [Sorted]
    interval_cases d.numEntries.toNat
    · exact List.Pairwise.nil
    · exact List.pairwise_singleton _ _
  · rw [if_neg h2]
    dsimp only
    generalize hcmp : (if caseFlag then arComp d else arCompI d) = cmp
    have hcmp' : ∀ i j, cmp i j = compareNames caseFlag (d.symbol i) (d.symbol j) := by
      intro i j
      rw [← hcmp, compareNames]
      cases caseFlag <;> rfl
    have hord : Orders cmp := by
      constructor
      · intro i j
        rw [hcmp', hcmp']
        exact (compareNames_orders caseFlag).total _ _
      · intro i j k
        rw [hcmp', hcmp', hcmp']
        exact (compareNames_orders caseFlag).trans _ _ _
    have hperm := q.perm cmp (List.range d.numEntries.toNat)
    have hsorted := q.sorted cmp (List.range d.numEntries.toNat) hord
    generalize q.sort cmp (List.range d.numEntries.toNat) = tab at hperm hsorted
    have hlen : tab.length = d.numEntries.toNat := by rw [hperm.length_eq, List.length_range]
    have hkept : Kept d d := ⟨rfl, h, rfl, fun _ => rfl⟩
    obtain ⟨hk, hcell⟩ := reorder_cell (entryMoves_lawful d) hperm hkept
    generalize (entryMoves.reorder d.numEntries.toNat tab d).2 = s at hk hcell
    have hsym : ∀ i < d.numEntries.toNat, s.symbol i = d.symbol (byteAt tab i) :=
      fun i hi => congrArg Prod.fst (hcell i hi)
    have hoff : ∀ i < d.numEntries.toNat, s.offsetSave i = d.offsetSave (byteAt tab i) :=
      fun i hi => congrArg Prod.snd (hcell i hi)
    refine ⟨hk.loaded, ?_, ?_⟩
    · rw [Sorted, hk.numEntries]
      rw [← map_byteAt_range hlen, List.pairwise_map] at hsorted
      refine hsorted.imp_of_mem fun {i j} hi hj hij => ?_
      rw [hsym i (List.mem_range.mp hi), hsym j (List.mem_range.mp hj), ← hcmp']
      exact hij
    · have hpair : pairs s = tab.map fun i => (d.symbol i, fileOffset d i) := by
        rw [pairs, hk.numEntries]
        conv_rhs => rw [← map_byteAt_range hlen]
        rw [List.map_map]
        refine List.map_congr_left fun i hi => ?_
        have hi' := List.mem_range.mp hi
        have hb : byteAt tab i < d.numEntries.toNat := (names_of_perm hperm).below i hi'
        rw [Function.comp_apply, hk.fileOffset_eq hi', hkept.fileOffset_eq hb, hsym i hi', hoff i hi']
      rw [hpair]
      exact hperm.map _

/-! ## searching -/

/-- a search in sorted symbols finds a listed name, with what is listed for it -/
theorem arSearchExtLib_spec {d : ARDictEntry} (h : Sorted caseFlag d) (name : Name) :
    ((arSearchExtLib caseFlag d name).isSome ↔ ∃ e ∈ pairs d, compareNames caseFlag name e.1 = 0) ∧
      ∀ off, arSearchExtLib caseFlag d name = some off →
        ∃ e ∈ pairs d, compareNames caseFlag name e.1 = 0 ∧ e.2 = off := by
  rw [arSearchExtLib]
  generalize hcmp : (if caseFlag then arCompName name else arCompIName name) = compar
  have hcmp' : ∀ i, compar (byteAt (d.symbtab.getD []) i) = compareNames caseFlag name (d.symbol i) := by
    intro i
    rw [← hcmp, compareNames]
    cases caseFlag <;> rfl
  have hle : ∀ i j, i < j → j < d.numEntries.toNat →
      nameKey caseFlag (d.symbol i) ≤ nameKey caseFlag (d.symbol j) := by
    intro i j hij hj
    rw [← compareNames_le]
    have hp := List.pairwise_iff_getElem.mp h i j (by rw [List.length_range]; omega)
      (by rw [List.length_range]; exact hj) hij
    rw [List.getElem_range, List.getElem_range] at hp
    exact hp
  have hsplits : Clib.Splits compar (d.symbtab.getD []) d.numEntries.toNat := by
    constructor
    · intro i j hij hj
      rw [hcmp', hcmp', compareNames_neg, compareNames_neg]
      exact fun hlt => lt_of_lt_of_le hlt (hle i j hij hj)
    · intro i j hij hj
      rw [hcmp', hcmp', compareNames_pos, compareNames_pos]
      exact fun hlt => lt_of_le_of_lt (hle i j hij hj) hlt
  have hans := Clib.bsearch_spec hsplits
  have hmem : ∀ i < d.numEntries.toNat, (d.symbol i, fileOffset d i) ∈ pairs d :=
    fun i hi => List.mem_map.mpr ⟨i, List.mem_range.mpr hi, rfl⟩
  cases hs : Clib.bsearch compar (d.symbtab.getD []) d.numEntries.toNat with
  | none =>
    rw [hs] at hans
    refine ⟨iff_of_false Bool.false_ne_true ?_, fun off ho => absurd ho (Option.some_ne_none off).symm⟩
    rintro ⟨e, he, hz⟩
    obtain ⟨i, hi, rfl⟩ := List.mem_map.mp he
    have hne := hans i (List.mem_range.mp hi)
    rw [hcmp'] at hne
    exact hne hz
  | some i =>
    rw [hs] at hans
    obtain ⟨hi, hz⟩ := hans
    rw [hcmp'] at hz
    refine ⟨iff_of_true rfl ⟨_, hmem i hi, hz⟩, fun off ho => ⟨_, hmem i hi, hz, ?_⟩⟩
    rw [Option.map_some] at ho
    exact Option.some.inj ho

/-! ## the dictionary of an archive -/

/-- a name is found exactly when it is listed, and what is stored is an offset that is listed for it -/
structure Searches (d : ARDictEntry) (listed : List (Name × UInt32)) : Prop where
  found : ∀ name, (arSearchExtLib caseFlag d name).isSome ↔
    ∃ e ∈ listed, nameKey caseFlag name = nameKey caseFlag e.1
  offset : ∀ name off, arSearchExtLib caseFlag d name = some off →
    ∃ e ∈ listed, nameKey caseFlag name = nameKey caseFlag e.1 ∧ off = some e.2

variable {caseFlag}

theorem Sorted.searches {d : ARDictEntry} (h : Sorted caseFlag d) {listed : List (Name × UInt32)}
    (hp : (pairs d).Perm (listed.map fun s => (s.1, some s.2))) : Searches caseFlag d listed := by
  have hmem : ∀ e, e ∈ pairs d ↔ ∃ s ∈ listed, (s.1, some s.2) = e := fun e => by
    rw [hp.mem_iff, List.mem_map]
  constructor
  · intro name
    rw [(arSearchExtLib_spec caseFlag h name).1]
    constructor
    · rintro ⟨e, he, hz⟩
      obtain ⟨s, hs, rfl⟩ := (hmem e).mp he
      exact ⟨s, hs, (compareNames_eq_zero caseFlag _ _).mp hz⟩
    · rintro ⟨s, hs, hk⟩
      exact ⟨(s.1, some s.2), (hmem _).mpr ⟨s, hs, rfl⟩, (compareNames_eq_zero caseFlag _ _).mpr hk⟩
  · intro name off ho
    obtain ⟨e, he, hz, rfl⟩ := (arSearchExtLib_spec caseFlag h name).2 off ho
    obtain ⟨s, hs, rfl⟩ := (hmem e).mp he
    exact ⟨s, hs, (compareNames_eq_zero caseFlag _ _).mp hz, rfl⟩

variable (caseFlag)

/-- `ReadARDict` leaves out the sort where the second dictionary has the order already -/
theorem readARDict_searches (junk : ℕ → Name) (q : QSort ℕ) (dict : ARDictEntry) (a : Archive)
    (hsorted : caseFlag = true → a.second.isSome →
      (a.listed.map Prod.fst).Pairwise fun s t => compareNames true s t ≤ 0) :
    ∃ d, readARDict junk q caseFlag dict a.dicts = some d ∧ Searches caseFlag d a.listed := by
  obtain ⟨d, hd, hl, hp⟩ := readDicts_spec junk dict a
  obtain ⟨-, hs, hperm⟩ := sortARDict_spec caseFlag q hl
  rw [hp] at hperm
  have hne : a.dicts ≠ [] := by
    rw [Archive.dicts]
    cases a.second with
    | none => exact List.cons_ne_nil _ _
    | some t => exact List.cons_ne_nil _ _
  rw [readARDict, if_neg hne, hd]
  refine ⟨_, rfl, ?_⟩
  dsimp only
  by_cases hc : caseFlag = false ∨ a.dicts.length = 1
  · rw [if_pos hc]
    exact hs.searches hperm
  · rw [if_neg hc]
    obtain ⟨hc1, hc2⟩ := not_or.mp hc
    have hflag : caseFlag = true := Bool.eq_true_of_not_eq_false hc1
    have hsec : a.second.isSome := by
      rw [Archive.dicts] at hc2
      cases h2 : a.second with
      | none =>
        rw [h2] at hc2
        exact absurd rfl hc2
      | some t => rfl
    have hso : Sorted caseFlag d := by
      have h := hsorted hflag hsec
      have hnames : a.listed.map Prod.fst = (List.range d.numEntries.toNat).map d.symbol := by
        have h1 := congrArg (List.map Prod.fst) hp
        rw [pairs, List.map_map, List.map_map] at h1
        exact h1.symm
      rw [hnames, List.pairwise_map] at h
      rw [Sorted, hflag]
      exact h
    exact hso.searches (by rw [hp])

end ArDict
