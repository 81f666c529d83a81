import OpenWatcom.Lib.Buckets
import OpenWatcom.Nwlib.SymTable

/-!
# The two lists of every symbol

* `Linked`               files and chains both hold exactly the entries in memory;
* `newSymFile_linked` .. `cleanFileTab_linked`   every operation keeps this;
* `addSym_cases`         the three things that `AddSym` does;
* `run_linked`           a run from the empty table that does not touch freed memory keeps it.
-/

namespace Nwlib
open Buckets

/-! ## lists of files -/

section
variable {files : List SymFile}

theorem symsOf_cons (sfile : SymFile) (f : FileId) :
    symsOf (sfile :: files) f = if sfile.id = f then sfile.syms else symsOf files f := by
  rw [symsOf, List.find?_cons]
  by_cases h : sfile.id = f
  · simp [h]
  · simp [h, symsOf]

theorem symsOf_of_notMem {f : FileId} (h : f ∉ files.map SymFile.id) : symsOf files f = [] := by
  induction files with
  | nil => rfl
  | cons g files ih =>
    rw [List.map_cons, List.mem_cons, not_or] at h
    rw [symsOf_cons, if_neg (Ne.symm h.1), ih h.2]

theorem symsOf_append (a b : List SymFile) (f : FileId) :
    symsOf (a ++ b) f = if f ∈ a.map SymFile.id then symsOf a f else symsOf b f := by
  induction a with
  | nil => simp
  | cons g a ih =>
    rw [List.cons_append, symsOf_cons, symsOf_cons, ih, List.map_cons]
    by_cases h : g.id = f
    · rw [if_pos h, if_pos h, if_pos (by rw [h]; exact List.mem_cons_self)]
    · rw [if_neg h, if_neg h]
      by_cases h1 : f ∈ a.map SymFile.id
      · rw [if_pos h1, if_pos (List.mem_cons_of_mem _ h1)]
      · rw [if_neg h1, if_neg]
        rw [List.mem_cons, not_or]
        exact ⟨Ne.symm h, h1⟩

theorem symsOf_mem (hn : (files.map SymFile.id).Nodup) {sfile : SymFile} (h : sfile ∈ files) :
    symsOf files sfile.id = sfile.syms := by
  induction files with
  | nil => exact absurd h List.not_mem_nil
  | cons g files ih =>
    rw [List.map_cons, List.nodup_cons] at hn
    rw [symsOf_cons]
    rcases List.mem_cons.mp h with rfl | h
    · rw [if_pos rfl]
    · rw [if_neg, ih hn.2 h]
      intro e
      exact hn.1 (e ▸ List.mem_map_of_mem h)

theorem mapSyms_ids (f : FileId) (g : List SymId → List SymId) :
    (mapSyms f g files).map SymFile.id = files.map SymFile.id := by
  rw [mapSyms, List.map_map]
  apply List.map_congr_left
  intro sfile _
  rw [Function.comp_apply]
  split <;> rfl

theorem mapSyms_cons (f : FileId) (g : List SymId → List SymId) (sfile : SymFile) :
    mapSyms f g (sfile :: files)
      = (if sfile.id = f then { sfile with syms := g sfile.syms } else sfile)
        :: mapSyms f g files := rfl

theorem symsOf_mapSyms_ne {f k : FileId} (g : List SymId → List SymId) (hk : k ≠ f) :
    symsOf (mapSyms f g files) k = symsOf files k := by
  induction files with
  | nil => rfl
  | cons s files ih =>
    rw [mapSyms_cons, symsOf_cons, symsOf_cons, ih]
    by_cases hs : s.id = f
    · have hsk : s.id ≠ k := fun e => hk (e.symm.trans hs)
      rw [if_pos hs]
      show (if s.id = k then g s.syms else symsOf files k) = _
      rw [if_neg hsk, if_neg hsk]
    · rw [if_neg hs]

theorem symsOf_mapSyms_self {f : FileId} (g : List SymId → List SymId)
    (h : f ∈ files.map SymFile.id) : symsOf (mapSyms f g files) f = g (symsOf files f) := by
  induction files with
  | nil => exact absurd h List.not_mem_nil
  | cons s files ih =>
    rw [mapSyms_cons, symsOf_cons, symsOf_cons]
    by_cases hs : s.id = f
    · rw [if_pos hs]
      show (if s.id = f then g s.syms else symsOf (mapSyms f g files) f) = _
      rw [if_pos hs, if_pos hs]
    · rw [List.map_cons] at h
      rw [if_neg hs, if_neg hs, if_neg hs]
      exact ih ((List.mem_cons.mp h).resolve_left (Ne.symm hs))

theorem symsOf_mapSyms {f : FileId} (g : List SymId → List SymId)
    (h : f ∈ files.map SymFile.id) :
    symsOf (mapSyms f g files) = Function.update (symsOf files) f (g (symsOf files f)) := by
  funext k
  by_cases hk : k = f
  · rw [hk, Function.update_self, symsOf_mapSyms_self g h]
  · rw [Function.update_of_ne hk, symsOf_mapSyms_ne g hk]

end

/-! ## the invariant -/

/-- what the key of an entry is for its two lists -/
def fileOf (heap : SymId → Option SymEntry) (x : SymId) : Option FileId :=
  (heap x).map SymEntry.file

def hashOf (heap : SymId → Option SymEntry) (x : SymId) : Option Nat :=
  (heap x).map fun e => hash e.name

/-- both lists of every entry in memory are right, and so are the links between the files -/
structure Linked (t : Table) : Prop where
  ids : (t.files.map SymFile.id).Nodup
  idsLt : ∀ sfile ∈ t.files, sfile.id < t.nextFile
  addTo : t.addTo = t.files.getLast?.map SymFile.id
  onFiles : Filed (symsOf t.files) (fileOf t.heap)
  onChains : Filed t.hashTable (hashOf t.heap)
  heapLt : ∀ x e, t.heap x = some e → x < t.nextSym
  len : ∀ x e, t.heap x = some e → e.len = UInt16.ofNat e.name.bytes.length

theorem linked_init : Linked initFileTab where
  ids := List.nodup_nil
  idsLt := fun _ h => absurd h List.not_mem_nil
  addTo := rfl
  onFiles := filed_nil
  onChains := filed_nil
  heapLt := fun _ _ h => absurd h (by simp [initFileTab])
  len := fun _ _ h => absurd h (by simp [initFileTab])

/-- an entry lies in a file that is on the list of files -/
theorem Linked.file_mem {t : Table} (h : Linked t) {x : SymId} {e : SymEntry}
    (hx : t.heap x = some e) : e.file ∈ t.files.map SymFile.id := by
  by_contra hn
  have hm : x ∈ symsOf t.files e.file := h.onFiles.mem.mpr (by rw [fileOf, hx]; rfl)
  rw [symsOf_of_notMem hn] at hm
  exact absurd hm List.not_mem_nil

/-- the number of the next entry is not in use -/
theorem Linked.fresh {t : Table} (h : Linked t) : t.heap t.nextSym = none := by
  cases hx : t.heap t.nextSym with
  | none => rfl
  | some e => exact absurd (h.heapLt _ _ hx) (Nat.lt_irrefl _)

/-! ## files come and go -/

theorem linkAfter_last {f : FileId} {files : List SymFile} (hn : (files.map SymFile.id).Nodup)
    (hf : files.getLast?.map SymFile.id = some f) (sfile : SymFile) :
    linkAfter f sfile files = some (files ++ [sfile]) := by
  induction files with
  | nil => exact absurd hf (by simp)
  | cons g files ih =>
    rw [List.map_cons, List.nodup_cons] at hn
    rw [linkAfter]
    cases files with
    | nil =>
      have e : g.id = f := Option.some.inj hf
      rw [if_pos e]
      rfl
    | cons g' files =>
      rw [List.getLast?_cons_cons] at hf
      have hne : g.id ≠ f := by
        intro e
        obtain ⟨l, hl, rfl⟩ := Option.map_eq_some_iff.mp hf
        exact hn.1 (e ▸ List.mem_map_of_mem (List.mem_of_getLast? hl))
      rw [if_neg hne, ih hn.2 hf]
      rfl

/-- a new file stands at the end of the list -/
theorem newSymFile_eq {t : Table} (h : Linked t) (name : Name) :
    newSymFile t name = some { t with
      files := t.files ++ [⟨t.nextFile, name, []⟩]
      addTo := some t.nextFile
      currFile := some t.nextFile
      nextFile := t.nextFile + 1 } := by
  have hl : linkFile t ⟨t.nextFile, name, []⟩ = some (t.files ++ [⟨t.nextFile, name, []⟩]) := by
    rw [linkFile, h.addTo]
    cases hg : t.files.getLast? with
    | none =>
      rw [List.getLast?_eq_none_iff] at hg
      rw [hg]
      rfl
    | some f =>
      exact linkAfter_last h.ids (by rw [hg]; rfl) _
  rw [newSymFile, hl]
  rfl

theorem newSymFile_linked {t t' : Table} (h : Linked t) {name : Name}
    (hs : newSymFile t name = some t') : Linked t' := by
  rw [newSymFile_eq h] at hs
  obtain rfl := Option.some.inj hs
  have hnew : t.nextFile ∉ t.files.map SymFile.id := by
    intro hm
    obtain ⟨f, hf, e⟩ := List.mem_map.mp hm
    exact absurd e (Nat.ne_of_lt (h.idsLt f hf))
  have hsyms : symsOf (t.files ++ [⟨t.nextFile, name, []⟩]) = symsOf t.files := by
    funext k
    rw [symsOf_append]
    split
    · rfl
    · next hk =>
      rw [symsOf_of_notMem hk, symsOf_cons]
      split <;> rfl
  exact {
    ids := by
      rw [List.map_append]
      exact List.nodup_append.mpr ⟨h.ids, by simp, by
        intro a ha b hb e
        rw [List.map_cons, List.map_nil, List.mem_singleton] at hb
        rw [e, hb] at ha
        exact hnew ha⟩
    idsLt := by
      intro f hf
      show f.id < t.nextFile + 1
      rcases List.mem_append.mp hf with hf | hf
      · exact Nat.lt_succ_of_lt (h.idsLt f hf)
      · rw [List.mem_singleton.mp hf]
        exact Nat.lt_succ_self _
    addTo := by simp
    onFiles := by
      show Filed (symsOf (t.files ++ [⟨t.nextFile, name, []⟩])) (fileOf t.heap)
      rw [hsyms]
      exact h.onFiles
    onChains := h.onChains
    heapLt := h.heapLt
    len := h.len }

theorem cleanLoop_fst (addTo : Option FileId) (kept files : List SymFile) :
    (cleanLoop addTo kept files).1 = kept ++ files.filter fun f => f.syms ≠ [] := by
  induction files generalizing addTo kept with
  | nil => simp [cleanLoop]
  | cons f files ih =>
    rw [cleanLoop]
    by_cases h : f.syms = []
    · rw [if_pos h, ih, List.filter_cons_of_neg (by simp [h])]
    · rw [if_neg h, ih, List.filter_cons_of_pos (by simp [h]), List.append_assoc,
        List.singleton_append]

/-- `add_to` stays the link of the last file -/
theorem cleanLoop_snd {kept files : List SymFile} (hn : ((kept ++ files).map SymFile.id).Nodup) :
    (cleanLoop ((kept ++ files).getLast?.map SymFile.id) kept files).2
      = (cleanLoop ((kept ++ files).getLast?.map SymFile.id) kept files).1.getLast?.map
          SymFile.id := by
  induction files generalizing kept with
  | nil => simp [cleanLoop]
  | cons f files ih =>
    rw [cleanLoop]
    by_cases h : f.syms = []
    · rw [if_pos h]
      have hn' : ((kept ++ files).map SymFile.id).Nodup :=
        hn.sublist (List.Sublist.map _ (List.Sublist.append_left (List.sublist_cons_self f files) kept))
      have e : (if (kept ++ f :: files).getLast?.map SymFile.id = some f.id
          then kept.getLast?.map SymFile.id else (kept ++ f :: files).getLast?.map SymFile.id)
          = (kept ++ files).getLast?.map SymFile.id := by
        cases hl : files.getLast? with
        | none =>
          rw [List.getLast?_eq_none_iff] at hl
          rw [hl]
          simp
        | some l =>
          have hlm : l ∈ files := List.mem_of_getLast? hl
          have hne : l.id ≠ f.id := by
            intro he
            rw [List.map_append, List.map_cons] at hn
            have hf := (List.nodup_cons.mp (List.nodup_append.mp hn).2.1).1
            exact hf (he ▸ List.mem_map_of_mem hlm)
          have h1 : (kept ++ f :: files).getLast? = some l := by
            rw [List.getLast?_append, List.getLast?_cons, hl]
            rfl
          have h2 : (kept ++ files).getLast? = some l := by
            rw [List.getLast?_append, hl]
            rfl
          rw [h1, h2, Option.map_some, if_neg fun he => hne (Option.some.inj he)]
      rw [e]
      exact ih hn'
    · rw [if_neg h]
      have e : kept ++ f :: files = (kept ++ [f]) ++ files := by
        rw [List.append_assoc, List.singleton_append]
      rw [e] at hn ⊢
      exact ih hn

/-- the files without symbols are taken off the list -/
theorem cleanFileTab_files (t : Table) :
    (cleanFileTab t).files = t.files.filter fun f => f.syms ≠ [] := by
  show (cleanLoop t.addTo [] t.files).1 = _
  rw [cleanLoop_fst, List.nil_append]

theorem symsOf_filter (files : List SymFile) (hn : (files.map SymFile.id).Nodup) :
    symsOf (files.filter fun f => f.syms ≠ []) = symsOf files := by
  funext k
  induction files with
  | nil => rfl
  | cons f files ih =>
    rw [List.map_cons, List.nodup_cons] at hn
    by_cases h : f.syms = []
    · rw [List.filter_cons_of_neg (by simp [h]), symsOf_cons, ih hn.2]
      split
      · next e =>
        rw [h, symsOf_of_notMem (e ▸ hn.1)]
      · rfl
    · rw [List.filter_cons_of_pos (by simp [h]), symsOf_cons, symsOf_cons, ih hn.2]

theorem cleanFileTab_linked {t : Table} (h : Linked t) : Linked (cleanFileTab t) where
  ids := by
    rw [cleanFileTab_files]
    exact h.ids.sublist (List.Sublist.map _ List.filter_sublist)
  idsLt := by
    intro f hf
    rw [cleanFileTab_files] at hf
    exact h.idsLt f (List.mem_of_mem_filter hf)
  addTo := by
    show (cleanLoop t.addTo [] t.files).2 = (cleanLoop t.addTo [] t.files).1.getLast?.map SymFile.id
    rw [h.addTo]
    exact @cleanLoop_snd [] t.files h.ids
  onFiles := by
    rw [cleanFileTab_files, symsOf_filter t.files h.ids]
    exact h.onFiles
  onChains := h.onChains
  heapLt := h.heapLt
  len := h.len

/-! ## entries come and go -/

theorem fileOf_update (heap : SymId → Option SymEntry) (x : SymId) (e : Option SymEntry) :
    fileOf (Function.update heap x e) = Function.update (fileOf heap) x (e.map SymEntry.file) := by
  funext y
  by_cases h : y = x
  · subst h
    rw [fileOf, Function.update_self, Function.update_self]
  · rw [fileOf, Function.update_of_ne h, Function.update_of_ne h]
    rfl

theorem hashOf_update (heap : SymId → Option SymEntry) (x : SymId) (e : Option SymEntry) :
    hashOf (Function.update heap x e)
      = Function.update (hashOf heap) x (e.map fun e => hash e.name) := by
  funext y
  by_cases h : y = x
  · subst h
    rw [hashOf, Function.update_self, Function.update_self]
  · rw [hashOf, Function.update_of_ne h, Function.update_of_ne h]
    rfl

theorem mapSyms_last (f : FileId) (g : List SymId → List SymId) (files : List SymFile) :
    (mapSyms f g files).getLast?.map SymFile.id = files.getLast?.map SymFile.id := by
  rw [← List.getLast?_map, mapSyms_ids, List.getLast?_map]

theorem mapSyms_lt {f : FileId} {g : List SymId → List SymId} {files : List SymFile} {n : FileId}
    (h : ∀ sfile ∈ files, sfile.id < n) : ∀ sfile ∈ mapSyms f g files, sfile.id < n := by
  intro sfile hm
  have hi : sfile.id ∈ files.map SymFile.id := by
    rw [← mapSyms_ids f g]
    exact List.mem_map_of_mem hm
  obtain ⟨k, hk, e⟩ := List.mem_map.mp hi
  rw [← e]
  exact h k hk

/-- the entry `x` is the one that `AddSym` looks for -/
def Matches (o : Options) (t : Table) (name : Name) (x : SymId) (e : SymEntry) : Prop :=
  t.heap x = some e ∧ hash e.name = hash name ∧ e.len.toNat = name.bytes.length ∧
    symbolNameCmp o e.name name = 0

/-- the table without the entry `x` -/
def dropped (t : Table) (x : SymId) (e : SymEntry) : Table :=
  { t with
    files := mapSyms e.file (fun syms => syms.erase x) t.files
    hashTable := Function.update t.hashTable (hash e.name) ((t.hashTable (hash e.name)).erase x)
    heap := Function.update t.heap x none }

section
variable {t : Table} (h : Linked t)
include h

theorem dropSym_eq {x : SymId} {e : SymEntry} (hx : t.heap x = some e) :
    dropSym t (hash e.name) x e = some (dropped t x e) := by
  have h1 : x ∈ symsOf t.files e.file := h.onFiles.mem.mpr (by rw [fileOf, hx]; rfl)
  have h2 : x ∈ t.hashTable (hash e.name) := h.onChains.mem.mpr (by rw [hashOf, hx]; rfl)
  rw [dropSym, if_pos ⟨h1, h2⟩]
  rfl

theorem dropped_linked {x : SymId} {e : SymEntry} (hx : t.heap x = some e) :
    Linked (dropped t x e) where
  ids := by
    show ((mapSyms e.file (fun syms => syms.erase x) t.files).map SymFile.id).Nodup
    rw [mapSyms_ids]
    exact h.ids
  idsLt := mapSyms_lt (f := e.file) (g := fun syms => syms.erase x) h.idsLt
  addTo := by
    show t.addTo = (mapSyms e.file (fun syms => syms.erase x) t.files).getLast?.map SymFile.id
    rw [mapSyms_last, h.addTo]
  onFiles := by
    show Filed (symsOf (mapSyms e.file (fun syms => syms.erase x) t.files))
      (fileOf (Function.update t.heap x none))
    rw [symsOf_mapSyms _ (h.file_mem hx), fileOf_update]
    exact h.onFiles.erase (by rw [fileOf, hx]; rfl)
  onChains := by
    show Filed (Function.update t.hashTable _ _) (hashOf (Function.update t.heap x none))
    rw [hashOf_update]
    exact h.onChains.erase (by rw [hashOf, hx]; rfl)
  heapLt := by
    intro y d hy
    have hne : y ≠ x := by
      rintro rfl
      change Function.update t.heap y none y = some d at hy
      rw [Function.update_self] at hy
      exact absurd hy (by simp)
    change Function.update t.heap x none y = some d at hy
    rw [Function.update_of_ne hne] at hy
    exact h.heapLt y d hy
  len := by
    intro y d hy
    have hne : y ≠ x := by
      rintro rfl
      change Function.update t.heap y none y = some d at hy
      rw [Function.update_self] at hy
      exact absurd hy (by simp)
    change Function.update t.heap x none y = some d at hy
    rw [Function.update_of_ne hne] at hy
    exact h.len y d hy

/-- what `pushSym` leaves -/
structure Pushed (t t' : Table) (name : Name) (strength : Strength) (info : UInt8) : Prop where
  linked : Linked t'
  curr : t.currFile ≠ none
  heap : ∀ f, t.currFile = some f → f ∈ t'.files.map SymFile.id ∧
    t'.heap = Function.update t.heap t.nextSym
      (some ⟨f, UInt16.ofNat name.bytes.length, info, strength, name⟩)

theorem pushSym_pushed {t' : Table} {name : Name} {strength : Strength} {info : UInt8}
    (hs : pushSym t (hash name) name strength info = some t') :
    Pushed t t' name strength info := by
  rw [pushSym] at hs
  cases hc : t.currFile with
  | none =>
    rw [hc] at hs
    exact absurd hs (by simp)
  | some f =>
    rw [hc] at hs
    dsimp only at hs
    by_cases hf : f ∈ t.files.map SymFile.id
    · rw [if_pos hf] at hs
      obtain rfl := Option.some.inj hs
      have hfresh := h.fresh
      refine {
        linked := {
          ids := by
            show ((mapSyms f (fun syms => t.nextSym :: syms) t.files).map SymFile.id).Nodup
            rw [mapSyms_ids]
            exact h.ids
          idsLt := mapSyms_lt h.idsLt
          addTo := by
            show t.addTo = (mapSyms f (fun syms => t.nextSym :: syms) t.files).getLast?.map SymFile.id
            rw [mapSyms_last, h.addTo]
          onFiles := by
            show Filed (symsOf (mapSyms f (fun syms => t.nextSym :: syms) t.files))
              (fileOf (Function.update t.heap t.nextSym _))
            rw [symsOf_mapSyms _ hf, fileOf_update]
            exact h.onFiles.add (by rw [fileOf, hfresh]; rfl) f
          onChains := by
            show Filed (Function.update t.hashTable _ _)
              (hashOf (Function.update t.heap t.nextSym _))
            rw [hashOf_update]
            exact h.onChains.add (by rw [hashOf, hfresh]; rfl) _
          heapLt := ?_
          len := ?_ }
        curr := by rw [hc]; simp
        heap := ?_ }
      · intro y d hy
        show y < t.nextSym + 1
        by_cases hne : y = t.nextSym
        · rw [hne]
          exact Nat.lt_succ_self _
        · change Function.update t.heap t.nextSym _ y = some d at hy
          rw [Function.update_of_ne hne] at hy
          exact Nat.lt_succ_of_lt (h.heapLt y d hy)
      · intro y d hy
        change Function.update t.heap t.nextSym _ y = some d at hy
        by_cases hne : y = t.nextSym
        · subst hne
          rw [Function.update_self] at hy
          rw [← Option.some.inj hy]
        · rw [Function.update_of_ne hne] at hy
          exact h.len y d hy
      · intro f' hf'
        have e : f = f' := Option.some.inj (hc.symm.trans hf')
        subst e
        refine ⟨?_, rfl⟩
        show f ∈ (mapSyms f (fun syms => t.nextSym :: syms) t.files).map SymFile.id
        rw [mapSyms_ids]
        exact hf
    · rw [if_neg hf] at hs
      exact absurd hs (by simp)

end

/-! ## AddSym -/

/-- the search of `AddSym` along a chain whose entries are all in memory -/
theorem findSym_spec (o : Options) (t : Table) (name : Name) {chain : List SymId}
    (hl : ∀ x ∈ chain, t.heap x ≠ none) :
    (findSym o t name chain = some none ∧ ∀ x ∈ chain, ∀ e, t.heap x = some e →
        e.len.toNat = name.bytes.length → symbolNameCmp o e.name name ≠ 0) ∨
    ∃ x e, findSym o t name chain = some (some (x, e)) ∧ x ∈ chain ∧ t.heap x = some e ∧
        e.len.toNat = name.bytes.length ∧ symbolNameCmp o e.name name = 0 := by
  induction chain with
  | nil =>
    left
    exact ⟨rfl, fun x hx => absurd hx List.not_mem_nil⟩
  | cons y chain ih =>
    have hi := ih fun x hx => hl x (List.mem_cons_of_mem y hx)
    rw [findSym]
    cases hy : t.heap y with
    | none => exact absurd hy (hl y List.mem_cons_self)
    | some d =>
      dsimp only
      have skip : ¬ (d.len.toNat = name.bytes.length ∧ symbolNameCmp o d.name name = 0) →
          (findSym o t name chain = some none ∧ ∀ x ∈ y :: chain, ∀ e, t.heap x = some e →
            e.len.toNat = name.bytes.length → symbolNameCmp o e.name name ≠ 0) ∨
          ∃ x e, findSym o t name chain = some (some (x, e)) ∧ x ∈ y :: chain ∧
            t.heap x = some e ∧ e.len.toNat = name.bytes.length ∧
            symbolNameCmp o e.name name = 0 := by
        intro hd
        rcases hi with ⟨hf, hn⟩ | ⟨x, e, hf, hx, hr⟩
        · left
          refine ⟨hf, fun x hx e he hlen hcmp => ?_⟩
          rcases List.mem_cons.mp hx with rfl | hx
          · rw [hy] at he
            obtain rfl := Option.some.inj he
            exact hd ⟨hlen, hcmp⟩
          · exact hn x hx e he hlen hcmp
        · right
          exact ⟨x, e, hf, List.mem_cons_of_mem y hx, hr⟩
      by_cases h1 : d.len.toNat = name.bytes.length
      · rw [if_neg (not_not.mpr h1)]
        by_cases h2 : symbolNameCmp o d.name name = 0
        · rw [if_pos h2]
          right
          exact ⟨y, d, rfl, List.mem_cons_self, hy, h1, h2⟩
        · rw [if_neg h2]
          exact skip fun h => h2 h.2
      · rw [if_pos h1]
        exact skip fun h => h1 h.1

/-- `AddSym` replaces a weaker entry, leaves the table alone, or makes the first entry of a name -/
theorem addSym_cases {o : Options} {t t' : Table} (h : Linked t) {name : Name}
    {strength : Strength} {info : UInt8} (hs : addSym o t name strength info = some t') :
    (∃ x e, Matches o t name x e ∧ e.strength.rank < strength.rank ∧
      pushSym (dropped t x e) (hash name) name strength info = some t') ∨
    (∃ x e, Matches o t name x e ∧ strength.rank ≤ e.strength.rank ∧
      t' = warnDuplicate o t name strength e) ∨
    ((∀ x e, ¬ Matches o t name x e) ∧ pushSym t (hash name) name strength info = some t') := by
  have hl : ∀ x ∈ t.hashTable (hash name), t.heap x ≠ none := by
    intro x hx hn
    have hk := h.onChains.mem.mp hx
    rw [hashOf, hn] at hk
    exact absurd hk (by simp)
  have hchain : ∀ {x e}, t.heap x = some e → (x ∈ t.hashTable (hash name) ↔
      hash e.name = hash name) := by
    intro x e he
    rw [h.onChains.mem, hashOf, he, Option.map_some]
    exact ⟨Option.some.inj, fun h => by rw [h]⟩
  rw [addSym] at hs
  rcases findSym_spec o t name hl with ⟨hf, hn⟩ | ⟨x, e, hf, hx, he, hlen, hcmp⟩
  · rw [hf] at hs
    right
    right
    refine ⟨fun x e hm => ?_, hs⟩
    exact hn x ((hchain hm.1).mpr hm.2.1) e hm.1 hm.2.2.1 hm.2.2.2
  · have hh : hash e.name = hash name := (hchain he).mp hx
    rw [hf] at hs
    dsimp only at hs
    by_cases hr : strength.rank > e.strength.rank
    · left
      rw [if_pos hr] at hs
      have hd := dropSym_eq h he
      rw [hh] at hd
      rw [hd] at hs
      exact ⟨x, e, ⟨he, hh, hlen, hcmp⟩, hr, hs⟩
    · right
      left
      rw [if_neg hr] at hs
      exact ⟨x, e, ⟨he, hh, hlen, hcmp⟩, Nat.not_lt.mp hr, (Option.some.inj hs).symm⟩

theorem warnDuplicate_fields (o : Options) (t : Table) (name : Name) (strength : Strength)
    (e : SymEntry) : ∃ w, warnDuplicate o t name strength e = { t with warnings := w } := by
  rw [warnDuplicate]
  split
  · exact ⟨_, rfl⟩
  · exact ⟨t.warnings, rfl⟩

theorem Linked.warnings {t : Table} (h : Linked t) (w : List Name) :
    Linked { t with warnings := w } :=
  ⟨h.ids, h.idsLt, h.addTo, h.onFiles, h.onChains, h.heapLt, h.len⟩

theorem addSym_linked {o : Options} {t t' : Table} (h : Linked t) {name : Name}
    {strength : Strength} {info : UInt8} (hs : addSym o t name strength info = some t') :
    Linked t' := by
  rcases addSym_cases h hs with ⟨x, e, hm, -, hp⟩ | ⟨x, e, -, -, rfl⟩ | ⟨-, hp⟩
  · exact (pushSym_pushed (dropped_linked h hm.1) hp).linked
  · obtain ⟨w, hw⟩ := warnDuplicate_fields o t name strength e
    rw [hw]
    exact h.warnings w
  · exact (pushSym_pushed h hp).linked

/-! ## RemoveObjectSymbols -/

theorem findFile_split {o : Options} {name : Name} {before files b c : List SymFile} {f : SymFile}
    (hf : findFile o name before files = some (b, f, c)) :
    b ++ f :: c = before ++ files ∧ symbolNameCmp o f.fullName name = 0 := by
  induction files generalizing before with
  | nil => exact absurd hf (by simp [findFile])
  | cons g files ih =>
    rw [findFile] at hf
    by_cases h : symbolNameCmp o g.fullName name = 0
    · rw [if_pos h] at hf
      obtain ⟨rfl, rfl, rfl⟩ := Option.some.inj hf
      exact ⟨rfl, h⟩
    · rw [if_neg h] at hf
      have hi := ih hf
      rw [List.append_assoc, List.singleton_append] at hi
      exact hi

theorem unlinkFile_eq {t : Table} (h : Linked t) {before files : List SymFile} {f : SymFile}
    (hf : before ++ f :: files = t.files) :
    unlinkFile t before f files
      = (before ++ files, (before ++ files).getLast?.map SymFile.id) := by
  have hn := h.ids
  have ha := h.addTo
  rw [← hf] at hn ha
  rw [List.map_append, List.map_cons] at hn
  have hnf : f.id ∉ files.map SymFile.id :=
    (List.nodup_cons.mp (List.nodup_append.mp hn).2.1).1
  rw [List.getLast?_append, List.getLast?_cons] at ha
  rw [List.getLast?_append, unlinkFile]
  cases hl : files.getLast? with
  | none =>
    rw [List.getLast?_eq_none_iff] at hl
    rw [hl] at ha ⊢
    have hadd : t.addTo = some f.id := ha
    cases hb : before.getLast? with
    | none =>
      rw [List.getLast?_eq_none_iff] at hb
      rw [hb, hadd]
      simp
    | some prev =>
      rw [hadd]
      simp
  | some l =>
    rw [hl] at ha
    have hadd : t.addTo = some l.id := ha
    have hne : ¬ t.addTo = some f.id := by
      rw [hadd]
      intro e
      exact hnf (Option.some.inj e ▸ List.mem_map_of_mem (List.mem_of_getLast? hl))
    cases hb : before.getLast? with
    | none =>
      rw [List.getLast?_eq_none_iff] at hb
      dsimp only
      rw [if_neg hne, hb, hadd]
      rfl
    | some prev =>
      dsimp only
      rw [if_neg hne, hadd]
      rfl

/-- the bucket of an entry in memory -/
def bucketOf (heap : SymId → Option SymEntry) (x : SymId) : Nat := (hashOf heap x).getD 0

theorem removeFromHashTable_all (heap : SymId → Option SymEntry) {xs : List SymId}
    (hx : ∀ x ∈ xs, heap x ≠ none) (table : Nat → List SymId) :
    xs.foldlM (removeFromHashTable heap) table = some (xs.foldl (fun c x =>
      Function.update c (bucketOf heap x) ((c (bucketOf heap x)).erase x)) table) := by
  induction xs generalizing table with
  | nil => rfl
  | cons x xs ih =>
    cases he : heap x with
    | none => exact absurd he (hx x List.mem_cons_self)
    | some e =>
      have hb : bucketOf heap x = hash e.name := by
        rw [bucketOf, hashOf, he]
        rfl
      have hr : removeFromHashTable heap table x
          = some (Function.update table (bucketOf heap x) ((table (bucketOf heap x)).erase x)) := by
        rw [removeFromHashTable, he, hb]
        rfl
      rw [List.foldlM_cons, hr, List.foldl_cons]
      exact ih (fun y hy => hx y (List.mem_cons_of_mem x hy)) _

theorem symsOf_remove {before files : List SymFile} {f : SymFile}
    (hn : ((before ++ f :: files).map SymFile.id).Nodup) :
    symsOf (before ++ files) = Function.update (symsOf (before ++ f :: files)) f.id [] := by
  rw [List.map_append, List.map_cons] at hn
  obtain ⟨-, h2, h3⟩ := List.nodup_append.mp hn
  have hb : f.id ∉ before.map SymFile.id := fun hm => h3 _ hm _ List.mem_cons_self rfl
  have hf : f.id ∉ files.map SymFile.id := (List.nodup_cons.mp h2).1
  funext k
  by_cases hk : k = f.id
  · subst hk
    rw [Function.update_self, symsOf_append, if_neg hb, symsOf_of_notMem hf]
  · rw [Function.update_of_ne hk, symsOf_append, symsOf_append, symsOf_cons,
      if_neg (fun e => hk e.symm : ¬ f.id = k)]

/-- what `RemoveObjectSymbols` does when it finds the file -/
theorem removeObjectSymbols_cases {o : Options} {t t' : Table} (h : Linked t) {name : Name}
    {r : Bool} (hs : removeObjectSymbols o t name = some (t', r)) :
    (t' = t ∧ r = false) ∨ ∃ f ∈ t.files, symbolNameCmp o f.fullName name = 0 ∧ Linked t' ∧
      t'.heap = (fun x => if fileOf t.heap x = some f.id then none else t.heap x) ∧
      t'.nextSym = t.nextSym ∧ t'.nextFile = t.nextFile ∧ t'.currFile = t.currFile ∧ r = true := by
  rw [removeObjectSymbols] at hs
  cases hf : findFile o name [] t.files with
  | none =>
    rw [hf] at hs
    left
    obtain ⟨rfl, rfl⟩ := Prod.mk.inj (Option.some.inj hs)
    exact ⟨rfl, rfl⟩
  | some p =>
    obtain ⟨before, f, files⟩ := p
    rw [hf] at hs
    obtain ⟨hsplit, hname⟩ := findFile_split hf
    rw [List.nil_append] at hsplit
    have hmem : f ∈ t.files := by
      rw [← hsplit]
      exact List.mem_append_right before List.mem_cons_self
    have hsyms : symsOf t.files f.id = f.syms := symsOf_mem h.ids hmem
    have hiff : ∀ x, x ∈ f.syms ↔ fileOf t.heap x = some f.id := by
      intro x
      rw [← hsyms, h.onFiles.mem]
    have hlive : ∀ x ∈ f.syms, t.heap x ≠ none := by
      intro x hx hn
      have hk := (hiff x).mp hx
      rw [fileOf, hn] at hk
      exact absurd hk (by simp)
    have hheap : (fun x => if x ∈ f.syms then none else t.heap x)
        = fun x => if fileOf t.heap x = some f.id then none else t.heap x := by
      funext x
      rw [if_congr (hiff x) rfl rfl]
    dsimp only at hs
    rw [removeFromHashTable_all t.heap hlive, unlinkFile_eq h hsplit] at hs
    obtain ⟨rfl, rfl⟩ := Prod.mk.inj (Option.some.inj hs)
    right
    refine ⟨f, hmem, hname, ?_, hheap, rfl, rfl, rfl, rfl⟩
    have hsub : (before ++ files).Sublist t.files := by
      rw [← hsplit]
      exact List.Sublist.append_left (List.sublist_cons_self f files) before
    have hn := h.ids
    rw [← hsplit] at hn
    have keep : ∀ x e, (if x ∈ f.syms then none else t.heap x) = some e → t.heap x = some e := by
      intro x e hx
      by_cases hxf : x ∈ f.syms
      · rw [if_pos hxf] at hx
        exact absurd hx (by simp)
      · rwa [if_neg hxf] at hx
    exact {
      ids := h.ids.sublist (hsub.map _)
      idsLt := fun g hg => h.idsLt g (hsub.subset hg)
      addTo := rfl
      onFiles := by
        show Filed (symsOf (before ++ files)) (fileOf fun x => if x ∈ f.syms then none else t.heap x)
        have hk : (fileOf fun x => if x ∈ f.syms then none else t.heap x)
            = fun x => if fileOf t.heap x = some f.id then none else fileOf t.heap x := by
          funext x
          rw [fileOf, if_congr (hiff x) rfl rfl]
          split <;> rfl
        rw [symsOf_remove hn, hk, hsplit]
        exact h.onFiles.clear f.id
      onChains := by
        show Filed _ (hashOf fun x => if x ∈ f.syms then none else t.heap x)
        have hk : (hashOf fun x => if x ∈ f.syms then none else t.heap x)
            = fun x => if x ∈ f.syms then none else hashOf t.heap x := by
          funext x
          rw [hashOf]
          split <;> rfl
        rw [hk]
        refine h.onChains.eraseAll (bucketOf t.heap) (hsyms ▸ (h.onFiles f.id).1) fun x hx => ?_
        rw [bucketOf, hashOf]
        cases he : t.heap x with
        | none => exact absurd he (hlive x hx)
        | some e => rfl
      heapLt := fun x e hx => h.heapLt x e (keep x e hx)
      len := fun x e hx => h.len x e (keep x e hx) }

/-! ## runs -/

theorem step_linked {o : Options} {t t' : Table} (h : Linked t) {op : Op}
    (hs : step o t op = some t') : Linked t' := by
  cases op with
  | newSymFile name => exact newSymFile_linked h hs
  | addSym name strength info => exact addSym_linked h hs
  | removeObjectSymbols name =>
    obtain ⟨⟨u, r⟩, hr, rfl⟩ := Option.map_eq_some_iff.mp hs
    rcases removeObjectSymbols_cases h hr with ⟨rfl, -⟩ | ⟨-, -, -, hl, -⟩
    · exact h
    · exact hl
  | cleanFileTab =>
    obtain rfl := Option.some.inj hs
    exact cleanFileTab_linked h

theorem run_append (o : Options) (t : Table) (a b : List Op) :
    run o t (a ++ b) = (run o t a).bind fun u => run o u b := by
  induction a generalizing t with
  | nil => rfl
  | cons op a ih =>
    rw [List.cons_append, run, run, Option.bind_assoc]
    congr 1
    funext u
    exact ih u

theorem run_snoc {o : Options} {t v : Table} {ops : List Op} {op : Op}
    (h : run o t (ops ++ [op]) = some v) : ∃ u, run o t ops = some u ∧ step o u op = some v := by
  rw [run_append] at h
  obtain ⟨u, hu, hv⟩ := Option.bind_eq_some_iff.mp h
  obtain ⟨w, hw, e⟩ := Option.bind_eq_some_iff.mp hv
  exact ⟨u, hu, hw.trans e⟩

/-- every run keeps both lists of every symbol right -/
theorem run_linked {o : Options} {t t' : Table} (h : Linked t) {ops : List Op}
    (hr : run o t ops = some t') : Linked t' := by
  induction ops generalizing t with
  | nil =>
    obtain rfl := Option.some.inj hr
    exact h
  | cons op ops ih =>
    obtain ⟨u, hu, hr⟩ := Option.bind_eq_some_iff.mp hr
    exact ih (step_linked h hu) hr

end Nwlib
