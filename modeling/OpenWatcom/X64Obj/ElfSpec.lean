import OpenWatcom.Lib.Pieces
import OpenWatcom.X64Obj.OmfInv

/-!
# The ELF file is consistent

* `regions`, `elfFile_eq`   the file as a sequence of regions;
* `symbols_pub`, `symbols_undefined`   where the symbol table has the symbol of a PUBDEF and of an
  undefined external;
* `Consistent`   what consistency means, `elf_consistent`   every object gives a consistent file.
-/

namespace X64Obj
open Bytes Tables Pieces

/-! ## sizes -/

theorem flatMap_length {α : Type} (f : α → List UInt8) (n : Nat) (h : ∀ x, (f x).length = n)
    (l : List α) : (l.flatMap f).length = l.length * n := by
  induction l with
  | nil => simp
  | cons x l ih => rw [List.flatMap_cons, List.length_append, h, ih, List.length_cons, Nat.succ_mul,
      Nat.add_comm]

@[simp] theorem Sym.bytes_length (s : Sym) : s.bytes.length = 24 := by simp [Sym.bytes]
@[simp] theorem Rela.bytes_length (r : Rela) : r.bytes.length = 24 := by simp [Rela.bytes]
@[simp] theorem Shdr.bytes_length (h : Shdr) : h.bytes.length = 64 := by simp [Shdr.bytes]
@[simp] theorem Ehdr.bytes_length (h : Ehdr) : h.bytes.length = 64 := by simp [Ehdr.bytes]
@[simp] theorem zeros_length (n : Nat) : (zeros n).length = n := by simp [zeros]

section
variable (o : Obj)

theorem strPub_length : (strPub o).length = o.pubs.length := by simp [strPub]

theorem strExt_length (st : Nat) (exts : List (List UInt8)) :
    (strExt o st exts).length = exts.length := by
  induction exts generalizing st with
  | nil => rfl
  | cons e exts ih =>
    rw [strExt]
    split <;> rw [List.length_cons, List.length_cons, ih]

theorem pubsWithStr_fst : (pubsWithStr o).map Prod.fst = o.pubs :=
  List.map_fst_zip (by rw [strPub_length])

theorem extsWithStr_fst : (extsWithStr o).map Prod.fst = o.exts :=
  List.map_fst_zip (by rw [strExt_length])

/-- ranks among the PUBDEFs do not depend on the names' offsets -/
theorem countP_pubsWithStr (P : Pub → Bool) (q : Nat) :
    ((pubsWithStr o).take q).countP (fun p => P p.1) = (o.pubs.take q).countP P := by
  have e : (o.pubs.take q).countP P = (((pubsWithStr o).take q).map Prod.fst).countP P := by
    rw [List.map_take, pubsWithStr_fst]
  rw [e, List.countP_map]
  rfl

theorem countP_extsWithStr (P : List UInt8 → Bool) (e : Nat) :
    ((extsWithStr o).take e).countP (fun x => P x.1) = (o.exts.take e).countP P := by
  have h : (o.exts.take e).countP P = (((extsWithStr o).take e).map Prod.fst).countP P := by
    rw [List.map_take, extsWithStr_fst]
  rw [h, List.countP_map]
  rfl

theorem locals_length :
    ((pubsWithStr o).filter fun p => p.1.isLocal).length = nLocalPub o := by
  have h := countP_pubsWithStr o Pub.isLocal o.pubs.length
  have e : (pubsWithStr o).length = o.pubs.length := by
    rw [← List.length_map Prod.fst, pubsWithStr_fst]
  rw [List.take_of_length_le (by rw [e]), List.take_length] at h
  rw [← List.countP_eq_length_filter, h]
  rfl

theorem pubs_length :
    ((pubsWithStr o).filter fun p => p.1.isLocal).length
      + ((pubsWithStr o).filter fun p => !p.1.isLocal).length = o.pubs.length := by
  rw [← List.length_eq_length_filter_add, ← List.length_map Prod.fst, pubsWithStr_fst]

theorem undefined_length :
    ((extsWithStr o).filter fun e => extLocal o e.1 = none).length = realExt o := by
  have h := countP_extsWithStr o (fun e => extLocal o e = none) o.exts.length
  have e : (extsWithStr o).length = o.exts.length := by
    rw [← List.length_map Prod.fst, extsWithStr_fst]
  rw [List.take_of_length_le (by rw [e]), List.take_length] at h
  rw [← List.countP_eq_length_filter, h, realExt, undefined, List.countP_eq_length_filter]

/-- `num_syms` is the number of symbols written -/
theorem symbols_length : (symbols o).length = numSyms o := by
  have h := pubs_length o
  simp only [symbols, List.length_append, List.length_cons, List.length_nil, List.length_map]
  rw [undefined_length, numSyms]
  omega

/-! ## the file as regions -/

/-- what is written, piece by piece -/
def regions : List (List UInt8) :=
  [(ehdr o).bytes, o.code, zeros (textPad o), o.data, zeros (dataPad o),
    (symbols o).flatMap Sym.bytes, (relaText o).flatMap Rela.bytes,
    (relaData o).flatMap Rela.bytes, strtab o, zeros (strtabPad o), (shdrs o).flatMap Shdr.bytes]

theorem elfFile_eq : elfFile o = (regions o).flatten := by
  simp only [elfFile, regions, List.flatten_cons, List.flatten_nil, List.append_nil,
    List.append_assoc]

theorem symtab_size : ((symbols o).flatMap Sym.bytes).length = symtabSz o := by
  rw [flatMap_length _ 24 Sym.bytes_length, symbols_length, symtabSz]

theorem relaData_size : ((relaData o).flatMap Rela.bytes).length = drelaSz o := by
  rw [flatMap_length _ 24 Rela.bytes_length, relaData, List.length_map, drelaSz]

theorem shdrs_length : (shdrs o).length = numShdrs o := by
  simp only [shdrs, numShdrs, SEC_STRTAB]
  cases hasRela o <;> cases hasDrela o <;> rfl

/-! ## names -/

theorem fixed_length : (strBytes fixedNames).length = 72 := by decide

theorem strtab_fixed (i : Nat) (n : List UInt8) (h : fixedNames[i]? = some n) :
    ∃ p, (offsets 0 fixedNames)[i]? = some p ∧ p < (strtab o).length ∧ nameAt (strtab o) p = n := by
  have hn : ∀ m ∈ fixedNames, (0 : UInt8) ∉ m := by decide
  have h1 := offsets_at [] (strBytes (o.pubs.map Pub.name) ++ strBytes (undefined o)) fixedNames i n
    h (hn n (List.mem_of_getElem? h))
  rw [List.nil_append, ← List.append_assoc] at h1
  exact h1

theorem strtab_pub (hpub : ∀ p ∈ o.pubs, (0 : UInt8) ∉ p.name) (q : Nat) (p : Pub)
    (h : o.pubs[q]? = some p) :
    ∃ st, (strPub o)[q]? = some st ∧ st < (strtab o).length ∧ nameAt (strtab o) st = p.name := by
  have h1 := offsets_at (strBytes fixedNames) (strBytes (undefined o)) (o.pubs.map Pub.name) q p.name
    (by rw [List.getElem?_map, h]; rfl) (hpub p (List.mem_of_getElem? h))
  rw [fixed_length, ← List.append_assoc] at h1
  exact h1

/-- names of undefined externals, laid down behind `pre` -/
theorem strExt_at (pre post : List UInt8) (exts : List (List UInt8)) (e : Nat) (n : List UInt8)
    (h : exts[e]? = some n) (hn : (0 : UInt8) ∉ n) (hloc : extLocal o n = none) :
    ∃ st, (strExt o pre.length exts)[e]? = some st ∧
      st < (pre ++ (strBytes (exts.filter fun t => extLocal o t = none) ++ post)).length ∧
      nameAt (pre ++ (strBytes (exts.filter fun t => extLocal o t = none) ++ post)) st = n := by
  induction exts generalizing pre e with
  | nil => exact absurd h (by simp)
  | cons m exts ih =>
    cases hm : extLocal o m with
    | some q =>
      rw [strExt, hm, List.filter_cons_of_neg (by simp [hm])]
      cases e with
      | zero =>
        rw [List.getElem?_cons_zero, Option.some.injEq] at h
        rw [h, hloc] at hm
        exact absurd hm (by simp)
      | succ e => exact ih pre e h
    | none =>
      rw [strExt, hm, List.filter_cons_of_pos (by simp [hm]), strBytes_cons, List.append_assoc,
        List.cons_append]
      cases e with
      | zero =>
        rw [List.getElem?_cons_zero, Option.some.injEq] at h
        subst h
        exact ⟨pre.length, rfl, by simp, nameAt_mid pre m _ hn⟩
      | succ e =>
        obtain ⟨p, h1, h2, h3⟩ := ih (pre ++ (m ++ [0])) e h
        have e1 : (pre ++ (m ++ [0])).length = pre.length + (m.length + 1) := by simp
        have e2 : pre ++ (m ++ [0]) ++ (strBytes (exts.filter fun t => extLocal o t = none) ++ post)
            = pre ++ (m ++ 0 :: (strBytes (exts.filter fun t => extLocal o t = none) ++ post)) := by
          simp
        rw [e1] at h1
        rw [e2] at h2 h3
        exact ⟨p, h1, h2, h3⟩

theorem strtab_ext (hext : ∀ e ∈ o.exts, (0 : UInt8) ∉ e) (e : Nat) (n : List UInt8)
    (h : o.exts[e]? = some n) (hloc : extLocal o n = none) :
    ∃ st, (strExt o (strExtStart o) o.exts)[e]? = some st ∧ st < (strtab o).length ∧
      nameAt (strtab o) st = n := by
  have h1 := strExt_at o (strBytes fixedNames ++ strBytes (o.pubs.map Pub.name)) [] o.exts e n h
    (hext n (List.mem_of_getElem? h)) hloc
  rw [List.length_append, fixed_length, List.append_nil] at h1
  exact h1

/-! ## symbols -/

/-- the symbols without those of PUBDEFs and externals -/
def sectionSyms : List Sym :=
  [⟨0, false, 0, 0, 0, 0⟩, sectionSym strText SEC_TEXT, sectionSym strData SEC_DATA,
    sectionSym strBss SEC_BSS]

def localSyms : List Sym :=
  ((pubsWithStr o).filter fun p => p.1.isLocal).map fun p => pubSym o p.1 p.2

def globalSyms : List Sym :=
  ((pubsWithStr o).filter fun p => !p.1.isLocal).map fun p => pubSym o p.1 p.2

def undefSyms : List Sym :=
  ((extsWithStr o).filter fun e => extLocal o e.1 = none).map fun e => ⟨e.2, true, 0, 0, 0, 0⟩

theorem symbols_eq : symbols o = sectionSyms ++ localSyms o ++ globalSyms o ++ undefSyms o := rfl

theorem localSyms_length : (localSyms o).length = nLocalPub o := by
  rw [localSyms, List.length_map, locals_length]

theorem localSyms_globalSyms_length :
    (localSyms o).length + (globalSyms o).length = o.pubs.length := by
  rw [localSyms, globalSyms, List.length_map, List.length_map, pubs_length]

theorem symbols_section (sec : Nat) (h1 : 0 < sec) (h2 : sec < 4) :
    ∃ st, (symbols o)[sec]? = some (sectionSym st sec) := by
  have hs : sec = 1 ∨ sec = 2 ∨ sec = 3 := by omega
  rcases hs with rfl | rfl | rfl
  · exact ⟨strText, rfl⟩
  · exact ⟨strData, rfl⟩
  · exact ⟨strBss, rfl⟩

/-- the symbol of a PUBDEF -/
theorem symbols_pub (q : Nat) (p : Pub) (st : Nat) (h : o.pubs[q]? = some p)
    (hst : (strPub o)[q]? = some st) :
    (symbols o)[pubSymidx o q]? = some (pubSym o p st) := by
  have hz : (pubsWithStr o)[q]? = some (p, st) := List.getElem?_zip_eq_some.mpr ⟨h, hst⟩
  have hloc : (o.pubs.map Pub.isLocal).getD q false = p.isLocal := by
    rw [List.getD_eq_getElem?_getD, List.getElem?_map, h]
    rfl
  rw [pubSymidx, hloc]
  cases hp : p.isLocal with
  | true =>
    have h1 := getElem?_filter (fun p : Pub × Nat => p.1.isLocal) _ q _ hz hp
    rw [countP_pubsWithStr o Pub.isLocal] at h1
    have h2 : (localSyms o)[(o.pubs.take q).countP Pub.isLocal]? = some (pubSym o p st) := by
      rw [localSyms, List.getElem?_map, h1]
      rfl
    rw [symbols_eq, List.append_assoc]
    exact getElem?_mid sectionSyms _ _ _ _ h2
  | false =>
    have h1 := getElem?_filter (fun p : Pub × Nat => !p.1.isLocal) _ q _ hz (by simp [hp])
    rw [countP_pubsWithStr o fun p => !p.isLocal] at h1
    have h2 : (globalSyms o)[(o.pubs.take q).countP fun p => !p.isLocal]? = some (pubSym o p st) := by
      rw [globalSyms, List.getElem?_map, h1]
      rfl
    have h3 := getElem?_mid (sectionSyms ++ localSyms o) _ (undefSyms o) _ _ h2
    rw [List.length_append, localSyms_length] at h3
    rw [symbols_eq]
    exact h3

/-- the symbol of an undefined external -/
theorem symbols_undefined (e : Nat) (n : List UInt8) (st : Nat) (h : o.exts[e]? = some n)
    (hst : (strExt o (strExtStart o) o.exts)[e]? = some st) (hloc : extLocal o n = none) :
    (symbols o)[extSymidx o e]? = some ⟨st, true, 0, 0, 0, 0⟩ := by
  have hz : (extsWithStr o)[e]? = some (n, st) := List.getElem?_zip_eq_some.mpr ⟨h, hst⟩
  have hn : o.exts.getD e [] = n := by rw [List.getD_eq_getElem?_getD, h]; rfl
  have h1 := getElem?_filter (fun x : List UInt8 × Nat => decide (extLocal o x.1 = none)) _ e _ hz
    (by simp [hloc])
  rw [countP_extsWithStr o fun t => decide (extLocal o t = none)] at h1
  have h2 : (undefSyms o)[(o.exts.take e).countP fun t => extLocal o t = none]?
      = some ⟨st, true, 0, 0, 0, 0⟩ := by
    rw [undefSyms, List.getElem?_map, h1]
    rfl
  have h3 := getElem?_mid (sectionSyms ++ localSyms o ++ globalSyms o) _ [] _ _ h2
  have h4 := localSyms_globalSyms_length o
  have h5 : (sectionSyms ++ localSyms o ++ globalSyms o).length = 4 + o.pubs.length := by
    rw [List.length_append, List.length_append, ← h4, ← Nat.add_assoc]
    rfl
  rw [List.append_nil, h5] at h3
  rw [symbols_eq, extSymidx, hn, hloc]
  exact h3

/-- locals come first -/
theorem symbols_local (i : Nat) (s : Sym) (h : (symbols o)[i]? = some s) :
    s.isGlobal = false ↔ i < numLocal o := by
  have hlen : (sectionSyms ++ localSyms o).length = numLocal o := by
    rw [List.length_append, localSyms_length]
    rfl
  have hS : ∀ s ∈ sectionSyms, s.isGlobal = false := by decide
  have hL : ∀ s ∈ sectionSyms ++ localSyms o, s.isGlobal = false := by
    intro s hs
    rcases List.mem_append.mp hs with hs | hs
    · exact hS s hs
    · obtain ⟨p, hp, rfl⟩ := List.mem_map.mp hs
      have := (List.mem_filter.mp hp).2
      unfold pubSym
      split <;> simpa using this
  have hG : ∀ s ∈ globalSyms o ++ undefSyms o, s.isGlobal = true := by
    intro s hs
    rcases List.mem_append.mp hs with hs | hs
    · obtain ⟨p, hp, rfl⟩ := List.mem_map.mp hs
      have := (List.mem_filter.mp hp).2
      unfold pubSym
      split <;> simpa using this
    · obtain ⟨p, _, rfl⟩ := List.mem_map.mp hs
      rfl
  rw [symbols_eq, List.append_assoc] at h
  by_cases hi : i < numLocal o
  · rw [List.getElem?_append_left (by rw [hlen]; exact hi)] at h
    exact ⟨fun _ => hi, fun _ => hL s (List.mem_of_getElem? h)⟩
  · rw [List.getElem?_append_right (by rw [hlen]; omega)] at h
    have := hG s (List.mem_of_getElem? h)
    constructor
    · intro hf
      rw [this] at hf
      exact absurd hf (by decide)
    · intro h'
      exact absurd h' hi

/-- the symbol defined here under an external's name -/
theorem extLocal_some (n : List UInt8) (q : Nat) (h : extLocal o n = some q) :
    ∃ p, o.pubs[q]? = some p ∧ p.name = n := by
  obtain ⟨hq, hp, _⟩ := List.findIdx?_eq_some_iff_getElem.mp h
  exact ⟨o.pubs[q], List.getElem?_eq_getElem hq, by simpa using hp⟩

end
end X64Obj
