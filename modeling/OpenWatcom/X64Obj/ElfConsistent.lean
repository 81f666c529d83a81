import OpenWatcom.X64Obj.ElfSpec

/-!
# Every object gives a consistent ELF file

* `Consistent`   regions where the headers say, apart from each other; locals first; names in the
                 string table; relocations on the right symbols;
* `elf_consistent`   what `X64ObjFini` writes is consistent, for every object.
-/

namespace X64Obj
open Bytes Tables Pieces

section
variable (o : Obj)

/-! ## what consistency means -/

/-- the symbols, each with the name it is meant to have -/
def symbolNames : List (Sym × List UInt8) :=
  [(⟨0, false, 0, 0, 0, 0⟩, []), (sectionSym strText SEC_TEXT, ascii ['.', 't', 'e', 'x', 't']),
      (sectionSym strData SEC_DATA, ascii ['.', 'd', 'a', 't', 'a']),
      (sectionSym strBss SEC_BSS, ascii ['.', 'b', 's', 's'])]
    ++ ((pubsWithStr o).filter fun p => p.1.isLocal).map (fun p => (pubSym o p.1 p.2, p.1.name))
    ++ ((pubsWithStr o).filter fun p => !p.1.isLocal).map (fun p => (pubSym o p.1 p.2, p.1.name))
    ++ ((extsWithStr o).filter fun e => extLocal o e.1 = none).map
        (fun e => (⟨e.2, true, 0, 0, 0, 0⟩, e.1))

/-- the section headers, each with the name it is meant to have -/
def headerNames : List (Shdr × List UInt8) :=
  [(⟨0, 0, 0, 0, 0, 0, 0, 0, 0⟩, []), (textShdr o, ascii ['.', 't', 'e', 'x', 't']),
      (dataShdr o, ascii ['.', 'd', 'a', 't', 'a']), (bssShdr o, ascii ['.', 'b', 's', 's']),
      (symtabShdr o, ascii ['.', 's', 'y', 'm', 't', 'a', 'b'])]
    ++ (if hasRela o then
        [(relaShdr o, ascii ['.', 'r', 'e', 'l', 'a', '.', 't', 'e', 'x', 't'])] else [])
    ++ (if hasDrela o then
        [(drelaShdr o, ascii ['.', 'r', 'e', 'l', 'a', '.', 'd', 'a', 't', 'a'])] else [])
    ++ [(noteShdr o, ascii ['.', 'n', 'o', 't', 'e', '.', 'G', 'N', 'U', '-', 's', 't', 'a', 'c', 'k']),
      (strtabShdr o, ascii ['.', 's', 't', 'r', 't', 'a', 'b'])]

/-- offset and size of every region, as the headers give them -/
def placed : List (Nat × Nat) :=
  [(0, 64), ((textShdr o).offset, (textShdr o).size), ((dataShdr o).offset, (dataShdr o).size),
    ((symtabShdr o).offset, (symtabShdr o).size), ((relaShdr o).offset, (relaShdr o).size),
    ((drelaShdr o).offset, (drelaShdr o).size), ((strtabShdr o).offset, (strtabShdr o).size),
    ((ehdr o).shoff, (ehdr o).shnum * 64)]

/-- what stands there -/
def contents : List (List UInt8) :=
  [(ehdr o).bytes, o.code, o.data, (symbols o).flatMap Sym.bytes, (relaText o).flatMap Rela.bytes,
    (relaData o).flatMap Rela.bytes, strtab o, (shdrs o).flatMap Shdr.bytes]

/-- symbol `i` is the one the external `n` stands for: the first definition here under that name,
or else an undefined symbol with it -/
def Denotes (i : Nat) (n : List UInt8) : Prop :=
  ∃ s, (symbols o)[i]? = some s ∧ nameAt (strtab o) s.name = n ∧
    match extLocal o n with
    | some q => ∃ p st, o.pubs[q]? = some p ∧ p.name = n ∧ s = pubSym o p st
    | none => s.isGlobal = true ∧ s.shndx = 0

/-- the relocation of a fixup names a symbol of the table: the one of its external, or the symbol
of the section it refers to -/
def Relocates (f : FixupRec) (r : Rela) : Prop :=
  r.sym < (symbols o).length ∧
    if 0 ≤ f.extIdx then ∃ n, o.exts[f.extIdx.toNat]? = some n ∧ Denotes o r.sym n
    else ∃ st, (symbols o)[r.sym]? = some (sectionSym st r.sym)

structure Consistent : Prop where
  stands : List.Forall₂ (fun r c => slice (elfFile o) r.1 r.2 = c) (placed o) (contents o)
  apart : (placed o).Pairwise fun a b => a.1 + a.2 ≤ b.1
  within : ∀ r ∈ placed o, r.1 + r.2 ≤ (elfFile o).length
  shnum : (shdrs o).length = (ehdr o).shnum
  shstrndx : (shdrs o)[(ehdr o).shstrndx]? = some (strtabShdr o)
  symLink : (shdrs o)[(symtabShdr o).link]? = some (strtabShdr o)
  relaLink : (shdrs o)[(relaShdr o).link]? = some (symtabShdr o)
  relaInfo : (shdrs o)[(relaShdr o).info]? = some (textShdr o)
  drelaInfo : (shdrs o)[(drelaShdr o).info]? = some (dataShdr o)
  localsFirst : ∀ i s, (symbols o)[i]? = some s → (s.isGlobal = false ↔ i < (symtabShdr o).info)
  firstGlobal : (symtabShdr o).info ≤ (symbols o).length
  symbols : (symbolNames o).map Prod.fst = symbols o
  symNames : ∀ x ∈ symbolNames o, x.1.name < (strtab o).length ∧ nameAt (strtab o) x.1.name = x.2
  headers : (headerNames o).map Prod.fst = shdrs o
  secNames : ∀ x ∈ headerNames o, x.1.name < (strtab o).length ∧ nameAt (strtab o) x.1.name = x.2
  relocText : List.Forall₂ (Relocates o) o.fixups (relaText o)
  relocData : List.Forall₂ (Relocates o) o.dfixups (relaData o)

/-! ## regions -/

theorem relaText_length (h : o.fixupOrigOff.length = o.fixups.length) :
    (relaText o).length = o.fixups.length := by
  rw [relaText, List.length_map, List.length_zip, h, Nat.min_self]

theorem relaText_size (h : o.fixupOrigOff.length = o.fixups.length) :
    ((relaText o).flatMap Rela.bytes).length = relaSz o := by
  rw [flatMap_length _ 24 Rela.bytes_length, relaText_length o h, relaSz]

theorem shdrs_size : ((shdrs o).flatMap Shdr.bytes).length = numShdrs o * 64 := by
  rw [flatMap_length _ 64 Shdr.bytes_length, shdrs_length]

/-- a region stands behind the ones before it -/
theorem region_at (pre post : List (List UInt8)) (x : List UInt8) (p n : Nat)
    (h : regions o = pre ++ x :: post) (hp : pre.flatten.length = p) (hn : x.length = n) :
    slice (elfFile o) p n = x := by
  subst hp hn
  rw [elfFile_eq]
  exact StartsAt.slice ⟨pre, post, h, rfl⟩

theorem placed_stands (h : o.fixupOrigOff.length = o.fixups.length) :
    List.Forall₂ (fun r c => slice (elfFile o) r.1 r.2 = c) (placed o) (contents o) := by
  have hs := symtab_size o
  have hr := relaText_size o h
  have hd := relaData_size o
  refine List.Forall₂.cons ?_ (.cons ?_ (.cons ?_ (.cons ?_ (.cons ?_ (.cons ?_ (.cons ?_
    (.cons ?_ .nil)))))))
  · exact region_at o [] _ _ _ _ rfl rfl (Ehdr.bytes_length _)
  · exact region_at o [_] _ _ _ _ rfl (by simp [textShdr, textOff]) rfl
  · exact region_at o [_, _, _] _ _ _ _ rfl
      (by simp [dataShdr, dataOff, textOff, Nat.add_assoc]) rfl
  · exact region_at o [_, _, _, _, _] _ _ _ _ rfl
      (by simp [symtabShdr, symtabOff, dataOff, textOff, Nat.add_assoc]) hs
  · exact region_at o [_, _, _, _, _, _] _ _ _ _ rfl
      (by simp [relaShdr, relaOff, symtabOff, dataOff, textOff, Nat.add_assoc, hs]) hr
  · exact region_at o [_, _, _, _, _, _, _] _ _ _ _ rfl
      (by simp [drelaShdr, drelaOff, relaOff, symtabOff, dataOff, textOff, Nat.add_assoc, hs, hr]) hd
  · exact region_at o [_, _, _, _, _, _, _, _] _ _ _ _ rfl
      (by simp [strtabShdr, strtabOff, drelaOff, relaOff, symtabOff, dataOff, textOff,
        Nat.add_assoc, hs, hr, hd]) rfl
  · exact region_at o [_, _, _, _, _, _, _, _, _, _] _ _ _ _ rfl
      (by simp [ehdr, shdrOff, strtabOff, drelaOff, relaOff, symtabOff, dataOff, textOff,
        Nat.add_assoc, hs, hr, hd, stLen]) (shdrs_size o)

theorem elfFile_length (h : o.fixupOrigOff.length = o.fixups.length) :
    (elfFile o).length = shdrOff o + numShdrs o * 64 := by
  rw [elfFile_eq]
  simp only [regions, List.flatten_cons, List.flatten_nil, List.length_append, List.length_nil,
    Ehdr.bytes_length, zeros_length, symtab_size, relaText_size o h, relaData_size, shdrs_size,
    shdrOff, strtabOff, drelaOff, relaOff, symtabOff, dataOff, textOff, stLen]
  omega

theorem placed_apart : (placed o).Pairwise fun a b => a.1 + a.2 ≤ b.1 := by
  simp only [placed, List.pairwise_cons, List.mem_cons, List.not_mem_nil, or_false, forall_eq_or_imp,
    forall_eq, false_imp_iff, implies_true, and_true, List.Pairwise.nil]
  simp only [textShdr, dataShdr, symtabShdr, relaShdr, drelaShdr, strtabShdr, ehdr, shdrOff,
    strtabOff, drelaOff, relaOff, symtabOff, dataOff, textOff]
  omega

theorem placed_within (h : o.fixupOrigOff.length = o.fixups.length) :
    ∀ r ∈ placed o, r.1 + r.2 ≤ (elfFile o).length := by
  rw [elfFile_length o h]
  simp only [placed, List.mem_cons, List.not_mem_nil, or_false, forall_eq_or_imp, forall_eq]
  simp only [textShdr, dataShdr, symtabShdr, relaShdr, drelaShdr, strtabShdr, ehdr, shdrOff,
    strtabOff, drelaOff, relaOff, symtabOff, dataOff, textOff]
  omega

/-! ## names -/

theorem headers_eq : (headerNames o).map Prod.fst = shdrs o := by
  unfold headerNames shdrs
  cases hasRela o <;> cases hasDrela o <;> rfl

theorem symbolNames_eq : (symbolNames o).map Prod.fst = symbols o := by
  unfold symbolNames symbols
  simp only [List.map_append, List.map_map, List.map_cons, List.map_nil]
  rfl

/-- a fixed name, by its place in the table -/
theorem fixed_name (i p : Nat) (n : List UInt8) (h : fixedNames[i]? = some n)
    (hp : (offsets 0 fixedNames)[i]? = some p) :
    p < (strtab o).length ∧ nameAt (strtab o) p = n := by
  obtain ⟨p', h1, h2⟩ := strtab_fixed o i n h
  rw [hp, Option.some.injEq] at h1
  subst h1
  exact h2

theorem header_names :
    ∀ x ∈ headerNames o, x.1.name < (strtab o).length ∧ nameAt (strtab o) x.1.name = x.2 := by
  have key : ∀ x ∈ headerNames o, ∃ i : Nat, fixedNames[i]? = some x.2 ∧
      (offsets 0 fixedNames)[i]? = some x.1.name := by
    intro x hx
    unfold headerNames at hx
    rcases List.mem_append.mp hx with hx | hx
    · rcases List.mem_append.mp hx with hx | hx
      · rcases List.mem_append.mp hx with hx | hx
        · simp only [List.mem_cons, List.not_mem_nil, or_false] at hx
          rcases hx with rfl | rfl | rfl | rfl | rfl
          · exact ⟨0, rfl, rfl⟩
          · exact ⟨1, rfl, rfl⟩
          · exact ⟨4, rfl, rfl⟩
          · exact ⟨5, rfl, rfl⟩
          · exact ⟨3, rfl, rfl⟩
        · split at hx
          · rw [List.mem_singleton.mp hx]
            exact ⟨6, rfl, rfl⟩
          · exact absurd hx List.not_mem_nil
      · split at hx
        · rw [List.mem_singleton.mp hx]
          exact ⟨7, rfl, rfl⟩
        · exact absurd hx List.not_mem_nil
    · simp only [List.mem_cons, List.not_mem_nil, or_false] at hx
      rcases hx with rfl | rfl
      · exact ⟨8, rfl, rfl⟩
      · exact ⟨2, rfl, rfl⟩
  intro x hx
  obtain ⟨i, h1, h2⟩ := key x hx
  exact fixed_name o i _ _ h1 h2

theorem symbol_names (hpub : ∀ p ∈ o.pubs, (0 : UInt8) ∉ p.name)
    (hext : ∀ e ∈ o.exts, (0 : UInt8) ∉ e) :
    ∀ x ∈ symbolNames o, x.1.name < (strtab o).length ∧ nameAt (strtab o) x.1.name = x.2 := by
  have hp : ∀ p ∈ pubsWithStr o, (pubSym o p.1 p.2).name < (strtab o).length ∧
      nameAt (strtab o) (pubSym o p.1 p.2).name = p.1.name := by
    intro p hp
    obtain ⟨q, hq⟩ := List.mem_iff_getElem?.mp hp
    obtain ⟨h1, h2⟩ := List.getElem?_zip_eq_some.mp hq
    obtain ⟨st, h3, h4⟩ := strtab_pub o hpub q p.1 h1
    rw [h3, Option.some.injEq] at h2
    have e : (pubSym o p.1 p.2).name = st := by
      rw [h2]
      unfold pubSym
      split <;> rfl
    rw [e]
    exact h4
  intro x hx
  unfold symbolNames at hx
  rcases List.mem_append.mp hx with hx | hx
  · rcases List.mem_append.mp hx with hx | hx
    · rcases List.mem_append.mp hx with hx | hx
      · simp only [List.mem_cons, List.not_mem_nil, or_false] at hx
        rcases hx with rfl | rfl | rfl | rfl
        · exact fixed_name o 0 _ _ rfl rfl
        · exact fixed_name o 1 _ _ rfl rfl
        · exact fixed_name o 4 _ _ rfl rfl
        · exact fixed_name o 5 _ _ rfl rfl
      · obtain ⟨p, h, rfl⟩ := List.mem_map.mp hx
        exact hp p (List.mem_filter.mp h).1
    · obtain ⟨p, h, rfl⟩ := List.mem_map.mp hx
      exact hp p (List.mem_filter.mp h).1
  · obtain ⟨p, h, rfl⟩ := List.mem_map.mp hx
    obtain ⟨hm, hloc⟩ := List.mem_filter.mp h
    obtain ⟨e, he⟩ := List.mem_iff_getElem?.mp hm
    obtain ⟨h1, h2⟩ := List.getElem?_zip_eq_some.mp he
    obtain ⟨st, h3, h4⟩ := strtab_ext o hext e p.1 h1 (by simpa using hloc)
    rw [h3, Option.some.injEq] at h2
    show p.2 < _ ∧ nameAt _ p.2 = _
    rw [← h2]
    exact h4

/-! ## relocations -/

/-- an external's symbol index denotes it -/
theorem extSymidx_denotes (hpub : ∀ p ∈ o.pubs, (0 : UInt8) ∉ p.name)
    (hext : ∀ e ∈ o.exts, (0 : UInt8) ∉ e) (e : Nat) (n : List UInt8) (h : o.exts[e]? = some n) :
    Denotes o (extSymidx o e) n := by
  cases hloc : extLocal o n with
  | none =>
    obtain ⟨st, h1, _, h3⟩ := strtab_ext o hext e n h hloc
    refine ⟨_, symbols_undefined o e n st h h1 hloc, h3, ?_⟩
    rw [hloc]
    exact ⟨rfl, rfl⟩
  | some q =>
    obtain ⟨p, hp, hn⟩ := extLocal_some o n q hloc
    obtain ⟨st, h1, _, h3⟩ := strtab_pub o hpub q p hp
    have hidx : extSymidx o e = pubSymidx o q := by
      rw [extSymidx, List.getD_eq_getElem?_getD, h, Option.getD_some, hloc]
    refine ⟨pubSym o p st, by rw [hidx]; exact symbols_pub o q p st hp h1, ?_, ?_⟩
    · have e : (pubSym o p st).name = st := by
        unfold pubSym
        split <;> rfl
      rw [e, h3, hn]
    · rw [hloc]
      exact ⟨p, st, hp, hn, rfl⟩

theorem relocates_of (hpub : ∀ p ∈ o.pubs, (0 : UInt8) ∉ p.name)
    (hext : ∀ e ∈ o.exts, (0 : UInt8) ∉ e) (f : FixupRec) (r : Rela)
    (hf : ExtBounded o.exts.length f)
    (hr : r.sym = if 0 ≤ f.extIdx then extSymidx o f.extIdx.toNat else r.sym)
    (hsec : f.extIdx < 0 → 0 < r.sym ∧ r.sym < 4) : Relocates o f r := by
  unfold Relocates
  by_cases h : 0 ≤ f.extIdx
  · rw [if_pos h] at hr ⊢
    obtain ⟨n, hn⟩ : ∃ n, o.exts[f.extIdx.toNat]? = some n :=
      ⟨_, List.getElem?_eq_getElem (hf h)⟩
    have hd := extSymidx_denotes o hpub hext _ n hn
    rw [← hr] at hd
    obtain ⟨s, hs, _⟩ := id hd
    exact ⟨(List.getElem?_eq_some_iff.mp hs).1, n, hn, hd⟩
  · rw [if_neg h]
    obtain ⟨h1, h2⟩ := hsec (by omega)
    obtain ⟨st, hs⟩ := symbols_section o r.sym h1 h2
    exact ⟨(List.getElem?_eq_some_iff.mp hs).1, st, hs⟩

theorem relaExt_sym (off : Int) (e : Nat) : (relaExt o off e).sym = extSymidx o e := by
  unfold relaExt
  dsimp only
  repeat' split
  all_goals rfl

theorem relaSeg_sym (off ts : Int) (orig : UInt8) :
    0 < (relaSeg o off ts orig).sym ∧ (relaSeg o off ts orig).sym < 4 := by
  have h : 0 < (textAnchor o ts).1 ∧ (textAnchor o ts).1 < 4 := by
    unfold textAnchor SEC_BSS SEC_TEXT SEC_DATA
    repeat' split
    all_goals omega
  unfold relaSeg
  dsimp only
  repeat' split
  all_goals exact h

theorem relaText1_relocates (hpub : ∀ p ∈ o.pubs, (0 : UInt8) ∉ p.name)
    (hext : ∀ e ∈ o.exts, (0 : UInt8) ∉ e) (f : FixupRec) (orig : UInt8)
    (hf : ExtBounded o.exts.length f) : Relocates o f (relaText1 o f orig) := by
  apply relocates_of o hpub hext f _ hf
  · unfold relaText1
    by_cases h : 0 ≤ f.extIdx
    · rw [if_pos h, if_pos h, relaExt_sym]
    · rw [if_neg h, if_neg h]
  · intro h
    unfold relaText1
    rw [if_neg (by omega)]
    exact relaSeg_sym o _ _ _

theorem relaData1_relocates (hpub : ∀ p ∈ o.pubs, (0 : UInt8) ∉ p.name)
    (hext : ∀ e ∈ o.exts, (0 : UInt8) ∉ e) (f : FixupRec) (hf : ExtBounded o.exts.length f) :
    Relocates o f (relaData1 o f) := by
  apply relocates_of o hpub hext f _ hf
  · unfold relaData1
    dsimp only
    by_cases h : 0 ≤ f.extIdx
    · rw [if_pos h, if_pos h]
    · rw [if_neg h, if_neg h]
  · intro h
    unfold relaData1
    dsimp only
    rw [if_neg (by omega)]
    unfold SEC_BSS SEC_DATA
    dsimp only
    split <;> omega

end

/-- `X64ObjFini` writes a consistent file, whatever object it reads -/
theorem elf_consistent (omf : List UInt8) : Consistent (finish omf) := by
  have hpub := finish_pubs_named omf
  have hext := finish_exts_named omf
  have hlen := finish_origOff_length omf
  have hfix := finish_fixups_bounded omf
  have hdfix := finish_dfixups_bounded omf
  generalize finish omf = o at *
  refine
    { stands := placed_stands o hlen
      apart := placed_apart o
      within := placed_within o hlen
      shnum := shdrs_length o
      shstrndx := ?_
      symLink := ?_
      relaLink := rfl
      relaInfo := rfl
      drelaInfo := rfl
      localsFirst := symbols_local o
      firstGlobal := ?_
      symbols := symbolNames_eq o
      symNames := symbol_names o hpub hext
      headers := headers_eq o
      secNames := header_names o
      relocText := ?_
      relocData := ?_ }
  · show (shdrs o)[SEC_STRTAB o]? = _
    unfold shdrs SEC_STRTAB
    cases hasRela o <;> cases hasDrela o <;> rfl
  · show (shdrs o)[SEC_STRTAB o]? = _
    unfold shdrs SEC_STRTAB
    cases hasRela o <;> cases hasDrela o <;> rfl
  · rw [symbols_length]
    have : nLocalPub o ≤ o.pubs.length := List.countP_le_length
    show numLocal o ≤ numSyms o
    rw [numLocal, numSyms]
    omega
  · rw [List.forall₂_iff_get]
    refine ⟨(relaText_length o hlen).symm, fun i h1 h2 => ?_⟩
    simp only [List.get_eq_getElem, relaText, List.getElem_map, List.getElem_zip]
    exact relaText1_relocates o hpub hext _ _ (hfix _ (List.getElem_mem _))
  · rw [relaData, List.forall₂_map_right_iff, List.forall₂_same]
    intro f hf
    exact relaData1_relocates o hpub hext f (hdfix f hf)

end X64Obj
