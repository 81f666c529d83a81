import OpenWatcom.Lib.Chains
import OpenWatcom.Dwarf.HandleIndex
import Mathlib

/-!
# Runs of the handles

* `Ledger`, `Ledger.step`     what a program has done: its references, the locations and its own bytes
* `Right cl L`     what is promised of a client after that
* `Kept`, `Kept.step`     what every call keeps
* `patchLoop_spec`     the chain of a handle is walked and given back
* `handles_right_iff`     in every run all of it holds, but for references that are written to a handle
  whose location takes 32 bits
-/

namespace DwHandle
open Chains

/-! ## what a program has done -/

/-- a reference: the handle, where it was written, and whether the handle was located before it -/
structure Ref where
  hdl : ℕ
  sect : Sectnum
  offset : ℕ
  late : Bool

/-- `plain` are the bytes of the sections that the program has written itself -/
structure Ledger where
  count : ℕ
  refs : List Ref
  located : ℕ → Option SectOffs
  size : Sectnum → ℕ
  plain : Sectnum → ℕ → BitVec 8

def Ledger.Issued (L : Ledger) (hdl : ℕ) : Prop := firstHandle ≤ hdl ∧ hdl < L.count + firstHandle

instance (L : Ledger) (hdl : ℕ) : Decidable (L.Issued hdl) :=
  inferInstanceAs (Decidable (_ ∧ _))

/-- one step of a program that uses the library as it is meant to: only handles that it was given, each
located at most once, and sections that it can tell the positions of -/
def Ledger.step (base : SectOffs) (L : Ledger) : Op → Option Ledger
  | .newHandle _ => if L.count < blockSize * 2 ^ 16 then some { L with count := L.count + 1 } else none
  | .writeOffset hdl sect =>
    if L.Issued hdl ∧ L.size sect + 4 < 2 ^ 32 then
      some { L with
        refs := ⟨hdl, sect, L.size sect, (L.located hdl).isSome⟩ :: L.refs
        size := Function.update L.size sect (L.size sect + 4) }
    else none
  | .setLocation hdl =>
    if L.Issued hdl ∧ L.located hdl = none then
      some { L with
        located := Function.update L.located hdl (some (BitVec.ofNat 32 (L.size debugInfo) - base)) }
    else none
  | .write sect bytes =>
    if L.size sect + bytes.length < 2 ^ 32 then
      some { L with
        plain := Function.update L.plain sect fun p =>
          if L.size sect ≤ p then bytes.getD (p - L.size sect) (L.plain sect p) else L.plain sect p
        size := Function.update L.size sect (L.size sect + bytes.length) }
    else none

def Ledger.run (base : SectOffs) (L : Ledger) : List Op → Option Ledger
  | [] => some L
  | op :: ops => do
    let L ← L.step base op
    L.run base ops

def Ledger.start (sections : Sectnum → Sect) : Ledger where
  count := 0
  refs := []
  located := fun _ => none
  size := fun s => (sections s).size
  plain := fun s => (sections s).cells

/-- the bytes stand there -/
def Sect.Holds (s : Sect) (offset : ℕ) (bytes : List (BitVec 8)) : Prop :=
  ∀ i b, bytes[i]? = some b → s.cells (offset + i) = b

/-- the four bytes of the reference take this place -/
def Ref.Covers (r : Ref) (s : Sectnum) (p : ℕ) : Prop := r.sect = s ∧ r.offset ≤ p ∧ p < r.offset + 4

/-- every handle with a reference has its location -/
def Ledger.AllLocated (L : Ledger) : Prop := ∀ r ∈ L.refs, L.located r.hdl ≠ none

/-- what is promised of the client -/
structure Right (cl : Client) (L : Ledger) : Prop where
  own : ∀ hdl, L.Issued hdl → ∃ c, getCommon cl.handles hdl = some c ∧
    (cl.handles.blocks c.1).index * blockSize + c.2 = hdl - firstHandle
  apart : ∀ hdl hdl', L.Issued hdl → L.Issued hdl' →
    getCommon cl.handles hdl = getCommon cl.handles hdl' → hdl = hdl'
  ends : ∀ s, (cl.sections s).size = L.size s ∧ (cl.sections s).pos = (cl.sections s).size
  others : ∀ s p, p < L.size s → (∀ r ∈ L.refs, ¬ r.Covers s p) →
    (cl.sections s).cells p = L.plain s p
  refs : L.AllLocated → ∀ r ∈ L.refs, ∀ o, L.located r.hdl = some o →
    (cl.sections r.sect).Holds r.offset (bytesU32 cl.bigEndian o)

/-- no reference was written to a handle whose location takes the highest of the 32 bits -/
def Ledger.NoFarLate (L : Ledger) : Prop :=
  L.AllLocated → ∀ r ∈ L.refs, r.late = true → ∀ o, L.located r.hdl = some o → o.toNat < 2 ^ 31

/-! ## locations and pointers in one word -/

theorem forward_ofChain {a : ℕ} (h : 2 ∣ a) : isForwardLocation (ofChain a) = true := by
  unfold isForwardLocation ofChain
  rw [beq_iff_eq]
  apply BitVec.eq_of_toNat_eq
  rw [BitVec.toNat_and, BitVec.toNat_ofNat]
  show a % 2 ^ 32 &&& (2 ^ 1 - 1) = 0
  rw [Nat.and_two_pow_sub_one_eq_mod]
  omega

theorem chain_ofChain (a : ℕ) : (ofChain a).chain = a := by
  unfold HandleCommon.chain ofChain
  rw [BitVec.toNat_ofNat]
  exact Nat.mod_add_div a (2 ^ 32)

theorem getHandleLocation_ofChain {a : ℕ} (h : 2 ∣ a) : getHandleLocation (ofChain a) = 0#32 := by
  have hf := forward_ofChain h
  unfold isForwardLocation at hf
  unfold getHandleLocation
  rw [if_neg (by simpa using hf)]

theorem toNat_located (o : SectOffs) : (1#32 ||| (o <<< 1)).toNat = 2 * (o.toNat % 2 ^ 31) + 1 := by
  have h1 : (1#32 ||| (o <<< 1)).toNat = 1 ||| (o.toNat <<< 1 % 2 ^ 32) := by
    rw [BitVec.toNat_or, BitVec.toNat_shiftLeft]
    rfl
  have h2 : o.toNat <<< 1 % 2 ^ 32 = 2 ^ 1 * (o.toNat % 2 ^ 31) := by
    rw [Nat.shiftLeft_eq]
    omega
  rw [h1, h2, Nat.or_comm, ← Nat.two_pow_add_eq_or_of_lt (by norm_num)]

theorem and_one_toNat (v : BitVec 32) : (v &&& 1#32).toNat = v.toNat % 2 := by
  rw [BitVec.toNat_and]
  show v.toNat &&& (2 ^ 1 - 1) = v.toNat % 2
  rw [Nat.and_two_pow_sub_one_eq_mod]

/-- what is read back of a location: its lower 31 bits -/
theorem getHandleLocation_located {c : HandleCommon} {o : SectOffs}
    (h : c.offset = 1#32 ||| (o <<< 1)) :
    isForwardLocation c = false ∧ (getHandleLocation c).toNat = o.toNat % 2 ^ 31 := by
  have hbit : c.offset &&& 1#32 ≠ 0#32 := by
    intro heq
    have := congrArg BitVec.toNat heq
    rw [and_one_toNat, h, toNat_located, BitVec.toNat_ofNat] at this
    omega
  refine ⟨?_, ?_⟩
  · unfold isForwardLocation
    exact beq_eq_false_iff_ne.mpr hbit
  · unfold getHandleLocation
    rw [if_pos hbit, BitVec.toNat_ushiftRight, h, toNat_located, Nat.shiftRight_eq_div_pow]
    omega

theorem length_bytesU32 (be : Bool) (v : BitVec 32) : (bytesU32 be v).length = 4 := by
  unfold bytesU32
  cases be <;> rfl

theorem bytesU32_injective {be : Bool} {v w : BitVec 32} (h : bytesU32 be v = bytesU32 be w) :
    v = w := by
  have hlist : [v.extractLsb' 0 8, v.extractLsb' 8 8, v.extractLsb' 16 8, v.extractLsb' 24 8] =
      [w.extractLsb' 0 8, w.extractLsb' 8 8, w.extractLsb' 16 8, w.extractLsb' 24 8] := by
    unfold bytesU32 at h
    cases be with
    | false => exact h
    | true => exact List.reverse_injective h
  simp only [List.cons.injEq, and_true] at hlist
  obtain ⟨h0, h1, h2, h3⟩ := hlist
  have hn : ∀ k, v.extractLsb' k 8 = w.extractLsb' k 8 →
      v.toNat / 2 ^ k % 256 = w.toNat / 2 ^ k % 256 := by
    intro k hk
    have := congrArg BitVec.toNat hk
    rwa [BitVec.extractLsb'_toNat, BitVec.extractLsb'_toNat, Nat.shiftRight_eq_div_pow,
      Nat.shiftRight_eq_div_pow] at this
  have e0 := hn 0 h0
  have e1 := hn 8 h1
  have e2 := hn 16 h2
  have e3 := hn 24 h3
  have hv := v.isLt
  have hw := w.isLt
  apply BitVec.eq_of_toNat_eq
  omega

theorem Sect.Holds.unique {s : Sect} {offset : ℕ} {a b : List (BitVec 8)} (ha : s.Holds offset a)
    (hb : s.Holds offset b) (hlen : a.length = b.length) : a = b := by
  apply List.ext_getElem hlen
  intro i hi hi'
  rw [← ha i _ (List.getElem?_eq_getElem hi), ← hb i _ (List.getElem?_eq_getElem hi')]

/-! ## a section is written -/

theorem Sect.write_spec {s : Sect} {bytes : List (BitVec 8)} (h : s.pos + bytes.length < 2 ^ 32) :
    ∃ t, s.write bytes = some t ∧ t.pos = s.pos + bytes.length ∧
      t.size = max s.size (s.pos + bytes.length) ∧ t.Holds s.pos bytes ∧
      ∀ p, ¬ (s.pos ≤ p ∧ p < s.pos + bytes.length) → t.cells p = s.cells p := by
  unfold Sect.write
  rw [if_pos h]
  refine ⟨_, rfl, rfl, rfl, fun i b hb => ?_, fun p hp => ?_⟩
  · show (if s.pos ≤ s.pos + i then bytes.getD (s.pos + i - s.pos) (s.cells (s.pos + i))
      else s.cells (s.pos + i)) = b
    rw [if_pos (Nat.le_add_right _ _), Nat.add_sub_cancel_left, List.getD_eq_getElem?_getD, hb]
    rfl
  · show (if s.pos ≤ p then bytes.getD (p - s.pos) (s.cells p) else s.cells p) = s.cells p
    by_cases hle : s.pos ≤ p
    · rw [if_pos hle, List.getD_eq_getElem?_getD, List.getElem?_eq_none (by omega)]
      rfl
    · rw [if_neg hle]

theorem Client.write_spec {cl : Client} {sect : Sectnum} {bytes : List (BitVec 8)}
    (h : (cl.sections sect).pos + bytes.length < 2 ^ 32) :
    ∃ t, (cl.sections sect).write bytes = some t ∧ cl.write sect bytes = some (cl.setSect sect t) := by
  obtain ⟨t, ht, -⟩ := Sect.write_spec h
  refine ⟨t, ht, ?_⟩
  unfold Client.write
  rw [ht]
  rfl

/-! ## the chain is walked -/

/-- the place of a link's reference covers the byte -/
def Covering (cells : ℕ → RelocChain) (a : ℕ) (s : Sectnum) (p : ℕ) : Prop :=
  (cells a).sect = s ∧ (cells a).offset.toNat ≤ p ∧ p < (cells a).offset.toNat + 4

/-- what a walk over the links `l` of a chain does -/
structure Patched (offset : SectOffs) (l : List ℕ) (cl cl' : Client) : Prop where
  handles : cl'.handles = cl.handles
  base : cl'.sectionBase = cl.sectionBase
  bigEndian : cl'.bigEndian = cl.bigEndian
  carver : cl'.carver.blkCount = cl.carver.blkCount ∧ cl'.carver.topElm = cl.carver.topElm
  places : ∀ a, (cl'.cells a).sect = (cl.cells a).sect ∧ (cl'.cells a).offset = (cl.cells a).offset
  size : ∀ s, (cl'.sections s).size = (cl.sections s).size
  untouched : ∀ s p, (∀ a ∈ l, ¬ Covering cl.cells a s p) →
    (cl'.sections s).cells p = (cl.sections s).cells p
  patched : ∀ a ∈ l, (cl'.sections (cl.cells a).sect).Holds (cl.cells a).offset.toNat
    (bytesU32 cl.bigEndian offset)

/-- the places of the links are apart -/
def PlacesApart (cells : ℕ → RelocChain) (l : List ℕ) : Prop :=
  l.Pairwise fun a b => ∀ p, ¬ (Covering cells a (cells b).sect p ∧ Covering cells b (cells b).sect p)

/-- one reference of the chain is updated, and its link goes to the free ones -/
theorem patch_one (offset : SectOffs) {cl : Client} {a : ℕ}
    (hfit : (cl.cells a).offset.toNat + 4 ≤ (cl.sections (cl.cells a).sect).size)
    (hsize : (cl.sections (cl.cells a).sect).size < 2 ^ 32) :
    ∃ t : Sect, (cl.seekAbs (cl.cells a).sect (cl.cells a).offset).writeU32 (cl.cells a).sect offset =
        some (cl.setSect (cl.cells a).sect t) ∧
      t.size = (cl.sections (cl.cells a).sect).size ∧
      t.Holds (cl.cells a).offset.toNat (bytesU32 cl.bigEndian offset) ∧
      ∀ p, ¬ ((cl.cells a).offset.toNat ≤ p ∧ p < (cl.cells a).offset.toNat + 4) →
        t.cells p = (cl.sections (cl.cells a).sect).cells p := by
  generalize (cl.cells a).sect = sect at *
  generalize (cl.cells a).offset = o at *
  have hlen := length_bytesU32 cl.bigEndian offset
  have hsought : (cl.seekAbs sect o).sections sect = { cl.sections sect with pos := o.toNat } :=
    Function.update_self _ _ _
  have hfit' : ((cl.seekAbs sect o).sections sect).pos +
      (bytesU32 cl.bigEndian offset).length < 2 ^ 32 := by
    rw [hsought, hlen]
    show o.toNat + 4 < 2 ^ 32
    omega
  obtain ⟨t, hwrite, -, htsize, hholds, hother⟩ := Sect.write_spec hfit'
  obtain ⟨t', hwrite', hcl⟩ := Client.write_spec hfit'
  rw [hwrite, Option.some_inj] at hwrite'
  rw [hsought] at htsize hholds hother
  refine ⟨t, ?_, ?_, hholds, ?_⟩
  · show (cl.seekAbs sect o).write sect (bytesU32 cl.bigEndian offset) = _
    rw [hcl, ← hwrite']
    unfold Client.seekAbs Client.setSect
    rw [Function.update_idem]
  · rw [htsize, hlen]
    show max (cl.sections sect).size (o.toNat + 4) = (cl.sections sect).size
    omega
  · rw [hlen] at hother
    exact hother

theorem patchLoop_spec (offset : SectOffs) (hdl : ℕ) :
    ∀ (rounds : ℕ) (cl : Client) (used : Sectnum → Bool) (cur : ℕ) (head : Option ℕ → ℕ)
      (lists : Option ℕ → List ℕ),
      Family (fun a => (cl.cells a).next) head lists → head none = cl.carver.freeList →
      head (some hdl) = cur → (lists (some hdl)).length < rounds →
      (∀ a ∈ lists (some hdl), (cl.cells a).offset.toNat + 4 ≤ (cl.sections (cl.cells a).sect).size ∧
        (cl.sections (cl.cells a).sect).size < 2 ^ 32) →
      PlacesApart cl.cells (lists (some hdl)) →
      ∃ cl' used' head' lists', patchLoop offset rounds cl used cur = some (cl', used') ∧
        Patched offset (lists (some hdl)) cl cl' ∧
        (∀ s, used' s = false → used s = false ∧ (cl'.sections s).pos = (cl.sections s).pos) ∧
        Family (fun a => (cl'.cells a).next) head' lists' ∧ head' none = cl'.carver.freeList ∧
        lists' (some hdl) = [] ∧
        (∀ h, h ≠ hdl → lists' (some h) = lists (some h) ∧ head' (some h) = head (some h)) ∧
        ∀ a ∈ lists' none, a ∈ lists none ∨ a ∈ lists (some hdl) := by
  intro rounds
  induction rounds with
  | zero => intro cl used cur head lists _ _ _ h; omega
  | succ rounds ih =>
    intro cl used cur head lists hfam hfree hcur hrounds hfit hapart
    unfold patchLoop
    by_cases hzero : cur = 0
    · rw [if_pos hzero]
      have hnil : lists (some hdl) = [] := by
        have := hfam.chained (some hdl)
        rw [hcur, hzero] at this
        exact this.eq_nil
      refine ⟨cl, used, head, lists, rfl, ?_, fun s hs => ⟨hs, rfl⟩, hfam, hfree, hnil,
        fun h _ => ⟨rfl, rfl⟩, fun a ha => Or.inl ha⟩
      refine ⟨rfl, rfl, rfl, ⟨rfl, rfl⟩, fun _ => ⟨rfl, rfl⟩, fun _ => rfl, fun _ _ _ => rfl, ?_⟩
      rw [hnil]
      exact fun a ha => absurd ha List.not_mem_nil
    · rw [if_neg hzero]
      obtain ⟨l, hl, -⟩ := (hfam.chained (some hdl)).eq_cons (by rw [hcur]; exact hzero)
      rw [hcur] at hl
      obtain ⟨-, hne, hout, hpop⟩ := hfam.pop hl
      have hpush := hpop.push none hne hout
      rw [hl] at hfit hapart hrounds ⊢
      obtain ⟨hfitc, hsizec⟩ := hfit cur List.mem_cons_self
      obtain ⟨t, hwrite, htsize, htholds, htother⟩ := patch_one offset hfitc hsizec
      dsimp only
      rw [hwrite]
      -- the client behind this round
      generalize hcl3 : ({ cl.setSect (cl.cells cur).sect t with
        cells := Function.update cl.cells cur { cl.cells cur with next := cl.carver.freeList }
        carver := { cl.carver with freeList := cur } } : Client) = cl3
      have hplaces3 : ∀ a, (cl3.cells a).sect = (cl.cells a).sect ∧
          (cl3.cells a).offset = (cl.cells a).offset := by
        intro a
        rw [← hcl3]
        dsimp only
        by_cases ha : a = cur
        · rw [ha, Function.update_self]
          exact ⟨rfl, rfl⟩
        · rw [Function.update_of_ne ha]
          exact ⟨rfl, rfl⟩
      have hsect3 : ∀ s, (cl3.sections s).size = (cl.sections s).size ∧
          (s ≠ (cl.cells cur).sect → cl3.sections s = cl.sections s) := by
        intro s
        rw [← hcl3]
        show (Function.update cl.sections (cl.cells cur).sect t s).size = _ ∧ _
        by_cases hs : s = (cl.cells cur).sect
        · rw [hs, Function.update_self]
          exact ⟨htsize, fun h => absurd rfl h⟩
        · rw [Function.update_of_ne hs]
          exact ⟨rfl, fun _ => Function.update_of_ne hs _ _⟩
      have ht3 : cl3.sections (cl.cells cur).sect = t := by
        rw [← hcl3]
        exact Function.update_self _ _ _
      have hnext3 : (fun a => (cl3.cells a).next) =
          Function.update (fun a => (cl.cells a).next) cur cl.carver.freeList := by
        funext a
        rw [← hcl3]
        dsimp only
        by_cases ha : a = cur
        · rw [ha, Function.update_self, Function.update_self]
        · rw [Function.update_of_ne ha, Function.update_of_ne ha]
      have hheadn : Function.update head (some hdl) (cl.cells cur).next none = cl.carver.freeList := by
        rw [Function.update_of_ne (by simp), hfree]
      have hfam3 : Family (fun a => (cl3.cells a).next)
          (Function.update (Function.update head (some hdl) (cl.cells cur).next) none cur)
          (Function.update (Function.update lists (some hdl) l) none
            (cur :: Function.update lists (some hdl) l none)) := by
        rw [hnext3, ← hheadn]
        exact hpush
      have hlist3 : Function.update (Function.update lists (some hdl) l) none
          (cur :: Function.update lists (some hdl) l none) (some hdl) = l := by
        rw [Function.update_of_ne (by simp), Function.update_self]
      have hbig3 : cl3.bigEndian = cl.bigEndian := by rw [← hcl3]; rfl
      have hcov3 : ∀ a s p, Covering cl3.cells a s p ↔ Covering cl.cells a s p := by
        intro a s p
        unfold Covering
        rw [(hplaces3 a).1, (hplaces3 a).2]
      obtain ⟨cl', used', head', lists', hrun, hpatched, hused, hfam', hfree', hnil', hothers', hnone'⟩ :=
        ih cl3 (Function.update used (cl.cells cur).sect true) (cl.cells cur).next _ _ hfam3
          (by rw [← hcl3]; exact Function.update_self _ _ _)
          (by rw [Function.update_of_ne (by simp), Function.update_self])
          (by rw [hlist3]; simpa using hrounds)
          (by
            rw [hlist3]
            intro a ha
            rw [(hplaces3 a).1, (hplaces3 a).2, (hsect3 _).1]
            exact hfit a (List.mem_cons_of_mem cur ha))
          (by
            rw [hlist3]
            refine (List.pairwise_cons.mp hapart).2.imp ?_
            intro a b hab p hp
            rw [hcov3, hcov3, (hplaces3 b).1] at hp
            exact hab p hp)
      rw [hlist3] at hpatched
      refine ⟨cl', used', head', lists', ?_, ?_, ?_, hfam', hfree', hnil', ?_, ?_⟩
      · rw [← hrun, ← hcl3]
        rfl
      · refine ⟨?_, ?_, ?_, ?_, fun a => ?_, fun s => ?_, fun s p hp => ?_, fun a ha => ?_⟩
        · rw [hpatched.handles, ← hcl3]
          rfl
        · rw [hpatched.base, ← hcl3]
          rfl
        · rw [hpatched.bigEndian, hbig3]
        · rw [hpatched.carver.1, hpatched.carver.2, ← hcl3]
          exact ⟨rfl, rfl⟩
        · rw [(hpatched.places a).1, (hpatched.places a).2]
          exact hplaces3 a
        · rw [hpatched.size, (hsect3 s).1]
        · rw [hpatched.untouched s p fun a ha hc =>
            hp a (List.mem_cons_of_mem cur ha) ((hcov3 a s p).mp hc)]
          by_cases hs : s = (cl.cells cur).sect
          · rw [hs, ht3]
            exact htother p fun hc => hp cur List.mem_cons_self ⟨hs.symm, hc⟩
          · rw [(hsect3 s).2 hs]
        · rcases List.mem_cons.mp ha with rfl | ha
          · -- the places of the other links are apart from this one
            intro i b hb
            have hi : i < 4 := by
              rw [← length_bytesU32 cl.bigEndian offset]
              exact (List.getElem?_eq_some_iff.mp hb).1
            rw [hpatched.untouched _ _ ?_, ht3]
            · exact htholds i b hb
            · intro c hc hcov
              have hcov' := (hcov3 c _ _).mp hcov
              have hpair := (List.pairwise_cons.mp hapart).1 c hc ((cl.cells a).offset.toNat + i)
              rw [hcov'.1] at hpair
              exact hpair ⟨⟨rfl, by omega, by omega⟩, hcov'⟩
          · have hp := hpatched.patched a ha
            rw [(hplaces3 a).1, (hplaces3 a).2, hbig3] at hp
            exact hp
      · intro s hs
        obtain ⟨h1, h2⟩ := hused s hs
        by_cases hsc : s = (cl.cells cur).sect
        · rw [hsc, Function.update_self] at h1
          exact absurd h1 (by simp)
        · rw [Function.update_of_ne hsc] at h1
          exact ⟨h1, by rw [h2, (hsect3 s).2 hsc]⟩
      · intro h hh
        obtain ⟨h1, h2⟩ := hothers' h hh
        have hne' : (some h : Option ℕ) ≠ some hdl := by simpa using hh
        refine ⟨?_, ?_⟩
        · rw [h1, Function.update_of_ne (by simp), Function.update_of_ne hne']
        · rw [h2, Function.update_of_ne (by simp), Function.update_of_ne hne']
      · intro a ha
        rcases hnone' a ha with h1 | h1
        · rw [Function.update_self, Function.update_of_ne (by simp)] at h1
          rcases List.mem_cons.mp h1 with rfl | h2
          · exact Or.inr List.mem_cons_self
          · exact Or.inl h2
        · rw [hlist3] at h1
          exact Or.inr (List.mem_cons_of_mem cur h1)

/-! ## what every call keeps -/

/-- an element that the carver has handed out -/
def Allocated (cv : Carve) (a : ℕ) : Prop :=
  ∃ b k, a = elmAddress b k ∧ b < cv.blkCount ∧ k < chainBlock ∧ (b + 1 = cv.blkCount → cv.topElm ≤ k)

/-- what a reference to a located handle contains: one that was written behind the location has lost the
highest bit of it -/
def Ref.shown (r : Ref) (o : SectOffs) : SectOffs :=
  if r.late then BitVec.ofNat 32 (o.toNat % 2 ^ 31) else o

/-- what a client keeps: `head` and `lists` are the free links (of `none`) and the chains of the handles -/
structure Kept (cl : Client) (L : Ledger) (head : Option ℕ → ℕ) (lists : Option ℕ → List ℕ) : Prop where
  indexed : Indexed cl.handles
  count : cl.handles.numHandles = L.count
  carver : 0 < cl.carver.blkCount ∧ cl.carver.topElm ≤ chainBlock
  family : Family (fun a => (cl.cells a).next) head lists
  free : head none = cl.carver.freeList
  allocated : ∀ i, ∀ a ∈ lists i, Allocated cl.carver a
  forward : ∀ hdl, L.Issued hdl → L.located hdl = none →
    cl.handles.entry (placeOf hdl) = ofChain (head (some hdl))
  located : ∀ hdl o, L.located hdl = some o → L.Issued hdl ∧
    (cl.handles.entry (placeOf hdl)).offset = 1#32 ||| (o <<< 1)
  chains : ∀ hdl, L.located hdl = none →
    (lists (some hdl)).map (fun a => ((cl.cells a).sect, (cl.cells a).offset.toNat)) =
      (L.refs.filter fun r => r.hdl == hdl).map fun r => (r.sect, r.offset)
  unchained : ∀ hdl, L.located hdl ≠ none → lists (some hdl) = []
  ends : ∀ s, (cl.sections s).size = L.size s ∧ (cl.sections s).pos = L.size s ∧ L.size s < 2 ^ 32
  apart : L.refs.Pairwise fun r r' => r.sect = r'.sect → r'.offset + 4 ≤ r.offset
  within : ∀ r ∈ L.refs, r.offset + 4 ≤ L.size r.sect ∧ L.Issued r.hdl
  late : ∀ r ∈ L.refs, r.late = true → L.located r.hdl ≠ none
  refs : ∀ r ∈ L.refs, ∀ o, L.located r.hdl = some o →
    (cl.sections r.sect).Holds r.offset (bytesU32 cl.bigEndian (r.shown o))
  others : ∀ s p, p < L.size s → (∀ r ∈ L.refs, ¬ r.Covers s p) →
    (cl.sections s).cells p = L.plain s p

variable {cl : Client} {L : Ledger} {head : Option ℕ → ℕ} {lists : Option ℕ → List ℕ}

theorem Allocated.even {cv : Carve} {a : ℕ} (h : Allocated cv a) : 2 ∣ a := by
  obtain ⟨b, k, rfl, -⟩ := h
  exact ⟨_, rfl⟩

theorem Kept.head_even (h : Kept cl L head lists) (i : Option ℕ) : 2 ∣ head i := by
  have hch := h.family.chained i
  cases hl : lists i with
  | nil =>
    rw [hl] at hch
    rw [show head i = 0 from hch]
    exact ⟨0, rfl⟩
  | cons a l =>
    rw [hl] at hch
    rw [hch.1]
    exact (h.allocated i a (by rw [hl]; exact List.mem_cons_self)).even

theorem Kept.issued (h : Kept cl L head lists) {hdl : ℕ} (hi : L.Issued hdl) :
    Issued cl.handles hdl := by
  refine ⟨hi.1, ?_⟩
  rw [h.count]
  exact hi.2

/-- a chain has no more links than the carver has elements -/
theorem Kept.length_le (h : Kept cl L head lists) (i : Option ℕ) :
    (lists i).length ≤ chainBlock * cl.carver.blkCount := by
  have hinj : Set.InjOn (fun a => a / 2 - 1) {a | a ∈ lists i} := by
    intro a ha b hb hab
    obtain ⟨b1, k1, rfl, -⟩ := h.allocated i a ha
    obtain ⟨b2, k2, rfl, -⟩ := h.allocated i b hb
    unfold elmAddress at *
    have hab' : 2 * (chainBlock * b1 + k1 + 1) / 2 - 1 = 2 * (chainBlock * b2 + k2 + 1) / 2 - 1 := hab
    omega
  have hnd : ((lists i).map fun a => a / 2 - 1).Nodup :=
    List.Nodup.map_on (fun a ha b hb hab => hinj ha hb hab) (h.family.nodup i)
  have hsub : ((lists i).map fun a => a / 2 - 1) ⊆ List.range (chainBlock * cl.carver.blkCount) := by
    intro n hn
    obtain ⟨a, ha, rfl⟩ := List.mem_map.mp hn
    obtain ⟨b, k, rfl, hb, hk, -⟩ := h.allocated i a ha
    rw [List.mem_range]
    unfold elmAddress chainBlock at *
    omega
  have := (hnd.subperm hsub).length_le
  rwa [List.length_map, List.length_range] at this

theorem Kept.unissued (h : Kept cl L head lists) {hdl : ℕ} (hn : ¬ L.Issued hdl) :
    lists (some hdl) = [] ∧ head (some hdl) = 0 := by
  have hloc : L.located hdl = none := by
    cases hl : L.located hdl with
    | none => rfl
    | some o => exact absurd (h.located hdl o hl).1 hn
  have hnil : lists (some hdl) = [] := by
    have hch := h.chains hdl hloc
    rw [List.filter_eq_nil_iff.mpr, List.map_nil, List.map_eq_nil_iff] at hch
    · exact hch
    · intro r hr heq
      have := (h.within r hr).2
      rw [beq_iff_eq.mp heq] at this
      exact hn this
  have hch := h.family.chained (some hdl)
  rw [hnil] at hch
  exact ⟨hnil, hch⟩

theorem kept_start {sections : Sectnum → Sect} (base : Sectnum → SectOffs) (be : Bool)
    (hs : ∀ s, (sections s).pos = (sections s).size ∧ (sections s).size < 2 ^ 32) :
    Kept (Client.start sections base be) (Ledger.start sections) (fun _ => 0) (fun _ => []) where
  indexed := indexed_init
  count := rfl
  carver := ⟨Nat.one_pos, le_refl _⟩
  family := ⟨fun _ => rfl, fun _ => List.nodup_nil, fun _ _ _ h => absurd h List.not_mem_nil⟩
  free := rfl
  allocated := fun _ _ h => absurd h List.not_mem_nil
  forward := fun hdl h => by
    have h1 := h.1
    have h2 : hdl < 0 + firstHandle := h.2
    omega
  located := fun hdl o h => absurd h (by simp [Ledger.start])
  chains := fun _ _ => rfl
  unchained := fun _ _ => rfl
  ends := fun s => ⟨rfl, (hs s).1, (hs s).2⟩
  apart := List.Pairwise.nil
  within := fun _ h => absurd h List.not_mem_nil
  late := fun _ h => absurd h List.not_mem_nil
  refs := fun _ h => absurd h List.not_mem_nil
  others := fun _ _ _ _ => rfl

/-! ### a new handle -/

theorem Kept.newHandle (h : Kept cl L head lists) {tosses : List Bool} {L' : Ledger} {base : SectOffs}
    (hL : L.step base (.newHandle tosses) = some L') :
    ∃ cl', cl.step (.newHandle tosses) = some cl' ∧ cl'.sectionBase = cl.sectionBase ∧
      cl'.bigEndian = cl.bigEndian ∧ Kept cl' L' head lists := by
  unfold Ledger.step at hL
  dsimp only at hL
  by_cases hfew : L.count < blockSize * 2 ^ 16
  · rw [if_pos hfew, Option.some_inj] at hL
    obtain ⟨hdl, hs', hnew⟩ : ∃ hdl hs', DwHandle.newHandle cl.handles tosses = some (hdl, hs') := by
      unfold DwHandle.newHandle
      dsimp only
      rw [if_neg (by rw [h.count]; omega)]
      exact ⟨_, _, rfl⟩
    obtain ⟨-, hindexed, hcount, -, hold, hblank⟩ := newHandle_indexed h.indexed hnew
    refine ⟨{ cl with handles := hs' }, ?_, rfl, rfl, ?_⟩
    · unfold Client.step
      dsimp only
      rw [hnew]
      rfl
    · rw [← hL]
      refine ⟨hindexed, ?_, h.carver, h.family, h.free, h.allocated, fun k hk hloc => ?_,
        fun k o hk => ?_, h.chains, h.unchained, h.ends, h.apart, fun r hr => ?_, h.late, h.refs,
        h.others⟩
      · show hs'.numHandles = L.count + 1
        rw [hcount, h.count]
      · obtain ⟨h1, h2⟩ := hk
        have h2' : k < L.count + 1 + firstHandle := h2
        show hs'.entry (placeOf k) = _
        by_cases hlast : k = L.count + firstHandle
        · have hn : ¬ L.Issued k := fun hk => by
            have := hk.2
            omega
          rw [(h.unissued hn).2, hlast]
          unfold placeOf
          rw [Nat.add_sub_cancel, ← h.count, hblank]
          rfl
        · have hk' : L.Issued k := ⟨h1, by omega⟩
          have := hold (k - firstHandle) (by rw [h.count]; omega)
          unfold placeOf
          rw [this]
          exact h.forward k hk' hloc
      · obtain ⟨hk1, hk2⟩ := h.located k o hk
        have h2 := hk1.2
        refine ⟨⟨hk1.1, ?_⟩, ?_⟩
        · show k < L.count + 1 + firstHandle
          omega
        · have := hold (k - firstHandle) (by rw [h.count]; have := hk1.1; omega)
          show (hs'.entry (placeOf k)).offset = _
          unfold placeOf
          rw [this]
          exact hk2
      · obtain ⟨h1, h2⟩ := h.within r hr
        refine ⟨h1, h2.1, ?_⟩
        show r.hdl < L.count + 1 + firstHandle
        have := h2.2
        omega
  · rw [if_neg hfew] at hL
    exact absurd hL (by simp)

/-! ### bytes at the end of a section -/

theorem append_spec (cl : Client) (sect : Sectnum) (bytes : List (BitVec 8)) {n : ℕ}
    (hsize : (cl.sections sect).size = n) (hpos : (cl.sections sect).pos = n)
    (hfit : n + bytes.length < 2 ^ 32) :
    ∃ t : Sect, cl.write sect bytes = some (cl.setSect sect t) ∧ t.size = n + bytes.length ∧
      t.pos = n + bytes.length ∧ t.Holds n bytes ∧
      ∀ p, p < n → t.cells p = (cl.sections sect).cells p := by
  have hfit' : (cl.sections sect).pos + bytes.length < 2 ^ 32 := by rw [hpos]; exact hfit
  obtain ⟨t, hwrite, htpos, htsize, hholds, hother⟩ := Sect.write_spec hfit'
  obtain ⟨t', hwrite', hcl⟩ := Client.write_spec hfit'
  rw [hwrite, Option.some_inj] at hwrite'
  rw [hpos] at htpos hholds hother
  rw [hpos, hsize] at htsize
  refine ⟨t, by rw [hcl, hwrite'], by omega, htpos, hholds, fun p hp => hother p (by omega)⟩

theorem Sect.Holds.congr {s t : Sect} {offset : ℕ} {bytes : List (BitVec 8)} (h : s.Holds offset bytes)
    (hst : ∀ p, offset ≤ p → p < offset + bytes.length → t.cells p = s.cells p) :
    t.Holds offset bytes := by
  intro i b hb
  rw [hst _ (Nat.le_add_right _ _)
    (Nat.add_lt_add_left (List.getElem?_eq_some_iff.mp hb).1 offset)]
  exact h i b hb

/-- what stood in a section stays, when it is written to at its end -/
theorem Kept.refs_append (h : Kept cl L head lists) {sect : Sectnum} {t : Sect}
    (ht : ∀ p, p < L.size sect → t.cells p = (cl.sections sect).cells p) {r : Ref} (hr : r ∈ L.refs)
    {o : SectOffs} (ho : L.located r.hdl = some o) :
    (Function.update cl.sections sect t r.sect).Holds r.offset
      (bytesU32 cl.bigEndian (r.shown o)) := by
  have hold := h.refs r hr o ho
  have hwithin := (h.within r hr).1
  by_cases hs : r.sect = sect
  · rw [hs, Function.update_self]
    rw [hs] at hold hwithin
    refine hold.congr fun p _ hp => ht p ?_
    rw [length_bytesU32] at hp
    omega
  · rw [Function.update_of_ne hs]
    exact hold

theorem Kept.ends_append (h : Kept cl L head lists) {sect : Sectnum} {t : Sect} {n : ℕ}
    (htsize : t.size = L.size sect + n) (htpos : t.pos = L.size sect + n)
    (hfit : L.size sect + n < 2 ^ 32) (s : Sectnum) :
    (Function.update cl.sections sect t s).size = Function.update L.size sect (L.size sect + n) s ∧
      (Function.update cl.sections sect t s).pos = Function.update L.size sect (L.size sect + n) s ∧
      Function.update L.size sect (L.size sect + n) s < 2 ^ 32 := by
  by_cases hs : s = sect
  · rw [hs, Function.update_self, Function.update_self]
    exact ⟨htsize, htpos, hfit⟩
  · rw [Function.update_of_ne hs, Function.update_of_ne hs]
    exact h.ends s

theorem Kept.within_append (h : Kept cl L head lists) (sect : Sectnum) (n : ℕ) {r : Ref}
    (hr : r ∈ L.refs) : r.offset + 4 ≤ Function.update L.size sect (L.size sect + n) r.sect := by
  have hwithin := (h.within r hr).1
  by_cases hs : r.sect = sect
  · rw [hs, Function.update_self]
    rw [hs] at hwithin
    omega
  · rw [Function.update_of_ne hs]
    exact hwithin

theorem Kept.write (h : Kept cl L head lists) {sect : Sectnum} {bytes : List (BitVec 8)} {L' : Ledger}
    {base : SectOffs} (hL : L.step base (.write sect bytes) = some L') :
    ∃ cl', cl.step (.write sect bytes) = some cl' ∧ cl'.sectionBase = cl.sectionBase ∧
      cl'.bigEndian = cl.bigEndian ∧ Kept cl' L' head lists := by
  unfold Ledger.step at hL
  dsimp only at hL
  by_cases hfit : L.size sect + bytes.length < 2 ^ 32
  · rw [if_pos hfit, Option.some_inj] at hL
    obtain ⟨hsize, hpos, -⟩ := h.ends sect
    obtain ⟨t, hrun, htsize, htpos, htholds, htold⟩ := append_spec cl sect bytes hsize hpos hfit
    refine ⟨_, hrun, rfl, rfl, ?_⟩
    rw [← hL]
    refine ⟨h.indexed, h.count, h.carver, h.family, h.free, h.allocated, h.forward, h.located,
      h.chains, h.unchained, h.ends_append htsize htpos hfit, h.apart,
      fun r hr => ⟨h.within_append sect _ hr, (h.within r hr).2⟩, h.late,
      fun r hr o ho => h.refs_append htold hr ho, fun s p hp hnc => ?_⟩
    · show (Function.update cl.sections sect t s).cells p = Function.update L.plain sect _ s p
      have hp' : p < Function.update L.size sect (L.size sect + bytes.length) s := hp
      by_cases hs : s = sect
      · rw [hs, Function.update_self] at hp'
        rw [hs, Function.update_self, Function.update_self]
        by_cases hnew : L.size sect ≤ p
        · rw [if_pos hnew]
          obtain ⟨i, rfl⟩ := Nat.exists_eq_add_of_le hnew
          have hi : i < bytes.length := by omega
          rw [Nat.add_sub_cancel_left, List.getD_eq_getElem?_getD, List.getElem?_eq_getElem hi]
          exact htholds i _ (List.getElem?_eq_getElem hi)
        · rw [if_neg hnew, htold p (by omega)]
          exact h.others sect p (by omega) (hs ▸ hnc)
      · rw [Function.update_of_ne hs] at hp'
        rw [Function.update_of_ne hs, Function.update_of_ne hs]
        exact h.others s p hp' hnc
  · rw [if_neg hfit] at hL
    exact absurd hL (by simp)

/-! ### a reference -/

/-- a link of the carver: one of the free links, or one that was not handed out before -/
theorem Kept.carveAlloc_spec (h : Kept cl L head lists) :
    ∃ a cv head1 lists1, carveAlloc cl.carver cl.cells = (a, cv) ∧
      Family (fun a => (cl.cells a).next) head1 lists1 ∧ head1 none = cv.freeList ∧ a ≠ 0 ∧
      (∀ i, a ∉ lists1 i) ∧ Allocated cv a ∧ (∀ b, Allocated cl.carver b → Allocated cv b) ∧
      (0 < cv.blkCount ∧ cv.topElm ≤ chainBlock) ∧ (∀ b ∈ lists1 none, b ∈ lists none) ∧
      ∀ k, lists1 (some k) = lists (some k) ∧ head1 (some k) = head (some k) := by
  obtain ⟨hblk, htop⟩ := h.carver
  unfold carveAlloc
  by_cases hfree : cl.carver.freeList ≠ 0
  · rw [if_pos hfree]
    obtain ⟨l, hl, -⟩ := (h.family.chained none).eq_cons (by rw [h.free]; exact hfree)
    rw [h.free] at hl
    obtain ⟨-, hne, hout, hpop⟩ := h.family.pop hl
    refine ⟨_, _, _, _, rfl, hpop, Function.update_self _ _ _, hne, hout, ?_, fun b hb => hb, ⟨hblk, htop⟩,
      fun b hb => ?_, fun k => ?_⟩
    · exact h.allocated none _ (by rw [hl]; exact List.mem_cons_self)
    · rw [Function.update_self] at hb
      rw [hl]
      exact List.mem_cons_of_mem _ hb
    · rw [Function.update_of_ne (by simp), Function.update_of_ne (by simp)]
      exact ⟨rfl, rfl⟩
  · rw [if_neg hfree]
    -- a new link is not one of those that were handed out
    have hfresh : ∀ b k, (b + 1 = cl.carver.blkCount → k < cl.carver.topElm) → k < chainBlock →
        b + 1 = cl.carver.blkCount ∨ cl.carver.blkCount ≤ b →
        ∀ i, elmAddress b k ∉ lists i := by
      intro b k hk hkc hb i hmem
      obtain ⟨b', k', heq, hb', hk', htop'⟩ := h.allocated i _ hmem
      unfold elmAddress chainBlock at *
      have hbb : b = b' := by omega
      have hkk : k = k' := by omega
      rw [← hbb] at htop' hb'
      rcases hb with hb | hb
      · have := htop' hb
        have := hk hb
        omega
      · omega
    by_cases hzero : cl.carver.topElm = 0
    · rw [if_pos hzero]
      refine ⟨_, _, head, lists, rfl, h.family, h.free, ?_, ?_, ?_, ?_, ?_, fun b hb => hb,
        fun k => ⟨rfl, rfl⟩⟩
      · unfold elmAddress
        omega
      · refine hfresh _ _ (fun hb => ?_) ?_ (Or.inr ?_)
        · simp only at hb
          omega
        · simp only [chainBlock]
          omega
        · simp only
          omega
      · refine ⟨_, _, rfl, ?_, ?_, fun _ => le_refl _⟩
        · simp only
          omega
        · simp only [chainBlock]
          omega
      · intro b hb
        obtain ⟨b', k', heq, hb', hk', -⟩ := hb
        refine ⟨b', k', heq, ?_, hk', fun hlast => ?_⟩
        · simp only
          omega
        · simp only at hlast
          omega
      · refine ⟨Nat.succ_pos _, ?_⟩
        simp only [chainBlock]
        omega
    · rw [if_neg hzero]
      refine ⟨_, _, head, lists, rfl, h.family, h.free, ?_, ?_, ?_, ?_, ?_, fun b hb => hb,
        fun k => ⟨rfl, rfl⟩⟩
      · unfold elmAddress
        omega
      · exact hfresh _ _ (fun _ => by omega) (by omega) (Or.inl (by omega))
      · exact ⟨_, _, rfl, by simp only; omega, by omega, fun _ => le_refl _⟩
      · intro b hb
        obtain ⟨b', k', heq, hb', hk', hlast'⟩ := hb
        refine ⟨b', k', heq, hb', hk', fun hlast => ?_⟩
        have := hlast' hlast
        simp only
        omega
      · exact ⟨hblk, by simp only; omega⟩

/-- a reference behind the others -/
theorem Kept.ref_apart (h : Kept cl L head lists) (hdl : ℕ) (sect : Sectnum) (late : Bool) :
    ((⟨hdl, sect, L.size sect, late⟩ : Ref) :: L.refs).Pairwise
      fun r r' => r.sect = r'.sect → r'.offset + 4 ≤ r.offset := by
  refine List.pairwise_cons.mpr ⟨fun r hr heq => ?_, h.apart⟩
  have hwithin := (h.within r hr).1
  rw [← show sect = r.sect from heq] at hwithin
  exact hwithin

theorem filter_other {hdl k : ℕ} (h : hdl ≠ k) {s : Sectnum} {n : ℕ} {late : Bool} {refs : List Ref} :
    ((⟨hdl, s, n, late⟩ : Ref) :: refs).filter (fun r => r.hdl == k) =
      refs.filter fun r => r.hdl == k := by
  refine List.filter_cons_of_neg ?_
  show ¬ (hdl == k) = true
  simpa using h

theorem filter_own (hdl : ℕ) (s : Sectnum) (n : ℕ) (late : Bool) (refs : List Ref) :
    ((⟨hdl, s, n, late⟩ : Ref) :: refs).filter (fun r => r.hdl == hdl) =
      ⟨hdl, s, n, late⟩ :: refs.filter fun r => r.hdl == hdl := by
  refine List.filter_cons_of_pos ?_
  show (hdl == hdl) = true
  simp

theorem Kept.ref_others (h : Kept cl L head lists) {hdl : ℕ} {sect : Sectnum} {late : Bool} {t : Sect}
    (htold : ∀ p, p < L.size sect → t.cells p = (cl.sections sect).cells p) {s : Sectnum} {p : ℕ}
    (hp : p < Function.update L.size sect (L.size sect + 4) s)
    (hnc : ∀ r ∈ (⟨hdl, sect, L.size sect, late⟩ : Ref) :: L.refs, ¬ r.Covers s p) :
    (Function.update cl.sections sect t s).cells p = L.plain s p := by
  have hold : ∀ r ∈ L.refs, ¬ r.Covers s p := fun r hr => hnc r (List.mem_cons_of_mem _ hr)
  by_cases hs : s = sect
  · rw [hs, Function.update_self] at hp
    rw [hs] at hold
    have hfirst := hnc _ List.mem_cons_self
    have hlt : p < L.size sect := by
      by_contra hge
      exact hfirst ⟨hs.symm, not_lt.mp hge, hp⟩
    rw [hs, Function.update_self, htold p hlt]
    exact h.others sect p hlt hold
  · rw [Function.update_of_ne hs] at hp
    rw [Function.update_of_ne hs]
    exact h.others s p hp hold

/-- a reference to a handle that is located: its location is written, without the highest bit -/
theorem Kept.writeLocated (h : Kept cl L head lists) {hdl : ℕ} {sect : Sectnum} {o : SectOffs}
    (hi : L.Issued hdl) (hfit : L.size sect + 4 < 2 ^ 32) (hloc : L.located hdl = some o) :
    ∃ cl', cl.handleWriteOffset hdl sect = some cl' ∧ cl'.sectionBase = cl.sectionBase ∧
      cl'.bigEndian = cl.bigEndian ∧
      Kept cl' { L with
        refs := ⟨hdl, sect, L.size sect, (L.located hdl).isSome⟩ :: L.refs
        size := Function.update L.size sect (L.size sect + 4) } head lists := by
  obtain ⟨hsize, hpos, -⟩ := h.ends sect
  obtain ⟨hforward, hget⟩ := getHandleLocation_located (h.located hdl o hloc).2
  have hshown : getHandleLocation (cl.handles.entry (placeOf hdl)) =
      BitVec.ofNat 32 (o.toNat % 2 ^ 31) := by
    apply BitVec.eq_of_toNat_eq
    rw [hget, BitVec.toNat_ofNat]
    omega
  have hlen := length_bytesU32 cl.bigEndian (BitVec.ofNat 32 (o.toNat % 2 ^ 31))
  obtain ⟨t, hrun, htsize, htpos, htholds, htold⟩ := append_spec cl sect
    (bytesU32 cl.bigEndian (BitVec.ofNat 32 (o.toNat % 2 ^ 31))) hsize hpos (by rw [hlen]; exact hfit)
  rw [hlen] at htsize htpos
  refine ⟨cl.setSect sect t, ?_, rfl, rfl, ?_⟩
  · unfold Client.handleWriteOffset
    rw [getCommon_spec h.indexed (h.issued hi)]
    show (if isForwardLocation (cl.handles.entry (placeOf hdl)) = true then _ else cl).writeU32 sect
      (getHandleLocation (cl.handles.entry (placeOf hdl))) = _
    rw [hforward, if_neg (by simp), hshown]
    exact hrun
  · refine ⟨h.indexed, h.count, h.carver, h.family, h.free, h.allocated, h.forward, h.located,
      fun k hk => ?_, h.unchained, h.ends_append htsize htpos hfit, h.ref_apart hdl sect _,
      fun r hr => ?_, fun r hr hl => ?_, fun r hr o' ho' => ?_,
      fun s p hp hnc => h.ref_others htold hp hnc⟩
    · have hne : hdl ≠ k := by
        rintro rfl
        rw [show L.located hdl = none from hk] at hloc
        exact absurd hloc (by simp)
      show _ = ((_ :: L.refs).filter fun r => r.hdl == k).map _
      rw [filter_other hne]
      exact h.chains k hk
    · rcases List.mem_cons.mp hr with rfl | hr
      · refine ⟨?_, hi⟩
        show L.size sect + 4 ≤ Function.update L.size sect _ sect
        rw [Function.update_self]
      · exact ⟨h.within_append sect 4 hr, (h.within r hr).2⟩
    · rcases List.mem_cons.mp hr with rfl | hr
      · show L.located hdl ≠ none
        rw [hloc]
        simp
      · exact h.late r hr hl
    · rcases List.mem_cons.mp hr with rfl | hr
      · have ho : o' = o := by
          have : L.located hdl = some o' := ho'
          rw [hloc] at this
          exact (Option.some_injective _ this).symm
        show (Function.update cl.sections sect t sect).Holds (L.size sect) (bytesU32 cl.bigEndian _)
        rw [Function.update_self, ho]
        unfold Ref.shown
        rw [hloc]
        exact htholds
      · exact h.refs_append htold hr ho'

/-- a reference to a handle that is not located: it gets a link in front of the chain -/
theorem Kept.writeForward (h : Kept cl L head lists) {hdl : ℕ} {sect : Sectnum}
    (hi : L.Issued hdl) (hfit : L.size sect + 4 < 2 ^ 32) (hloc : L.located hdl = none) :
    ∃ cl' head' lists', cl.handleWriteOffset hdl sect = some cl' ∧ cl'.sectionBase = cl.sectionBase ∧
      cl'.bigEndian = cl.bigEndian ∧
      Kept cl' { L with
        refs := ⟨hdl, sect, L.size sect, (L.located hdl).isSome⟩ :: L.refs
        size := Function.update L.size sect (L.size sect + 4) } head' lists' := by
  obtain ⟨hsize, hpos, hbound⟩ := h.ends sect
  have hentry := h.forward hdl hi hloc
  have heven := h.head_even (some hdl)
  obtain ⟨a, cv, head1, lists1, halloc, hfam1, hfree1, hne, hout, hallocated, hmono, hcarver, hnone1,
    hsome1⟩ := h.carveAlloc_spec
  have hpush := hfam1.push (some hdl) hne hout
  generalize hcl1 : cl.addForward (placeOf hdl) sect = cl1
  have hcl1' : cl1 = { cl with
      carver := cv
      cells := Function.update cl.cells a ⟨head (some hdl), (cl.sections sect).tell, sect⟩
      handles := cl.handles.setEntry (placeOf hdl) (ofChain a) } := by
    rw [← hcl1]
    unfold Client.addForward
    rw [halloc, hentry, chain_ofChain]
  have hsections : cl1.sections = cl.sections := by rw [hcl1']
  have hbig : cl1.bigEndian = cl.bigEndian := by rw [hcl1']
  have hlen := length_bytesU32 cl1.bigEndian 0#32
  obtain ⟨t, hrun, htsize, htpos, htholds, htold⟩ := append_spec cl1 sect
    (bytesU32 cl1.bigEndian 0#32) (show (cl1.sections sect).size = L.size sect by
      rw [hsections]; exact hsize) (by rw [hsections]; exact hpos) (by rw [hlen]; exact hfit)
  rw [hlen] at htsize htpos
  rw [hsections] at htold
  have hcells : ∀ i, ∀ b ∈ lists1 i, Function.update cl.cells a
      ⟨head (some hdl), (cl.sections sect).tell, sect⟩ b = cl.cells b := by
    intro i b hb
    have hba : b ≠ a := by
      rintro rfl
      exact hout i hb
    exact Function.update_of_ne hba _ _
  refine ⟨cl1.setSect sect t, Function.update head1 (some hdl) a,
    Function.update lists1 (some hdl) (a :: lists1 (some hdl)), ?_, by rw [hcl1']; rfl,
    by rw [hcl1']; rfl, ?_⟩
  · unfold Client.handleWriteOffset
    rw [getCommon_spec h.indexed (h.issued hi)]
    show (if isForwardLocation (cl.handles.entry (placeOf hdl)) = true then
      cl.addForward (placeOf hdl) sect else cl).writeU32 sect
      (getHandleLocation (cl.handles.entry (placeOf hdl))) = _
    rw [hentry, forward_ofChain heven, if_pos rfl, getHandleLocation_ofChain heven, hcl1]
    exact hrun
  · rw [hcl1']
    refine ⟨setEntry_indexed h.indexed (h.issued hi) _ _, h.count, hcarver, ?_, ?_, fun i b hb => ?_,
      fun k hk hkloc => ?_, fun k o hk => ?_, fun k hk => ?_, fun k hk => ?_,
      h.ends_append htsize htpos hfit, h.ref_apart hdl sect _, fun r hr => ?_, fun r hr hl => ?_,
      fun r hr o' ho' => ?_, fun s p hp hnc => h.ref_others htold hp hnc⟩
    · have hnext : (fun b => (Function.update cl.cells a
          ⟨head (some hdl), (cl.sections sect).tell, sect⟩ b).next) =
          Function.update (fun b => (cl.cells b).next) a (head1 (some hdl)) := by
        funext b
        by_cases hb : b = a
        · rw [hb, Function.update_self, Function.update_self, (hsome1 hdl).2]
        · rw [Function.update_of_ne hb, Function.update_of_ne hb]
      show Family (fun b => (Function.update cl.cells a _ b).next) _ _
      rw [hnext]
      exact hpush
    · rw [Function.update_of_ne (by simp)]
      exact hfree1
    · show Allocated cv b
      have hold : ∀ i, b ∈ lists1 i → Allocated cv b := by
        intro i hb
        cases i with
        | none => exact hmono b (h.allocated none b (hnone1 b hb))
        | some k =>
          rw [(hsome1 k).1] at hb
          exact hmono b (h.allocated (some k) b hb)
      by_cases hik : i = some hdl
      · rw [hik, Function.update_self] at hb
        rcases List.mem_cons.mp hb with rfl | hb
        · exact hallocated
        · exact hold _ hb
      · rw [Function.update_of_ne hik] at hb
        exact hold i hb
    · show (cl.handles.setEntry (placeOf hdl) (ofChain a)).entry (placeOf k) = _
      rw [setEntry_entry]
      by_cases hkh : k = hdl
      · rw [hkh, if_pos rfl, Function.update_self]
      · rw [if_neg (fun heq => hkh (placeOf_injective hk.1 hi.1 heq)),
          Function.update_of_ne (by simpa using hkh), (hsome1 k).2]
        exact h.forward k hk hkloc
    · obtain ⟨h1, h2⟩ := h.located k o hk
      refine ⟨h1, ?_⟩
      show ((cl.handles.setEntry (placeOf hdl) (ofChain a)).entry (placeOf k)).offset = _
      have hkh : k ≠ hdl := by
        rintro rfl
        rw [show L.located k = some o from hk] at hloc
        exact absurd hloc (by simp)
      rw [setEntry_entry, if_neg (fun heq => hkh (placeOf_injective h1.1 hi.1 heq))]
      exact h2
    · show (Function.update lists1 (some hdl) (a :: lists1 (some hdl)) (some k)).map (fun b =>
        ((Function.update cl.cells a ⟨head (some hdl), (cl.sections sect).tell, sect⟩ b).sect,
          (Function.update cl.cells a ⟨head (some hdl), (cl.sections sect).tell, sect⟩ b).offset.toNat)) =
        ((_ :: L.refs).filter fun r => r.hdl == k).map _
      have hmap : ∀ i, (lists1 i).map (fun b =>
          ((Function.update cl.cells a ⟨head (some hdl), (cl.sections sect).tell, sect⟩ b).sect,
            (Function.update cl.cells a
              ⟨head (some hdl), (cl.sections sect).tell, sect⟩ b).offset.toNat)) =
          (lists1 i).map fun b => ((cl.cells b).sect, (cl.cells b).offset.toNat) := by
        intro i
        apply List.map_congr_left
        intro b hb
        rw [hcells i b hb]
      by_cases hkh : k = hdl
      · rw [hkh, Function.update_self, List.map_cons, hmap, Function.update_self, (hsome1 hdl).1,
          h.chains hdl hloc, filter_own, List.map_cons]
        have htell : (cl.sections sect).tell.toNat = L.size sect := by
          unfold Sect.tell
          rw [BitVec.toNat_ofNat, hpos, Nat.mod_eq_of_lt hbound]
        rw [htell]
      · rw [Function.update_of_ne (by simpa using hkh), hmap, (hsome1 k).1, filter_other (Ne.symm hkh)]
        exact h.chains k hk
    · have hkh : k ≠ hdl := by
        rintro rfl
        exact hk hloc
      rw [Function.update_of_ne (by simpa using hkh), (hsome1 k).1]
      exact h.unchained k hk
    · rcases List.mem_cons.mp hr with rfl | hr
      · refine ⟨?_, hi⟩
        show L.size sect + 4 ≤ Function.update L.size sect _ sect
        rw [Function.update_self]
      · exact ⟨h.within_append sect 4 hr, (h.within r hr).2⟩
    · rcases List.mem_cons.mp hr with rfl | hr
      · have hl' : (L.located hdl).isSome = true := hl
        rw [hloc] at hl'
        exact absurd hl' (by simp)
      · exact h.late r hr hl
    · rcases List.mem_cons.mp hr with rfl | hr
      · have ho : L.located hdl = some o' := ho'
        rw [hloc] at ho
        exact absurd ho (by simp)
      · exact h.refs_append htold hr ho'

/-! ### a location -/

/-- the position of a section that was sought in goes to its end -/
def Sect.toEnd (s : Sect) (sought : Bool) : Sect := if sought then { s with pos := s.size } else s

@[simp] theorem Sect.toEnd_cells (s : Sect) (b : Bool) : (s.toEnd b).cells = s.cells := by
  cases b <;> rfl

@[simp] theorem Sect.toEnd_size (s : Sect) (b : Bool) : (s.toEnd b).size = s.size := by
  cases b <;> rfl

theorem seekEnds_spec (used : Sectnum → Bool) (cl : Client) :
    seekEnds used cl = { cl with sections := fun s => (cl.sections s).toEnd (used s) } := by
  have hfold : ∀ (l : List Sectnum) (cl : Client),
      l.foldl (fun cl sect => if used sect then cl.seekEnd sect else cl) cl =
        { cl with sections := fun s => (cl.sections s).toEnd (used s && decide (s ∈ l)) } := by
    intro l
    induction l with
    | nil =>
      intro cl
      simp [Sect.toEnd]
    | cons a l ih =>
      intro cl
      rw [List.foldl_cons, ih]
      by_cases ha : used a = true
      · rw [if_pos ha]
        unfold Client.seekEnd Client.setSect
        congr 1
        funext s
        dsimp only
        by_cases hs : s = a
        · rw [hs, Function.update_self, ha]
          by_cases hal : a ∈ l
          · simp [hal, Sect.toEnd]
          · simp [hal, Sect.toEnd]
        · rw [Function.update_of_ne hs]
          simp [hs]
      · rw [if_neg ha]
        congr 1
        funext s
        by_cases hs : s = a
        · rw [hs, show used a = false by simpa using ha]
          rfl
        · simp [hs]
  unfold seekEnds
  rw [hfold]
  simp

/-- every link of a chain stands for a reference to the handle -/
theorem Kept.link_ref (h : Kept cl L head lists) {hdl : ℕ} (hloc : L.located hdl = none) {a : ℕ}
    (ha : a ∈ lists (some hdl)) : ∃ r ∈ L.refs, r.hdl = hdl ∧ r.sect = (cl.cells a).sect ∧
      r.offset = (cl.cells a).offset.toNat := by
  have hmem : ((cl.cells a).sect, (cl.cells a).offset.toNat) ∈
      (lists (some hdl)).map fun a => ((cl.cells a).sect, (cl.cells a).offset.toNat) :=
    List.mem_map.mpr ⟨a, ha, rfl⟩
  rw [h.chains hdl hloc] at hmem
  obtain ⟨r, hr, heq⟩ := List.mem_map.mp hmem
  obtain ⟨hrm, hrh⟩ := List.mem_filter.mp hr
  rw [Prod.mk.injEq] at heq
  exact ⟨r, hrm, beq_iff_eq.mp hrh, heq.1, heq.2⟩

/-- and every reference to it has one -/
theorem Kept.ref_link (h : Kept cl L head lists) {r : Ref} (hr : r ∈ L.refs)
    (hloc : L.located r.hdl = none) : ∃ a ∈ lists (some r.hdl), (cl.cells a).sect = r.sect ∧
      (cl.cells a).offset.toNat = r.offset := by
  have hmem : (r.sect, r.offset) ∈ (L.refs.filter fun r' => r'.hdl == r.hdl).map
      fun r => (r.sect, r.offset) :=
    List.mem_map.mpr ⟨r, List.mem_filter.mpr ⟨hr, beq_self_eq_true _⟩, rfl⟩
  rw [← h.chains r.hdl hloc] at hmem
  obtain ⟨a, ha, heq⟩ := List.mem_map.mp hmem
  rw [Prod.mk.injEq] at heq
  exact ⟨a, ha, heq.1, heq.2⟩

theorem Kept.places_apart (h : Kept cl L head lists) {hdl : ℕ} (hloc : L.located hdl = none) :
    PlacesApart cl.cells (lists (some hdl)) := by
  have hpairs : ((lists (some hdl)).map fun a => ((cl.cells a).sect, (cl.cells a).offset.toNat)).Pairwise
      fun x y => x.1 = y.1 → y.2 + 4 ≤ x.2 := by
    rw [h.chains hdl hloc, List.pairwise_map]
    exact h.apart.filter _
  rw [List.pairwise_map] at hpairs
  refine hpairs.imp ?_
  intro a b hab p hp
  have := hab hp.1.1
  have h1 := hp.1.2.1
  have h2 := hp.2.2.2
  omega

/-- two references have no byte in common -/
theorem Kept.refs_apart (h : Kept cl L head lists) {r r' : Ref} (hr : r ∈ L.refs) (hr' : r' ∈ L.refs)
    (hne : r ≠ r') {s : Sectnum} {p : ℕ} (hc : r.Covers s p) : ¬ r'.Covers s p := by
  intro hc'
  have hsym : L.refs.Pairwise fun r r' => ¬ (r.Covers s p ∧ r'.Covers s p) := by
    refine h.apart.imp ?_
    intro a b hab hboth
    have := hab (hboth.1.1.trans hboth.2.1.symm)
    have h1 := hboth.1.2.1
    have h2 := hboth.2.2.2
    omega
  have hsymm : Std.Symm fun a b : Ref => ¬ (a.Covers s p ∧ b.Covers s p) :=
    ⟨fun a b hab hba => hab ⟨hba.2, hba.1⟩⟩
  exact hsym.forall hr hr' hne ⟨hc, hc'⟩

/-- the client when the location is in the entry, and the references were not updated yet -/
def Client.locatedAt (cl : Client) (c : ℕ × ℕ) (o : SectOffs) : Client :=
  let hs := cl.handles.setEntry c (DwHandle.setLocation (cl.handles.entry c) o)
  { cl with handles := { hs with forward := cl.handles.forward - 1 } }

/-- the chain of a handle that gets its location is walked to its end -/
theorem Kept.locate (h : Kept cl L head lists) {hdl : ℕ} (hi : L.Issued hdl)
    (hloc : L.located hdl = none) :
    ∃ clp used head' lists', cl.setHandleLocation hdl = some (seekEnds used clp) ∧
      Patched cl.infoSectionOffset (lists (some hdl))
        (cl.locatedAt (placeOf hdl) cl.infoSectionOffset) clp ∧
      (∀ s, used s = false → (clp.sections s).pos = (cl.sections s).pos) ∧
      Family (fun a => (clp.cells a).next) head' lists' ∧ head' none = clp.carver.freeList ∧
      lists' (some hdl) = [] ∧
      (∀ k, k ≠ hdl → lists' (some k) = lists (some k) ∧ head' (some k) = head (some k)) ∧
      ∀ a ∈ lists' none, a ∈ lists none ∨ a ∈ lists (some hdl) := by
  have hcur : (cl.handles.entry (placeOf hdl)).chain = head (some hdl) := by
    rw [h.forward hdl hi hloc, chain_ofChain]
  generalize hcl1 : cl.locatedAt (placeOf hdl) cl.infoSectionOffset = cl1
  have hcells1 : cl1.cells = cl.cells := by rw [← hcl1]; rfl
  have hsects1 : cl1.sections = cl.sections := by rw [← hcl1]; rfl
  have hcarver1 : cl1.carver = cl.carver := by rw [← hcl1]; rfl
  have hset : cl.setHandleLocation hdl = if head (some hdl) ≠ 0 then
      (patchLoop cl.infoSectionOffset (chainBlock * cl.carver.blkCount + 1) cl1
        (fun _ => false) (head (some hdl))).bind fun r => some (seekEnds r.2 r.1)
      else some cl1 := by
    unfold Client.setHandleLocation
    rw [getCommon_spec h.indexed (h.issued hi), ← hcl1, ← hcur]
    rfl
  rw [hset]
  by_cases hzero : head (some hdl) = 0
  · rw [if_neg (by simpa using hzero)]
    have hnil : lists (some hdl) = [] := by
      have := h.family.chained (some hdl)
      rw [hzero] at this
      exact this.eq_nil
    refine ⟨cl1, fun _ => false, head, lists, ?_, ?_, fun s _ => by rw [hsects1], ?_, ?_, hnil,
      fun k _ => ⟨rfl, rfl⟩, fun a ha => Or.inl ha⟩
    · rw [seekEnds_spec]
      rfl
    · rw [hnil]
      exact ⟨rfl, rfl, rfl, ⟨rfl, rfl⟩, fun _ => ⟨rfl, rfl⟩, fun _ => rfl, fun _ _ _ => rfl,
        fun a ha => absurd ha List.not_mem_nil⟩
    · rw [hcells1]
      exact h.family
    · rw [hcarver1]
      exact h.free
  · rw [if_pos hzero]
    obtain ⟨clp, used, head', lists', hrun, hpatched, hused, hfam, hfree, hnil, hothers, hnone⟩ :=
      patchLoop_spec cl.infoSectionOffset hdl (chainBlock * cl.carver.blkCount + 1) cl1
        (fun _ => false) (head (some hdl)) head lists
        (by rw [hcells1]; exact h.family) (by rw [hcarver1]; exact h.free) rfl
        (by have := h.length_le (some hdl); omega)
        (by
          rw [hcells1, hsects1]
          intro a ha
          obtain ⟨r, hr, -, hsect, hoff⟩ := h.link_ref hloc ha
          rw [← hsect, ← hoff, (h.ends _).1]
          exact ⟨(h.within r hr).1, (h.ends _).2.2⟩)
        (by rw [hcells1]; exact h.places_apart hloc)
    refine ⟨clp, used, head', lists', ?_, hpatched, fun s hs => ?_, hfam, hfree, hnil, hothers, hnone⟩
    · rw [hrun]
      rfl
    · rw [(hused s hs).2, hsects1]

def Ledger.withLocation (L : Ledger) (hdl : ℕ) (o : SectOffs) : Ledger :=
  { L with located := Function.update L.located hdl (some o) }

theorem Kept.setLocation (h : Kept cl L head lists) {hdl : ℕ} (hi : L.Issued hdl)
    (hloc : L.located hdl = none) :
    ∃ cl' head' lists', cl.setHandleLocation hdl = some cl' ∧ cl'.sectionBase = cl.sectionBase ∧
      cl'.bigEndian = cl.bigEndian ∧
      Kept cl' (L.withLocation hdl (BitVec.ofNat 32 (L.size debugInfo) - cl.sectionBase debugInfo)) head'
        lists' := by
  obtain ⟨clp, used, head', lists', hrun, hp, hused, hfam, hfree, hnil, hothers, hnone⟩ :=
    h.locate hi hloc
  have hoffset : cl.infoSectionOffset =
      BitVec.ofNat 32 (L.size debugInfo) - cl.sectionBase debugInfo := by
    unfold Client.infoSectionOffset Sect.tell
    rw [(h.ends debugInfo).2.1]
  rw [hoffset] at hp
  generalize BitVec.ofNat 32 (L.size debugInfo) - cl.sectionBase debugInfo = o at hp
  have hne : ∀ k, Function.update L.located hdl (some o) k = none → k ≠ hdl := by
    rintro k hk rfl
    rw [Function.update_self] at hk
    exact absurd hk (by simp)
  refine ⟨_, head', lists', hrun, ?_, ?_, ?_⟩
  · rw [seekEnds_spec]
    exact hp.base
  · rw [seekEnds_spec]
    exact hp.bigEndian
  · rw [seekEnds_spec]
    have hallocated : ∀ b, Allocated cl.carver b → Allocated clp.carver b := by
      intro b hb
      unfold Allocated
      rw [hp.carver.1, hp.carver.2]
      exact hb
    have hclean : ∀ r ∈ L.refs, r.hdl ≠ hdl → ∀ s p, r.Covers s p →
        ∀ a ∈ lists (some hdl), ¬ Covering cl.cells a s p := by
      intro r hr hrh s p hc a ha hca
      obtain ⟨r', hr', hrh', hsect, hoff⟩ := h.link_ref hloc ha
      refine h.refs_apart hr hr' ?_ hc ⟨hsect.trans hca.1, ?_, ?_⟩
      · rintro rfl
        exact hrh hrh'
      · rw [hoff]
        exact hca.2.1
      · rw [hoff]
        exact hca.2.2
    refine ⟨?_, ?_, ?_, hfam, hfree, fun i b hb => ?_, fun k hk hkl => ?_, fun k o' hk => ?_,
      fun k hk => ?_, fun k hk => ?_, fun s => ?_, h.apart, h.within, fun r hr hl => ?_,
      fun r hr o' ho' => ?_, fun s p hps hnc => ?_⟩
    · show Indexed clp.handles
      rw [hp.handles]
      exact setEntry_indexed h.indexed (h.issued hi) _ _
    · show clp.handles.numHandles = L.count
      rw [hp.handles]
      exact h.count
    · show 0 < clp.carver.blkCount ∧ clp.carver.topElm ≤ chainBlock
      rw [hp.carver.1, hp.carver.2]
      exact h.carver
    · refine hallocated b ?_
      cases i with
      | none =>
        rcases hnone b hb with hb | hb
        · exact h.allocated none b hb
        · exact h.allocated (some hdl) b hb
      | some k =>
        by_cases hk : k = hdl
        · rw [hk, hnil] at hb
          exact absurd hb List.not_mem_nil
        · rw [(hothers k hk).1] at hb
          exact h.allocated (some k) b hb
    · have hkh := hne k hkl
      have hkl' : Function.update L.located hdl (some o) k = none := hkl
      rw [Function.update_of_ne hkh] at hkl'
      show clp.handles.entry (placeOf k) = _
      rw [hp.handles, (hothers k hkh).2]
      show (cl.handles.setEntry (placeOf hdl) _).entry (placeOf k) = _
      rw [setEntry_entry, if_neg (fun heq => hkh (placeOf_injective hk.1 hi.1 heq))]
      exact h.forward k hk hkl'
    · show L.Issued k ∧ (clp.handles.entry (placeOf k)).offset = _
      rw [hp.handles]
      show L.Issued k ∧ ((cl.handles.setEntry (placeOf hdl) _).entry (placeOf k)).offset = _
      have hk' : Function.update L.located hdl (some o) k = some o' := hk
      rw [setEntry_entry]
      by_cases hkh : k = hdl
      · rw [hkh, Function.update_self] at hk'
        rw [hkh, if_pos rfl, ← Option.some_injective _ hk']
        exact ⟨hi, rfl⟩
      · rw [Function.update_of_ne hkh] at hk'
        obtain ⟨h1, h2⟩ := h.located k o' hk'
        rw [if_neg (fun heq => hkh (placeOf_injective h1.1 hi.1 heq))]
        exact ⟨h1, h2⟩
    · have hkh := hne k hk
      have hk' : Function.update L.located hdl (some o) k = none := hk
      rw [Function.update_of_ne hkh] at hk'
      rw [(hothers k hkh).1]
      refine Eq.trans ?_ (h.chains k hk')
      apply List.map_congr_left
      intro b _
      show ((clp.cells b).sect, (clp.cells b).offset.toNat) = _
      rw [(hp.places b).1, (hp.places b).2]
      rfl
    · by_cases hkh : k = hdl
      · rw [hkh]
        exact hnil
      · have hk' : Function.update L.located hdl (some o) k ≠ none := hk
        rw [Function.update_of_ne hkh] at hk'
        rw [(hothers k hkh).1]
        exact h.unchained k hk'
    · obtain ⟨h1, h2, h3⟩ := h.ends s
      have hsize : (clp.sections s).size = L.size s := by
        rw [hp.size]
        exact h1
      refine ⟨by rw [Sect.toEnd_size]; exact hsize, ?_, h3⟩
      show ((clp.sections s).toEnd (used s)).pos = L.size s
      cases hs : used s with
      | true => exact hsize
      | false => exact (hused s hs).trans h2
    · show Function.update L.located hdl (some o) r.hdl ≠ none
      by_cases hrh : r.hdl = hdl
      · rw [hrh, Function.update_self]
        simp
      · rw [Function.update_of_ne hrh]
        exact h.late r hr hl
    · have ho'' : Function.update L.located hdl (some o) r.hdl = some o' := ho'
      intro i b hb
      rw [Sect.toEnd_cells]
      have hbig : clp.bigEndian = cl.bigEndian := hp.bigEndian
      have hb' : (bytesU32 clp.bigEndian (r.shown o'))[i]? = some b := hb
      rw [hbig] at hb'
      by_cases hrh : r.hdl = hdl
      · -- it was in the chain, and the walk has come to it
        rw [hrh, Function.update_self] at ho''
        have hlate : ¬ r.late = true := by
          intro hl
          have := h.late r hr hl
          rw [hrh] at this
          exact this hloc
        have hshown : r.shown o' = o := by
          unfold Ref.shown
          rw [if_neg hlate, ← Option.some_injective _ ho'']
        rw [hshown] at hb'
        obtain ⟨a, ha, hsect, hoff⟩ := h.ref_link hr (by rw [hrh]; exact hloc)
        rw [hrh] at ha
        have hpat := hp.patched a ha i b hb'
        have hpat' : (clp.sections (cl.cells a).sect).cells ((cl.cells a).offset.toNat + i) = b := hpat
        rwa [hsect, hoff] at hpat'
      · rw [Function.update_of_ne hrh] at ho''
        have hi4 : i < 4 := by
          rw [← length_bytesU32 cl.bigEndian (r.shown o')]
          exact (List.getElem?_eq_some_iff.mp hb').1
        rw [hp.untouched r.sect (r.offset + i) (hclean r hr hrh _ _ ⟨rfl, by omega, by omega⟩)]
        exact h.refs r hr o' ho'' i b hb'
    · rw [Sect.toEnd_cells, hp.untouched s p]
      · exact h.others s p hps hnc
      · intro a ha hca
        obtain ⟨r, hr, -, hsect, hoff⟩ := h.link_ref hloc ha
        refine hnc r hr ⟨hsect.trans hca.1, ?_, ?_⟩
        · rw [hoff]
          exact hca.2.1
        · rw [hoff]
          exact hca.2.2

/-! ## every run -/

theorem Kept.step (h : Kept cl L head lists) {op : Op} {L' : Ledger}
    (hL : L.step (cl.sectionBase debugInfo) op = some L') :
    ∃ cl' head' lists', cl.step op = some cl' ∧ cl'.sectionBase = cl.sectionBase ∧
      cl'.bigEndian = cl.bigEndian ∧ Kept cl' L' head' lists' := by
  cases op with
  | newHandle tosses =>
    obtain ⟨cl', hrun, hbase, hbig, hkept⟩ := h.newHandle hL
    exact ⟨cl', head, lists, hrun, hbase, hbig, hkept⟩
  | write sect bytes =>
    obtain ⟨cl', hrun, hbase, hbig, hkept⟩ := h.write hL
    exact ⟨cl', head, lists, hrun, hbase, hbig, hkept⟩
  | writeOffset hdl sect =>
    unfold Ledger.step at hL
    dsimp only at hL
    by_cases hok : L.Issued hdl ∧ L.size sect + 4 < 2 ^ 32
    · rw [if_pos hok, Option.some_inj] at hL
      rw [← hL]
      cases hloc : L.located hdl with
      | none =>
        have hstep := h.writeForward hok.1 hok.2 hloc
        rw [hloc] at hstep
        exact hstep
      | some o =>
        obtain ⟨cl', hrun, hbase, hbig, hkept⟩ := h.writeLocated hok.1 hok.2 hloc
        rw [hloc] at hkept
        exact ⟨cl', head, lists, hrun, hbase, hbig, hkept⟩
    · rw [if_neg hok] at hL
      exact absurd hL (by simp)
  | setLocation hdl =>
    unfold Ledger.step at hL
    dsimp only at hL
    by_cases hok : L.Issued hdl ∧ L.located hdl = none
    · rw [if_pos hok, Option.some_inj] at hL
      rw [← hL]
      exact h.setLocation hok.1 hok.2
    · rw [if_neg hok] at hL
      exact absurd hL (by simp)

theorem Kept.run {base : SectOffs} {be : Bool} (ops : List Op) :
    ∀ {cl : Client} {L L' : Ledger} {head : Option ℕ → ℕ} {lists : Option ℕ → List ℕ},
      Kept cl L head lists → cl.sectionBase debugInfo = base → cl.bigEndian = be →
      L.run base ops = some L' →
      ∃ cl' head' lists', cl.run ops = some cl' ∧ cl'.bigEndian = be ∧ Kept cl' L' head' lists' := by
  induction ops with
  | nil =>
    intro cl L L' head lists h _ hbe hL
    have hL' : L = L' := Option.some_injective _ hL
    exact ⟨cl, head, lists, rfl, hbe, hL' ▸ h⟩
  | cons op ops ih =>
    intro cl L L' head lists h hbase hbe hL
    unfold Ledger.run at hL
    cases hstep : L.step base op with
    | none =>
      rw [hstep] at hL
      exact absurd hL (by simp)
    | some L1 =>
      rw [hstep] at hL
      have hL1 : L1.run base ops = some L' := hL
      obtain ⟨cl1, head1, lists1, hrun1, hbase1, hbe1, hkept1⟩ := h.step (by rw [hbase]; exact hstep)
      obtain ⟨cl', head', lists', hrun', hbe', hkept'⟩ := ih hkept1 (by rw [hbase1]; exact hbase)
        (by rw [hbe1]; exact hbe) hL1
      refine ⟨cl', head', lists', ?_, hbe', hkept'⟩
      unfold Client.run
      rw [hrun1]
      exact hrun'

/-- a reference contains the location itself when none of it was lost -/
theorem Ref.shown_eq_iff (r : Ref) (o : SectOffs) :
    r.shown o = o ↔ (r.late = true → o.toNat < 2 ^ 31) := by
  have ho := o.isLt
  unfold Ref.shown
  by_cases hl : r.late = true
  · rw [if_pos hl]
    refine ⟨fun heq _ => ?_, fun h => ?_⟩
    · have := congrArg BitVec.toNat heq
      rw [BitVec.toNat_ofNat] at this
      omega
    · apply BitVec.eq_of_toNat_eq
      rw [BitVec.toNat_ofNat]
      have := h hl
      omega
  · rw [if_neg hl]
    exact ⟨fun _ h => absurd h hl, fun _ => rfl⟩

theorem Kept.right_iff (h : Kept cl L head lists) : Right cl L ↔ L.NoFarLate := by
  refine ⟨fun hr hall r hrm hlate o ho => ?_, fun hn => ⟨fun hdl hi => ?_, fun hdl hdl' hi hi' heq => ?_,
    fun s => ⟨(h.ends s).1, by rw [(h.ends s).2.1, (h.ends s).1]⟩, h.others,
    fun hall r hrm o ho => ?_⟩⟩
  · have heq := (h.refs r hrm o ho).unique (hr.refs hall r hrm o ho)
      (by rw [length_bytesU32, length_bytesU32])
    exact (r.shown_eq_iff o).mp (bytesU32_injective heq) hlate
  · refine ⟨placeOf hdl, getCommon_spec h.indexed (h.issued hi), ?_⟩
    have hblk : (placeOf hdl).1 < cl.handles.blockCount := by
      have h1 := hi.1
      have h2 := hi.2
      rw [h.indexed.count, h.count]
      unfold placeOf firstHandle blockSize at *
      dsimp only
      omega
    rw [h.indexed.index _ hblk]
    exact Nat.div_add_mod' (hdl - firstHandle) blockSize
  · rw [getCommon_spec h.indexed (h.issued hi), getCommon_spec h.indexed (h.issued hi')] at heq
    exact placeOf_injective hi.1 hi'.1 (Option.some_injective _ heq)
  · have hshown := (r.shown_eq_iff o).mpr fun hl => hn hall r hrm hl o ho
    have hold := h.refs r hrm o ho
    rwa [hshown] at hold

/-- in every run all that is promised holds if and only if no reference was written to a handle whose
location takes the highest of the 32 bits: such a reference loses that bit, as an entry keeps the location
beside the mark that it has one, while references that were there before it get all of it -/
theorem handles_right_iff (sections : Sectnum → Sect) (base : Sectnum → SectOffs) (be : Bool)
    (hs : ∀ s, (sections s).pos = (sections s).size ∧ (sections s).size < 2 ^ 32) (ops : List Op)
    (L : Ledger) (hL : (Ledger.start sections).run (base debugInfo) ops = some L) :
    ∃ cl, (Client.start sections base be).run ops = some cl ∧ (Right cl L ↔ L.NoFarLate) := by
  obtain ⟨cl, head, lists, hrun, -, hkept⟩ := (kept_start base be hs).run ops rfl rfl hL
  exact ⟨cl, hrun, hkept.right_iff⟩

/-- sections that are empty, but for that of the information -/
def sectionsFrom (info : ℕ) (s : Sectnum) : Sect :=
  if s = debugInfo then ⟨fun _ => 0, info, info⟩ else ⟨fun _ => 0, 0, 0⟩

def debugLine : Sectnum := ⟨3, by decide⟩

/-- a handle that is located 10 bytes behind the start, and has a reference before and one after it -/
theorem twoRefs_right : ∃ L cl,
    (Ledger.start (sectionsFrom 10)).run 0 [.newHandle [true, false], .writeOffset 9 debugLine,
      .setLocation 9, .writeOffset 9 debugLine] = some L ∧
    (Client.start (sectionsFrom 10) (fun _ => 0) false).run [.newHandle [true, false],
      .writeOffset 9 debugLine, .setLocation 9, .writeOffset 9 debugLine] = some cl ∧ Right cl L := by
  have hlocs : ((Ledger.start (sectionsFrom 10)).run 0 [.newHandle [true, false],
      .writeOffset 9 debugLine, .setLocation 9, .writeOffset 9 debugLine]).map
      (fun L => L.refs.map fun r => L.located r.hdl) = some [some 10#32, some 10#32] := by
    decide
  obtain ⟨L, hrunL, hrefs⟩ := Option.map_eq_some_iff.mp hlocs
  obtain ⟨cl, hrun, hiff⟩ := handles_right_iff (sectionsFrom 10) (fun _ => 0) false
    (fun s => by unfold sectionsFrom; by_cases h : s = debugInfo <;> simp [h]) _ L hrunL
  refine ⟨L, cl, hrunL, hrun, hiff.mpr fun _ r hr _ o ho => ?_⟩
  have hmem : L.located r.hdl ∈ L.refs.map fun r => L.located r.hdl := List.mem_map.mpr ⟨r, hr, rfl⟩
  rw [hrefs, ho] at hmem
  have ho' : o = 10#32 := by simpa using hmem
  rw [ho']
  decide

/-- a handle that is located 2 gibibytes behind the start: the reference behind it contains 0 -/
theorem farRun_wrong : ∃ L cl,
    (Ledger.start (sectionsFrom (2 ^ 31))).run 0 [.newHandle [], .setLocation 9,
      .writeOffset 9 debugLine] = some L ∧
    (Client.start (sectionsFrom (2 ^ 31)) (fun _ => 0) false).run [.newHandle [], .setLocation 9,
      .writeOffset 9 debugLine] = some cl ∧ L.AllLocated ∧ ¬ Right cl L := by
  have hledger : ((Ledger.start (sectionsFrom (2 ^ 31))).run 0 [.newHandle [], .setLocation 9,
      .writeOffset 9 debugLine]).map (fun L => L.refs.map fun r => (r.sect, r.offset, L.located r.hdl)) =
      some [(debugLine, 0, some 0x80000000#32)] := by
    decide
  have hclient : ((Client.start (sectionsFrom (2 ^ 31)) (fun _ => 0) false).run [.newHandle [],
      .setLocation 9, .writeOffset 9 debugLine]).map
      (fun cl => ((cl.sections debugLine).cells 3, cl.bigEndian)) = some (0#8, false) := by
    decide
  obtain ⟨L, hrunL, hrefs⟩ := Option.map_eq_some_iff.mp hledger
  obtain ⟨cl, hrun, hbyte⟩ := Option.map_eq_some_iff.mp hclient
  obtain ⟨hcell, hbig⟩ := Prod.mk.inj hbyte
  have hlocated : ∀ r ∈ L.refs, r.sect = debugLine ∧ r.offset = 0 ∧
      L.located r.hdl = some 0x80000000#32 := by
    intro r hr
    have hmem : (r.sect, r.offset, L.located r.hdl) ∈ L.refs.map
        fun r => (r.sect, r.offset, L.located r.hdl) := List.mem_map.mpr ⟨r, hr, rfl⟩
    rw [hrefs] at hmem
    simpa using hmem
  have hall : L.AllLocated := fun r hr => by rw [(hlocated r hr).2.2]; simp
  refine ⟨L, cl, hrunL, hrun, hall, fun h => ?_⟩
  obtain ⟨r, hr⟩ : ∃ r, r ∈ L.refs := by
    cases hl : L.refs with
    | nil =>
      rw [hl] at hrefs
      exact absurd hrefs (by simp)
    | cons r l => exact ⟨r, List.mem_cons_self⟩
  obtain ⟨hsect, hoff, hloc⟩ := hlocated r hr
  have hholds := h.refs hall r hr _ hloc
  rw [hsect, hoff, hbig] at hholds
  -- the highest byte of the location is not there
  have htop := hholds 3 0x80#8 (by decide)
  rw [Nat.zero_add, hcell] at htop
  exact absurd htop (by decide)

end DwHandle
