import OpenWatcom.Wpack.CalcLengths
import OpenWatcom.Wpack.PutBits
import OpenWatcom.Lib.CanonicalCodes

/-!
# The codes of both sides: `encode.c`, `decode.c`

* `assignCodes`, `buildTables`     `AssignCodes` of either side, behind `SortLengths`
* `findSymbol`     the search of `DoDecode`
* `assignStep_assigned`, `buildStep_built`     a turn of their loops
* `findSymbol_code`     bits that begin with a code are found to be its symbol
* `lengths_whole`     the lengths of `CalcLengths` take all of the 16-bit words
* `codes_found`     so the symbols of every file are found again
-/

namespace Wpack

open CanonicalCodes

/-! ## the codes -/

/-- the variables of the loop in `encode.c`, and `code` -/
structure Assigning where
  codeval : BitVec 32
  codeinc : BitVec 32
  lastlen : UInt8
  code : ℕ → BitVec 32

def assignStep (len : ℕ → UInt8) (s : Assigning) (c : ℕ) : Assigning :=
  let codeval := s.codeval + s.codeinc
  let s := if len c ≠ s.lastlen then { s with lastlen := len c, codeinc := 1#32 <<< (16 - (len c).toNat) } else s
  { s with codeval := codeval, code := Function.update s.code c codeval }

/-- `AssignCodes` of `encode.c`, where `indicies` is sorted; `none` is the answer `false` -/
def assignCodes (len : ℕ → UInt8) (indicies : List ℕ) : Option (ℕ → BitVec 32) :=
  if maxCodeBits < len (indicies.getLastD 0) then none
  else some (indicies.reverse.foldl (assignStep len) ⟨0, 0, 0, fun _ => 0⟩).code

/-! ## the tables -/

/-- `MinCodeLen`, `MinVal`, `MapOffset` and `CharMap` -/
structure Tables where
  minCodeLen : ℕ
  minVal : ℕ → BitVec 16
  mapOffset : ℕ → ℕ
  charMap : ℕ → ℕ

/-- the variables of the loop in `decode.c`, and the tables -/
structure Building where
  codeval : BitVec 16
  codeinc : BitVec 16
  lastlen : UInt8
  curroffset : ℕ
  tables : Tables

def buildStep (len : ℕ → UInt8) (s : Building) (c : ℕ) : Building :=
  let codeval := s.codeval + s.codeinc
  let s :=
    if len c ≠ s.lastlen then
      { s with
        lastlen := len c
        codeinc := 1#16 <<< (16 - (len c).toNat)
        tables := { s.tables with
          minVal := Function.update s.tables.minVal (len c).toNat codeval
          mapOffset := Function.update s.tables.mapOffset (len c).toNat s.curroffset } }
    else s
  { s with
    codeval := codeval
    curroffset := s.curroffset + 1
    tables := { s.tables with charMap := Function.update s.tables.charMap s.curroffset c } }

/-- `AssignCodes` of `decode.c`, where `indicies` is sorted; `old` is what an earlier file has left -/
def buildTables (len : ℕ → UInt8) (indicies : List ℕ) (old : Tables) : Tables :=
  (indicies.reverse.foldl (buildStep len)
    ⟨0, 0, 0, 0, { old with minCodeLen := (len (indicies.headD 0)).toNat, minVal := fun _ => 0xFFFF }⟩).tables

/-- the search of `DoDecode`; `none` is a read behind the end of `MinVal` -/
def findLength (minVal : ℕ → BitVec 16) (getbuf : BitVec 16) : ℕ → ℕ → Option ℕ
  | 0, _ => none
  | left + 1, codelen =>
    if minVal codelen ≤ getbuf then some codelen else findLength minVal getbuf left (codelen + 1)

/-- `codelen` and `c` -/
def findSymbol (t : Tables) (getbuf : BitVec 16) : Option (ℕ × ℕ) :=
  (findLength t.minVal getbuf (17 - t.minCodeLen) t.minCodeLen).map fun codelen =>
    (codelen, t.charMap (t.mapOffset codelen + ((getbuf - t.minVal codelen) >>> (16 - codelen)).toNat))

/-! ## the codes that are made -/

/-- the part of the 16-bit words that symbols take -/
def taken (len : ℕ → UInt8) (l : List ℕ) : ℕ := space 16 (fun c => (len c).toNat) l

section
variable {len : ℕ → UInt8} {pre : List ℕ} {c : ℕ}

theorem taken_append (l : List ℕ) (c : ℕ) : taken len (l ++ [c]) = taken len l + 2 ^ (16 - (len c).toNat) := by
  rw [taken, space_append, space_single]
  rfl

theorem one_shiftLeft (w n : ℕ) : 1#w <<< n = BitVec.ofNat w (2 ^ n) := by
  refine BitVec.eq_of_toNat_eq ?_
  rw [BitVec.toNat_shiftLeft, BitVec.toNat_ofNat, BitVec.toNat_ofNat, Nat.shiftLeft_eq, Nat.mod_mul_mod, Nat.one_mul]

/-- a place in a list that has got one more element at its end -/
theorem place_concat {l r : List ℕ} {d : ℕ} (h : pre ++ [c] = l ++ d :: r) :
    (l = pre ∧ d = c ∧ r = []) ∨ ∃ r', r = r' ++ [c] ∧ pre = l ++ d :: r' := by
  rcases List.eq_nil_or_concat r with rfl | ⟨r', x, rfl⟩
  · obtain ⟨hl, hd⟩ := List.append_inj' h rfl
    exact Or.inl ⟨hl.symm, (List.cons.inj hd).1.symm, rfl⟩
  · rw [List.concat_eq_append] at h ⊢
    obtain ⟨hl, hd⟩ := List.append_inj' (show pre ++ [c] = (l ++ d :: r') ++ [x] by rw [h]; simp) rfl
    exact Or.inr ⟨r', by rw [(List.cons.inj hd).1], hl⟩

/-- the symbols `pre` have got their codes -/
structure Assigned (len : ℕ → UInt8) (pre : List ℕ) (s : Assigning) : Prop where
  next : s.codeval + s.codeinc = BitVec.ofNat 32 (taken len pre)
  inc : s.lastlen ≠ 0 → s.codeinc = 1#32 <<< (16 - s.lastlen.toNat)
  code : ∀ l c r, pre = l ++ c :: r → c ∉ r → s.code c = BitVec.ofNat 32 (taken len l)

theorem assignStep_assigned {s : Assigning} (h : Assigned len pre s) (hpos : len c ≠ 0) :
    Assigned len (pre ++ [c]) (assignStep len s c) := by
  have hstep : assignStep len s c = ⟨s.codeval + s.codeinc, 1#32 <<< (16 - (len c).toNat), len c,
      Function.update s.code c (s.codeval + s.codeinc)⟩ := by
    rw [assignStep]
    by_cases hl : len c ≠ s.lastlen
    · rw [if_pos hl]
    · rw [if_neg hl]
      have he := not_not.mp hl
      rw [he, ← h.inc (he ▸ hpos)]
  rw [hstep]
  refine ⟨?_, fun _ => rfl, fun l d r hpre hd => ?_⟩
  · show s.codeval + s.codeinc + 1#32 <<< (16 - (len c).toNat) = _
    rw [h.next, one_shiftLeft, taken_append, BitVec.ofNat_add]
  · show Function.update s.code c (s.codeval + s.codeinc) d = _
    rcases place_concat hpre with ⟨rfl, rfl, -⟩ | ⟨r', rfl, hpre'⟩
    · rw [Function.update_self, h.next]
    · have hne : d ≠ c := fun e => hd (by rw [e]; simp)
      rw [Function.update_of_ne hne]
      exact h.code l d r' hpre' fun hm => hd (List.mem_append_left _ hm)

/-- the tables hold the symbols `pre` -/
structure Built (len : ℕ → UInt8) (pre : List ℕ) (s : Building) : Prop where
  next : s.codeval + s.codeinc = BitVec.ofNat 16 (taken len pre)
  inc : s.lastlen ≠ 0 → s.codeinc = 1#16 <<< (16 - s.lastlen.toNat)
  last : ∀ c ∈ pre, s.lastlen ≤ len c ∧ ∃ d ∈ pre, len d = s.lastlen
  none : s.lastlen ≠ 0 → pre ≠ []
  offset : s.curroffset = pre.length
  chars : ∀ l c r, pre = l ++ c :: r → s.tables.charMap l.length = c
  unused : ∀ n, (∀ c ∈ pre, (len c).toNat ≠ n) → s.tables.minVal n = 0xFFFF
  first : ∀ l c r, pre = l ++ c :: r → (∀ d ∈ l, len d ≠ len c) →
    s.tables.minVal (len c).toNat = BitVec.ofNat 16 (taken len l) ∧ s.tables.mapOffset (len c).toNat = l.length

theorem buildStep_built {s : Building} (h : Built len pre s) (hpos : len c ≠ 0) (hle : ∀ d ∈ pre, len c ≤ len d) :
    Built len (pre ++ [c]) (buildStep len s c) := by
  have hnext : s.codeval + s.codeinc + 1#16 <<< (16 - (len c).toNat) = BitVec.ofNat 16 (taken len (pre ++ [c])) := by
    rw [h.next, one_shiftLeft, taken_append, BitVec.ofNat_add]
  have hmem : ∀ x ∈ pre ++ [c], len c ≤ len x ∧ ∃ d ∈ pre ++ [c], len d = len c := by
    intro x hx
    refine ⟨?_, c, by simp, rfl⟩
    rcases List.mem_append.mp hx with hx | hx
    · exact hle x hx
    · rw [List.mem_singleton.mp hx]
      exact UInt8.le_refl _
  have hchars : ∀ l d r, pre ++ [c] = l ++ d :: r →
      Function.update s.tables.charMap s.curroffset c l.length = d := by
    intro l d r hpre
    rw [h.offset]
    rcases place_concat hpre with ⟨rfl, rfl, -⟩ | ⟨r', rfl, hpre'⟩
    · rw [Function.update_self]
    · have hne : l.length ≠ pre.length := by
        rw [hpre', List.length_append, List.length_cons]
        omega
      rw [Function.update_of_ne hne]
      exact h.chars l d r' hpre'
  have hoffset : s.curroffset + 1 = (pre ++ [c]).length := by
    rw [h.offset, List.length_append, List.length_singleton]
  rw [buildStep]
  by_cases hl : len c ≠ s.lastlen
  · rw [if_pos hl]
    -- no symbol before it has its length
    have hnew : ∀ d ∈ pre, (len d).toNat ≠ (len c).toNat := by
      intro d hd he
      obtain ⟨hlow, e, hepre, hlast⟩ := h.last d hd
      refine hl (UInt8.le_antisymm (hlast ▸ hle e hepre) ?_)
      rwa [UInt8.toNat_inj.mp he] at hlow
    refine ⟨hnext, fun _ => rfl, hmem, fun _ => by simp, hoffset, hchars, fun n hn => ?_, fun l d r hpre hd => ?_⟩
    · show Function.update s.tables.minVal (len c).toNat (s.codeval + s.codeinc) n = _
      rw [Function.update_of_ne fun e => hn c (by simp) e.symm]
      exact h.unused n fun d hd => hn d (List.mem_append_left _ hd)
    · show Function.update s.tables.minVal (len c).toNat (s.codeval + s.codeinc) (len d).toNat = _ ∧
        Function.update s.tables.mapOffset (len c).toNat s.curroffset (len d).toNat = _
      rcases place_concat hpre with ⟨rfl, rfl, -⟩ | ⟨r', rfl, hpre'⟩
      · rw [Function.update_self, Function.update_self, h.next, h.offset]
        exact ⟨rfl, rfl⟩
      · have hne := hnew d (by rw [hpre']; simp)
        rw [Function.update_of_ne hne, Function.update_of_ne hne]
        exact h.first l d r' hpre' hd
  · rw [if_neg hl]
    have he := not_not.mp hl
    have hinc : s.codeinc = 1#16 <<< (16 - (len c).toNat) := by rw [h.inc (he ▸ hpos), he]
    refine ⟨hinc ▸ hnext, fun _ => he ▸ hinc, he ▸ hmem, fun _ => by simp, hoffset, hchars, fun n hn => ?_,
      fun l d r hpre hd => ?_⟩
    · exact h.unused n fun d hd => hn d (List.mem_append_left _ hd)
    · rcases place_concat hpre with ⟨rfl, rfl, -⟩ | ⟨r', rfl, hpre'⟩
      · obtain ⟨e, hepre⟩ := List.exists_mem_of_ne_nil _ (h.none (he ▸ hpos))
        obtain ⟨-, x, hx, hlast⟩ := h.last e hepre
        exact absurd (hlast.trans he.symm) (hd x hx)
      · exact h.first l d r' hpre' hd

theorem assigned_foldl (rest : List ℕ) : ∀ {pre : List ℕ} {s : Assigning}, Assigned len pre s →
    (∀ c ∈ rest, len c ≠ 0) → Assigned len (pre ++ rest) (rest.foldl (assignStep len) s) := by
  induction rest with
  | nil =>
    intro pre s h _
    rw [List.append_nil]
    exact h
  | cons c rest ih =>
    intro pre s h hpos
    have := ih (assignStep_assigned h (hpos c List.mem_cons_self)) fun d hd => hpos d (List.mem_cons_of_mem c hd)
    rwa [List.append_assoc] at this

theorem built_foldl (rest : List ℕ) : ∀ {pre : List ℕ} {s : Building}, Built len pre s → (∀ c ∈ rest, len c ≠ 0) →
    (pre ++ rest).Pairwise (fun a b => len b ≤ len a) → Built len (pre ++ rest) (rest.foldl (buildStep len) s) := by
  induction rest with
  | nil =>
    intro pre s h _ _
    rw [List.append_nil]
    exact h
  | cons c rest ih =>
    intro pre s h hpos hsort
    have hle : ∀ d ∈ pre, len c ≤ len d := fun d hd =>
      (List.pairwise_append.mp hsort).2.2 d hd c List.mem_cons_self
    have hsplit : pre ++ c :: rest = (pre ++ [c]) ++ rest := by rw [List.append_assoc]; rfl
    rw [hsplit] at hsort ⊢
    exact ih (buildStep_built h (hpos c List.mem_cons_self) hle) (fun d hd => hpos d (List.mem_cons_of_mem c hd)) hsort

/-! ## the search -/

/-- the symbols of one length stand together -/
theorem split_run {l : List ℕ} {c : ℕ} (h : (l ++ [c]).Pairwise fun a b => len b ≤ len a) :
    ∃ l' m, l = l' ++ m ∧ (∀ d ∈ l', len d ≠ len c) ∧ ∀ d ∈ m, len d = len c := by
  induction l with
  | nil => exact ⟨[], [], rfl, fun d hd => absurd hd List.not_mem_nil, fun d hd => absurd hd List.not_mem_nil⟩
  | cons a l ih =>
    obtain ⟨ha, hl⟩ := List.pairwise_cons.mp h
    by_cases he : len a = len c
    · refine ⟨[], a :: l, rfl, fun d hd => absurd hd List.not_mem_nil, fun d hd => ?_⟩
      rcases List.mem_cons.mp hd with rfl | hd
      · exact he
      · have h1 := (List.pairwise_append.mp hl).2.2 d hd c (by simp)
        have h2 := ha d (List.mem_append_left _ hd)
        exact UInt8.le_antisymm (he ▸ h2) h1
    · obtain ⟨l', m, rfl, h1, h2⟩ := ih hl
      refine ⟨a :: l', m, rfl, fun d hd => ?_, h2⟩
      rcases List.mem_cons.mp hd with rfl | hd
      · exact he
      · exact h1 d hd

/-- the first symbol of a length -/
theorem exists_first {l : List ℕ} {n : UInt8} (h : ∃ d ∈ l, len d = n) :
    ∃ l' e r', l = l' ++ e :: r' ∧ len e = n ∧ ∀ d ∈ l', len d ≠ n := by
  induction l with
  | nil =>
    obtain ⟨d, hd, -⟩ := h
    exact absurd hd List.not_mem_nil
  | cons a l ih =>
    by_cases he : len a = n
    · exact ⟨[], a, l, rfl, he, fun d hd => absurd hd List.not_mem_nil⟩
    · obtain ⟨d, hd, hn⟩ := h
      have hd' : d ∈ l := (List.mem_cons.mp hd).resolve_left fun e => he (e ▸ hn)
      obtain ⟨l', e, r', rfl, h1, h2⟩ := ih ⟨d, hd', hn⟩
      refine ⟨a :: l', e, r', rfl, h1, fun x hx => ?_⟩
      rcases List.mem_cons.mp hx with rfl | hx
      · exact he
      · exact h2 x hx

/-- tables for symbols that fit 16 bits -/
structure Searchable (len : ℕ → UInt8) (rev : List ℕ) (t : Tables) : Prop where
  built : ∃ s, Built len rev s ∧ t.minVal = s.tables.minVal ∧ t.mapOffset = s.tables.mapOffset ∧
    t.charMap = s.tables.charMap
  sorted : rev.Pairwise fun a b => len b ≤ len a
  fits : taken len rev ≤ 2 ^ 16
  most : ∀ c ∈ rev, (len c).toNat ≤ 16
  least : ∃ d ∈ rev, (len d).toNat = t.minCodeLen
  shortest : ∀ c ∈ rev, t.minCodeLen ≤ (len c).toNat

variable {rev l r : List ℕ} {t : Tables}

theorem taken_cons (l r : List ℕ) (c : ℕ) :
    taken len (l ++ c :: r) = taken len l + (2 ^ (16 - (len c).toNat) + taken len r) := by
  rw [taken, space_append, space_cons]
  rfl

/-- where the symbols of its length begin -/
theorem run_tables (h : Searchable len rev t) (hrev : rev = l ++ c :: r) :
    ∃ l' m, l = l' ++ m ∧ taken len l = taken len l' + m.length * 2 ^ (16 - (len c).toNat) ∧
      t.minVal (len c).toNat = BitVec.ofNat 16 (taken len l') ∧ t.mapOffset (len c).toNat = l'.length := by
  have hsort := h.sorted
  rw [hrev, show l ++ c :: r = (l ++ [c]) ++ r by rw [List.append_assoc]; rfl] at hsort
  obtain ⟨l', m, rfl, hne, heq⟩ := split_run (List.pairwise_append.mp hsort).1
  obtain ⟨s, hb, hmin, hmap, -⟩ := h.built
  have hrun : taken len (l' ++ m) = taken len l' + m.length * 2 ^ (16 - (len c).toNat) := by
    rw [taken, space_append, space_run fun d hd => congrArg UInt8.toNat (heq d hd)]
    rfl
  refine ⟨l', m, rfl, hrun, ?_⟩
  rw [hmin, hmap]
  cases m with
  | nil =>
    rw [List.append_nil] at hrev
    exact hb.first l' c r hrev hne
  | cons e m =>
    have he := heq e List.mem_cons_self
    have := hb.first l' e (m ++ c :: r) (by rw [hrev, List.append_assoc]; rfl) fun d hd => by rw [he]; exact hne d hd
    rwa [he] at this

/-- the search goes past a length that is shorter -/
theorem short_minVal (h : Searchable len rev t) (hrev : rev = l ++ c :: r) {x : BitVec 16}
    (hx : x.toNat < taken len l + 2 ^ (16 - (len c).toNat)) {n : ℕ} (hmin : t.minCodeLen ≤ n) (hn : n < (len c).toNat) :
    ¬ t.minVal n ≤ x := by
  obtain ⟨s, hb, hval, -, -⟩ := h.built
  have hfits := h.fits
  rw [hrev, taken_cons] at hfits
  have hmost := h.most c (by rw [hrev]; simp)
  have hsort := h.sorted
  rw [hrev, List.pairwise_append, List.pairwise_cons] at hsort
  have hbefore : ∀ d ∈ l, n < (len d).toNat := fun d hd =>
    lt_of_lt_of_le hn (UInt8.le_iff_toNat_le.mp (hsort.2.2 d hd c List.mem_cons_self))
  -- a symbol that is shorter than `c` stands behind it
  have hbehind : ∀ d ∈ rev, (len d).toNat ≤ n → d ∈ r := by
    intro d hd hle
    rw [hrev] at hd
    rcases List.mem_append.mp hd with hd | hd
    · exact absurd (hbefore d hd) (not_lt.mpr hle)
    · rcases List.mem_cons.mp hd with rfl | hd
      · exact absurd hn (not_lt.mpr hle)
      · exact hd
  rw [hval, BitVec.le_def]
  by_cases hex : ∃ d ∈ rev, (len d).toNat = n
  · obtain ⟨d, hd, hdn⟩ := hex
    obtain ⟨r1, e, r2, hr, he, hne⟩ := exists_first ⟨d, hbehind d hd hdn.le, rfl⟩
    have hen : (len e).toNat = n := (congrArg UInt8.toNat he).trans hdn
    have hfirst := (hb.first (l ++ c :: r1) e r2 (by rw [hrev, hr, List.append_assoc]; rfl) fun y hy hye => by
      rcases List.mem_append.mp hy with hy | hy
      · have := hbefore y hy
        rw [hye, hen] at this
        exact absurd this (lt_irrefl n)
      · rcases List.mem_cons.mp hy with rfl | hy
        · rw [hye, hen] at hn
          exact absurd hn (lt_irrefl n)
        · exact hne y hy (hye.trans he)).1
    rw [hr, taken_cons] at hfits
    have hpos : 0 < 2 ^ (16 - (len e).toNat) := Nat.two_pow_pos _
    rw [← hen, hfirst, BitVec.toNat_ofNat, taken_cons, Nat.mod_eq_of_lt (by omega)]
    omega
  · obtain ⟨d, hd, hdmin⟩ := h.least
    have hdr := hbehind d hd (by omega)
    obtain ⟨r1, r2, hr⟩ := List.append_of_mem hdr
    have hone : 2 ^ 1 ≤ 2 ^ (16 - (len d).toNat) := Nat.pow_le_pow_right (by omega) (by omega)
    rw [hr, taken_cons] at hfits
    rw [hb.unused n fun y hy hyn => hex ⟨y, hy, hyn⟩]
    show ¬ 65535 ≤ x.toNat
    omega

/-- the search ends at the length of the code -/
theorem findLength_code (h : Searchable len rev t) (hrev : rev = l ++ c :: r) {x : BitVec 16}
    (hle : taken len l ≤ x.toNat) (hx : x.toNat < taken len l + 2 ^ (16 - (len c).toNat)) (left : ℕ) :
    ∀ {n : ℕ}, t.minCodeLen ≤ n → n ≤ (len c).toNat → (len c).toNat < n + left →
    findLength t.minVal x left n = some (len c).toNat := by
  induction left with
  | zero =>
    intro n _ h1 h2
    exact absurd h2 (not_lt.mpr h1)
  | succ left ih =>
    intro n hmin h1 h2
    rw [findLength]
    by_cases he : n = (len c).toNat
    · obtain ⟨l', m, -, hrun, hval, -⟩ := run_tables h hrev
      have hlt : taken len l' < 2 ^ 16 := by
        have := x.isLt
        omega
      rw [he, if_pos]
      rw [hval, BitVec.le_def, BitVec.toNat_ofNat, Nat.mod_eq_of_lt hlt]
      omega
    · rw [if_neg (short_minVal h hrev hx hmin (by omega))]
      exact ih (by omega) (by omega) (by omega)

/-- bits that begin with a code are found to be its symbol -/
theorem findSymbol_code (h : Searchable len rev t) (hrev : rev = l ++ c :: r) {x : BitVec 16}
    (hle : taken len l ≤ x.toNat) (hx : x.toNat < taken len l + 2 ^ (16 - (len c).toNat)) :
    findSymbol t x = some ((len c).toNat, c) := by
  have hmost := h.most c (by rw [hrev]; simp)
  have hmin := h.shortest c (by rw [hrev]; simp)
  obtain ⟨s, hb, -, -, hchar⟩ := h.built
  obtain ⟨l', m, hl, hrun, hval, hmap⟩ := run_tables h hrev
  have hlt := x.isLt
  have hshift : ((x - t.minVal (len c).toNat) >>> (16 - (len c).toNat)).toNat = m.length := by
    rw [BitVec.toNat_ushiftRight, BitVec.toNat_sub_of_le, hval, BitVec.toNat_ofNat, Nat.mod_eq_of_lt (by omega),
      Nat.shiftRight_eq_div_pow]
    · refine Nat.div_eq_of_lt_le (by omega) ?_
      rw [Nat.succ_mul]
      omega
    · rw [hval, BitVec.le_def, BitVec.toNat_ofNat, Nat.mod_eq_of_lt (by omega)]
      omega
  rw [findSymbol, findLength_code h hrev hle hx _ (le_refl _) hmin (by omega), Option.map_some, hshift, hmap, hchar]
  have := hb.chars l c r hrev
  rw [hl, List.length_append] at this
  rw [this]

/-! ## both sides -/

theorem foldl_minCodeLen (rest : List ℕ) : ∀ s : Building,
    (rest.foldl (buildStep len) s).tables.minCodeLen = s.tables.minCodeLen := by
  induction rest with
  | nil => exact fun s => rfl
  | cons c rest ih =>
    intro s
    rw [List.foldl_cons, ih, buildStep]
    by_cases hl : len c ≠ s.lastlen
    · rw [if_pos hl]
    · rw [if_neg hl]

section
variable {indicies : List ℕ}

theorem buildTables_searchable (hne : indicies ≠ []) (hsort : indicies.Pairwise fun a b => len a ≤ len b)
    (hpos : ∀ c ∈ indicies, len c ≠ 0) (hmax : ∀ c ∈ indicies, (len c).toNat ≤ 16)
    (hfits : taken len indicies ≤ 2 ^ 16) (old : Tables) :
    Searchable len indicies.reverse (buildTables len indicies old) := by
  have hrev : indicies.reverse.Pairwise fun a b => len b ≤ len a := List.pairwise_reverse.mpr hsort
  have hmin : (buildTables len indicies old).minCodeLen = (len (indicies.headD 0)).toNat := foldl_minCodeLen _ _
  have hstart : Built len []
      ⟨0, 0, 0, 0, { old with minCodeLen := (len (indicies.headD 0)).toNat, minVal := fun _ => 0xFFFF }⟩ :=
    ⟨rfl, fun h => absurd rfl h, fun c hc => absurd hc List.not_mem_nil, fun h => absurd rfl h, rfl,
      fun l c r h => absurd (congrArg List.length h) (by simp), fun n _ => rfl,
      fun l c r h => absurd (congrArg List.length h) (by simp)⟩
  have hbuilt := built_foldl indicies.reverse hstart (fun c hc => hpos c (List.mem_reverse.mp hc)) hrev
  obtain ⟨a, l, rfl⟩ := List.exists_cons_of_ne_nil hne
  refine ⟨⟨_, hbuilt, rfl, rfl, rfl⟩, hrev, ?_, fun c hc => hmax c (List.mem_reverse.mp hc),
    ⟨a, by simp, hmin.symm⟩, fun c hc => ?_⟩
  · rw [taken, space_perm (List.reverse_perm _)]
    exact hfits
  · rw [hmin]
    rcases List.mem_cons.mp (List.mem_reverse.mp hc) with rfl | hc
    · exact le_refl _
    · exact UInt8.le_iff_toNat_le.mp ((List.pairwise_cons.mp hsort).1 c hc)

theorem assignCodes_code {code : ℕ → BitVec 32} (hcode : assignCodes len indicies = some code) (hnd : indicies.Nodup)
    (hpos : ∀ c ∈ indicies, len c ≠ 0) {l r : List ℕ} {c : ℕ} (h : indicies.reverse = l ++ c :: r) :
    code c = BitVec.ofNat 32 (taken len l) := by
  rw [assignCodes] at hcode
  split at hcode
  · exact absurd hcode (Option.some_ne_none _).symm
  · obtain rfl := Option.some.inj hcode
    have ha : Assigned len [] ⟨0, 0, 0, fun _ => 0⟩ :=
      ⟨rfl, fun h => absurd rfl h, fun l c r h => absurd (congrArg List.length h) (by simp)⟩
    have hr : c ∉ r := by
      have hnd' := List.nodup_reverse.mpr hnd
      rw [h] at hnd'
      exact (List.nodup_cons.mp (List.nodup_append.mp hnd').2.1).1
    exact (assigned_foldl _ ha fun d hd => hpos d (List.mem_reverse.mp hd)).code l c r h hr

theorem assignCodes_le {code : ℕ → BitVec 32} (hcode : assignCodes len indicies = some code)
    (hsort : indicies.Pairwise fun a b => len a ≤ len b) : ∀ c ∈ indicies, (len c).toNat ≤ 16 := by
  intro c hc
  rw [assignCodes] at hcode
  split at hcode
  · exact absurd hcode (Option.some_ne_none _).symm
  · rename_i hlast
    obtain ⟨l, d, rfl⟩ : ∃ l d, indicies = l ++ [d] :=
      ⟨_, _, (List.dropLast_append_getLast (List.ne_nil_of_mem hc)).symm⟩
    have hd : len d ≤ 16 := by
      rw [List.getLastD_concat] at hlast
      exact UInt8.not_lt.mp hlast
    rcases List.mem_append.mp hc with hc | hc
    · exact UInt8.le_iff_toNat_le.mp (UInt8.le_trans ((List.pairwise_append.mp hsort).2.2 c hc d (by simp)) hd)
    · rw [List.mem_singleton.mp hc]
      exact UInt8.le_iff_toNat_le.mp hd

/-- a word begins with the bits of a code -/
theorem range_of_bits {n v : ℕ} (hn : n ≤ 16) (hv : v < 2 ^ 16) (hd : 2 ^ (16 - n) ∣ v) {x : BitVec 16}
    (hx : ∀ i < n, x.getMsbD i = (BitVec.ofNat 32 v).getMsbD (16 + i)) : v ≤ x.toNat ∧ x.toNat < v + 2 ^ (16 - n) := by
  have hlt := x.isLt
  have hdiv : x.toNat / 2 ^ (16 - n) = v / 2 ^ (16 - n) := by
    rw [← Nat.shiftRight_eq_div_pow, ← Nat.shiftRight_eq_div_pow]
    refine Nat.eq_of_testBit_eq fun j => ?_
    rw [Nat.testBit_shiftRight, Nat.testBit_shiftRight]
    by_cases hj : 16 - n + j < 16
    · have := hx (n - 1 - j) (by omega)
      rw [BitVec.getMsbD_eq_getLsbD, BitVec.getMsbD_eq_getLsbD, decide_eq_true (by omega), decide_eq_true (by omega),
        Bool.true_and, Bool.true_and, BitVec.getLsbD_ofNat, decide_eq_true (by omega), Bool.true_and,
        show 16 - 1 - (n - 1 - j) = 16 - n + j by omega, show 32 - 1 - (16 + (n - 1 - j)) = 16 - n + j by omega] at this
      exact this
    · rw [Nat.testBit_lt_two_pow (lt_of_lt_of_le hlt (Nat.pow_le_pow_right (by omega) (not_lt.mp hj))),
        Nat.testBit_lt_two_pow (lt_of_lt_of_le hv (Nat.pow_le_pow_right (by omega) (not_lt.mp hj)))]
  have h1 := Nat.div_add_mod x.toNat (2 ^ (16 - n))
  have h2 := Nat.mod_lt x.toNat (Nat.two_pow_pos (16 - n))
  have h3 := Nat.mul_div_cancel' hd
  rw [hdiv, h3] at h1
  omega

theorem fitting_multiple {n v : ℕ} (hn : n ≤ 16) (hv : v < 2 ^ 16) (hd : 2 ^ (16 - n) ∣ v) :
    Fitting n (BitVec.ofNat 32 v) := by
  refine ⟨hn, fun i hi => ?_, fun i h1 h2 => ?_⟩
  · rw [BitVec.getMsbD_eq_getLsbD, BitVec.getLsbD_ofNat, Nat.testBit_lt_two_pow
      (lt_of_lt_of_le hv (Nat.pow_le_pow_right (by omega) (by omega))), Bool.and_false, Bool.and_false]
  · obtain ⟨q, rfl⟩ := hd
    rw [BitVec.getMsbD_eq_getLsbD, BitVec.getLsbD_ofNat, Nat.testBit_two_pow_mul,
      decide_eq_false (show ¬ 32 - 1 - (16 + i) ≥ 16 - n by omega), Bool.false_and, Bool.and_false, Bool.and_false]

/-- a code has no bits behind its length, and bits that begin with it are found to be its symbol -/
theorem findSymbol_assigned {code : ℕ → BitVec 32} (hcode : assignCodes len indicies = some code) (hnd : indicies.Nodup)
    (hsort : indicies.Pairwise fun a b => len a ≤ len b) (hpos : ∀ c ∈ indicies, len c ≠ 0)
    (hfull : taken len indicies = 2 ^ 16 ∨ indicies.length = 1) (old : Tables) {c : ℕ} (hc : c ∈ indicies) :
    Fitting (len c).toNat (code c) ∧ ∀ x : BitVec 16, (∀ i < (len c).toNat, x.getMsbD i = (code c).getMsbD (16 + i)) →
      findSymbol (buildTables len indicies old) x = some ((len c).toNat, c) := by
  have hmax := assignCodes_le hcode hsort
  obtain ⟨l, r, hrev⟩ := List.append_of_mem (List.mem_reverse.mpr hc)
  have hrevsort : indicies.reverse.Pairwise fun a b => len b ≤ len a := List.pairwise_reverse.mpr hsort
  have htaken : taken len indicies.reverse = taken len indicies := space_perm (List.reverse_perm _)
  have hone : 0 < 2 ^ (16 - (len c).toNat) := Nat.two_pow_pos _
  have hboth : taken len indicies ≤ 2 ^ 16 ∧ 2 ^ (16 - (len c).toNat) ∣ taken len l := by
    rcases hfull with hfull | hsingle
    · refine ⟨hfull.le, space_dvd (r := r) (fun d hd => UInt8.le_iff_toNat_le.mp ?_) ?_⟩
      · rw [hrev] at hrevsort
        exact (List.pairwise_cons.mp (List.pairwise_append.mp hrevsort).2.1).1 d hd
      · rw [← hrev]
        exact htaken.trans hfull
    · have hlen := congrArg List.length hrev
      rw [List.length_reverse, hsingle, List.length_append, List.length_cons] at hlen
      obtain rfl := List.eq_nil_of_length_eq_zero (show l.length = 0 by omega)
      obtain rfl := List.eq_nil_of_length_eq_zero (show r.length = 0 by omega)
      refine ⟨?_, dvd_zero _⟩
      rw [← htaken, hrev]
      exact le_of_eq_of_le (space_single c) (Nat.pow_le_pow_right (by omega) (Nat.sub_le 16 _))
  obtain ⟨hfits, hdvd⟩ := hboth
  have hlt : taken len l < 2 ^ 16 := by
    have := htaken.symm.trans (congrArg (taken len) hrev)
    rw [taken_cons] at this
    omega
  rw [assignCodes_code hcode hnd hpos hrev]
  refine ⟨fitting_multiple (hmax c hc) hlt hdvd, fun x hx => ?_⟩
  obtain ⟨h1, h2⟩ := range_of_bits (hmax c hc) hlt hdvd hx
  exact findSymbol_code (buildTables_searchable (List.ne_nil_of_mem hc) hsort hpos hmax hfits old) hrev h1 h2

end

/-! ## the codes of a file -/

theorem writeTmpByte_ne {code : ℕ → UInt32} (h : ∀ c, (code c).toNat ≤ 0xFFFF) {c c' : ℕ} (hc : c' = c ∨ code c' ≠ 0) :
    writeTmpByte code c c' ≠ 0 := by
  have key : ∀ code : ℕ → UInt32, (∀ c, (code c).toNat ≤ 0xFFFF) → (c' = c ∨ code c' ≠ 0) →
      Function.update code c (code c + 1) c' ≠ 0 := by
    intro code h hc
    by_cases he : c' = c
    · rw [he, Function.update_self]
      intro hz
      have hn := congrArg UInt32.toNat hz
      rw [UInt32.toNat_add, show (1 : UInt32).toNat = 1 from rfl, show (0 : UInt32).toNat = 0 from rfl] at hn
      have := h c
      omega
    · rw [Function.update_of_ne he]
      exact hc.resolve_left he
  have half : ∀ i, ((code i + 1) / 2).toNat = ((code i).toNat + 1) / 2 := by
    intro i
    have hi := h i
    rw [UInt32.toNat_div, UInt32.toNat_add, show (1 : UInt32).toNat = 1 from rfl, show (2 : UInt32).toNat = 2 from rfl]
    omega
  rw [writeTmpByte]
  by_cases hmax : code c = 0xFFFF
  · rw [if_pos hmax]
    refine key _ (fun i => ?_) (hc.imp_right fun hne => ?_)
    · by_cases hi : i < numChars
      · rw [if_pos hi, half]
        have := h i
        omega
      · rw [if_neg hi]
        exact h i
    · by_cases hi : c' < numChars
      · rw [if_pos hi]
        intro hz
        have hn := half c'
        rw [hz, show (0 : UInt32).toNat = 0 from rfl] at hn
        exact hne (UInt32.toNat.inj (show (code c').toNat = 0 by omega))
      · rw [if_neg hi]
        exact hne
  · rw [if_neg hmax]
    exact key code h hc

/-- a symbol that occurs keeps a count -/
theorem counts_ne {bytes : List ℕ} (hb : ∀ c ∈ bytes, c < numChars) {c : ℕ} (hc : c ∈ bytes) : counts bytes c ≠ 0 := by
  have key : ∀ (l : List ℕ) (code : ℕ → UInt32), (∀ c ∈ l, c < numChars) → (∀ c, (code c).toNat ≤ 0xFFFF) →
      (c ∈ l ∨ code c ≠ 0) → l.foldl writeTmpByte code c ≠ 0 := by
    intro l
    induction l with
    | nil => exact fun _ _ _ h => h.resolve_left List.not_mem_nil
    | cons b l ih =>
      intro code hl hcode h
      refine ih _ (fun c hc => hl c (List.mem_cons_of_mem b hc)) (writeTmpByte_le hcode (hl b List.mem_cons_self)) ?_
      rcases h with h | h
      · rcases List.mem_cons.mp h with rfl | h
        · exact Or.inr (writeTmpByte_ne hcode (Or.inl rfl))
        · exact Or.inl h
      · exact Or.inr (writeTmpByte_ne hcode (Or.inr h))
  exact key bytes _ hb (fun _ => Nat.zero_le _) (Or.inl hc)

/-- the symbols that are used -/
def used (bytes : List ℕ) : List ℕ := (collect (counts bytes)).2

theorem mem_used {bytes : List ℕ} (hb : ∀ c ∈ bytes, c < numChars) {c : ℕ} (hc : c ∈ bytes) : c ∈ used bytes := by
  rw [used, (collect_eq _).1]
  exact List.mem_filter.mpr ⟨List.mem_range.mpr (hb c hc), decide_eq_true (counts_ne hb hc)⟩

theorem used_nodup (bytes : List ℕ) : (used bytes).Nodup := by
  rw [used, (collect_eq _).1]
  exact List.nodup_range.filter _

/-- `len` after `CalcLengths`, from the symbols of the first pass -/
def lengths (bytes : List ℕ) : ℕ → UInt8 :=
  stored (fun _ => 0) (calcLengths ⟨counts bytes, fun i => (used bytes).getD i 0⟩ (collect (counts bytes)).1 0
    ((used bytes).length - 1) 0)

/-- a file of one symbol -/
theorem lengths_single {bytes : List ℕ} {c : ℕ} (h : used bytes = [c]) (d : ℕ) :
    lengths bytes d = if d = c then 1 else 0 := by
  have hplace : ∀ s : Symbols, ∀ num, (findPlace s num 0 0 0).2 = 0 := by
    intro s num
    have := (findPlace_bounds s num 0 0 0).2
    omega
  rw [lengths, h, List.length_singleton, Nat.sub_self, calcLengths]
  dsimp only
  rw [if_pos (hplace _ _), if_pos (Nat.zero_le _), hplace]
  show Function.update (Function.update (fun _ => 0) c 1) c 1 d = _
  rw [Function.update_idem, Function.update_apply]

/-- two symbols or more take all of the words -/
theorem lengths_whole {bytes : List ℕ} (hb : ∀ c ∈ bytes, c < numChars) (h2 : 2 ≤ (used bytes).length) :
    (∀ c, lengths bytes c ≠ 0 ↔ c ∈ used bytes) ∧
      ((∀ c ∈ used bytes, (lengths bytes c).toNat ≤ 16) → taken (lengths bytes) (used bytes) = 2 ^ 16) := by
  obtain ⟨-, hpos, hfit, htotal⟩ := collect_promised hb
  have htotal' : (collect (counts bytes)).1 = UInt32.ofNat (Symbols.count
      ⟨counts bytes, fun i => (used bytes).getD i 0⟩ 0 (used bytes).length) := htotal
  obtain ⟨hfst, hdiv⟩ := calcLengths_whole (s := ⟨counts bytes, fun i => (used bytes).getD i 0⟩) h2 hpos hfit
  rw [← htotal'] at hfst hdiv
  have hlist : (List.range (used bytes).length).map (fun i => (used bytes).getD i 0) = used bytes := by
    refine List.ext_getElem (by rw [List.length_map, List.length_range]) fun i h1 h2 => ?_
    rw [List.getElem_map, List.getElem_range, List.getD_eq_getElem _ _ h2]
  have hmap : (calcLengths ⟨counts bytes, fun i => (used bytes).getD i 0⟩ (collect (counts bytes)).1 0
      ((used bytes).length - 1) 0).map Prod.fst = used bytes := hfst.trans hlist
  have hstored := stored_of_mem (fun _ => 0) (hmap ▸ used_nodup bytes)
  have hlens : (used bytes).map (fun c => (lengths bytes c).toNat) =
      (calcLengths ⟨counts bytes, fun i => (used bytes).getD i 0⟩ (collect (counts bytes)).1 0
        ((used bytes).length - 1) 0).map fun w => w.2.toNat := by
    conv_lhs => rw [← hmap, List.map_map]
    exact List.map_congr_left fun w hw => congrArg UInt8.toNat (hstored w hw)
  rw [← show _ = _ from hlens] at hdiv
  refine ⟨fun c => ⟨fun hz => ?_, fun hc hz => ?_⟩, fun hle => ?_⟩
  · by_contra hc
    exact hz (stored_of_not_mem (hmap.symm ▸ hc))
  · have hlt := hdiv.lt (by rw [List.length_map]; exact h2) _ (List.mem_map_of_mem hc)
    rw [hz] at hlt
    exact absurd hlt (by decide)
  · have := space_divided (w := 16) hdiv fun n hn => by
      obtain ⟨c, hc, rfl⟩ := List.mem_map.mp hn
      exact hle c hc
    rw [space, List.map_map] at this
    exact this

/-- the symbols that are used have a length, and no others -/
theorem lengths_ne {bytes : List ℕ} (hb : ∀ c ∈ bytes, c < numChars) (hne : bytes ≠ []) (c : ℕ) :
    lengths bytes c ≠ 0 ↔ c ∈ used bytes := by
  by_cases h2 : 2 ≤ (used bytes).length
  · exact (lengths_whole hb h2).1 c
  · obtain ⟨b, hmem⟩ := List.exists_mem_of_ne_nil bytes hne
    have hpos := List.length_pos_of_mem (mem_used hb hmem)
    obtain ⟨a, ha⟩ := List.length_eq_one_iff.mp (show (used bytes).length = 1 by omega)
    rw [lengths_single ha, ha, List.mem_singleton]
    by_cases hc : c = a
    · rw [if_pos hc]
      exact ⟨fun _ => hc, fun _ => by decide⟩
    · rw [if_neg hc]
      exact ⟨fun h => absurd rfl h, fun h => absurd h hc⟩

/-- whatever a file holds, where its codes fit 16 bits each of its symbols is found again from the bits of its code
and whatever stands behind them; both sides sort the symbols in one order -/
theorem codes_found {bytes indicies : List ℕ} (hb : ∀ c ∈ bytes, c < numChars) (hperm : indicies.Perm (used bytes))
    (hsort : indicies.Pairwise fun a b => lengths bytes a ≤ lengths bytes b) {code : ℕ → BitVec 32}
    (hcode : assignCodes (lengths bytes) indicies = some code) (old : Tables) {c : ℕ} (hc : c ∈ bytes) :
    Fitting (lengths bytes c).toNat (code c) ∧
      ∀ x : BitVec 16, (∀ i < (lengths bytes c).toNat, x.getMsbD i = (code c).getMsbD (16 + i)) →
        findSymbol (buildTables (lengths bytes) indicies old) x = some ((lengths bytes c).toNat, c) := by
  have hmem := mem_used hb hc
  have hmax := assignCodes_le hcode hsort
  have hlen := hperm.length_eq
  refine findSymbol_assigned hcode (hperm.nodup_iff.mpr (used_nodup bytes)) hsort (fun d hd =>
    (lengths_ne hb (List.ne_nil_of_mem hc) d).mpr (hperm.mem_iff.mp hd)) ?_ old (hperm.mem_iff.mpr hmem)
  by_cases h2 : 2 ≤ (used bytes).length
  · refine Or.inl ?_
    rw [taken, space_perm hperm]
    exact (lengths_whole hb h2).2 fun d hd => hmax d (hperm.mem_iff.mpr hd)
  · have := List.length_pos_of_mem hmem
    exact Or.inr (by omega)

end

end Wpack
