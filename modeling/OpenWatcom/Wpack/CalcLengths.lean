import OpenWatcom.Lib.Kraft
import OpenWatcom.Wpack.CodeTable

/-!
# The code lengths: `encode.c`

* `writeTmpByte`, `collect`     the counts of the first pass, their total and the list of symbols
* `findPlace`, `calcLengths`     `CalcLengths`, as the list of its stores to `len`
* `calcLengths_spec`     a call divides its part of the list in two again and again
* `calcLengths_kraft`     each symbol gets one length, and the lengths fill the codes exactly
-/

namespace Wpack

/-! ## the counts -/

/-- `WriteTmpByte`, its last part -/
def writeTmpByte (code : ℕ → UInt32) (c : ℕ) : ℕ → UInt32 :=
  let code :=
    if code c = 0xFFFF then
      fun index => if index < numChars then (code index + 1) / 2 else code index
    else code
  Function.update code c (code c + 1)

/-- the loop of `DoEncode` behind the first pass: `total`, and the filled part of `indicies` -/
def collect (code : ℕ → UInt32) : UInt32 × List ℕ :=
  (List.range numChars).foldl
    (fun r index => if code index ≠ 0 then (r.1 + code index, r.2 ++ [index]) else r) (0, [])

/-! ## the lengths -/

/-- the tables that `CalcLengths` reads -/
structure Symbols where
  code : ℕ → UInt32
  indicies : ℕ → ℕ

section
variable (s : Symbols)

/-- the first loop: where it ends, `subtotal` and `index` -/
def findPlace (num : UInt32) (finish : ℕ) (subtotal : UInt32) (index : ℕ) : UInt32 × ℕ :=
  let subtotal := subtotal + s.code (s.indicies index)
  if num / 2 ≤ subtotal then (subtotal, index)
  else if finish ≤ index + 1 then (subtotal, index)
  else findPlace num finish subtotal (index + 1)
termination_by finish - index

theorem findPlace_bounds (num : UInt32) (finish : ℕ) (subtotal : UInt32) (index : ℕ) :
    index ≤ (findPlace s num finish subtotal index).2 ∧
      ((findPlace s num finish subtotal index).2 = index ∨
        (findPlace s num finish subtotal index).2 < finish) := by
  fun_induction findPlace with
  | case1 subtotal index sub h => exact ⟨le_refl _, Or.inl rfl⟩
  | case2 subtotal index sub h h' => exact ⟨le_refl _, Or.inl rfl⟩
  | case3 subtotal index sub h h' ih => exact ⟨by omega, Or.inr (by omega)⟩

/-- the stores to `len`, in their order -/
def calcLengths (num : UInt32) (start finish : ℕ) (tlen : UInt8) : List (ℕ × UInt8) :=
  let place := findPlace s num finish 0 start
  let tlen := tlen + 1
  (if place.2 = start then [(s.indicies place.2, tlen)]
    else calcLengths place.1 start place.2 tlen) ++
  if finish ≤ place.2 + 1 then [(s.indicies finish, tlen)]
  else calcLengths (num - place.1) (place.2 + 1) finish tlen
termination_by finish - start
decreasing_by
  · have h : start ≤ place.2 ∧ (place.2 = start ∨ place.2 < finish) :=
      findPlace_bounds s num finish 0 start
    show place.2 - start < finish - start
    omega
  · have h : start ≤ place.2 ∧ (place.2 = start ∨ place.2 < finish) :=
      findPlace_bounds s num finish 0 start
    show finish - (place.2 + 1) < finish - start
    omega

/-- `len` after the stores -/
def stored (len : ℕ → UInt8) (writes : List (ℕ × UInt8)) : ℕ → UInt8 :=
  writes.foldl (fun len w => Function.update len w.1 w.2) len

/-- what the entries `a` to `b - 1` of the list count together -/
def Symbols.count (a b : ℕ) : ℕ := ∑ i ∈ Finset.Ico a b, (s.code (s.indicies i)).toNat

end

section
variable {s : Symbols}

theorem count_succ {a b : ℕ} (h : a ≤ b) :
    s.count a (b + 1) = s.count a b + (s.code (s.indicies b)).toNat :=
  Finset.sum_Ico_succ_top h _

theorem count_split {a b c : ℕ} (hab : a ≤ b) (hbc : b ≤ c) :
    s.count a b + s.count b c = s.count a c :=
  Finset.sum_Ico_consecutive _ hab hbc

/-- where the first loop ends: before the last item, at half of the total or one item before it -/
theorem findPlace_spec (num : UInt32) {start finish : ℕ} (hfit : s.count start (finish + 1) < 2 ^ 32)
    {subtotal : UInt32} {index : ℕ} (hsub : subtotal.toNat = s.count start index)
    (hi : start ≤ index) (hf : index < finish) :
    (findPlace s num finish subtotal index).1.toNat
        = s.count start ((findPlace s num finish subtotal index).2 + 1) ∧
      (findPlace s num finish subtotal index).2 < finish ∧
      (index < (findPlace s num finish subtotal index).2 →
        s.count start (findPlace s num finish subtotal index).2 < num.toNat / 2) ∧
      (num.toNat / 2 ≤ (findPlace s num finish subtotal index).1.toNat ∨
        (findPlace s num finish subtotal index).2 + 1 = finish) := by
  have hstep : ∀ {sub : UInt32} {i : ℕ}, sub.toNat = s.count start i → start ≤ i → i < finish →
      (sub + s.code (s.indicies i)).toNat = s.count start (i + 1) := by
    intro sub i hs h1 h2
    have hle := count_split (s := s) (show start ≤ i + 1 by omega) (show i + 1 ≤ finish + 1 by omega)
    rw [UInt32.toNat_add, hs, ← count_succ h1, Nat.mod_eq_of_lt (by omega)]
  have hhalf : (num / 2).toNat = num.toNat / 2 := UInt32.toNat_div _ _
  fun_induction findPlace s num finish subtotal index with
  | case1 subtotal index sub h =>
    rw [UInt32.le_iff_toNat_le, hhalf] at h
    exact ⟨hstep hsub hi hf, hf, fun hlt => absurd hlt (Nat.lt_irrefl _), Or.inl h⟩
  | case2 subtotal index sub h h' =>
    exact ⟨hstep hsub hi hf, hf, fun hlt => absurd hlt (Nat.lt_irrefl _), Or.inr (by omega)⟩
  | case3 subtotal index sub h h' ih =>
    have hs := hstep hsub hi hf
    obtain ⟨h1, h2, h3, h4⟩ := ih hs (by omega) (by omega)
    refine ⟨h1, h2, fun hlt => ?_, h4⟩
    by_cases hnext : index + 1 < (findPlace s num finish sub (index + 1)).2
    · exact h3 hnext
    · obtain ⟨hle, -⟩ := findPlace_bounds s num finish sub (index + 1)
      have heq : (findPlace s num finish sub (index + 1)).2 = index + 1 := by omega
      rw [UInt32.le_iff_toNat_le, hhalf] at h
      rw [heq, ← hs]
      exact Nat.lt_of_not_le h

/-- a call with at least two symbols: it stores a length for each of them, in their order, and the
lengths are those of a division into two again and again -/
theorem calcLengths_spec (n : ℕ) : ∀ (num : UInt32) (start finish : ℕ) (tlen : UInt8),
    finish - start ≤ n → start < finish →
    (∀ i, start ≤ i → i ≤ finish → 0 < (s.code (s.indicies i)).toNat) →
    s.count start (finish + 1) = num.toNat →
    Kraft.Room 255 tlen.toNat num.toNat (s.code (s.indicies finish)).toNat →
    (calcLengths s num start finish tlen).map Prod.fst
        = (List.range' start (finish + 1 - start)).map s.indicies ∧
      Kraft.Divided tlen.toNat
        ((calcLengths s num start finish tlen).map fun w => w.2.toNat) := by
  induction n with
  | zero =>
    intro num start finish tlen h1 h2
    omega
  | succ n ih =>
    intro num start finish tlen hn hlt hpos hnum hroom
    have hfit : s.count start (finish + 1) < 2 ^ 32 := hnum ▸ num.toNat_lt
    have hempty : s.count start start = 0 := by rw [Symbols.count, Finset.Ico_self, Finset.sum_empty]
    obtain ⟨h1, h2, h3, h4⟩ := findPlace_spec num hfit
      (show (0 : UInt32).toNat = _ from hempty.symm) (le_refl start) hlt
    obtain ⟨hle, -⟩ := findPlace_bounds s num finish 0 start
    rw [calcLengths]
    generalize findPlace s num finish 0 start = place at h1 h2 h3 h4 hle
    obtain ⟨subtotal, index⟩ := place
    dsimp only at h1 h2 h3 h4 hle ⊢
    -- what the parts count
    have hlast := count_succ (s := s) hlt.le
    have hplace := count_succ (s := s) hle
    have hsplit := count_split (s := s) (show start ≤ index + 1 by omega)
      (show index + 1 ≤ finish + 1 by omega)
    have hright := count_succ (s := s) (show index + 1 ≤ finish by omega)
    have hp0 := hpos start (le_refl _) hlt.le
    have hp1 := hpos index hle (by omega)
    have hp2 := hpos finish hlt.le (le_refl _)
    have hnext : (tlen + 1).toNat = tlen.toNat + 1 := by
      have := hroom.lt (by omega)
      rw [UInt8.toNat_add, show (1 : UInt8).toNat = 1 from rfl]
      exact Nat.mod_eq_of_lt (by omega)
    have hleft : ((if index = start then [(s.indicies index, tlen + 1)]
          else calcLengths s subtotal start index (tlen + 1)).map Prod.fst
            = (List.range' start (index + 1 - start)).map s.indicies) ∧
        Kraft.Divided (tlen.toNat + 1) ((if index = start then [(s.indicies index, tlen + 1)]
          else calcLengths s subtotal start index (tlen + 1)).map fun w => w.2.toNat) := by
      by_cases hi : index = start
      · rw [if_pos hi, hi, Nat.add_sub_cancel_left, ← hnext]
        exact ⟨rfl, Kraft.Divided.single _⟩
      · rw [if_neg hi, ← hnext]
        refine ih _ _ _ _ (by omega) (by omega) (fun i hi1 hi2 => hpos i hi1 (by omega)) h1.symm ?_
        rw [hnext, h1, hplace]
        exact hroom.left (h3 (by omega)) (by omega)
    have hrest : ((if finish ≤ index + 1 then [(s.indicies finish, tlen + 1)]
          else calcLengths s (num - subtotal) (index + 1) finish (tlen + 1)).map Prod.fst
            = (List.range' (index + 1) (finish - index)).map s.indicies) ∧
        Kraft.Divided (tlen.toNat + 1) ((if finish ≤ index + 1 then [(s.indicies finish, tlen + 1)]
          else calcLengths s (num - subtotal) (index + 1) finish (tlen + 1)).map
            fun w => w.2.toNat) := by
      by_cases hi : finish ≤ index + 1
      · obtain rfl : finish = index + 1 := by omega
        rw [if_pos hi, Nat.add_sub_cancel_left, ← hnext]
        exact ⟨rfl, Kraft.Divided.single _⟩
      · rw [if_neg hi, ← hnext]
        have hsub : (num - subtotal).toNat = num.toNat - subtotal.toNat :=
          UInt32.toNat_sub_of_le _ _ (UInt32.le_iff_toNat_le.mpr (by omega))
        have hp3 := hpos (index + 1) (by omega) (by omega)
        have hmid : (s.code (s.indicies (index + 1))).toNat ≤ s.count (index + 1) finish :=
          Finset.single_le_sum (f := fun i => (s.code (s.indicies i)).toNat)
            (fun i _ => Nat.zero_le _) (Finset.mem_Ico.mpr ⟨le_refl _, by omega⟩)
        have e : finish + 1 - (index + 1) = finish - index := by omega
        rw [← e]
        refine ih _ _ _ _ (by omega) (by omega) (fun i hi1 hi2 => hpos i (by omega) hi2) (by omega) ?_
        rw [hnext, hsub]
        exact hroom.right hp2 (h4.resolve_right (by omega)) (by omega)
    refine ⟨?_, ?_⟩
    · rw [List.map_append, hleft.1, hrest.1, ← List.map_append]
      have e : index + 1 = start + (index + 1 - start) := by omega
      rw [show List.range' (index + 1) (finish - index)
        = List.range' (start + (index + 1 - start)) (finish - index) by rw [← e],
        List.range'_append_1]
      congr 2
      omega
    · rw [List.map_append]
      exact hleft.2.parts hrest.2

/-! ## `len` -/

/-- a place that no store hits keeps its value -/
theorem stored_of_not_mem {writes : List (ℕ × UInt8)} : ∀ {len : ℕ → UInt8} {c : ℕ},
    c ∉ writes.map Prod.fst → stored len writes c = len c := by
  induction writes with
  | nil =>
    intro len c _
    rfl
  | cons w writes ih =>
    intro len c h
    rw [List.map_cons, List.mem_cons, not_or] at h
    show stored (Function.update len w.1 w.2) writes c = len c
    rw [ih h.2, Function.update_of_ne h.1]

/-- where no place is hit twice, every store stays -/
theorem stored_of_mem {writes : List (ℕ × UInt8)} : ∀ (len : ℕ → UInt8),
    (writes.map Prod.fst).Nodup → ∀ w ∈ writes, stored len writes w.1 = w.2 := by
  induction writes with
  | nil => exact fun _ _ _ hw => absurd hw List.not_mem_nil
  | cons w writes ih =>
    intro len hd w' hw'
    rw [List.map_cons, List.nodup_cons] at hd
    show stored (Function.update len w.1 w.2) writes w'.1 = w'.2
    obtain rfl | hw' := List.mem_cons.mp hw'
    · rw [stored_of_not_mem hd.1, Function.update_self]
    · exact ih _ hd.2 w' hw'

/-- the call for the whole list -/
theorem calcLengths_whole {num : ℕ} (hnum : 2 ≤ num)
    (hpos : ∀ i < num, 0 < s.code (s.indicies i)) (hfit : s.count 0 num < 2 ^ 32) :
    (calcLengths s (UInt32.ofNat (s.count 0 num)) 0 (num - 1) 0).map Prod.fst
        = (List.range num).map s.indicies ∧
      Kraft.Divided 0 ((calcLengths s (UInt32.ofNat (s.count 0 num)) 0 (num - 1) 0).map
        fun w => w.2.toNat) := by
  have hn : num - 1 + 1 = num := by omega
  have htotal : (UInt32.ofNat (s.count 0 num)).toNat = s.count 0 num := by
    rw [UInt32.toNat_ofNat', Nat.mod_eq_of_lt hfit]
  have h := calcLengths_spec (num - 1) (UInt32.ofNat (s.count 0 num)) 0 (num - 1) 0 (le_refl _)
    (by omega)
    (fun i _ hi => UInt32.lt_iff_toNat_lt.mp (hpos i (by omega))) (by rw [hn, htotal])
    ⟨32, Or.inl ⟨by rw [htotal]; omega, by decide⟩⟩
  rw [hn, Nat.sub_zero, ← List.range_eq_range'] at h
  exact h

/-- each symbol of the list gets exactly one length, which is at least 1, and the powers of one half
to them sum to 1 -/
theorem calcLengths_kraft {num : ℕ} (hnum : 2 ≤ num)
    (hdiff : ∀ i < num, ∀ j < num, s.indicies i = s.indicies j → i = j)
    (hpos : ∀ i < num, 0 < s.code (s.indicies i)) (hfit : s.count 0 num < 2 ^ 32)
    (len : ℕ → UInt8) :
    let writes := calcLengths s (UInt32.ofNat (s.count 0 num)) 0 (num - 1) 0
    writes.map Prod.fst = (List.range num).map s.indicies ∧
      (∀ i < num, 1 ≤ stored len writes (s.indicies i)) ∧
      ∑ i ∈ Finset.range num, (1 / 2 : ℚ) ^ (stored len writes (s.indicies i)).toNat = 1 := by
  intro writes
  obtain ⟨hfst, hdiv⟩ := calcLengths_whole hnum hpos hfit
  have hnodup : (writes.map Prod.fst).Nodup := by
    rw [hfst]
    exact List.Nodup.map_on (fun i hi j hj => hdiff i (List.mem_range.mp hi) j (List.mem_range.mp hj))
      List.nodup_range
  have hstored := stored_of_mem len hnodup
  refine ⟨hfst, fun i hi => ?_, ?_⟩
  · have hmem : s.indicies i ∈ writes.map Prod.fst := by
      rw [hfst]
      exact List.mem_map_of_mem (List.mem_range.mpr hi)
    obtain ⟨w, hw, he⟩ := List.mem_map.mp hmem
    have hlen : 2 ≤ (writes.map fun w => w.2.toNat).length := by
      have := congrArg List.length hfst
      rw [List.length_map, List.length_map, List.length_range] at this
      rw [List.length_map, this]
      exact hnum
    rw [← he, hstored w hw]
    exact UInt8.le_iff_toNat_le.mpr (hdiv.lt hlen _ (List.mem_map_of_mem hw))
  · calc ∑ i ∈ Finset.range num, (1 / 2 : ℚ) ^ (stored len writes (s.indicies i)).toNat
        = (((List.range num).map s.indicies).map
            fun c => (1 / 2 : ℚ) ^ (stored len writes c).toNat).sum := by
          rw [List.map_map]
          rfl
      _ = (writes.map fun w => (1 / 2 : ℚ) ^ w.2.toNat).sum := by
          rw [← hfst, List.map_map]
          congr 1
          refine List.map_congr_left fun w hw => ?_
          show (1 / 2 : ℚ) ^ (stored len writes w.1).toNat = _
          rw [hstored w hw]
      _ = Kraft.weight (writes.map fun w => w.2.toNat) := by
          rw [Kraft.weight, List.map_map]
          rfl
      _ = 1 := by rw [hdiv.weight_eq, pow_zero]

end

/-- three symbols of the counts 5, 1 and 1 -/
theorem calcLengths_kraft_three : ∑ i ∈ Finset.range 3, (1 / 2 : ℚ) ^ (stored (fun _ => 0)
    (calcLengths ⟨fun c => if c = 65 then 5 else 1, fun i => 65 + i⟩ 7 0 2 0) (65 + i)).toNat = 1 := by
  have hcount : Symbols.count ⟨fun c => if c = 65 then 5 else 1, fun i => 65 + i⟩ 0 3 = 7 := by
    decide
  have h := (calcLengths_kraft (s := ⟨fun c => if c = 65 then 5 else 1, fun i => 65 + i⟩)
    (show 2 ≤ 3 by omega) (fun i _ j _ h => Nat.add_left_cancel h) (fun i hi => by
      dsimp only
      split <;> decide) (by rw [hcount]; decide) fun _ => 0).2.2
  rw [hcount] at h
  exact h

/-! ## what the first pass promises -/

/-- the counts stay within 16 bits -/
theorem writeTmpByte_le {code : ℕ → UInt32} (h : ∀ c, (code c).toNat ≤ 0xFFFF) {c : ℕ}
    (hc : c < numChars) (c' : ℕ) : (writeTmpByte code c c').toNat ≤ 0xFFFF := by
  have key : ∀ code : ℕ → UInt32, (∀ c, (code c).toNat ≤ 0xFFFF) → (code c).toNat < 0xFFFF →
      (Function.update code c (code c + 1) c').toNat ≤ 0xFFFF := by
    intro code h hlt
    by_cases he : c' = c
    · rw [he, Function.update_self, UInt32.toNat_add, show (1 : UInt32).toNat = 1 from rfl]
      exact (Nat.mod_le _ _).trans hlt
    · rw [Function.update_of_ne he]
      exact h c'
  rw [writeTmpByte]
  by_cases hmax : code c = 0xFFFF
  · rw [if_pos hmax]
    have half : ∀ i, ((code i + 1) / 2).toNat ≤ 0x8000 := by
      intro i
      have hi := h i
      rw [UInt32.toNat_div, UInt32.toNat_add, show (1 : UInt32).toNat = 1 from rfl,
        show (2 : UInt32).toNat = 2 from rfl]
      omega
    refine key _ (fun i => ?_) ?_
    · by_cases hi : i < numChars
      · rw [if_pos hi]
        exact (half i).trans (by decide)
      · rw [if_neg hi]
        exact h i
    · rw [if_pos hc]
      exact (half c).trans_lt (by decide)
  · rw [if_neg hmax]
    have hne : (code c).toNat ≠ 0xFFFF := fun e => hmax (UInt32.toNat.inj e)
    exact key code h (by have := h c; omega)

/-- the counts after the first pass -/
def counts (bytes : List ℕ) : ℕ → UInt32 := bytes.foldl writeTmpByte fun _ => 0

theorem counts_le {bytes : List ℕ} (h : ∀ c ∈ bytes, c < numChars) (c : ℕ) :
    (counts bytes c).toNat ≤ 0xFFFF := by
  have key : ∀ (l : List ℕ) (code : ℕ → UInt32), (∀ c ∈ l, c < numChars) →
      (∀ c, (code c).toNat ≤ 0xFFFF) → ∀ c, (l.foldl writeTmpByte code c).toNat ≤ 0xFFFF := by
    intro l
    induction l with
    | nil => exact fun _ _ h => h
    | cons b l ih =>
      intro code hl hcode
      exact ih _ (fun c hc => hl c (List.mem_cons_of_mem b hc))
        (writeTmpByte_le hcode (hl b List.mem_cons_self))
  exact key bytes _ h (fun _ => Nat.zero_le _) c

/-- the list holds the symbols that occur, and the total is the sum of their counts -/
theorem collect_eq (code : ℕ → UInt32) :
    (collect code).2 = (List.range numChars).filter (fun c => code c ≠ 0) ∧
      (collect code).1 = UInt32.ofNat ((collect code).2.map fun c => (code c).toNat).sum := by
  have key : ∀ (l : List ℕ) (r : UInt32 × List ℕ),
      r.1 = UInt32.ofNat (r.2.map fun c => (code c).toNat).sum →
      let r' := l.foldl (fun r index =>
        if code index ≠ 0 then (r.1 + code index, r.2 ++ [index]) else r) r
      r'.2 = r.2 ++ l.filter (fun c => code c ≠ 0) ∧
        r'.1 = UInt32.ofNat (r'.2.map fun c => (code c).toNat).sum := by
    intro l
    induction l with
    | nil => exact fun r h => ⟨(List.append_nil _).symm, h⟩
    | cons c l ih =>
      intro r h
      rw [List.foldl_cons, List.filter_cons]
      by_cases h0 : code c ≠ 0
      · rw [if_pos h0, if_pos (decide_eq_true h0)]
        obtain ⟨h1, h2⟩ := ih (r.1 + code c, r.2 ++ [c]) (by
          rw [List.map_append, List.sum_append, UInt32.ofNat_add, ← h]
          simp)
        exact ⟨h1.trans (List.append_assoc _ _ _), h2⟩
      · rw [if_neg h0, if_neg (by simpa using h0)]
        exact ih r h
  exact key (List.range numChars) (0, []) rfl

/-- the list that `DoEncode` hands over names no symbol twice, each with a positive count, and its
total fits -/
theorem collect_promised {bytes : List ℕ} (hb : ∀ c ∈ bytes, c < numChars) :
    let list := (collect (counts bytes)).2
    let s : Symbols := ⟨counts bytes, fun i => list.getD i 0⟩
    (∀ i < list.length, ∀ j < list.length, s.indicies i = s.indicies j → i = j) ∧
      (∀ i < list.length, 0 < s.code (s.indicies i)) ∧ s.count 0 list.length < 2 ^ 32 ∧
      (collect (counts bytes)).1 = UInt32.ofNat (s.count 0 list.length) := by
  intro list s
  obtain ⟨h1, h2⟩ := collect_eq (counts bytes)
  have hget : ∀ i (hi : i < list.length), s.indicies i = list[i] :=
    fun i hi => List.getD_eq_getElem _ _ hi
  have hnodup : list.Nodup := by
    show (collect (counts bytes)).2.Nodup
    rw [h1]
    exact List.nodup_range.filter _
  have hlen : list.length ≤ numChars := by
    show (collect (counts bytes)).2.length ≤ numChars
    rw [h1]
    exact (List.length_filter_le _ _).trans (Nat.le_of_eq List.length_range)
  have hcount : s.count 0 list.length = (list.map fun c => (counts bytes c).toNat).sum := by
    have hlist : (List.range list.length).map s.indicies = list := by
      refine List.ext_getElem (by rw [List.length_map, List.length_range]) fun i _ hi => ?_
      rw [List.getElem_map, List.getElem_range]
      exact hget i hi
    calc s.count 0 list.length
        = (((List.range list.length).map s.indicies).map fun c => (counts bytes c).toNat).sum := by
          rw [Symbols.count, ← Finset.range_eq_Ico, List.map_map]
          rfl
      _ = (list.map fun c => (counts bytes c).toNat).sum := by rw [hlist]
  refine ⟨fun i hi j hj he => ?_, fun i hi => ?_, ?_, ?_⟩
  · rw [hget i hi, hget j hj] at he
    exact (hnodup.getElem_inj_iff).mp he
  · have hmem : s.indicies i ∈ list := by
      rw [hget i hi]
      exact List.getElem_mem hi
    have hne : counts bytes (s.indicies i) ≠ 0 := by
      rw [show list = _ from h1] at hmem
      exact of_decide_eq_true (List.mem_filter.mp hmem).2
    exact UInt32.pos_iff_ne_zero.mpr hne
  · have hle : s.count 0 list.length ≤ (list.length - 0) * 0xFFFF := by
      rw [Symbols.count, ← Nat.card_Ico, ← smul_eq_mul]
      exact Finset.sum_le_card_nsmul _ _ _ fun i _ => counts_le hb _
    have : (list.length - 0) * 0xFFFF ≤ 314 * 0xFFFF := Nat.mul_le_mul_right _ hlen
    omega
  · rw [hcount]
    exact h2

end Wpack
