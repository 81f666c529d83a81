import OpenWatcom.Yacc.FastDecode

/-!
# The fast tables are the automaton

* `validBit_eq`, `rawAction_eq`, `gotoEntry_eq`   the rows of a state, read in the finished tables;
* `NothingLost`   a row that comes later leaves the entries of the rows before it alone;
* `genobjFast_iff`   the driver reads the automaton back exactly when it is `FastFits`.
-/

namespace Yacc

open BitRows Overlap

/-! ## lists of rows -/

section
variable {α β : Type} {f : α → Option β}

theorem mapM_spec {l : List α} {l' : List β} (h : l.mapM f = some l') :
    l'.length = l.length ∧ ∀ (i : Nat) x, l[i]? = some x → ∃ y, f x = some y ∧ l'[i]? = some y := by
  induction l generalizing l' with
  | nil =>
    obtain rfl := Option.some.inj h
    exact ⟨rfl, fun i x hx => absurd hx (by simp)⟩
  | cons a l ih =>
    rw [List.mapM_cons] at h
    obtain ⟨y, hy, h⟩ := Option.bind_eq_some_iff.mp h
    obtain ⟨ys, hys, h⟩ := Option.bind_eq_some_iff.mp h
    obtain rfl := Option.some.inj h
    obtain ⟨hl, hi⟩ := ih hys
    refine ⟨congrArg (· + 1) hl, fun i x hx => ?_⟩
    cases i with
    | zero =>
      obtain rfl := Option.some.inj hx
      exact ⟨y, hy, rfl⟩
    | succ i => exact hi i x hx

theorem mapM_some {l : List α} (h : ∀ x ∈ l, ∃ y, f x = some y) : ∃ l', l.mapM f = some l' := by
  induction l with
  | nil => exact ⟨[], rfl⟩
  | cons a l ih =>
    obtain ⟨y, hy⟩ := h a List.mem_cons_self
    obtain ⟨ys, hys⟩ := ih fun x hx => h x (List.mem_cons_of_mem a hx)
    exact ⟨y :: ys, by rw [List.mapM_cons, hy, hys]; rfl⟩

end

/-! ## tokens -/

theorem foldl_max (token : Nat → Nat) (n : Nat) :
    let m := (List.range n).foldl (fun n sym => if n < token sym then token sym else n) 0
    (∀ sym < n, token sym ≤ m) ∧ (m = 0 ∨ ∃ sym < n, m = token sym) := by
  induction n with
  | zero => exact ⟨fun sym h => absurd h (Nat.not_lt_zero _), Or.inl rfl⟩
  | succ n ih =>
    dsimp only at ih ⊢
    rw [List.range_succ, List.foldl_append]
    generalize (List.range n).foldl (fun n sym => if n < token sym then token sym else n) 0 = m at ih
    obtain ⟨hle, hm⟩ := ih
    show (∀ sym < n + 1, token sym ≤ if m < token n then token n else m) ∧ _
    by_cases hlt : m < token n
    · simp only [List.foldl_cons, List.foldl_nil, if_pos hlt]
      refine ⟨fun sym hs => ?_, Or.inr ⟨n, by omega, rfl⟩⟩
      rcases Nat.lt_succ_iff_lt_or_eq.mp hs with hs | rfl
      · exact le_trans (hle sym hs) hlt.le
      · exact le_refl _
    · simp only [List.foldl_cons, List.foldl_nil, if_neg hlt]
      refine ⟨fun sym hs => ?_, hm.imp id fun ⟨s, hs, e⟩ => ⟨s, by omega, e⟩⟩
      rcases Nat.lt_succ_iff_lt_or_eq.mp hs with hs | rfl
      · exact hle sym hs
      · omega

namespace Automaton
variable (A : Automaton)

theorem token_lt_first (h : ∀ sym < A.nterm, A.token sym < 2 ^ 16 - 1) {sym : Nat} (hs : sym < A.nterm) :
    A.token sym < A.firstNonTerminalTokenValue := by
  obtain ⟨hle, hm⟩ := foldl_max A.token A.nterm
  rw [firstNonTerminalTokenValue, if_pos (by omega)]
  generalize (List.range A.nterm).foldl (fun n sym => if n < A.token sym then A.token sym else n) 0 = m
    at hle hm
  have hlt : m < 2 ^ 16 - 1 := by
    rcases hm with rfl | ⟨s, hs, rfl⟩
    · omega
    · exact h s hs
  have := hle sym hs
  omega

/-- the largest token of all leaves no token for the non-terminals: the count wraps to 0 -/
theorem first_zero {sym : Nat} (hs : sym < A.nterm) (ht : A.token sym = 2 ^ 16 - 1) :
    A.firstNonTerminalTokenValue = 0 := by
  obtain ⟨hle, hm⟩ := foldl_max A.token A.nterm
  rw [firstNonTerminalTokenValue, if_pos (by omega)]
  generalize (List.range A.nterm).foldl (fun n sym => if n < A.token sym then A.token sym else n) 0 = m
    at hle hm
  have hlt : m < 2 ^ 16 := by
    rcases hm with rfl | ⟨s, hs, rfl⟩
    · omega
    · exact A.token_lt s
  have := hle sym hs
  omega

theorem symToken_term {sym : Nat} (h : sym < A.nterm) : A.symToken sym = A.token sym := if_pos h

theorem symToken_lt {sym : Nat} (h : ¬sym < A.nterm) (hs : sym < A.nsym) : A.symToken sym < A.ntokenAll := by
  rw [symToken, if_neg h, ntokenAll]
  have := Nat.mod_le (A.firstNonTerminalTokenValue + (sym - A.nterm)) (2 ^ 16)
  omega

theorem symToken_inj {s t : Nat} (hs : ¬s < A.nterm) (ht : ¬t < A.nterm) (hsn : s < A.nsym)
    (htn : t < A.nsym) (h : A.symToken s = A.symToken t) : s = t := by
  rw [symToken, symToken, if_neg hs, if_neg ht] at h
  have := A.nsym_lt
  omega

end Automaton

/-! ## bit rows -/

theorem bitRows_spec {n : Nat} {bv : List (BitVec 8)} {vs : List (List (BitVec 8))}
    (hbv : bv = [] ∨ n ≤ bv.length) (hvs : ∀ v ∈ vs, v.length = n) :
    bv <+: (bitRows bv vs).1 ∧ ∀ (k : Nat) v, vs[k]? = some v →
      ∃ b, (bitRows bv vs).2[k]? = some b ∧ At (bitRows bv vs).1 b v := by
  induction vs generalizing bv with
  | nil => exact ⟨List.prefix_refl bv, fun k v h => absurd h (by simp)⟩
  | cons v vs ih =>
    have hv := hvs v List.mem_cons_self
    obtain ⟨hpre, hat⟩ := insertRow_spec bv v (by rw [hv]; exact hbv)
    have hlen : n ≤ (insertRow bv v).1.length := by
      obtain ⟨l, r, e, -⟩ := hat
      rw [e, List.length_append, List.length_append, hv]
      omega
    obtain ⟨hpre', hrest⟩ := ih (Or.inr hlen) fun w hw => hvs w (List.mem_cons_of_mem v hw)
    refine ⟨hpre.trans hpre', fun k w hw => ?_⟩
    cases k with
    | zero =>
      obtain rfl := Option.some.inj hw
      obtain ⟨s, hs⟩ := hpre'
      refine ⟨(insertRow bv v).2, rfl, ?_⟩
      show At (bitRows (insertRow bv v).1 vs).1 _ v
      rw [← hs]
      exact hat.append s
    | succ k => exact hrest k w hw

/-- rows of no bytes make a vector of no bytes -/
theorem bitRows_nil {vs : List (List (BitVec 8))} (hvs : ∀ v ∈ vs, v = []) : (bitRows [] vs).1 = [] := by
  induction vs with
  | nil => rfl
  | cons v vs ih =>
    obtain rfl := hvs v List.mem_cons_self
    exact ih fun w hw => hvs w (List.mem_cons_of_mem _ hw)

/-! ## bases -/

theorem scatter_get {n : Nat} {mapping places : List Nat} (hl : mapping.length = places.length)
    (hn : mapping.Nodup) {k i : Nat} (hk : mapping[k]? = some i) (hi : i < n) :
    (scatter n mapping places)[i]? = some (places.getD k 0) := by
  have key : ∀ (l : List (Nat × Nat)) (base : List Nat), (l.map Prod.fst).Nodup → ∀ p ∈ l,
      p.1 < base.length → (l.foldl (fun base p => base.set p.1 p.2) base)[p.1]? = some p.2 := by
    intro l
    induction l with
    | nil => exact fun _ _ p hp => absurd hp List.not_mem_nil
    | cons d l ih =>
      intro base hnd p hp hlt
      rw [List.map_cons, List.nodup_cons] at hnd
      rcases List.mem_cons.mp hp with rfl | hp
      · have hkeep : ∀ (l : List (Nat × Nat)) (base : List Nat), p.1 ∉ l.map Prod.fst →
            (l.foldl (fun base p => base.set p.1 p.2) base)[p.1]? = base[p.1]? := by
          intro l
          induction l with
          | nil => exact fun _ _ => rfl
          | cons e l ih =>
            intro base hne
            rw [List.map_cons, List.mem_cons, not_or] at hne
            rw [List.foldl_cons, ih _ hne.2, List.getElem?_set_ne (Ne.symm hne.1)]
        rw [List.foldl_cons, hkeep l _ hnd.1, List.getElem?_set_self hlt]
      · exact ih _ hnd.2 p hp (by rw [List.length_set]; exact hlt)
  have hkl : k < mapping.length := (List.getElem?_eq_some_iff.mp hk).1
  have hp : places[k]? = some (places.getD k 0) := by
    rw [List.getD_eq_getElem?_getD, List.getElem?_eq_getElem (hl ▸ hkl)]
    rfl
  have hmem : (i, places.getD k 0) ∈ mapping.zip places := by
    refine List.mem_of_getElem? (i := k) ?_
    rw [List.getElem?_zip_eq_some]
    exact ⟨hk, hp⟩
  refine key _ _ ?_ _ hmem (by rw [List.length_replicate]; exact hi)
  rw [List.map_fst_zip (le_of_eq hl)]
  exact hn

theorem order_index (rows : List (List ActionN)) :
    ((orderActionVectors rows).map AvInfo.index).Nodup ∧
      (orderActionVectors rows).length = rows.length := by
  have hp := List.mergeSort_perm (rows.zipIdx.map avInfo) cmpAction
  have e : (rows.zipIdx.map avInfo).map AvInfo.index = rows.zipIdx.map Prod.snd := by
    rw [List.map_map]
    rfl
  refine ⟨(hp.map AvInfo.index).nodup_iff.mpr ?_, ?_⟩
  · rw [e, List.zipIdx_map_snd]
    exact List.nodup_range'
  · rw [orderActionVectors, hp.length_eq, List.length_map, List.length_zipIdx]

theorem order_mem {rows : List (List ActionN)} {i : Nat} {row : List ActionN} (h : rows[i]? = some row) :
    ∃ k : Nat, (orderActionVectors rows)[k]? = some (avInfo (row, i)) := by
  have hm : avInfo (row, i) ∈ orderActionVectors rows :=
    (List.mergeSort_perm _ _).mem_iff.mpr
      (List.mem_map.mpr ⟨(row, i), List.mk_mem_zipIdx_iff_getElem?.mpr h, rfl⟩)
  obtain ⟨k, hk, e⟩ := List.mem_iff_getElem.mp hm
  exact ⟨k, by rw [List.getElem?_eq_getElem hk, e]⟩

theorem rowsOf_entries {rows : List (List ActionN)} {n : Nat} (h : ∀ row ∈ rows, row.length = n) :
    ∀ r ∈ rowsOf (orderActionVectors rows) n, Entries actionNone r.1 r.2 := by
  intro r hr
  obtain ⟨p, hp, rfl⟩ := List.mem_map.mp hr
  have hp := (List.mergeSort_perm _ _).mem_iff.mp hp
  obtain ⟨⟨row, i⟩, hri, rfl⟩ := List.mem_map.mp hp
  have hrow := List.mem_of_getElem? (List.mk_mem_zipIdx_iff_getElem?.mp hri)
  rw [← h row hrow]
  exact actcompress_entries row

/-- rows of one length, ordered and inserted: each entry is found at the base of its row, also after
more rows -/
theorem inserted {rows : List (List ActionN)} {n : Nat} (h : ∀ row ∈ rows, row.length = n)
    (bv : List ActionN) {more : List (List (ActionN × Nat) × Nat)}
    (hmore : ∀ r ∈ more, Entries actionNone r.1 r.2) {i t : Nat} {row : List ActionN}
    (hrow : rows[i]? = some row) {a : ActionN} (ha : row[t]? = some a) (hne : a ≠ actionNone) :
    let order := orderActionVectors rows
    let v := insertAll actionNone bv (rowsOf order n)
    ∃ b, (scatter rows.length (order.map AvInfo.index) v.2)[i]? = some b ∧
      (insertAll actionNone v.1 more).1[t + b]? = some a := by
  intro order v
  obtain ⟨k, hk⟩ := order_mem hrow
  obtain ⟨hnd, hlen⟩ := order_index rows
  have hi : i < rows.length := (List.getElem?_eq_some_iff.mp hrow).1
  have hb : (scatter rows.length (order.map AvInfo.index) v.2)[i]? = some (v.2.getD k 0) := by
    refine scatter_get ?_ hnd ?_ hi
    · rw [List.length_map, insertAll_places, rowsOf, List.length_map]
    · rw [List.getElem?_map, hk]
      rfl
  have hr : (rowsOf order n)[k]? = some (actcompress row, n) := by
    rw [rowsOf, List.getElem?_map, hk]
    rfl
  have he : v.1.getD (v.2.getD k 0 + t) actionNone = a :=
    insertAll_entry actionNone (rowsOf_entries h) hr (mem_actcompress.mpr ⟨ha, hne⟩)
  have hk' : (insertAll actionNone v.1 more).1.getD (v.2.getD k 0 + t) actionNone = a := by
    rw [insertAll_keeps actionNone hmore (by rw [he]; exact hne), he]
  refine ⟨_, hb, ?_⟩
  rw [Nat.add_comm]
  rw [List.getD_eq_getElem?_getD] at hk'
  cases hg : (insertAll actionNone v.1 more).1[v.2.getD k 0 + t]? with
  | none =>
    rw [hg] at hk'
    exact absurd hk'.symm hne
  | some x =>
    rw [hg] at hk'
    exact congrArg some hk'

/-! ## the tables of an automaton -/

section
variable {A : Automaton} {T : FastTables}

/-- what the tables are made of -/
structure Rows (A : Automaton) (vectors : List (List (BitVec 8))) (actions gotos : List (List ActionN)) :
    Prop where
  vectors : A.states.mapM A.stateVector = some vectors
  actions : A.states.mapM A.stateActions = some actions
  gotos : A.states.mapM A.stateGotos = some gotos

def actionRows (A : Automaton) (actions : List (List ActionN)) : List (List (ActionN × Nat) × Nat) :=
  rowsOf (orderActionVectors actions) A.firstNonTerminalTokenValue

def gotoRows (A : Automaton) (gotos : List (List ActionN)) : List (List (ActionN × Nat) × Nat) :=
  rowsOf (orderActionVectors gotos) A.ntokenAll

theorem genobjFast_cases (h : genobjFast A = some T) : ∃ vectors actions gotos, Rows A vectors actions gotos ∧
    T.bitbase = (bitRows [] vectors).2 ∧ T.bitcheck = (bitRows [] vectors).1 ∧
    T.actionbase = scatter A.states.length ((orderActionVectors actions).map AvInfo.index)
      (insertAll actionNone [] (actionRows A actions)).2 ∧
    T.gotobase = scatter A.states.length ((orderActionVectors gotos).map AvInfo.index)
      (insertAll actionNone (insertAll actionNone [] (actionRows A actions)).1 (gotoRows A gotos)).2 ∧
    T.actiontab
      = (insertAll actionNone (insertAll actionNone [] (actionRows A actions)).1 (gotoRows A gotos)).1 := by
  obtain ⟨vectors, hv, h⟩ := Option.bind_eq_some_iff.mp h
  obtain ⟨actions, ha, h⟩ := Option.bind_eq_some_iff.mp h
  obtain ⟨gotos, hg, h⟩ := Option.bind_eq_some_iff.mp h
  obtain rfl := Option.some.inj h
  exact ⟨vectors, actions, gotos, ⟨hv, ha, hg⟩, rfl, rfl, rfl, rfl, rfl⟩

theorem Rows.lengths {vectors : List (List (BitVec 8))} {actions gotos : List (List ActionN)}
    (h : Rows A vectors actions gotos) : (∀ v ∈ vectors, v.length = A.vsize) ∧
      (∀ row ∈ actions, row.length = A.firstNonTerminalTokenValue) ∧
      ∀ row ∈ gotos, row.length = A.ntokenAll := by
  have key : ∀ {β : Type} {f : State → Option (List β)} {rows : List (List β)} {n : Nat},
      A.states.mapM f = some rows → (∀ q row, f q = some row → row.length = n) →
      ∀ row ∈ rows, row.length = n := by
    intro β f rows n hm hf row hrow
    obtain ⟨hl, hi⟩ := mapM_spec hm
    obtain ⟨i, hlt, rfl⟩ := List.mem_iff_getElem.mp hrow
    obtain ⟨y, hy, hyi⟩ := hi i _ (List.getElem?_eq_getElem (hl ▸ hlt))
    rw [List.getElem?_eq_getElem hlt] at hyi
    rw [Option.some.inj hyi]
    exact hf _ _ hy
  exact ⟨key h.vectors fun q row e => (setBits_length e).trans List.length_replicate,
    key h.actions fun q row e => (setEntries_length e).trans List.length_replicate,
    key h.gotos fun q row e => (setEntries_length e).trans List.length_replicate⟩

variable {i : Nat} {q : State}

theorem validBit_eq (h : genobjFast A = some T) (hq : A.states[i]? = some q) {t : Nat}
    (ht : t < A.firstNonTerminalTokenValue) :
    T.validBit i t = some (decide (t ∈ A.explicitTokens q)) := by
  obtain ⟨vectors, actions, gotos, hrows, hbase, hcheck, -⟩ := genobjFast_cases h
  have hlen := hrows.lengths.1
  obtain ⟨v, hv, hvi⟩ := (mapM_spec hrows.vectors).2 i q hq
  obtain ⟨b, hb, l, r, e, hl⟩ := (bitRows_spec (Or.inl rfl) hlen).2 i v hvi
  have hvl : t / 8 < A.vsize := by
    rw [Automaton.vsize]
    omega
  rw [FastTables.validBit, hbase, hcheck, hb]
  show bitAt (bitRows [] vectors).1 b t = _
  rw [e, ← hl, bitAt_at (by rw [hlen v (List.mem_of_getElem? hvi)]; exact hvl),
    bitAt_setBits hv (bitAt_zeros hvl), Bool.false_or]

theorem rawAction_eq (h : genobjFast A = some T) (hq : A.states[i]? = some q) {sym : Nat} {a : Action}
    (ha : (sym, a) ∈ A.explicits q) : ∃ s b, (s, b) ∈ A.explicits q ∧ A.token s = A.token sym ∧
      T.rawAction i (A.token sym) = some (encodeAction b) := by
  obtain ⟨vectors, actions, gotos, hrows, -, -, hbase, -, htab⟩ := genobjFast_cases h
  obtain ⟨-, hlen, hglen⟩ := hrows.lengths
  have hmem := List.mem_of_getElem? hq
  obtain ⟨hl, hi⟩ := mapM_spec hrows.actions
  obtain ⟨row, hrow, hri⟩ := hi i q hq
  have hx : (A.symToken sym, encodeAction a)
      ∈ (A.explicits q).map fun e => (A.symToken e.1, encodeAction e.2) :=
    List.mem_map.mpr ⟨_, ha, rfl⟩
  obtain ⟨f, hf, hft, hv⟩ := setEntries_entry hrow _ hx
  obtain ⟨⟨s, b⟩, hs, rfl⟩ := List.mem_map.mp hf
  have htok : ∀ {s b}, (s, b) ∈ A.explicits q → A.symToken s = A.token s :=
    fun h => A.symToken_term (Automaton.explicits_term hmem h)
  have hv : row[A.token sym]? = some (encodeAction b) := by rw [← htok ha]; exact hv
  have hne : encodeAction b ≠ actionNone := by
    obtain ⟨t, ht, -, -, rfl⟩ | ⟨r, hr, -, rfl⟩ := Automaton.explicits_cases hmem hs
    · refine encodeAction_ne ?_ fun e => ?_
      · exact lt_trans (A.state_lt q hmem t ht) A.nstate_lt
      · injection e with e
        exact A.state_ne q hmem t ht e
    · exact encodeAction_ne (lt_trans (A.pro_lt q hmem r hr) A.npro_lt) fun e => by cases e
  obtain ⟨base, hb, hval⟩ := inserted hlen [] (rowsOf_entries hglen) hri hv hne
  refine ⟨s, b, hs, (htok hs).symm.trans (hft.trans (htok ha)), ?_⟩
  rw [FastTables.rawAction, hbase, htab, ← hl]
  show ((scatter actions.length _ _)[i]?).bind _ = _
  rw [actionRows, hb]
  exact hval

theorem gotoEntry_eq (h : genobjFast A = some T) (hq : A.states[i]? = some q) {sym target : Nat}
    (hg : A.goto q sym = some target) :
    (T.gotoEntry i (A.symToken sym)).map BitVec.toNat = some target := by
  obtain ⟨vectors, actions, gotos, hrows, -, -, -, hbase, htab⟩ := genobjFast_cases h
  obtain ⟨-, -, hlen⟩ := hrows.lengths
  have hmem := List.mem_of_getElem? hq
  have hg := (Automaton.goto_eq_some hmem).mp hg
  have hvar : ∀ {s n}, (s, n) ∈ A.gotos q → ¬s < A.nterm ∧ s < A.nsym ∧ n < 2 ^ 16 ∧ n ≠ 0 := by
    intro s n hs
    obtain ⟨x, hx, e⟩ := List.mem_map.mp hs
    obtain ⟨hx, hn⟩ := List.mem_filter.mp hx
    obtain ⟨rfl, rfl⟩ := Prod.mk.inj e
    exact ⟨of_decide_eq_true hn, A.sym_lt q hmem x hx, lt_trans (A.state_lt q hmem x hx) A.nstate_lt,
      A.state_ne q hmem x hx⟩
  obtain ⟨hl, hi⟩ := mapM_spec hrows.gotos
  obtain ⟨row, hrow, hri⟩ := hi i q hq
  have hx : (A.symToken sym, BitVec.ofNat 16 target)
      ∈ (A.gotos q).map fun e => (A.symToken e.1, BitVec.ofNat 16 e.2) :=
    List.mem_map.mpr ⟨_, hg, rfl⟩
  obtain ⟨f, hf, hft, hv⟩ := setEntries_entry hrow _ hx
  obtain ⟨⟨s, n⟩, hs, rfl⟩ := List.mem_map.mp hf
  -- tokens of non-terminals are distinct, so it is the same goto
  have hsym : s = sym := A.symToken_inj (hvar hs).1 (hvar hg).1 (hvar hs).2.1 (hvar hg).2.1 hft
  subst hsym
  obtain rfl := Automaton.gotos_det hmem hs hg
  have hn : (BitVec.ofNat 16 n).toNat = n := by
    rw [BitVec.toNat_ofNat]
    exact Nat.mod_eq_of_lt (hvar hg).2.2.1
  have hne : BitVec.ofNat 16 n ≠ actionNone := fun e => (hvar hg).2.2.2 (by rw [← hn, e]; rfl)
  obtain ⟨base, hb, hval⟩ := inserted hlen
    (insertAll actionNone [] (actionRows A actions)).1 (fun r hr => absurd hr List.not_mem_nil) hri hv hne
  rw [FastTables.gotoEntry, hbase, htab, ← hl]
  show Option.map _ (((scatter gotos.length _ _)[i]?).bind _) = _
  rw [gotoRows, hb]
  exact (congrArg (Option.map BitVec.toNat) hval).trans (congrArg some hn)

/-- rows can be built when no terminal has the largest token -/
theorem genobjFast_some (ht : ∀ sym < A.nterm, A.token sym < 2 ^ 16 - 1) : ∃ T, genobjFast A = some T := by
  have hterm : ∀ q ∈ A.states, ∀ e ∈ A.explicits q, A.symToken e.1 < A.firstNonTerminalTokenValue := by
    intro q hq e he
    have hs := Automaton.explicits_term (a := e.2) hq he
    rw [A.symToken_term hs]
    exact A.token_lt_first ht hs
  obtain ⟨vectors, hv⟩ := mapM_some (l := A.states) (f := A.stateVector) fun q hq => by
    refine setBits_some fun t htok => ?_
    obtain ⟨e, he, rfl⟩ := List.mem_map.mp htok
    have := hterm q hq e he
    rw [List.length_replicate, Automaton.vsize]
    omega
  obtain ⟨actions, ha⟩ := mapM_some (l := A.states) (f := A.stateActions) fun q hq => by
    refine setEntries_some fun x hx => ?_
    obtain ⟨e, he, rfl⟩ := List.mem_map.mp hx
    rw [List.length_replicate]
    exact hterm q hq e he
  obtain ⟨gotos, hg⟩ := mapM_some (l := A.states) (f := A.stateGotos) fun q hq => by
    refine setEntries_some fun x hx => ?_
    obtain ⟨e, he, rfl⟩ := List.mem_map.mp hx
    obtain ⟨s, hs, rfl⟩ := List.mem_map.mp he
    obtain ⟨hs, hn⟩ := List.mem_filter.mp hs
    rw [List.length_replicate]
    exact A.symToken_lt (of_decide_eq_true hn) (A.sym_lt q hq s hs)
  rw [genobjFast, hv, ha, hg]
  exact ⟨_, rfl⟩

end

/-! ## the same parser -/

/-- what the driver reads is the automaton -/
structure SameParser (A : Automaton) (T : FastTables) : Prop where
  valid : ∀ (i : Nat) q, A.states[i]? = some q → ∀ sym < A.nterm,
    T.validBit i (A.token sym) = some (A.explicit q sym).isSome
  action : ∀ (i : Nat) q, A.states[i]? = some q → ∀ sym < A.nterm, ∀ a, A.explicit q sym = some a →
    (T.rawAction i (A.token sym)).map decodeAction = some a
  goto : ∀ (i : Nat) q, A.states[i]? = some q → ∀ sym target, A.goto q sym = some target →
    (T.gotoEntry i (A.symToken sym)).map BitVec.toNat = some target

/-- what is in the vectors after some of the rows is there at the end -/
def NothingLost (A : Automaton) (T : FastTables) : Prop :=
  ∀ vectors actions gotos, Rows A vectors actions gotos →
    (∀ l r, vectors = l ++ r → (bitRows [] l).1 <+: T.bitcheck) ∧
      ∀ l r, actionRows A actions ++ gotoRows A gotos = l ++ r → ∀ k,
        (insertAll actionNone [] l).1.getD k actionNone ≠ actionNone →
        T.actiontab.getD k actionNone = (insertAll actionNone [] l).1.getD k actionNone

/-- no terminal has token 65535, terminals of one token do the same, and the numbers of states to shift
to and of rules to reduce leave the flags of an entry free -/
def FastFits (A : Automaton) : Prop :=
  (∀ sym < A.nterm, A.token sym < 2 ^ 16 - 1) ∧
    ∀ q ∈ A.states,
      (∀ s < A.nterm, ∀ t < A.nterm, A.token s = A.token t → A.explicit q s = A.explicit q t) ∧
      ∀ e ∈ A.explicits q, e.2.Small

section
variable {A : Automaton} {T : FastTables}

theorem bitRows_append (bv : List (BitVec 8)) (l r : List (List (BitVec 8))) :
    (bitRows bv (l ++ r)).1 = (bitRows (bitRows bv l).1 r).1 := by
  induction l generalizing bv with
  | nil => rfl
  | cons v l ih => exact ih _

theorem bitRows_length {n : Nat} {bv : List (BitVec 8)} {vs : List (List (BitVec 8))}
    (hbv : bv = [] ∨ n ≤ bv.length) (hvs : ∀ v ∈ vs, v.length = n) :
    (bitRows bv vs).1 = [] ∨ n ≤ (bitRows bv vs).1.length := by
  rcases vs with _ | ⟨v, vs⟩
  · exact hbv
  · obtain ⟨b, -, l, r, e, -⟩ := (bitRows_spec hbv hvs).2 0 v rfl
    right
    rw [e, List.length_append, List.length_append, hvs v List.mem_cons_self]
    omega

theorem nothingLost (h : genobjFast A = some T) : NothingLost A T := by
  intro vectors actions gotos hrows
  obtain ⟨vectors', actions', gotos', hrows', -, hcheck, -, -, htab⟩ := genobjFast_cases h
  obtain rfl := Option.some.inj (hrows'.vectors.symm.trans hrows.vectors)
  obtain rfl := Option.some.inj (hrows'.actions.symm.trans hrows.actions)
  obtain rfl := Option.some.inj (hrows'.gotos.symm.trans hrows.gotos)
  obtain ⟨hv, ha, hg⟩ := hrows.lengths
  constructor
  · rintro l r rfl
    rw [hcheck, bitRows_append]
    have hl : ∀ v ∈ l, v.length = A.vsize := fun v h => hv v (List.mem_append_left r h)
    have hr : ∀ v ∈ r, v.length = A.vsize := fun v h => hv v (List.mem_append_right l h)
    exact (bitRows_spec (bitRows_length (Or.inl rfl) hl) hr).1
  · intro l r e k hk
    have hall : ∀ x ∈ l ++ r, Entries actionNone x.1 x.2 := by
      intro x hx
      rw [← e] at hx
      rcases List.mem_append.mp hx with hx | hx
      · exact rowsOf_entries ha x hx
      · exact rowsOf_entries hg x hx
    rw [htab, ← insertAll_append, e, insertAll_append]
    exact insertAll_keeps actionNone (fun x hx => hall x (List.mem_append_right l hx)) hk

theorem explicit_word {q : State} (hq : q ∈ A.states) {sym : Nat} {a : Action}
    (h : (sym, a) ∈ A.explicits q) : a.Word := by
  obtain ⟨t, ht, -, -, rfl⟩ | ⟨r, hr, -, rfl⟩ := Automaton.explicits_cases hq h
  · exact lt_trans (A.state_lt q hq t ht) A.nstate_lt
  · exact lt_trans (A.pro_lt q hq r hr) A.npro_lt

theorem sameParser_of_fits (hf : FastFits A) (h : genobjFast A = some T) : SameParser A T where
  valid i q hq sym hs := by
    have hmem := List.mem_of_getElem? hq
    rw [validBit_eq h hq (A.token_lt_first hf.1 hs)]
    congr 1
    cases he : A.explicit q sym with
    | some a =>
      refine decide_eq_true (List.mem_map.mpr ⟨(sym, a), ?_, A.symToken_term hs⟩)
      exact (Automaton.explicit_eq_some hmem).mp he
    | none =>
      refine decide_eq_false fun hm => ?_
      obtain ⟨⟨s, a⟩, hsa, htok⟩ := List.mem_map.mp hm
      have hsn := Automaton.explicits_term hmem hsa
      rw [A.symToken_term hsn] at htok
      have hsame := (hf.2 q hmem).1 s hsn sym hs htok
      rw [(Automaton.explicit_eq_some hmem).mpr hsa, he] at hsame
      exact absurd hsame (by simp)
  action i q hq sym hs a ha := by
    have hmem := List.mem_of_getElem? hq
    have hsa := (Automaton.explicit_eq_some hmem).mp ha
    obtain ⟨s, b, hsb, htok, hraw⟩ := rawAction_eq h hq hsa
    have hsame := (hf.2 q hmem).1 s (Automaton.explicits_term hmem hsb) sym hs htok
    rw [(Automaton.explicit_eq_some hmem).mpr hsb, ha] at hsame
    obtain rfl := Option.some.inj hsame
    rw [hraw, Option.map_some, (decode_encode (explicit_word hmem hsb)).mpr ((hf.2 q hmem).2 _ hsb)]
  goto i q hq sym target hg := gotoEntry_eq h hq hg

theorem fits_of_sameParser (h : genobjFast A = some T) (hp : SameParser A T) : FastFits A := by
  have htok : ∀ sym < A.nterm, A.token sym < 2 ^ 16 - 1 := by
    intro sym hs
    by_contra hlt
    have hlt' := A.token_lt sym
    have hz := A.first_zero hs (by omega)
    obtain ⟨vectors, actions, gotos, hrows, hbase, hcheck, -⟩ := genobjFast_cases h
    have hnil : T.bitcheck = [] := by
      rw [hcheck]
      refine bitRows_nil fun v hv => List.length_eq_zero_iff.mp ?_
      rw [hrows.lengths.1 v hv, Automaton.vsize, hz]
    obtain ⟨q, rest, hst⟩ := List.exists_cons_of_ne_nil A.states_ne
    have hread := hp.valid 0 q (by rw [hst]; rfl) sym hs
    obtain ⟨b, -, hread⟩ := Option.bind_eq_some_iff.mp hread
    rw [bitAt, hnil, List.getElem?_nil] at hread
    exact absurd hread (by simp)
  refine ⟨htok, fun q hmem => ?_⟩
  obtain ⟨i, hi, rfl⟩ := List.mem_iff_getElem.mp hmem
  have hq : A.states[i]? = some A.states[i] := List.getElem?_eq_getElem hi
  have hsame : ∀ s < A.nterm, ∀ t < A.nterm, A.token s = A.token t →
      A.explicit A.states[i] s = A.explicit A.states[i] t := by
    intro s hs t ht e
    have hvs := hp.valid i _ hq s hs
    have hvt := hp.valid i _ hq t ht
    rw [e, hvt] at hvs
    have hsome := Option.some.inj hvs
    cases hes : A.explicit A.states[i] s with
    | none =>
      rw [hes] at hsome
      exact (Option.isNone_iff_eq_none.mp (by rw [← Option.not_isSome, hsome]; rfl)).symm
    | some a =>
      rw [hes] at hsome
      obtain ⟨b, hb⟩ := Option.isSome_iff_exists.mp hsome
      have ha := hp.action i _ hq s hs a hes
      rw [e, hp.action i _ hq t ht b hb] at ha
      rw [hb, ha]
  refine ⟨hsame, fun e he => ?_⟩
  have hs := Automaton.explicits_term (a := e.2) hmem he
  have hexp := (Automaton.explicit_eq_some (a := e.2) hmem).mpr he
  obtain ⟨s, b, hsb, htok, hraw⟩ := rawAction_eq (a := e.2) h hq he
  have hb := hsame s (Automaton.explicits_term hmem hsb) e.1 hs htok
  rw [(Automaton.explicit_eq_some hmem).mpr hsb, hexp] at hb
  have hdec := hp.action i _ hq e.1 hs e.2 hexp
  rw [hraw, Option.map_some, Option.some.inj hb] at hdec
  exact (decode_encode (explicit_word (a := e.2) hmem he)).mp (Option.some.inj hdec)

end

/-- state `i` shifts terminal 0 and goes to state `i + 1`, state `n` reduces -/
def chainState (n i : Nat) : State where
  trans := if i < n then [⟨0, i + 1, false⟩] else []
  redun := if i < n then [] else [⟨0, [1]⟩]
  defaultReduction := if i < n then none else some 0
  dontOptimize := false

section
variable {n i : Nat}

theorem chainState_trans {s : ShiftAction} (h : s ∈ (chainState n i).trans) :
    i < n ∧ s = ⟨0, i + 1, false⟩ := by
  rw [chainState] at h
  split_ifs at h with hi
  · exact ⟨hi, List.mem_singleton.mp h⟩
  · exact absurd h List.not_mem_nil

theorem chainState_redun {r : ReduceAction} (h : r ∈ (chainState n i).redun) : r = ⟨0, [1]⟩ := by
  rw [chainState] at h
  split_ifs at h
  · exact absurd h List.not_mem_nil
  · exact List.mem_singleton.mp h

def chain (n : Nat) (hn : n + 1 < 2 ^ 16) : Automaton where
  nterm := 2
  nsym := 3
  token sym := if sym = 0 then 127 else 0
  protab := [⟨2, false⟩]
  states := (List.range (n + 1)).map (chainState n)
  terms_le := by omega
  nsym_lt := by omega
  token_lt sym := by split_ifs <;> omega
  npro_lt := by simp
  nstate_lt := by rwa [List.length_map, List.length_range]
  states_ne := by simp
  sym_lt q hq s hs := by
    obtain ⟨i, -, rfl⟩ := List.mem_map.mp hq
    rw [(chainState_trans hs).2]
    exact Nat.zero_lt_succ 2
  state_lt q hq s hs := by
    obtain ⟨i, -, rfl⟩ := List.mem_map.mp hq
    obtain ⟨hi, rfl⟩ := chainState_trans hs
    rw [List.length_map, List.length_range]
    exact Nat.succ_lt_succ hi
  state_ne q hq s hs := by
    obtain ⟨i, -, rfl⟩ := List.mem_map.mp hq
    rw [(chainState_trans hs).2]
    exact Nat.succ_ne_zero i
  pro_lt q hq r hr := by
    obtain ⟨i, -, rfl⟩ := List.mem_map.mp hq
    rw [chainState_redun hr]
    exact Nat.zero_lt_one
  follow_lt q hq r hr sym hs := by
    obtain ⟨i, -, rfl⟩ := List.mem_map.mp hq
    rw [chainState_redun hr] at hs
    rw [List.mem_singleton.mp hs]
    omega
  shift_unique q hq := by
    obtain ⟨i, -, rfl⟩ := List.mem_map.mp hq
    rw [chainState]
    split_ifs
    · exact List.pairwise_singleton _ _
    · exact List.Pairwise.nil
  reduce_unique q hq := by
    obtain ⟨i, -, rfl⟩ := List.mem_map.mp hq
    rw [chainState]
    split_ifs
    · exact List.Pairwise.nil
    · exact List.pairwise_singleton _ _
  resolved q hq s hs r hr := by
    obtain ⟨i, -, rfl⟩ := List.mem_map.mp hq
    rw [(chainState_trans hs).2, chainState_redun hr]
    simp

variable {hn : n + 1 < 2 ^ 16}

theorem chain_mem (h : i ≤ n) : chainState n i ∈ (chain n hn).states :=
  List.mem_map.mpr ⟨i, List.mem_range.mpr (Nat.lt_succ_of_le h), rfl⟩

theorem chain_shift (h : i < n) :
    (0, Action.shift (i + 1)) ∈ (chain n hn).explicits (chainState n i) := by
  have ht : (⟨0, i + 1, false⟩ : ShiftAction) ∈ (chainState n i).trans := by
    rw [chainState, if_pos h]
    exact List.mem_singleton.mpr rfl
  exact List.mem_append_left _ (List.mem_map.mpr ⟨_, List.mem_filter.mpr ⟨ht, by simp [chain]⟩, rfl⟩)

theorem chain_fits (h : FastFits (chain n hn)) : n < 0x8000 := by
  by_contra hge
  have hlt : 0x7FFF < n := by omega
  exact absurd ((h.2 _ (chain_mem hlt.le)).2 _ (chain_shift hlt)) (lt_irrefl 0x8000)

end

end Yacc
